import OldLinux.Memory.Books

/-!
# The page tables as one map

What a process sees of its page tables is the map `Mm.pte` from places to entries: 0 where there is
no page table.  The elementary changes of `Books` are described here by what they do to that map:
a store into a page table changes it at one place, and linking or unlinking an empty table, filling
a frame that is no page table, and a change of the counts leave it as it is.
-/

namespace OldLinux.Memory

open Lib

variable {shield : Prop} {M : MainMemory} {s s' : Mm} {held : Multiset ℕ}

/-- The page table entry at a place. -/
def Mm.pte (s : Mm) (p : ℕ × ℕ) : Word := if present (s.mem 0 p.1) then s.entry p else 0

theorem pte_of_present {p : ℕ × ℕ} (h : present (s.mem 0 p.1)) : s.pte p = s.entry p := if_pos h

theorem pte_of_absent {p : ℕ × ℕ} (h : ¬present (s.mem 0 p.1)) : s.pte p = 0 := if_neg h

theorem pte_of_mem (h : s'.mem = s.mem) (p : ℕ × ℕ) : s'.pte p = s.pte p := by
  rw [Mm.pte, Mm.pte, entry_of_mem h, h]

theorem dir_of_pte {p : ℕ × ℕ} (h : present (s.pte p)) : present (s.mem 0 p.1) := by
  by_contra hd
  rw [pte_of_absent hd] at h
  exact present_zero h

theorem maps_iff_pte {f : ℕ} {p : ℕ × ℕ} : s.Maps f p ↔ present (s.pte p) ∧ frameOf (s.pte p) = f := by
  constructor
  · intro h
    rw [pte_of_present h.1]
    exact h.2
  · intro h
    have hd := dir_of_pte h.1
    rw [pte_of_present hd] at h
    exact ⟨hd, h⟩

/-- A store into a page table changes one entry. -/
theorem Ledger.pte_store (L : Ledger M s held) {p q : ℕ × ℕ} (hp : p ∈ places) (hq : q ∈ places)
    (hd : present (s.mem 0 p.1)) (e : Word) :
    (s.store (s.table p.1) p.2 e).pte q = if q = p then e else s.pte q := by
  have hdir := L.store_dir hp hd e
  by_cases hdq : present (s.mem 0 q.1)
  · rw [pte_of_present (by rw [hdir]; exact hdq), L.store_entry hp hq hd hdq, pte_of_present hdq]
  · have hqp : q ≠ p := by
      intro h
      rw [h] at hdq
      exact hdq hd
    rw [pte_of_absent (by rw [hdir]; exact hdq), if_neg hqp, pte_of_absent hdq]

/-- Exchanging a zeroed page table, or none, for a zeroed page table, or none, changes no entry. -/
theorem Ledger.pte_store_zero (L : Ledger M s held) {d : ℕ} {w : Word}
    (hold : present (s.mem 0 d) → ∀ j < 1024, s.mem (s.table d) j = 0)
    (hnew : present w → M.Has (frameOf w) ∧ ∀ j < 1024, s.mem (frameOf w) j = 0)
    {q : ℕ × ℕ} (hq : q ∈ places) : (s.store 0 d w).pte q = s.pte q := by
  have hj := (mem_places.1 hq).2
  by_cases hqd : q.1 = d
  · have hbefore : s.pte q = 0 := by
      by_cases hp : present (s.mem 0 q.1)
      · rw [pte_of_present hp, Mm.entry, hqd]
        exact hold (hqd ▸ hp) _ hj
      · exact pte_of_absent hp
    rw [hbefore]
    by_cases hw : present w
    · have hge := (hnew hw).1.lowMem_le
      rw [pte_of_present (by rw [store_zero_dir, if_pos hqd]; exact hw), Mm.entry,
        store_zero_table, if_pos hqd, store_mem_of_ne s (by omega)]
      exact (hnew hw).2 _ hj
    · exact pte_of_absent (by rw [store_zero_dir, if_pos hqd]; exact hw)
  · by_cases hp : present (s.mem 0 q.1)
    · have hge := L.table_ge (directory_of_places hq) hp
      rw [pte_of_present (by rw [store_zero_dir, if_neg hqd]; exact hp), pte_of_present hp,
        Mm.entry, store_zero_table, if_neg hqd, store_mem_of_ne s (by omega), Mm.entry]
    · rw [pte_of_absent hp]
      exact pte_of_absent (by rw [store_zero_dir, if_neg hqd]; exact hp)

/-- The entries depend on the directory and on the page tables it points to only. -/
theorem pte_congr {q : ℕ × ℕ} (hdir : s'.mem 0 = s.mem 0)
    (htab : present (s.mem 0 q.1) → s'.mem (s.table q.1) q.2 = s.mem (s.table q.1) q.2) :
    s'.pte q = s.pte q := by
  have ht : s'.table q.1 = s.table q.1 := congrArg frameOf (congrFun hdir q.1)
  rw [Mm.pte, Mm.pte, hdir]
  split
  · rename_i hd
    rw [Mm.entry, ht, htab hd, Mm.entry]
  · rfl

/-- Filling a frame that is no page table changes no entry. -/
theorem pte_storePage {f : ℕ} (hf : 5 ≤ f) (h0 : s.tableRefs f = 0) (page : ℕ → Word) {q : ℕ × ℕ}
    (hq : q ∈ places) : (s.storePage f page).pte q = s.pte q := by
  refine pte_congr (storePage_mem_of_ne s (by omega) page) ?_
  intro hd
  rw [storePage_mem_of_ne s (not_points h0 (directory_of_places hq) hd)]

/-! ### Frames that pages live in -/

/-- A frame of main memory that a process maps is no page table. -/
theorem Books.tableRefs_of_maps (B : Books shield M s held) (hs : shield) {p : ℕ × ℕ}
    (hp : p ∈ places) {f : ℕ} (hm : s.Maps f p) : s.tableRefs f = 0 ∧ f ∉ held := by
  constructor
  · by_contra h
    exact B.unmapped hs f (Or.inr h) p hp hm
  · intro h
    exact B.unmapped hs f (Or.inl h) p hp hm

theorem Books.ne_table_of_maps (B : Books shield M s held) (hs : shield) {p : ℕ × ℕ}
    (hp : p ∈ places) {f : ℕ} (hm : s.Maps f p) {d : ℕ} (hd : d ∈ directory)
    (hdp : present (s.mem 0 d)) : f ≠ s.table d :=
  Ne.symm (not_points (B.tableRefs_of_maps hs hp hm).1 hd hdp)

/-- The pages processes see keep their contents. -/
def Untouched (s s' : Mm) : Prop :=
  ∀ p ∈ places, ∀ f, s.Maps f p → 256 ≤ f → s'.mem f = s.mem f

theorem Untouched.refl (s : Mm) : Untouched s s := fun _ _ _ _ _ => rfl

end OldLinux.Memory
