import OldLinux.Lib.Counting
import OldLinux.Memory.Paging
import Mathlib.Tactic.Ring

/-!
# The ledger: what every frame is counted for

A frame of main memory can be named in three ways: by a present page table entry of a process slot,
by a page directory entry that uses it as a page table, and by kernel code that got it from
`get_free_page` and has not handed it on.  `Ledger M s held` says that `mem_map` counts exactly
these, with `held` the frames in the kernel's hands, together with the facts that keep the count a
byte: a page table has one directory entry, a held frame is held once, and the entries that map a
frame sit at no more than two offsets of their slots: the frame's own address, where a copy of the
kernel's tables puts it, and the one address it was put at.

The operations of `mm/memory.cc` are made of a few elementary changes, a store into a page table or
into the directory together with a change of a count; each is proved to keep the ledger once, here.
-/

namespace OldLinux.Memory

open Lib

/-- The frames `mem_init` gives to processes: `[start_mem, end_mem)` in frame numbers. -/
structure MainMemory where
  lo : ℕ
  hi : ℕ
  lowMem_le : 256 ≤ lo
  hi_le : hi ≤ 4096

def MainMemory.Has (M : MainMemory) (f : ℕ) : Prop := M.lo ≤ f ∧ f < M.hi

instance (M : MainMemory) (f : ℕ) : Decidable (M.Has f) := inferInstanceAs (Decidable (_ ∧ _))

theorem MainMemory.Has.lowMem_le {M : MainMemory} {f : ℕ} (h : M.Has f) : 256 ≤ f :=
  le_trans M.lowMem_le h.1

theorem MainMemory.Has.lt {M : MainMemory} {f : ℕ} (h : M.Has f) : f < 4096 :=
  lt_of_lt_of_le h.2 M.hi_le

/-- What `mem_init` counts a frame for before anybody uses it. -/
def MainMemory.base (M : MainMemory) (f : ℕ) : ℕ := if M.Has f then 0 else 100

/-! ### Places and references -/

/-- The page table entries of the slots 1..63, as (directory index, table index). -/
@[irreducible]
def places : Finset (ℕ × ℕ) := Finset.Ico 16 1024 ×ˢ Finset.range 1024

theorem mem_places {p : ℕ × ℕ} : p ∈ places ↔ (16 ≤ p.1 ∧ p.1 < 1024) ∧ p.2 < 1024 := by
  unfold places
  simp only [Finset.mem_product, Finset.mem_Ico, Finset.mem_range]

/-- The directory entries of the slots 1..63. -/
@[irreducible]
def directory : Finset ℕ := Finset.Ico 16 1024

theorem mem_directory {d : ℕ} : d ∈ directory ↔ 16 ≤ d ∧ d < 1024 := by
  rw [directory, Finset.mem_Ico]

theorem directory_of_places {p : ℕ × ℕ} (hp : p ∈ places) : p.1 ∈ directory :=
  mem_directory.2 (mem_places.1 hp).1

/-- The page number of a place inside its 64 MB slot. -/
def offset (p : ℕ × ℕ) : ℕ := p.1 % 16 * 1024 + p.2

/-- The frame of the page table directory entry `d` points to. -/
def Mm.table (s : Mm) (d : ℕ) : ℕ := frameOf (s.mem 0 d)

def Mm.entry (s : Mm) (p : ℕ × ℕ) : Word := s.mem (s.table p.1) p.2

/-- The place `p` is a present entry for frame `f`. -/
def Mm.Maps (s : Mm) (f : ℕ) (p : ℕ × ℕ) : Prop :=
  present (s.mem 0 p.1) ∧ present (s.entry p) ∧ frameOf (s.entry p) = f

instance (s : Mm) (f : ℕ) : DecidablePred (s.Maps f) :=
  fun _ => inferInstanceAs (Decidable (_ ∧ _))

/-- The directory entry `d` uses frame `f` as a page table. -/
def Mm.Points (s : Mm) (f d : ℕ) : Prop := present (s.mem 0 d) ∧ s.table d = f

instance (s : Mm) (f : ℕ) : DecidablePred (s.Points f) :=
  fun _ => inferInstanceAs (Decidable (_ ∧ _))

def Mm.entryRefs (s : Mm) (f : ℕ) : ℕ := countIn places (s.Maps f)

def Mm.tableRefs (s : Mm) (f : ℕ) : ℕ := countIn directory (s.Points f)

/-- The number a frame's `mem_map` byte holds. -/
def Mm.count (s : Mm) (f : ℕ) : ℕ := (s.memMap (f - 256)).toNat

@[simp]
theorem store_count (s : Mm) (t i : ℕ) (e : Word) (f : ℕ) : (s.store t i e).count f = s.count f := rfl

@[simp]
theorem storePage_count (s : Mm) (t : ℕ) (page : ℕ → Word) (f : ℕ) :
    (s.storePage t page).count f = s.count f := rfl

section SameMemory

variable {s s' : Mm}

theorem table_of_mem (h : s'.mem = s.mem) (d : ℕ) : s'.table d = s.table d := by
  unfold Mm.table
  rw [h]

theorem entry_of_mem (h : s'.mem = s.mem) (p : ℕ × ℕ) : s'.entry p = s.entry p := by
  unfold Mm.entry
  rw [table_of_mem h, h]

theorem maps_of_mem (h : s'.mem = s.mem) (f : ℕ) (p : ℕ × ℕ) : s'.Maps f p ↔ s.Maps f p := by
  unfold Mm.Maps
  rw [entry_of_mem h, h]

end SameMemory

structure Ledger (M : MainMemory) (s : Mm) (held : Multiset ℕ) : Prop where
  high : s.highMemory = M.hi * 4096
  kernelDir : ∀ d < 16, present (s.mem 0 d) ↔ d < 4
  kernelTable : ∀ d < 4, s.table d = d + 1
  kernelEntry : ∀ d < 4, ∀ j < 1024, present (s.mem (d + 1) j) ∧ frameOf (s.mem (d + 1) j) = d * 1024 + j
  tableIn : ∀ d ∈ directory, present (s.mem 0 d) → M.Has (s.table d)
  exact : ∀ f, 256 ≤ f → f < 4096 → s.count f = M.base f + s.entryRefs f + s.tableRefs f + held.count f
  single : ∀ f, s.tableRefs f + held.count f ≤ 1
  heldIn : ∀ f ∈ held, M.Has f
  spread : ∀ f, ∃ o, ∀ p ∈ places, s.Maps f p → offset p = f ∨ (offset p = o ∧ f ∉ held ∧ M.Has f)
  mapsLt : ∀ f, ∀ p ∈ places, s.Maps f p → f < 4096

/-! ### The count is small -/

/-- A place is determined by its slot and its offset. -/
theorem place_inj {p q : ℕ × ℕ} (hp : p ∈ places) (hq : q ∈ places)
    (hslot : p.1 / 16 = q.1 / 16) (hoff : offset p = offset q) : p = q := by
  rw [mem_places] at hp hq
  unfold offset at hoff
  refine Prod.ext ?_ ?_ <;> omega

/-- Places that share a set of offsets are at most one in each slot for each offset. -/
theorem countIn_places_le (P : ℕ × ℕ → Prop) [DecidablePred P] (O : Finset ℕ)
    (h : ∀ p ∈ places, P p → offset p ∈ O) : countIn places P ≤ 63 * O.card := by
  have hcard : ((Finset.Ico 1 64) ×ˢ O).card = 63 * O.card := by
    rw [Finset.card_product]
    rfl
  rw [← hcard]
  refine Finset.card_le_card_of_injOn (fun p => (p.1 / 16, offset p)) ?_ ?_
  · intro p hp
    have hp' := Finset.mem_filter.1 (Finset.mem_coe.1 hp)
    have hb := mem_places.1 hp'.1
    refine Finset.mem_coe.2 (Finset.mem_product.2 ⟨?_, h p hp'.1 hp'.2⟩)
    rw [Finset.mem_Ico]
    show 1 ≤ p.1 / 16 ∧ p.1 / 16 < 64
    exact ⟨by omega, by omega⟩
  · intro p hp q hq hpq
    have hp' := Finset.mem_filter.1 (Finset.mem_coe.1 hp)
    have hq' := Finset.mem_filter.1 (Finset.mem_coe.1 hq)
    exact place_inj hp'.1 hq'.1 (congrArg Prod.fst hpq) (congrArg Prod.snd hpq)

section Bounds

variable {M : MainMemory} {s : Mm} {held : Multiset ℕ}

theorem Ledger.entryRefs_le (L : Ledger M s held) (f : ℕ) : s.entryRefs f ≤ if M.Has f then 126 else 63 := by
  obtain ⟨o, ho⟩ := L.spread f
  split
  · have h := countIn_places_le (s.Maps f) {f, o} (by
      intro p hp hm
      rcases ho p hp hm with h | h
      · simp [h]
      · simp [h.1])
    have hc : ({f, o} : Finset ℕ).card ≤ 2 := Finset.card_le_two
    unfold Mm.entryRefs
    omega
  · rename_i hf
    have h := countIn_places_le (s.Maps f) {f} (by
      intro p hp hm
      rcases ho p hp hm with h | h
      · simp [h]
      · exact absurd h.2.2 hf)
    unfold Mm.entryRefs
    simpa using h

theorem Ledger.tableRefs_eq_zero (L : Ledger M s held) {f : ℕ} (hf : ¬M.Has f) : s.tableRefs f = 0 := by
  refine countIn_eq_zero.2 ?_
  intro d hd hp
  exact hf (hp.2 ▸ L.tableIn d hd hp.1)

/-- **The count is far from the top of a byte**, so an increment never wraps. -/
theorem Ledger.count_lt (L : Ledger M s held) {f : ℕ} (h1 : 256 ≤ f) (h2 : f < 4096) : s.count f < 200 := by
  have he := L.exact f h1 h2
  have hr := L.entryRefs_le f
  have hs := L.single f
  unfold MainMemory.base at he
  by_cases hf : M.Has f
  · rw [if_pos hf] at he hr
    omega
  · rw [if_neg hf] at he hr
    omega

theorem Ledger.table_inj (L : Ledger M s held) {d d' : ℕ} (hd : d ∈ directory)
    (hd' : d' ∈ directory) (hp : present (s.mem 0 d)) (hp' : present (s.mem 0 d'))
    (h : s.table d = s.table d') : d = d' := by
  have hs := L.single (s.table d)
  exact eq_of_countIn_le_one (S := directory) (P := s.Points (s.table d))
    (by unfold Mm.tableRefs at hs; omega) hd hd' ⟨hp, rfl⟩ ⟨hp', h.symm⟩

/-- A frame that no count keeps is named nowhere. -/
theorem Ledger.refs_of_count_zero (L : Ledger M s held) {f : ℕ} (h1 : 256 ≤ f) (h2 : f < 4096)
    (hc : s.count f = 0) :
    M.Has f ∧ s.entryRefs f = 0 ∧ s.tableRefs f = 0 ∧ held.count f = 0 := by
  have he := L.exact f h1 h2
  unfold MainMemory.base at he
  split at he
  · rename_i hf
    exact ⟨hf, by omega, by omega, by omega⟩
  · omega

/-- Holding a frame keeps it out of the directory. -/
theorem Ledger.tableRefs_of_held (L : Ledger M s held) {f : ℕ} (hf : f ∈ held) :
    s.tableRefs f = 0 ∧ held.count f = 1 := by
  have hs := L.single f
  have hc := Multiset.count_pos.2 hf
  exact ⟨by omega, by omega⟩

theorem Ledger.count_pos_of_maps (L : Ledger M s held) {f : ℕ} {p : ℕ × ℕ} (hp : p ∈ places)
    (hm : s.Maps f p) (hf : 256 ≤ f) : 0 < s.count f := by
  have he := L.exact f hf (L.mapsLt f p hp hm)
  have hr : 0 < s.entryRefs f := countIn_pos hp hm
  omega

theorem not_points {f d : ℕ} (hf : s.tableRefs f = 0)
    (hd : d ∈ directory) (hp : present (s.mem 0 d)) : s.table d ≠ f := by
  intro h
  exact countIn_eq_zero.1 hf d hd ⟨hp, h⟩

/-- Page tables of processes lie above the directory and the kernel's tables. -/
theorem Ledger.table_ge (L : Ledger M s held) {d : ℕ} (hd : d ∈ directory)
    (hp : present (s.mem 0 d)) : 256 ≤ s.table d :=
  (L.tableIn d hd hp).lowMem_le

end Bounds

end OldLinux.Memory
