import OldLinux.Memory.Ledger

/-!
# The elementary changes keep the ledger

Two master lemmas, one for a store into a page table (`Ledger.storeEntry`) and one for a store into
the page directory (`Ledger.storeDir`), each with an arbitrary change of the counts that balances
it.  Taking a frame from the free pool, giving one back, linking and unlinking a page table, and
mapping, dropping, sharing and re-flagging an entry are their instances.
-/

namespace OldLinux.Memory

open Lib

variable {M : MainMemory} {s : Mm} {held held' : Multiset ℕ}

/-- The 0 or 1 a proposition counts for. -/
def one (p : Prop) [Decidable p] : ℕ := if p then 1 else 0

theorem one_of {p : Prop} [Decidable p] (h : p) : one p = 1 := if_pos h

theorem one_of_not {p : Prop} [Decidable p] (h : ¬p) : one p = 0 := if_neg h

theorem one_zero (f : ℕ) : one (present (0 : Word) ∧ frameOf (0 : Word) = f) = 0 :=
  one_of_not (fun h => present_zero h.1)

/-! ### A store into a page table -/

theorem Ledger.store_dir (L : Ledger M s held) {p : ℕ × ℕ} (hp : p ∈ places)
    (hd : present (s.mem 0 p.1)) (e : Word) :
    (s.store (s.table p.1) p.2 e).mem 0 = s.mem 0 := by
  have := L.table_ge (directory_of_places hp) hd
  exact store_mem_of_ne s (by omega) _ _

theorem Ledger.store_table (L : Ledger M s held) {p : ℕ × ℕ} (hp : p ∈ places)
    (hd : present (s.mem 0 p.1)) (e : Word) (d : ℕ) :
    (s.store (s.table p.1) p.2 e).table d = s.table d :=
  congrArg frameOf (congrFun (L.store_dir hp hd e) d)

/-- The entry that is stored into, and no other entry, changes. -/
theorem Ledger.store_entry (L : Ledger M s held) {p q : ℕ × ℕ} (hp : p ∈ places) (hq : q ∈ places)
    (hd : present (s.mem 0 p.1)) (hdq : present (s.mem 0 q.1)) (e : Word) :
    (s.store (s.table p.1) p.2 e).entry q = if q = p then e else s.entry q := by
  unfold Mm.entry
  rw [L.store_table hp hd, store_mem]
  by_cases hqp : q = p
  · subst hqp
    simp
  · rw [if_neg, if_neg hqp]
    rintro ⟨ht, hi⟩
    refine hqp (Prod.ext ?_ hi)
    exact L.table_inj (directory_of_places hq) (directory_of_places hp) hdq hd ht

theorem Ledger.maps_store (L : Ledger M s held) {p q : ℕ × ℕ} (hp : p ∈ places) (hq : q ∈ places)
    (hd : present (s.mem 0 p.1)) (e : Word) (f : ℕ) :
    (s.store (s.table p.1) p.2 e).Maps f q ↔ if q = p then present e ∧ frameOf e = f else s.Maps f q := by
  unfold Mm.Maps
  rw [L.store_dir hp hd]
  by_cases hdq : present (s.mem 0 q.1)
  · rw [L.store_entry hp hq hd hdq]
    by_cases hqp : q = p
    · subst hqp
      simp [hd]
    · simp [hqp]
  · have hqp : q ≠ p := by
      rintro rfl
      exact hdq hd
    simp [hdq, hqp]

theorem Ledger.entryRefs_store (L : Ledger M s held) {p : ℕ × ℕ} (hp : p ∈ places)
    (hd : present (s.mem 0 p.1)) (e : Word) (f : ℕ) :
    (s.store (s.table p.1) p.2 e).entryRefs f + one (s.Maps f p) =
      s.entryRefs f + one (present e ∧ frameOf e = f) := by
  have h := countIn_exchange (P := s.Maps f) (Q := (s.store (s.table p.1) p.2 e).Maps f) hp (by
    intro q hq hqp
    rw [L.maps_store hp hq hd, if_neg hqp])
  unfold Mm.entryRefs
  simp only [L.maps_store hp hp hd, if_true] at h
  exact h

theorem Ledger.tableRefs_store (L : Ledger M s held) {p : ℕ × ℕ} (hp : p ∈ places)
    (hd : present (s.mem 0 p.1)) (e : Word) (f : ℕ) :
    (s.store (s.table p.1) p.2 e).tableRefs f = s.tableRefs f := by
  refine countIn_congr ?_
  intro d _
  unfold Mm.Points
  rw [L.store_dir hp hd, L.store_table hp hd]

/-- **A store into a page table** keeps the ledger when the counts `m` balance it: the entry's old
frame is counted once less, its new one once more, and what leaves `held` is what is mapped. -/
theorem Ledger.storeEntry (L : Ledger M s held) {p : ℕ × ℕ} (hp : p ∈ places)
    (hd : present (s.mem 0 p.1)) (e : Word) {s' : Mm}
    (hmem : s'.mem = (s.store (s.table p.1) p.2 e).mem) (hhigh : s'.highMemory = s.highMemory)
    (hcount : ∀ f, 256 ≤ f → f < 4096 → s'.count f + one (s.Maps f p) + held.count f =
        s.count f + one (present e ∧ frameOf e = f) + held'.count f)
    (hheld : held' ≤ held)
    (hspread : present e → frameOf e < 4096 ∧ (offset p = frameOf e ∨
      (M.Has (frameOf e) ∧ frameOf e ∉ held' ∧ ∀ q ∈ places, q ≠ p → s.Maps (frameOf e) q →
        offset q = frameOf e ∨ offset q = offset p))) : Ledger M s' held' := by
  obtain ⟨m, _, _⟩ := s'
  cases hmem
  cases hhigh
  have hge := L.table_ge (directory_of_places hp) hd
  have hmaps : ∀ f, ∀ q ∈ places, (s.store (s.table p.1) p.2 e).Maps f q ↔
      if q = p then present e ∧ frameOf e = f else s.Maps f q :=
    fun f q hq => L.maps_store hp hq hd e f
  have hdir : ∀ d, (s.store (s.table p.1) p.2 e).mem 0 d = s.mem 0 d :=
    fun d => congrFun (L.store_dir hp hd e) d
  have hsub : ∀ f, f ∈ held' → f ∈ held := fun f hf => Multiset.mem_of_le hheld hf
  refine ⟨L.high, ?_, ?_, ?_, ?_, ?_, ?_, fun f hf => L.heldIn f (hsub f hf), ?_, ?_⟩
  · intro d hd16
    show present ((s.store (s.table p.1) p.2 e).mem 0 d) ↔ _
    rw [hdir]
    exact L.kernelDir d hd16
  · intro d hd4
    exact (L.store_table hp hd e d).trans (L.kernelTable d hd4)
  · intro d hd4 j hj
    show present ((s.store (s.table p.1) p.2 e).mem (d + 1) j) ∧
      frameOf ((s.store (s.table p.1) p.2 e).mem (d + 1) j) = _
    rw [store_mem_of_ne s (by omega)]
    exact L.kernelEntry d hd4 j hj
  · intro d hdd hpd
    have hpd' : present (s.mem 0 d) := by
      rw [← hdir d]
      exact hpd
    have h := L.tableIn d hdd hpd'
    rw [← L.store_table hp hd e d] at h
    exact h
  · intro f h1 h2
    have hc := hcount f h1 h2
    have he := L.exact f h1 h2
    have hr := L.entryRefs_store hp hd e f
    have ht := L.tableRefs_store hp hd e f
    show _ = M.base f + (s.store (s.table p.1) p.2 e).entryRefs f +
      (s.store (s.table p.1) p.2 e).tableRefs f + held'.count f
    omega
  · intro f
    have hs := L.single f
    have ht := L.tableRefs_store hp hd e f
    have hc := Multiset.count_le_of_le f hheld
    show (s.store (s.table p.1) p.2 e).tableRefs f + held'.count f ≤ 1
    omega
  · intro f
    by_cases hf : present e ∧ frameOf e = f
    · obtain ⟨hpe, rfl⟩ := hf
      obtain ⟨o, ho⟩ := L.spread (frameOf e)
      rcases (hspread hpe).2 with hoff | ⟨hin, hnot, hother⟩
      · refine ⟨o, ?_⟩
        intro q hq hm
        have hm' := (hmaps _ q hq).1 hm
        by_cases hqp : q = p
        · exact Or.inl (hqp ▸ hoff)
        · rw [if_neg hqp] at hm'
          rcases ho q hq hm' with h | ⟨h1, h2, h3⟩
          · exact Or.inl h
          · exact Or.inr ⟨h1, fun h => h2 (hsub _ h), h3⟩
      · refine ⟨offset p, ?_⟩
        intro q hq hm
        have hm' := (hmaps _ q hq).1 hm
        by_cases hqp : q = p
        · exact Or.inr ⟨hqp ▸ rfl, hnot, hin⟩
        · rw [if_neg hqp] at hm'
          rcases hother q hq hqp hm' with h | h
          · exact Or.inl h
          · exact Or.inr ⟨h, hnot, hin⟩
    · obtain ⟨o, ho⟩ := L.spread f
      refine ⟨o, ?_⟩
      intro q hq hm
      have hm' := (hmaps _ q hq).1 hm
      by_cases hqp : q = p
      · rw [if_pos hqp] at hm'
        exact absurd hm' hf
      · rw [if_neg hqp] at hm'
        rcases ho q hq hm' with h | ⟨h1, h2, h3⟩
        · exact Or.inl h
        · exact Or.inr ⟨h1, fun h => h2 (hsub _ h), h3⟩
  · intro f q hq hm
    have hm' := (hmaps _ q hq).1 hm
    by_cases hqp : q = p
    · rw [if_pos hqp] at hm'
      exact hm'.2 ▸ (hspread hm'.1).1
    · rw [if_neg hqp] at hm'
      exact L.mapsLt f q hq hm'

/-! ### A store into the page directory -/

theorem store_zero_dir (d : ℕ) (w : Word) (d' : ℕ) :
    (s.store 0 d w).mem 0 d' = if d' = d then w else s.mem 0 d' := by
  simp [store_mem]

theorem store_zero_table (d : ℕ) (w : Word) (d' : ℕ) :
    (s.store 0 d w).table d' = if d' = d then frameOf w else s.table d' := by
  unfold Mm.table
  rw [store_zero_dir]
  split <;> rfl

theorem store_zero_points (d : ℕ) (w : Word) (f d' : ℕ) : (s.store 0 d w).Points f d' ↔
      if d' = d then present w ∧ frameOf w = f else s.Points f d' := by
  unfold Mm.Points
  rw [store_zero_dir, store_zero_table]
  split <;> rfl

theorem tableRefs_store_zero {d : ℕ} (hd : d ∈ directory) (w : Word) (f : ℕ) :
    (s.store 0 d w).tableRefs f + one (s.Points f d) = s.tableRefs f + one (present w ∧ frameOf w = f) := by
  have h := countIn_exchange (P := s.Points f) (Q := (s.store 0 d w).Points f) hd (by
    intro d' _ hne
    rw [store_zero_points, if_neg hne])
  unfold Mm.tableRefs
  simp only [store_zero_points, if_true] at h
  exact h

/-- Replacing an empty page table by an empty page table, or by none, maps nothing new. -/
theorem Ledger.maps_store_zero (L : Ledger M s held) {d : ℕ} {w : Word}
    (hold : present (s.mem 0 d) → ∀ j < 1024, ¬present (s.mem (s.table d) j))
    (hnew : present w → M.Has (frameOf w) ∧ ∀ j < 1024, ¬present (s.mem (frameOf w) j))
    {q : ℕ × ℕ} (hq : q ∈ places) (f : ℕ) : (s.store 0 d w).Maps f q ↔ s.Maps f q := by
  have hj := (mem_places.1 hq).2
  unfold Mm.Maps Mm.entry
  rw [store_zero_dir, store_zero_table]
  by_cases hqd : q.1 = d
  · rw [if_pos hqd, if_pos hqd]
    constructor
    · rintro ⟨hw, he, -⟩
      have hge := (hnew hw).1.lowMem_le
      rw [store_mem_of_ne s (by omega)] at he
      exact absurd he ((hnew hw).2 _ hj)
    · rintro ⟨hp, he, -⟩
      rw [hqd] at hp he
      exact absurd he (hold hp _ hj)
  · rw [if_neg hqd, if_neg hqd]
    by_cases hp : present (s.mem 0 q.1)
    · have hge := L.table_ge (directory_of_places hq) hp
      rw [store_mem_of_ne s (by omega)]
    · simp [hp]

/-- **A store into the page directory** keeps the ledger when no entry of the old or the new page
table is present and the counts `m` balance it. -/
theorem Ledger.storeDir (L : Ledger M s held) {d : ℕ} (hd : d ∈ directory) (w : Word)
    {s' : Mm} (hmem : s'.mem = (s.store 0 d w).mem) (hhigh : s'.highMemory = s.highMemory)
    (hold : present (s.mem 0 d) → ∀ j < 1024, ¬present (s.mem (s.table d) j))
    (hnew : present w → M.Has (frameOf w) ∧ ∀ j < 1024, ¬present (s.mem (frameOf w) j))
    (hcount : ∀ f, 256 ≤ f → f < 4096 → s'.count f + one (s.Points f d) + held.count f =
        s.count f + one (present w ∧ frameOf w = f) + held'.count f)
    (hheld : held' ≤ held)
    (hsingle : ∀ f, one (present w ∧ frameOf w = f) + held'.count f ≤
      one (s.Points f d) + held.count f) : Ledger M s' held' := by
  obtain ⟨m, _, _⟩ := s'
  cases hmem
  cases hhigh
  have hd' := mem_directory.1 hd
  have hmaps : ∀ f, ∀ q ∈ places, (s.store 0 d w).Maps f q ↔ s.Maps f q :=
    fun f q hq => L.maps_store_zero hold hnew hq f
  have hrefs : ∀ f, (s.store 0 d w).entryRefs f = s.entryRefs f :=
    fun f => countIn_congr (hmaps f)
  have hsub : ∀ f, f ∈ held' → f ∈ held := fun f hf => Multiset.mem_of_le hheld hf
  refine ⟨L.high, ?_, ?_, ?_, ?_, ?_, ?_, fun f hf => L.heldIn f (hsub f hf), ?_, ?_⟩
  · intro k hk
    show present ((s.store 0 d w).mem 0 k) ↔ _
    rw [store_zero_dir, if_neg (by omega)]
    exact L.kernelDir k hk
  · intro k hk
    show (s.store 0 d w).table k = _
    rw [store_zero_table, if_neg (by omega)]
    exact L.kernelTable k hk
  · intro k hk j hj
    show present ((s.store 0 d w).mem (k + 1) j) ∧ frameOf ((s.store 0 d w).mem (k + 1) j) = _
    rw [store_mem_of_ne s (by omega)]
    exact L.kernelEntry k hk j hj
  · intro k hk hp
    have hp' : present ((s.store 0 d w).mem 0 k) := hp
    show M.Has ((s.store 0 d w).table k)
    rw [store_zero_dir] at hp'
    rw [store_zero_table]
    split at hp'
    · rename_i hkd
      rw [if_pos hkd]
      exact (hnew hp').1
    · rename_i hkd
      rw [if_neg hkd]
      exact L.tableIn k hk hp'
  · intro f h1 h2
    have hc := hcount f h1 h2
    have he := L.exact f h1 h2
    have hr := hrefs f
    have ht := tableRefs_store_zero (s := s) hd w f
    show _ = M.base f + (s.store 0 d w).entryRefs f + (s.store 0 d w).tableRefs f + held'.count f
    omega
  · intro f
    have hs := L.single f
    have ht := tableRefs_store_zero (s := s) hd w f
    have hl := hsingle f
    show (s.store 0 d w).tableRefs f + held'.count f ≤ 1
    omega
  · intro f
    obtain ⟨o, ho⟩ := L.spread f
    refine ⟨o, ?_⟩
    intro q hq hm
    rcases ho q hq ((hmaps f q hq).1 hm) with h | ⟨h1, h2, h3⟩
    · exact Or.inl h
    · exact Or.inr ⟨h1, fun h => h2 (hsub _ h), h3⟩
  · intro f q hq hm
    exact L.mapsLt f q hq ((hmaps f q hq).1 hm)

/-! ### Counts -/

theorem count_setCount {f g : ℕ} (hf : 256 ≤ f) (hg : 256 ≤ g) (c : BitVec 8) :
    (s.setCount (g - 256) c).count f = if f = g then c.toNat else s.count f := by
  unfold Mm.count
  rw [setCount_memMap]
  by_cases h : f = g
  · simp [h]
  · rw [if_neg (by omega), if_neg h]

theorem toNat_add_one {c : BitVec 8} (h : c.toNat < 255) : (c + 1).toNat = c.toNat + 1 := by
  rw [BitVec.toNat_add]
  exact Nat.mod_eq_of_lt (show c.toNat + 1 < 256 by omega)

theorem toNat_sub_one {c : BitVec 8} (h : 0 < c.toNat) : (c - 1).toNat = c.toNat - 1 := by
  rw [BitVec.toNat_sub]
  show (2 ^ 8 - 1 + c.toNat) % 2 ^ 8 = c.toNat - 1
  omega

/-! ### Changes no reference sees -/

/-- The ledger does not see the flags of an entry, nor the contents of a frame that is no page
table. -/
theorem Ledger.congr (L : Ledger M s held) {s' : Mm} (hhigh : s'.highMemory = s.highMemory)
    (hmap : s'.memMap = s.memMap) (hdir : s'.mem 0 = s.mem 0)
    (hkernel : ∀ d < 4, ∀ j < 1024, (present (s'.mem (d + 1) j) ↔ present (s.mem (d + 1) j)) ∧
      frameOf (s'.mem (d + 1) j) = frameOf (s.mem (d + 1) j))
    (htable : ∀ q ∈ places, present (s.mem 0 q.1) →
      (present (s'.entry q) ↔ present (s.entry q)) ∧ frameOf (s'.entry q) = frameOf (s.entry q)) :
    Ledger M s' held := by
  have htab : ∀ d, s'.table d = s.table d := fun d => congrArg frameOf (congrFun hdir d)
  have hmaps : ∀ f, ∀ q ∈ places, s'.Maps f q ↔ s.Maps f q := by
    intro f q hq
    unfold Mm.Maps
    rw [hdir]
    by_cases hp : present (s.mem 0 q.1)
    · rw [(htable q hq hp).1, (htable q hq hp).2]
    · simp [hp]
  have hpoints : ∀ f, s'.tableRefs f = s.tableRefs f := by
    intro f
    refine countIn_congr ?_
    intro d _
    unfold Mm.Points
    rw [hdir, htab]
  have hrefs : ∀ f, s'.entryRefs f = s.entryRefs f := fun f => countIn_congr (hmaps f)
  refine ⟨hhigh.trans L.high, ?_, ?_, ?_, ?_, ?_, ?_, L.heldIn, ?_, ?_⟩
  · rw [hdir]
    exact L.kernelDir
  · intro d hd
    rw [htab]
    exact L.kernelTable d hd
  · intro d hd j hj
    rw [(hkernel d hd j hj).1, (hkernel d hd j hj).2]
    exact L.kernelEntry d hd j hj
  · intro d hd hp
    rw [htab]
    rw [hdir] at hp
    exact L.tableIn d hd hp
  · intro f h1 h2
    unfold Mm.count
    rw [hmap, hrefs, hpoints]
    exact L.exact f h1 h2
  · intro f
    rw [hpoints]
    exact L.single f
  · intro f
    obtain ⟨o, ho⟩ := L.spread f
    exact ⟨o, fun q hq hm => ho q hq ((hmaps f q hq).1 hm)⟩
  · intro f q hq hm
    exact L.mapsLt f q hq ((hmaps f q hq).1 hm)

/-- Overwriting a frame that is not a page table. -/
theorem Ledger.content (L : Ledger M s held) {f : ℕ} (hf : 5 ≤ f) (h0 : s.tableRefs f = 0)
    (page : ℕ → Word) : Ledger M (s.storePage f page) held := by
  have hdir : (s.storePage f page).mem 0 = s.mem 0 := storePage_mem_of_ne s (by omega) page
  refine L.congr rfl rfl hdir ?_ ?_
  · intro d hd j _
    rw [storePage_mem_of_ne s (by omega)]
    exact ⟨Iff.rfl, rfl⟩
  · intro q hq hp
    have hne : s.table q.1 ≠ f := not_points h0 (directory_of_places hq) hp
    have hentry : (s.storePage f page).entry q = s.entry q := by
      unfold Mm.entry Mm.table
      rw [hdir, ← Mm.table, storePage_mem_of_ne s hne]
    rw [hentry]
    exact ⟨Iff.rfl, rfl⟩

/-- Changing the flags of an entry. -/
theorem Ledger.reflag (L : Ledger M s held) {p : ℕ × ℕ} (hp : p ∈ places)
    (hd : present (s.mem 0 p.1)) {e : Word} (he : present e ↔ present (s.entry p))
    (hfr : frameOf e = frameOf (s.entry p)) : Ledger M (s.store (s.table p.1) p.2 e) held := by
  have hge := L.table_ge (directory_of_places hp) hd
  refine L.congr rfl rfl (L.store_dir hp hd e) ?_ ?_
  · intro d hd4 j _
    rw [store_mem_of_ne s (by omega)]
    exact ⟨Iff.rfl, rfl⟩
  · intro q hq hdq
    rw [L.store_entry hp hq hd hdq]
    split
    · rename_i hqp
      rw [hqp]
      exact ⟨he, hfr⟩
    · exact ⟨Iff.rfl, rfl⟩

/-- Changing the flags of an entry of a kernel table. -/
theorem Ledger.reflagKernel (L : Ledger M s held) {d i : ℕ} (hd : d < 4) {e : Word}
    (he : present e ↔ present (s.mem (d + 1) i))
    (hfr : frameOf e = frameOf (s.mem (d + 1) i)) : Ledger M (s.store (d + 1) i e) held := by
  refine L.congr rfl rfl (store_mem_of_ne s (by omega) _ _) ?_ ?_
  · intro k hk j _
    rw [store_mem]
    split
    · rename_i h
      have hkd : k = d := by omega
      rw [hkd, h.2]
      exact ⟨he, hfr⟩
    · exact ⟨Iff.rfl, rfl⟩
  · intro q hq hdq
    have hge := L.table_ge (directory_of_places hq) hdq
    have hentry : (s.store (d + 1) i e).entry q = s.entry q := by
      unfold Mm.entry Mm.table
      rw [store_mem_of_ne s (show 0 ≠ d + 1 by omega), ← Mm.table, store_mem_of_ne s (by omega)]
    rw [hentry]
    exact ⟨Iff.rfl, rfl⟩

/-! ### Taking a frame and giving it back -/

/-- A change of the counts alone moves frames between the free pool and `held`. -/
theorem Ledger.recount (L : Ledger M s held) {s' : Mm} (hmem : s'.mem = s.mem)
    (hhigh : s'.highMemory = s.highMemory)
    (hcount : ∀ f, 256 ≤ f → f < 4096 → s'.count f + held.count f = s.count f + held'.count f)
    (hsingle : ∀ f, s.tableRefs f + held'.count f ≤ 1) (hin : ∀ f ∈ held', M.Has f)
    (hfree : ∀ f ∈ held', f ∈ held ∨ s.entryRefs f = 0) : Ledger M s' held' := by
  obtain ⟨m, _, _⟩ := s'
  cases hmem
  cases hhigh
  refine ⟨L.high, L.kernelDir, L.kernelTable, L.kernelEntry, L.tableIn, ?_, hsingle, hin, ?_, L.mapsLt⟩
  · intro f h1 h2
    have he := L.exact f h1 h2
    have hc := hcount f h1 h2
    show _ = M.base f + s.entryRefs f + s.tableRefs f + held'.count f
    omega
  · intro f
    obtain ⟨o, ho⟩ := L.spread f
    refine ⟨o, ?_⟩
    intro q hq hm
    rcases ho q hq hm with h | ⟨h1, h2, h3⟩
    · exact Or.inl h
    · refine Or.inr ⟨h1, ?_, h3⟩
      intro hf
      rcases hfree f hf with h | h
      · exact h2 h
      · exact countIn_eq_zero.1 h q hq hm

/-- **`get_free_page`** puts a frame nobody names into the kernel's hands. -/
theorem Ledger.take (L : Ledger M s held) {k : ℕ} (hk : k < 3840) (h0 : s.memMap k = 0) :
    Ledger M (s.setCount k 1) ((256 + k) ::ₘ held) ∧ M.Has (256 + k) ∧ 256 + k ∉ held ∧
    s.tableRefs (256 + k) = 0 ∧
      s.entryRefs (256 + k) = 0 := by
  have hc : s.count (256 + k) = 0 := by
    unfold Mm.count
    rw [show 256 + k - 256 = k from by omega, h0]
    rfl
  obtain ⟨hin, her, htr, hheld⟩ := L.refs_of_count_zero (by omega) (by omega) hc
  have hnot : 256 + k ∉ held := Multiset.count_eq_zero.1 hheld
  refine ⟨?_, hin, hnot, htr, her⟩
  refine L.recount rfl rfl ?_ ?_ ?_ ?_
  · intro f h1 h2
    have hset := count_setCount (s := s) h1 (show 256 ≤ 256 + k by omega) 1
    rw [show 256 + k - 256 = k from by omega] at hset
    rw [hset, Multiset.count_cons]
    by_cases hf : f = 256 + k
    · subst hf
      rw [if_pos rfl, if_pos rfl, hc, hheld]
      rfl
    · rw [if_neg hf, if_neg hf]
      rfl
  · intro f
    have hs := L.single f
    rw [Multiset.count_cons]
    split
    · rename_i hf
      rw [hf]
      omega
    · omega
  · intro f hf
    rcases Multiset.mem_cons.1 hf with rfl | hf
    · exact hin
    · exact L.heldIn f hf
  · intro f hf
    rcases Multiset.mem_cons.1 hf with rfl | hf
    · exact Or.inr her
    · exact Or.inl hf

/-- **`free_page`** of a held frame. -/
theorem Ledger.release (L : Ledger M s held) {f : ℕ} (hf : f ∈ held) :
    Ledger M (s.setCount (f - 256) (s.memMap (f - 256) - 1)) (held.erase f) ∧ s.memMap (f - 256) ≠ 0 := by
  have hin := L.heldIn f hf
  have hge := hin.lowMem_le
  have hpos := Multiset.count_pos.2 hf
  have he := L.exact f hge hin.lt
  have hcpos : 0 < (s.memMap (f - 256)).toNat := by
    show 0 < s.count f
    omega
  refine ⟨L.recount rfl rfl ?_ ?_ ?_ ?_, ?_⟩
  · intro g h1 h2
    have hset := count_setCount (s := s) h1 hge (s.memMap (f - 256) - 1)
    rw [toNat_sub_one hcpos] at hset
    rw [hset]
    by_cases hg : g = f
    · subst hg
      rw [if_pos rfl, Multiset.count_erase_self]
      unfold Mm.count
      omega
    · rw [if_neg hg, Multiset.count_erase_of_ne hg]
  · intro g
    have hs := L.single g
    have hle := Multiset.count_le_of_le g (Multiset.erase_le f held)
    omega
  · intro g hg
    exact L.heldIn g (Multiset.mem_of_mem_erase hg)
  · intro g hg
    exact Or.inl (Multiset.mem_of_mem_erase hg)
  · intro h
    rw [h] at hcpos
    exact absurd hcpos (by decide)

/-! ### Linking and unlinking a page table -/

/-- A held, empty frame becomes the page table of an absent directory entry. -/
theorem Ledger.link (L : Ledger M s held) {d f : ℕ} (hd : d ∈ directory)
    (habs : ¬present (s.mem 0 d)) (hf : f ∈ held) (hempty : ∀ j < 1024, ¬present (s.mem f j)) :
    Ledger M (s.store 0 d (userEntry (f * 4096))) (held.erase f) := by
  have hin := L.heldIn f hf
  have hlt := hin.lt
  have hfr : frameOf (userEntry (f * 4096)) = f := frameOf_userEntry_frame (by omega)
  have hone : ∀ g, one (s.Points g d) = 0 := by
    intro g
    exact one_of_not (fun h => habs h.1)
  have hbal : ∀ g, one (present (userEntry (f * 4096)) ∧ frameOf (userEntry (f * 4096)) = g) +
      (held.erase f).count g = held.count g := by
    intro g
    rw [hfr]
    by_cases hg : f = g
    · subst hg
      have := Multiset.count_pos.2 hf
      rw [one_of ⟨present_userEntry _, rfl⟩, Multiset.count_erase_self]
      omega
    · rw [one_of_not (fun h => hg h.2), Multiset.count_erase_of_ne (Ne.symm hg)]
      omega
  refine L.storeDir hd _ rfl rfl (fun h => absurd h habs) ?_ ?_ (Multiset.erase_le f held) ?_
  · intro _
    rw [hfr]
    exact ⟨hin, hempty⟩
  · intro g _ _
    have := hbal g
    rw [hone g, store_count]
    omega
  · intro g
    have := hbal g
    have := hone g
    omega

/-- An empty page table is taken out of the directory and freed. -/
theorem Ledger.unlink (L : Ledger M s held) {d : ℕ} (hd : d ∈ directory)
    (hp : present (s.mem 0 d)) (hempty : ∀ j < 1024, ¬present (s.mem (s.table d) j)) :
    Ledger M ((s.setCount (s.table d - 256) (s.memMap (s.table d - 256) - 1)).store 0 d 0) held ∧
      s.memMap (s.table d - 256) ≠ 0 := by
  have hin := L.tableIn d hd hp
  have hge := hin.lowMem_le
  have hpos : 0 < s.tableRefs (s.table d) := countIn_pos hd ⟨hp, rfl⟩
  have he := L.exact _ hge hin.lt
  have hcpos : 0 < (s.memMap (s.table d - 256)).toNat := by
    show 0 < s.count (s.table d)
    omega
  refine ⟨L.storeDir hd 0 rfl rfl (fun _ => hempty) (fun h => absurd h present_zero) ?_ le_rfl ?_, ?_⟩
  · intro g h1 _
    have hset := count_setCount (s := s) h1 hge (s.memMap (s.table d - 256) - 1)
    rw [toNat_sub_one hcpos] at hset
    rw [one_zero, store_count, hset]
    by_cases hg : g = s.table d
    · rw [if_pos hg, one_of (show s.Points g d from ⟨hp, hg.symm⟩), hg]
      unfold Mm.count
      omega
    · rw [if_neg hg, one_of_not (fun h : s.Points g d => hg h.2.symm)]
  · intro g
    have hone := one_zero g
    omega
  · intro h
    rw [h] at hcpos
    exact absurd hcpos (by decide)

/-! ### Entries of page tables -/

theorem one_maps {p : ℕ × ℕ} (hd : present (s.mem 0 p.1)) (he : present (s.entry p)) (f : ℕ) :
    one (s.Maps f p) = if f = frameOf (s.entry p) then 1 else 0 := by
  split
  · rename_i h
    exact one_of ⟨hd, he, h.symm⟩
  · rename_i h
    exact one_of_not (fun hm => h hm.2.2.symm)

theorem one_absent {p : ℕ × ℕ} (he : ¬present (s.entry p)) (f : ℕ) : one (s.Maps f p) = 0 :=
  one_of_not (fun hm => he hm.2.1)

theorem one_present {e : Word} (he : present e) (f : ℕ) :
    one (present e ∧ frameOf e = f) = if f = frameOf e then 1 else 0 := by
  split
  · rename_i h
    exact one_of ⟨he, h.symm⟩
  · rename_i h
    exact one_of_not (fun hm => h hm.2.symm)

/-- The count of a mapped frame goes down by one when its byte is decremented. -/
theorem Ledger.count_dec (L : Ledger M s held) {p : ℕ × ℕ} (hp : p ∈ places)
    (hd : present (s.mem 0 p.1)) (he : present (s.entry p)) (hf : 256 ≤ frameOf (s.entry p))
    {g : ℕ} (hg : 256 ≤ g) :
    (s.setCount (frameOf (s.entry p) - 256)
        (s.memMap (frameOf (s.entry p) - 256) - 1)).count g + one (s.Maps g p) = s.count g := by
  have hpos := L.count_pos_of_maps hp ⟨hd, he, rfl⟩ hf
  unfold Mm.count at hpos
  rw [count_setCount hg hf, toNat_sub_one hpos, one_maps hd he]
  by_cases h : g = frameOf (s.entry p)
  · rw [if_pos h, if_pos h, h]
    unfold Mm.count
    omega
  · rw [if_neg h, if_neg h]
    rfl

theorem Ledger.memMap_ne_zero (L : Ledger M s held) {p : ℕ × ℕ} (hp : p ∈ places)
    (hd : present (s.mem 0 p.1)) (he : present (s.entry p)) (hf : 256 ≤ frameOf (s.entry p)) :
    s.memMap (frameOf (s.entry p) - 256) ≠ 0 := by
  intro h
  have hpos := L.count_pos_of_maps hp ⟨hd, he, rfl⟩ hf
  unfold Mm.count at hpos
  rw [h] at hpos
  exact absurd hpos (by decide)

/-- An entry for a counted frame is cleared and the frame's count lowered. -/
theorem Ledger.drop (L : Ledger M s held) {p : ℕ × ℕ} (hp : p ∈ places)
    (hd : present (s.mem 0 p.1)) (he : present (s.entry p)) (hf : 256 ≤ frameOf (s.entry p)) :
    Ledger M ((s.setCount (frameOf (s.entry p) - 256)
      (s.memMap (frameOf (s.entry p) - 256) - 1)).store (s.table p.1) p.2 0) held := by
  refine L.storeEntry hp hd 0 rfl rfl ?_ le_rfl (fun h => absurd h present_zero)
  intro g h1 _
  have hc := L.count_dec hp hd he hf h1
  rw [store_count, one_zero]
  omega

/-- An entry for a frame below `LOW_MEM`, or an absent one, is cleared. -/
theorem Ledger.dropLow (L : Ledger M s held) {p : ℕ × ℕ} (hp : p ∈ places)
    (hd : present (s.mem 0 p.1)) (hlow : present (s.entry p) → frameOf (s.entry p) < 256) :
    Ledger M (s.store (s.table p.1) p.2 0) held := by
  refine L.storeEntry hp hd 0 rfl rfl ?_ le_rfl (fun h => absurd h present_zero)
  intro g h1 _
  have hone : one (s.Maps g p) = 0 := by
    refine one_of_not ?_
    rintro ⟨_, he, rfl⟩
    exact absurd (hlow he) (by omega)
  rw [store_count, hone, one_zero]

/-- A counted frame is mapped once more, at its own address or where some slot already has it. -/
theorem Ledger.share (L : Ledger M s held) {p : ℕ × ℕ} (hp : p ∈ places)
    (hd : present (s.mem 0 p.1)) (habs : ¬present (s.entry p)) {e : Word} (he : present e)
    (hf : 256 ≤ frameOf e) (hlt : frameOf e < 4096)
    (hoff : offset p = frameOf e ∨ ∃ q ∈ places, s.Maps (frameOf e) q ∧ offset q = offset p) :
    Ledger M ((s.store (s.table p.1) p.2 e).setCount (frameOf e - 256) (s.memMap (frameOf e - 256) + 1))
    held := by
  have hsmall := L.count_lt hf hlt
  unfold Mm.count at hsmall
  refine L.storeEntry hp hd e rfl rfl ?_ le_rfl ?_
  · intro g h1 _
    have hset : ((s.store (s.table p.1) p.2 e).setCount (frameOf e - 256)
        (s.memMap (frameOf e - 256) + 1)).count g =
        if g = frameOf e then (s.memMap (frameOf e - 256) + 1).toNat else s.count g :=
      count_setCount h1 hf _
    rw [hset, one_absent habs, one_present he, toNat_add_one (by omega)]
    by_cases hg : g = frameOf e
    · rw [if_pos hg, if_pos hg, hg]
      unfold Mm.count
      omega
    · rw [if_neg hg, if_neg hg]
  · intro _
    refine ⟨hlt, ?_⟩
    by_cases hown : offset p = frameOf e
    · exact Or.inl hown
    · right
      obtain ⟨o, ho⟩ := L.spread (frameOf e)
      rcases hoff with h | ⟨q, hq, hm, hqp⟩
      · exact absurd h hown
      · rcases ho q hq hm with h | ⟨h1, h2, h3⟩
        · exact absurd (hqp.symm.trans h) hown
        · refine ⟨h3, h2, ?_⟩
          intro r hr _ hmr
          rcases ho r hr hmr with h | h
          · exact Or.inl h
          · exact Or.inr (h.1.trans (h1.symm.trans hqp))

/-- A frame below `LOW_MEM` is mapped without being counted. -/
theorem Ledger.shareLow (L : Ledger M s held) {p : ℕ × ℕ} (hp : p ∈ places)
    (hd : present (s.mem 0 p.1)) (habs : ¬present (s.entry p)) {e : Word}
    (hf : frameOf e < 256)
    (hoff : offset p = frameOf e ∨ ∃ q ∈ places, s.Maps (frameOf e) q ∧ offset q = offset p) :
    Ledger M (s.store (s.table p.1) p.2 e) held := by
  refine L.storeEntry hp hd e rfl rfl ?_ le_rfl ?_
  · intro g h1 _
    rw [store_count, one_absent habs, one_of_not (fun h => by omega)]
  · intro _
    refine ⟨by omega, Or.inl ?_⟩
    rcases hoff with h | ⟨q, hq, hm, hqp⟩
    · exact h
    · obtain ⟨o, ho⟩ := L.spread (frameOf e)
      rcases ho q hq hm with h | h
      · exact hqp.symm.trans h
      · exact absurd h.2.2.lowMem_le (by omega)

/-- A held frame is put into an entry: the entry's old frame, if it is counted, loses a count. -/
theorem Ledger.put (L : Ledger M s held) {p : ℕ × ℕ} (hp : p ∈ places)
    (hd : present (s.mem 0 p.1)) {f : ℕ} (hf : f ∈ held) {s' : Mm}
    (hmem : s'.mem = (s.store (s.table p.1) p.2 (userEntry (f * 4096))).mem)
    (hhigh : s'.highMemory = s.highMemory)
    (hcount : ∀ g, 256 ≤ g → g < 4096 → s'.count g + one (s.Maps g p) = s.count g) :
    Ledger M s' (held.erase f) := by
  have hin := L.heldIn f hf
  have hlt := hin.lt
  have hfr : frameOf (userEntry (f * 4096)) = f := frameOf_userEntry_frame (by omega)
  have hone := L.tableRefs_of_held hf
  refine L.storeEntry hp hd _ hmem hhigh ?_ (Multiset.erase_le f held) ?_
  · intro g h1 h2
    have hc := hcount g h1 h2
    rw [one_present (present_userEntry _), hfr]
    by_cases hg : g = f
    · rw [if_pos hg, hg, Multiset.count_erase_self]
      rw [hg] at hc
      omega
    · rw [if_neg hg, Multiset.count_erase_of_ne hg]
      omega
  · intro _
    rw [hfr]
    refine ⟨by omega, Or.inr ⟨hin, ?_, ?_⟩⟩
    · rw [← Multiset.count_eq_zero, Multiset.count_erase_self]
      omega
    · intro q hq _ hm
      obtain ⟨o, ho⟩ := L.spread f
      rcases ho q hq hm with h | h
      · exact Or.inl h
      · exact absurd hf h.2.1

end OldLinux.Memory
