import OldLinux.Memory.LedgerMoves

/-!
# The ledger together with write protection

`Shielded s` says that no entry lets user mode store into a frame that is counted more than once.
It rides along with the ledger: `Books shield M s held` is the ledger, plus `Shielded` where the
proposition `shield` holds.  The runs that may copy any part of the kernel's own tables into a slot
keep the ledger alone; the runs that copy only the first 640 kB keep both.  Every elementary change
is proved for `Books` once, and the functions of `mm/memory.cc` are proved from these.
-/

namespace OldLinux.Memory

open Lib

/-- An entry with its write bit set maps a frame of main memory, and is its only reference. -/
def Shielded (s : Mm) : Prop :=
  ∀ p ∈ places, ∀ f, s.Maps f p → writable (s.entry p) → 256 ≤ f ∧ s.count f ≤ 1

/-- The frames in the kernel's hands and the page tables are mapped nowhere. -/
def Unmapped (s : Mm) (held : Multiset ℕ) : Prop :=
  ∀ f, f ∈ held ∨ s.tableRefs f ≠ 0 → ∀ p ∈ places, ¬s.Maps f p

/-- The kernel's own page tables map everything writable. -/
def KernelWritable (s : Mm) : Prop := ∀ d < 4, ∀ j < 1024, writable (s.mem (d + 1) j)

structure Books (shield : Prop) (M : MainMemory) (s : Mm) (held : Multiset ℕ) : Prop where
  ledger : Ledger M s held
  shielded : shield → Shielded s
  unmapped : shield → Unmapped s held
  kernel : shield → KernelWritable s

variable {shield : Prop} {M : MainMemory} {s s' : Mm} {held held' : Multiset ℕ}

theorem KernelWritable.of_mem (h : KernelWritable s)
    (hmem : ∀ d < 4, s'.mem (d + 1) = s.mem (d + 1)) : KernelWritable s' := by
  intro d hd j hj
  rw [hmem d hd]
  exact h d hd j hj

/-- Write protection survives when every entry that is writable afterwards was writable before, for
the same frame, and no count of such a frame went up. -/
theorem Shielded.of_entries (h : Shielded s) (hent : ∀ p ∈ places, ∀ f, s'.Maps f p → writable (s'.entry p) →
      (s.Maps f p ∧ writable (s.entry p) ∧ (256 ≤ f → s'.count f ≤ s.count f)) ∨ (256 ≤ f ∧ s'.count f ≤ 1)) :
    Shielded s' := by
  intro p hp f hm hw
  rcases hent p hp f hm hw with ⟨hm', hw', hle⟩ | hle
  · obtain ⟨hf, hc⟩ := h p hp f hm' hw'
    exact ⟨hf, le_trans (hle hf) hc⟩
  · exact hle

/-- A store into an entry leaves the other entries' write bits and frames alone. -/
theorem Ledger.shielded_storeEntry (L : Ledger M s held) {p : ℕ × ℕ} (hp : p ∈ places)
    (hd : present (s.mem 0 p.1)) (e : Word)
    (hmem : s'.mem = (s.store (s.table p.1) p.2 e).mem) (h : Shielded s)
    (hthis : present e → writable e → 256 ≤ frameOf e ∧ s'.count (frameOf e) ≤ 1)
    (hother : ∀ q ∈ places, q ≠ p → ∀ f, s.Maps f q → 256 ≤ f → writable (s.entry q) →
      s'.count f ≤ s.count f) : Shielded s' := by
  have hmaps : ∀ q f, s'.Maps f q ↔ (s.store (s.table p.1) p.2 e).Maps f q := by
    intro q f
    exact maps_of_mem hmem f q
  have hentry : ∀ q, s'.entry q = (s.store (s.table p.1) p.2 e).entry q := by
    intro q
    exact entry_of_mem hmem q
  refine h.of_entries ?_
  intro q hq f hm hw
  rw [hmaps] at hm
  rw [hentry] at hw
  have hdq : present (s.mem 0 q.1) := by
    have := hm.1
    rw [L.store_dir hp hd] at this
    exact this
  rw [L.maps_store hp hq hd] at hm
  rw [L.store_entry hp hq hd hdq] at hw
  by_cases hqp : q = p
  · rw [if_pos hqp] at hm hw
    obtain ⟨he, rfl⟩ := hm
    exact Or.inr (hthis he hw)
  · rw [if_neg hqp] at hm hw
    exact Or.inl ⟨hm, hw, fun hf => hother q hq hqp f hm hf hw⟩

theorem Ledger.kernel_storeEntry (L : Ledger M s held) {p : ℕ × ℕ} (hp : p ∈ places)
    (hd : present (s.mem 0 p.1)) (e : Word)
    (hmem : s'.mem = (s.store (s.table p.1) p.2 e).mem) (h : KernelWritable s) :
    KernelWritable s' := by
  have hge := L.table_ge (directory_of_places hp) hd
  apply h.of_mem
  intro d hd
  rw [hmem, store_mem_of_ne s (by omega)]

theorem tableRefs_of_mem (h : s'.mem = s.mem) (f : ℕ) : s'.tableRefs f = s.tableRefs f := by
  refine countIn_congr ?_
  intro d _
  rw [Mm.Points, Mm.Points, table_of_mem h, h]

/-- Only a store of a held frame, or of a page table, into an entry could map one. -/
theorem Ledger.unmapped_storeEntry (L : Ledger M s held) {p : ℕ × ℕ} (hp : p ∈ places)
    (hd : present (s.mem 0 p.1)) (e : Word)
    (hmem : s'.mem = (s.store (s.table p.1) p.2 e).mem) (h : Unmapped s held)
    (hheld : held' ≤ held)
    (hthis : present e → ¬(frameOf e ∈ held' ∨ s.tableRefs (frameOf e) ≠ 0)) :
    Unmapped s' held' := by
  intro f hf q hq hm
  rw [tableRefs_of_mem hmem, L.tableRefs_store hp hd] at hf
  rw [maps_of_mem hmem, L.maps_store hp hq hd] at hm
  split at hm
  · exact hthis hm.1 (hm.2 ▸ hf)
  · exact h f (hf.imp_left (Multiset.mem_of_le hheld)) q hq hm

theorem Books.storeEntry (B : Books shield M s held) (L : Ledger M s' held') {p : ℕ × ℕ} (hp : p ∈ places)
    (hd : present (s.mem 0 p.1)) {e : Word} (hmem : s'.mem = (s.store (s.table p.1) p.2 e).mem)
    (hheld : held' ≤ held)
    (hthis : shield → present e → writable e → 256 ≤ frameOf e ∧ s'.count (frameOf e) ≤ 1)
    (hfree : shield → present e → ¬(frameOf e ∈ held' ∨ s.tableRefs (frameOf e) ≠ 0))
    (hother : shield → ∀ q ∈ places, q ≠ p → ∀ f, s.Maps f q → 256 ≤ f → writable (s.entry q) →
      s'.count f ≤ s.count f) : Books shield M s' held' where
  ledger := L
  shielded := fun hs => B.ledger.shielded_storeEntry hp hd e hmem (B.shielded hs) (hthis hs) (hother hs)
  unmapped := fun hs => B.ledger.unmapped_storeEntry hp hd e hmem (B.unmapped hs) hheld (hfree hs)
  kernel := fun hs => B.ledger.kernel_storeEntry hp hd e hmem (B.kernel hs)

/-- Changes that keep every entry keep write protection when no count of a mapped frame goes up. -/
theorem Shielded.of_maps (h : Shielded s)
    (hmaps : ∀ p ∈ places, ∀ f, s'.Maps f p → s.Maps f p ∧ s'.entry p = s.entry p)
    (hcount : ∀ p ∈ places, ∀ f, s.Maps f p → 256 ≤ f → s'.count f ≤ s.count f) :
    Shielded s' := by
  refine h.of_entries ?_
  intro p hp f hm hw
  obtain ⟨hm', he⟩ := hmaps p hp f hm
  rw [he] at hw
  exact Or.inl ⟨hm', hw, hcount p hp f hm'⟩

/-- Changes that map nothing new keep the kernel's frames unmapped when the kernel gets none. -/
theorem Unmapped.of_maps (h : Unmapped s held) (hmaps : ∀ p ∈ places, ∀ f, s'.Maps f p → s.Maps f p)
    (hkernel : ∀ f, f ∈ held' ∨ s'.tableRefs f ≠ 0 → f ∈ held ∨ s.tableRefs f ≠ 0) :
    Unmapped s' held' := by
  intro f hf p hp hm
  exact h f (hkernel f hf) p hp (hmaps p hp f hm)

theorem Books.content (B : Books shield M s held) {f : ℕ} (hf : 5 ≤ f) (h0 : s.tableRefs f = 0)
    (page : ℕ → Word) : Books shield M (s.storePage f page) held := by
  have hkeep : ∀ p ∈ places, ∀ g, (s.storePage f page).Maps g p →
      s.Maps g p ∧ (s.storePage f page).entry p = s.entry p := by
    intro p hp g hm
    have hdir : (s.storePage f page).mem 0 = s.mem 0 := storePage_mem_of_ne s (by omega) page
    have hd : present (s.mem 0 p.1) := by
      have := hm.1
      rw [hdir] at this
      exact this
    have hne : s.table p.1 ≠ f := not_points h0 (directory_of_places hp) hd
    have he : (s.storePage f page).entry p = s.entry p := by
      unfold Mm.entry Mm.table
      rw [hdir, ← Mm.table, storePage_mem_of_ne s hne]
    refine ⟨⟨hd, ?_, ?_⟩, he⟩
    · rw [← he]
      exact hm.2.1
    · rw [← he]
      exact hm.2.2
  have htables : ∀ g, (s.storePage f page).tableRefs g = s.tableRefs g := by
    intro g
    refine countIn_congr ?_
    intro d _
    rw [Mm.Points, Mm.Points, Mm.table, Mm.table, storePage_mem_of_ne s (by omega) page]
  refine ⟨B.ledger.content hf h0 page, fun hs => (B.shielded hs).of_maps hkeep ?_, fun hs =>
    (B.unmapped hs).of_maps (fun p hp g hm => (hkeep p hp g hm).1) ?_, fun hs =>
    (B.kernel hs).of_mem (fun d hd => storePage_mem_of_ne s (by omega) page)⟩
  · intro p _ g _ _
    exact le_rfl
  · intro g hg
    rw [htables] at hg
    exact hg

theorem Books.take (B : Books shield M s held) {k : ℕ} (hk : k < 3840) (h0 : s.memMap k = 0) (page : ℕ → Word) :
    Books shield M ((s.setCount k 1).storePage (256 + k) page) ((256 + k) ::ₘ held) := by
  obtain ⟨L', -, -, htr, her⟩ := B.ledger.take hk h0
  have B' : Books shield M (s.setCount k 1) ((256 + k) ::ₘ held) := by
    refine ⟨L', fun hs => (B.shielded hs).of_maps ?_ ?_, ?_, fun hs =>
      (B.kernel hs).of_mem (fun _ _ => rfl)⟩
    · intro p _ f hm
      exact ⟨hm, rfl⟩
    · intro p hp f hm hf
      have hne : f ≠ 256 + k := by
        rintro rfl
        exact countIn_eq_zero.1 her p hp hm
      have hset := count_setCount (s := s) hf (show 256 ≤ 256 + k by omega) 1
      rw [show 256 + k - 256 = k from by omega, if_neg hne] at hset
      exact le_of_eq hset
    · intro hs f hf p hp hm
      by_cases hk : f = 256 + k
      · rw [hk] at hm
        exact countIn_eq_zero.1 her p hp hm
      · have hold : f ∈ held ∨ s.tableRefs f ≠ 0 :=
          hf.imp_left (fun h => (Multiset.mem_cons.1 h).resolve_left hk)
        exact B.unmapped hs f hold p hp hm
  exact B'.content (by omega) htr page

/-- A count that goes down by one, or stays. -/
theorem count_dec_le {f g : ℕ} (hf : 256 ≤ f) (hg : 256 ≤ g) (h0 : s.memMap (g - 256) ≠ 0) :
    (s.setCount (g - 256) (s.memMap (g - 256) - 1)).count f ≤ s.count f := by
  have hpos : 0 < (s.memMap (g - 256)).toNat := by
    refine Nat.pos_of_ne_zero ?_
    intro h
    exact h0 (BitVec.eq_of_toNat_eq h)
  rw [count_setCount hf hg, toNat_sub_one hpos]
  split
  · rename_i h
    rw [h]
    unfold Mm.count
    omega
  · exact le_rfl

theorem Books.release (B : Books shield M s held) {f : ℕ} (hf : f ∈ held) :
    Books shield M (s.setCount (f - 256) (s.memMap (f - 256) - 1)) (held.erase f) := by
  obtain ⟨L', h0⟩ := B.ledger.release hf
  refine ⟨L', fun hs => (B.shielded hs).of_maps ?_ ?_, ?_, fun hs =>
    (B.kernel hs).of_mem (fun _ _ => rfl)⟩
  · intro p _ g hm
    exact ⟨hm, rfl⟩
  · intro p _ g _ hg
    exact count_dec_le hg (B.ledger.heldIn f hf).lowMem_le h0
  · intro hs g hg p hp hm
    exact B.unmapped hs g (hg.imp_left Multiset.mem_of_mem_erase) p hp hm

theorem Books.link (B : Books shield M s held) {d f : ℕ} (hd : d ∈ directory)
    (habs : ¬present (s.mem 0 d)) (hf : f ∈ held) (hempty : ∀ j < 1024, ¬present (s.mem f j)) :
    Books shield M (s.store 0 d (userEntry (f * 4096))) (held.erase f) := by
  have hin := B.ledger.heldIn f hf
  have hfr : frameOf (userEntry (f * 4096)) = f := by
    have := hin.lt
    exact frameOf_userEntry_frame (by omega)
  have hmaps : ∀ p ∈ places, ∀ g, (s.store 0 d (userEntry (f * 4096))).Maps g p → s.Maps g p := by
    intro p hp g hm
    exact (B.ledger.maps_store_zero (fun h => absurd h habs)
      (fun _ => by rw [hfr]; exact ⟨hin, hempty⟩) hp g).1 hm
  refine ⟨B.ledger.link hd habs hf hempty, fun hs => (B.shielded hs).of_maps ?_ ?_, fun hs =>
    (B.unmapped hs).of_maps hmaps ?_, fun hs =>
    (B.kernel hs).of_mem (fun d' _ => store_mem_of_ne s (by omega) _ _)⟩
  · intro p hp g hm
    have hm' := hmaps p hp g hm
    have hpd : p.1 ≠ d := by
      rintro rfl
      exact habs hm'.1
    refine ⟨hm', ?_⟩
    have hge := B.ledger.table_ge (directory_of_places hp) hm'.1
    unfold Mm.entry
    rw [store_zero_table, if_neg hpd, store_mem_of_ne s (by omega)]
  · intro p _ g _ _
    exact le_rfl
  · -- the new page table is the frame that was held
    intro g hg
    by_cases hgf : g = f
    · rw [hgf]
      exact Or.inl hf
    · refine hg.imp Multiset.mem_of_mem_erase ?_
      have hrefs := tableRefs_store_zero (s := s) hd (userEntry (f * 4096)) g
      rw [one_of_not (fun h => habs h.1), hfr, one_of_not (fun h => hgf h.2.symm)] at hrefs
      omega

theorem Books.unlink (B : Books shield M s held) {d : ℕ} (hd : d ∈ directory)
    (hp : present (s.mem 0 d)) (hempty : ∀ j < 1024, ¬present (s.mem (s.table d) j)) :
    Books shield M ((s.setCount (s.table d - 256) (s.memMap (s.table d - 256) - 1)).store 0 d 0) held := by
  obtain ⟨L', h0⟩ := B.ledger.unlink hd hp hempty
  have hmaps : ∀ p ∈ places, ∀ g, (s.store 0 d 0).Maps g p → s.Maps g p := by
    intro p hpl g hm
    exact (B.ledger.maps_store_zero (fun _ => hempty) (fun h => absurd h present_zero)
      hpl g).1 hm
  refine ⟨L', fun hs => (B.shielded hs).of_maps ?_ ?_, fun hs =>
    (B.unmapped hs).of_maps hmaps ?_, fun hs =>
    (B.kernel hs).of_mem (fun d' _ => store_mem_of_ne _ (by omega) _ _)⟩
  · intro p hpl g hm
    have hm' := hmaps p hpl g hm
    have hpd : p.1 ≠ d := by
      rintro rfl
      exact hempty p.2 (mem_places.1 hpl).2 hm'.2.1
    refine ⟨hm', ?_⟩
    have hge := B.ledger.table_ge (directory_of_places hpl) hm'.1
    show (s.store 0 d 0).entry p = s.entry p
    unfold Mm.entry
    rw [store_zero_table, if_neg hpd, store_mem_of_ne s (by omega)]
  · intro p _ g _ hg
    rw [store_count]
    exact count_dec_le hg (B.ledger.tableIn d hd hp).lowMem_le h0
  · intro g hg
    refine hg.imp_right ?_
    have hrefs := tableRefs_store_zero (s := s) hd 0 g
    rw [one_zero] at hrefs
    intro h hz
    rw [hz] at hrefs
    exact h (by
      show (s.store 0 d 0).tableRefs g = 0
      omega)

/-- Clearing an entry, with or without a count. -/
theorem Books.drop (B : Books shield M s held) {p : ℕ × ℕ} (hp : p ∈ places)
    (hd : present (s.mem 0 p.1)) (he : present (s.entry p)) (hf : 256 ≤ frameOf (s.entry p)) :
    Books shield M ((s.setCount (frameOf (s.entry p) - 256)
      (s.memMap (frameOf (s.entry p) - 256) - 1)).store (s.table p.1) p.2 0) held := by
  refine B.storeEntry (B.ledger.drop hp hd he hf) hp hd rfl le_rfl (fun _ h => absurd h present_zero)
    (fun _ h => absurd h present_zero) ?_
  intro _ q _ _ g _ hg _
  rw [store_count]
  exact count_dec_le hg hf (B.ledger.memMap_ne_zero hp hd he hf)

theorem Books.dropLow (B : Books shield M s held) {p : ℕ × ℕ} (hp : p ∈ places)
    (hd : present (s.mem 0 p.1)) (hlow : present (s.entry p) → frameOf (s.entry p) < 256) :
    Books shield M (s.store (s.table p.1) p.2 0) held := by
  refine B.storeEntry (B.ledger.dropLow hp hd hlow) hp hd rfl le_rfl (fun _ h => absurd h present_zero)
    (fun _ h => absurd h present_zero) ?_
  intro _ q _ _ g _ _ _
  exact le_rfl

/-- Sharing keeps write protection when the frame's other entries are read-only. -/
theorem Books.share (B : Books shield M s held) {p : ℕ × ℕ} (hp : p ∈ places)
    (hd : present (s.mem 0 p.1)) (habs : ¬present (s.entry p)) {e : Word} (he : present e)
    (hro : ¬writable e) (hf : 256 ≤ frameOf e) (hlt : frameOf e < 4096)
    (hoff : offset p = frameOf e ∨ ∃ q ∈ places, s.Maps (frameOf e) q ∧ offset q = offset p)
    (hothers : shield → ∀ q ∈ places, s.Maps (frameOf e) q → ¬writable (s.entry q))
    (hnot : shield → ¬(frameOf e ∈ held ∨ s.tableRefs (frameOf e) ≠ 0)) :
    Books shield M ((s.store (s.table p.1) p.2 e).setCount (frameOf e - 256)
      (s.memMap (frameOf e - 256) + 1)) held := by
  refine B.storeEntry (B.ledger.share hp hd habs he hf hlt hoff) hp hd rfl le_rfl
    (fun _ _ h => absurd h hro) (fun hs _ => hnot hs) ?_
  intro hs q hq _ g hm hg hw
  have hne : g ≠ frameOf e := by
    rintro rfl
    exact hothers hs q hq hm hw
  have hset : ((s.store (s.table p.1) p.2 e).setCount (frameOf e - 256) (s.memMap (frameOf e - 256) + 1)).count
      g =
      if g = frameOf e then (s.memMap (frameOf e - 256) + 1).toNat else s.count g :=
    count_setCount hg hf _
  rw [if_neg hne] at hset
  exact le_of_eq hset

theorem Books.shareLow (B : Books shield M s held) {p : ℕ × ℕ} (hp : p ∈ places)
    (hd : present (s.mem 0 p.1)) (habs : ¬present (s.entry p)) {e : Word}
    (hro : ¬writable e) (hf : frameOf e < 256)
    (hoff : offset p = frameOf e ∨ ∃ q ∈ places, s.Maps (frameOf e) q ∧ offset q = offset p) :
    Books shield M (s.store (s.table p.1) p.2 e) held := by
  have hlow : ¬M.Has (frameOf e) := fun h => absurd h.lowMem_le (by omega)
  refine B.storeEntry (B.ledger.shareLow hp hd habs hf hoff) hp hd rfl le_rfl
    (fun _ _ h => absurd h hro) ?_ ?_
  · intro _ _ h
    rcases h with h | h
    · exact hlow (B.ledger.heldIn _ h)
    · exact h (B.ledger.tableRefs_eq_zero hlow)
  · intro _ q _ _ g _ _ _
    exact le_rfl

/-- A held frame has one reference, the kernel's, so it may be put writable. -/
theorem Books.put (B : Books shield M s held) {p : ℕ × ℕ} (hp : p ∈ places)
    (hd : present (s.mem 0 p.1)) {f : ℕ} (hf : f ∈ held)
    (hmem : s'.mem = (s.store (s.table p.1) p.2 (userEntry (f * 4096))).mem)
    (hhigh : s'.highMemory = s.highMemory)
    (hcount : ∀ g, 256 ≤ g → g < 4096 → s'.count g + one (s.Maps g p) = s.count g) :
    Books shield M s' (held.erase f) := by
  have hin := B.ledger.heldIn f hf
  have hfr : frameOf (userEntry (f * 4096)) = f := by
    have := hin.lt
    exact frameOf_userEntry_frame (by omega)
  have hone := B.ledger.tableRefs_of_held hf
  refine B.storeEntry (B.ledger.put hp hd hf hmem hhigh hcount) hp hd hmem (Multiset.erase_le f held)
    ?_ ?_ ?_
  · intro hs _ _
    rw [hfr]
    have he := B.ledger.exact f hin.lowMem_le hin.lt
    have hc := hcount f hin.lowMem_le hin.lt
    have hz : s.entryRefs f = 0 := countIn_eq_zero.2 (B.unmapped hs f (Or.inl hf))
    unfold MainMemory.base at he
    rw [if_pos hin] at he
    exact ⟨hin.lowMem_le, by omega⟩
  · intro _ _ h
    rw [hfr, ← Multiset.count_pos, Multiset.count_erase_self] at h
    omega
  · intro _ q hq _ g hm hg _
    have hc := hcount g hg (B.ledger.mapsLt g q hq hm)
    omega

/-- Clearing the write bit, or setting it for a frame with a single reference. -/
theorem Books.reflag (B : Books shield M s held) {p : ℕ × ℕ} (hp : p ∈ places)
    (hd : present (s.mem 0 p.1)) {e : Word} (he : present e ↔ present (s.entry p))
    (hfr : frameOf e = frameOf (s.entry p))
    (hw : shield → present e → writable e → 256 ≤ frameOf e ∧ s.count (frameOf e) ≤ 1) :
    Books shield M (s.store (s.table p.1) p.2 e) held := by
  refine B.storeEntry (B.ledger.reflag hp hd he hfr) hp hd rfl le_rfl hw ?_ ?_
  · intro hs hpe hin
    exact B.unmapped hs _ hin p hp ⟨hd, he.1 hpe, hfr.symm⟩
  · intro _ q _ _ g _ _ _
    exact le_rfl

theorem Books.reflagKernel (B : Books shield M s held) {d i : ℕ} (hd : d < 4) {e : Word}
    (he : present e ↔ present (s.mem (d + 1) i))
    (hfr : frameOf e = frameOf (s.mem (d + 1) i)) (hw : shield → writable e) :
    Books shield M (s.store (d + 1) i e) held := by
  have hdir : (s.store (d + 1) i e).mem 0 = s.mem 0 := store_mem_of_ne s (by omega) _ _
  have hkeep : ∀ q ∈ places, ∀ g, (s.store (d + 1) i e).Maps g q →
      s.Maps g q ∧ (s.store (d + 1) i e).entry q = s.entry q := by
    intro q hq g hm
    have hdq : present (s.mem 0 q.1) := by
      have := hm.1
      rw [hdir] at this
      exact this
    have hge := B.ledger.table_ge (directory_of_places hq) hdq
    have hent : (s.store (d + 1) i e).entry q = s.entry q := by
      unfold Mm.entry Mm.table
      rw [hdir, ← Mm.table, store_mem_of_ne s (by omega)]
    refine ⟨⟨hdq, ?_, ?_⟩, hent⟩
    · rw [← hent]
      exact hm.2.1
    · rw [← hent]
      exact hm.2.2
  have htables : ∀ g, (s.store (d + 1) i e).tableRefs g = s.tableRefs g := by
    intro g
    refine countIn_congr ?_
    intro d' _
    rw [Mm.Points, Mm.Points, Mm.table, Mm.table, hdir]
  refine ⟨B.ledger.reflagKernel hd he hfr, fun hs => (B.shielded hs).of_maps hkeep ?_, fun hs =>
    (B.unmapped hs).of_maps (fun q hq g hm => (hkeep q hq g hm).1) ?_, ?_⟩
  · intro q _ g _ _
    exact le_rfl
  · intro g hg
    rw [htables] at hg
    exact hg
  · intro hs d' hd' j hj
    rw [store_mem]
    split
    · exact hw hs
    · exact B.kernel hs d' hd' j hj

/-! ### Sharing a frame with another slot -/

/-- Two entries for one frame: the frame is counted twice. -/
theorem Ledger.count_of_two (L : Ledger M s held) {p q : ℕ × ℕ} (hp : p ∈ places) (hq : q ∈ places)
    (hpq : p ≠ q) {f : ℕ} (hf : 256 ≤ f) (hmp : s.Maps f p) (hmq : s.Maps f q) :
    2 ≤ s.count f := by
  have he := L.exact f hf (L.mapsLt f p hp hmp)
  have hr : ¬s.entryRefs f ≤ 1 := by
    intro h
    exact hpq (eq_of_countIn_le_one h hp hq hmp hmq)
  omega

/-- Once one of its entries is made read-only, a counted frame has no writable entry left. -/
theorem Books.readOnly_others (B : Books shield M s held) (hs : shield) {p : ℕ × ℕ}
    (hp : p ∈ places) (hd : present (s.mem 0 p.1)) (he : present (s.entry p))
    (hf : 256 ≤ frameOf (s.entry p)) {q : ℕ × ℕ} (hq : q ∈ places)
    (hm : (s.store (s.table p.1) p.2 (readOnly (s.entry p))).Maps (frameOf (s.entry p)) q) :
    ¬writable ((s.store (s.table p.1) p.2 (readOnly (s.entry p))).entry q) := by
  have hdq : present (s.mem 0 q.1) := by
    have := hm.1
    rw [B.ledger.store_dir hp hd] at this
    exact this
  rw [B.ledger.maps_store hp hq hd] at hm
  rw [B.ledger.store_entry hp hq hd hdq]
  by_cases hqp : q = p
  · rw [if_pos hqp]
    exact not_writable_readOnly _
  · rw [if_neg hqp] at hm
    rw [if_neg hqp]
    intro hw
    have hle := (B.shielded hs q hq _ hm hw).2
    have htwo := B.ledger.count_of_two hp hq (Ne.symm hqp) hf ⟨hd, he, rfl⟩ hm
    omega

/-- **Sharing.**  The entry at `p` is made read-only and copied to the absent entry at `q`, which
lies at the same offset of another slot; the frame is counted once more. -/
theorem Books.shareFrom (B : Books shield M s held) {p q : ℕ × ℕ} (hp : p ∈ places)
    (hq : q ∈ places) (hpq : p ≠ q) (hoff : offset p = offset q) (hd : present (s.mem 0 p.1))
    (hdq : present (s.mem 0 q.1)) (he : present (s.entry p)) (habs : ¬present (s.entry q))
    (hf : 256 ≤ frameOf (s.entry p)) :
    Books shield M (((s.store (s.table p.1) p.2 (readOnly (s.entry p))).store (s.table q.1) q.2
      (readOnly (s.entry p))).setCount (frameOf (s.entry p) - 256)
      (s.memMap (frameOf (s.entry p) - 256) + 1)) held := by
  have hm : s.Maps (frameOf (s.entry p)) p := ⟨hd, he, rfl⟩
  have hlt := B.ledger.mapsLt _ p hp hm
  have B1 := B.reflag hp hd (e := readOnly (s.entry p)) (present_readOnly _) (frameOf_readOnly _)
    (fun _ _ hw => absurd hw (not_writable_readOnly _))
  have hdir := B.ledger.store_dir hp hd (readOnly (s.entry p))
  have htab := B.ledger.store_table hp hd (readOnly (s.entry p)) q.1
  have hentq : (s.store (s.table p.1) p.2 (readOnly (s.entry p))).entry q = s.entry q := by
    rw [B.ledger.store_entry hp hq hd hdq, if_neg (Ne.symm hpq)]
  have hm1 : (s.store (s.table p.1) p.2 (readOnly (s.entry p))).Maps (frameOf (s.entry p)) p := by
    rw [B.ledger.maps_store hp hp hd, if_pos rfl]
    exact ⟨(present_readOnly _).2 he, frameOf_readOnly _⟩
  have hres := B1.share hq (by rw [hdir]; exact hdq) (by rw [hentq]; exact habs)
    (e := readOnly (s.entry p)) ((present_readOnly _).2 he) (not_writable_readOnly _)
    (by rw [frameOf_readOnly]; exact hf) (by rw [frameOf_readOnly]; exact hlt)
    (Or.inr ⟨p, hp, by rw [frameOf_readOnly]; exact hm1, hoff⟩)
    (by
      intro hs r hr hmr
      rw [frameOf_readOnly] at hmr
      exact B.readOnly_others hs hp hd he hf hr hmr)
    (by
      intro hs hin
      rw [frameOf_readOnly, B.ledger.tableRefs_store hp hd] at hin
      exact B.unmapped hs _ hin p hp hm)
  rw [htab, frameOf_readOnly] at hres
  exact hres

end OldLinux.Memory
