import OldLinux.Memory.Operations

/-!
# The functions of `mm/memory.cc` that change one page

`put_page`, `un_wp_page` with its two callers, `get_empty_page` and `try_to_share` each change one
entry of a page table, and may allocate a page table on the way.  For each the specification says
what becomes of the books, of the entries and of the pages that processes and the kernel use.
-/

namespace OldLinux.Memory

open Lib

variable {shield : Prop} {M : MainMemory} {s s' : Mm} {held : Multiset ℕ}

/-- The place of a linear address. -/
def placeOf (address : ℕ) : ℕ × ℕ := (dirIndex address, tableIndex address)

theorem placeOf_fst (address : ℕ) : (placeOf address).1 = dirIndex address := rfl

theorem placeOf_snd (address : ℕ) : (placeOf address).2 = tableIndex address := rfl

/-- A frame whose contents matter: it is held, or some process maps it. -/
def Mm.Data (s : Mm) (held : Multiset ℕ) (f : ℕ) : Prop :=
  256 ≤ f ∧ s.tableRefs f = 0 ∧ (f ∈ held ∨ ∃ p ∈ places, s.Maps f p)

/-- The frames whose contents matter keep them. -/
def Preserved (s : Mm) (held : Multiset ℕ) (s' : Mm) : Prop :=
  ∀ f, s.Data held f → s'.mem f = s.mem f

theorem Preserved.refl (s : Mm) (held : Multiset ℕ) : Preserved s held s := fun _ _ => rfl

theorem Fresh.ne_of_data {f : ℕ} (F : Fresh shield M s held f s') {g : ℕ} (hg : s.Data held g) : g ≠ f := by
  intro h
  rw [h] at hg
  rcases hg.2.2 with hin | ⟨p, hp, hm⟩
  · exact F.notHeld hin
  · exact countIn_eq_zero.1 F.noEntry p hp hm

theorem Fresh.pte {f : ℕ} (F : Fresh shield M s held f s') {q : ℕ × ℕ} (hq : q ∈ places) :
    s'.pte q = s.pte q := by
  refine pte_congr F.dir ?_
  intro hd
  rw [F.others _ (not_points F.noTable (directory_of_places hq) hd)]

theorem Fresh.preserved {f : ℕ} (F : Fresh shield M s held f s') : Preserved s held s' :=
  fun _ hg => F.others _ (F.ne_of_data hg)

/-- A frame with contents is no page table. -/
theorem ne_table_of_data {f d : ℕ} (hf : s.Data held f) (hd : d ∈ directory)
    (hp : present (s.mem 0 d)) : f ≠ s.table d := Ne.symm (not_points hf.2.1 hd hp)

theorem Books.data_of_maps (B : Books shield M s held) (hs : shield) {p : ℕ × ℕ}
    (hp : p ∈ places) {f : ℕ} (hm : s.Maps f p) (hf : 256 ≤ f) : s.Data held f :=
  ⟨hf, (B.tableRefs_of_maps hs hp hm).1, Or.inr ⟨p, hp, hm⟩⟩

theorem Books.data_of_held (B : Books shield M s held) {f : ℕ} (hf : f ∈ held) : s.Data held f :=
  ⟨(B.ledger.heldIn f hf).lowMem_le, (B.ledger.tableRefs_of_held hf).1, Or.inl hf⟩

/-! ### Getting a page table -/

/-- What linking a fresh page table at the directory entry `d` leaves. -/
structure Linked (shield : Prop) (M : MainMemory) (s : Mm) (held : Multiset ℕ) (d f : ℕ) (s' : Mm) :
    Prop where
  books : Books shield M s' held
  dir : present (s'.mem 0 d)
  table : s'.table d = f
  pte : ∀ q ∈ places, s'.pte q = s.pte q
  kept : Preserved s held s'
  data : ∀ g, s.Data held g → s'.Data held g
  counts : ∀ g, 256 ≤ g → g ≠ f → s'.count g = s.count g
  high : s'.highMemory = s.highMemory
  dirs : ∀ e, e ≠ d → s'.mem 0 e = s.mem 0 e

theorem Fresh.link {d f : ℕ} {s1 : Mm} (F : Fresh shield M s held f s1) (hd : d ∈ directory)
    (habs : ¬present (s.mem 0 d)) :
    Linked shield M s held d f (s1.store 0 d (userEntry (f * 4096))) := by
  have hge := F.main.lowMem_le
  have habs1 : ¬present (s1.mem 0 d) := by
    rw [F.dir]
    exact habs
  have hzero : ∀ j < 1024, s1.mem f j = 0 := by
    intro j _
    rw [F.empty]
  have hfr : frameOf (userEntry (f * 4096)) = f := by
    have := F.main.lt
    exact frameOf_userEntry_frame (by omega)
  have B2 := F.books.link hd habs1 (Multiset.mem_cons_self f held)
    (fun j hj => by rw [hzero j hj]; exact present_zero)
  rw [Multiset.erase_cons_head] at B2
  have hpte : ∀ q ∈ places, (s1.store 0 d (userEntry (f * 4096))).pte q = s.pte q := by
    intro q hq
    rw [F.books.ledger.pte_store_zero (fun h => absurd h habs1)
      (fun _ => by rw [hfr]; exact ⟨F.main, hzero⟩) hq, F.pte hq]
  have hrefs : ∀ g, g ≠ f → (s1.store 0 d (userEntry (f * 4096))).tableRefs g = s.tableRefs g := by
    intro g hg
    have h := tableRefs_store_zero (s := s1) hd (userEntry (f * 4096)) g
    rw [hfr, one_of_not (fun h => habs1 h.1), one_of_not (fun h => hg h.2.symm)] at h
    have hs1 : s1.tableRefs g = s.tableRefs g := by
      refine countIn_congr ?_
      intro d' _
      rw [Mm.Points, Mm.Points, Mm.table, Mm.table, F.dir]
    omega
  refine ⟨B2, ?_, ?_, hpte, ?_, ?_, ?_, F.high, ?_⟩
  · rw [store_zero_dir, if_pos rfl]
    exact present_userEntry _
  · rw [store_zero_table, if_pos rfl, hfr]
  · intro g hg
    have hge' := hg.1
    rw [store_mem_of_ne s1 (by omega), F.others g (F.ne_of_data hg)]
  · intro g hg
    refine ⟨hg.1, ?_, hg.2.2.imp_right ?_⟩
    · rw [hrefs g (F.ne_of_data hg)]
      exact hg.2.1
    · rintro ⟨p, hp, hm⟩
      refine ⟨p, hp, ?_⟩
      rw [maps_iff_pte] at hm ⊢
      rw [hpte p hp]
      exact hm
  · intro g hg hgf
    rw [store_count]
    exact F.counts g hg hgf
  · intro e he
    rw [store_zero_dir, if_neg he, F.dir]

/-! ### A store into one entry -/

/-- What a change of the one entry `p` to `e` leaves. -/
structure Changed (shield : Prop) (M : MainMemory) (s : Mm) (held : Multiset ℕ) (p : ℕ × ℕ)
    (e : Word) (held' : Multiset ℕ) (s' : Mm) : Prop where
  books : Books shield M s' held'
  pte : ∀ q ∈ places, s'.pte q = if q = p then e else s.pte q
  kept : Preserved s held s'
  dir : ∀ d, d ≠ p.1 → s'.mem 0 d = s.mem 0 d

/-- A store into an entry, seen as a change of the entry. -/
theorem Ledger.changed_store (L : Ledger M s held) {p : ℕ × ℕ} (hp : p ∈ places)
    (hd : present (s.mem 0 p.1)) {e : Word} {held' : Multiset ℕ}
    (hmem : s'.mem = (s.store (s.table p.1) p.2 e).mem) (B' : Books shield M s' held') :
    Changed shield M s held p e held' s' := by
  refine ⟨B', ?_, ?_, ?_⟩
  · intro q hq
    rw [pte_of_mem hmem, L.pte_store hp hq hd]
  · intro g hg
    rw [hmem, store_mem_of_ne s (ne_table_of_data hg (directory_of_places hp) hd)]
  · intro d _
    rw [hmem, L.store_dir hp hd]

/-- A change after a page table was linked. -/
theorem Changed.after_link {f : ℕ} {s1 s2 : Mm} {p : ℕ × ℕ} {e : Word} {held' : Multiset ℕ}
    (K : Linked shield M s held p.1 f s1) (C : Changed shield M s1 held p e held' s2) :
    Changed shield M s held p e held' s2 := by
  refine ⟨C.books, ?_, ?_, ?_⟩
  · intro q hq
    rw [C.pte q hq, K.pte q hq]
  · intro g hg
    rw [C.kept g (K.data g hg), K.kept g hg]
  · intro d hd
    rw [C.dir d hd, K.dirs d hd]

/-! ### `put_page` -/

/-- **`put_page`** of a held frame at an unmapped place maps it there, or finds no memory for the
page table and changes nothing. -/
theorem putPage_books (B : Books shield M s held) {address f : ℕ} (hp : placeOf address ∈ places)
    (habs : ¬present (s.pte (placeOf address))) (hf : f ∈ held) :
    wp (putPage (f * 4096) address) (fun r s' => r = 0 ∧ s' = s ∨ r = f * 4096 ∧
        Changed shield M s held (placeOf address) (userEntry (f * 4096)) (held.erase f) s')
      (fun _ _ => False) s := by
  have hdd := directory_of_places hp
  have hput : ∀ s1 : Mm, Books shield M s1 held → present (s1.mem 0 (placeOf address).1) →
      ¬present (s1.pte (placeOf address)) →
      Changed shield M s1 held (placeOf address) (userEntry (f * 4096)) (held.erase f)
        (s1.store (s1.table (placeOf address).1) (placeOf address).2 (userEntry (f * 4096))) := by
    intro s1 B1 hd1 habs1
    refine B1.ledger.changed_store hp hd1 rfl (B1.put hp hd1 hf rfl rfl ?_)
    intro g _ _
    rw [pte_of_present hd1] at habs1
    rw [store_count, one_absent habs1]
    rfl
  rw [putPage, wp_bind, wp_loadWord, wp_ite]
  constructor
  · intro hd
    rw [wp_bind, wp_storeWord, wp_pure]
    exact Or.inr ⟨rfl, hput s B hd habs⟩
  · intro hd
    rw [wp_bind]
    apply wp_mono (getFreePage_books B) _ (fun _ _ h => h)
    intro tmp s1 h
    rw [wp_ite]
    rcases h with ⟨hz, hs1⟩ | ⟨g, htmp, F⟩
    · refine ⟨fun _ => ?_, fun hne => absurd hz hne⟩
      exact Or.inl ⟨rfl, hs1⟩
    · have hge := F.main.lowMem_le
      refine ⟨fun hz => by omega, fun _ => ?_⟩
      have K := F.link hdd hd
      have C := hput _ K.books K.dir (by rw [K.pte _ hp]; exact habs)
      rw [K.table] at C
      rw [htmp, wp_bind, wp_storeWord, wp_bind, wp_storeWord, wp_pure, show g * 4096 / 4096 = g from by omega]
      exact Or.inr ⟨rfl, C.after_link K⟩

/-! ### `get_empty_page` -/

/-- **`get_empty_page`** maps a zeroed frame at an unmapped place; out of memory it leaves the
entries as they were and nothing held. -/
theorem getEmptyPage_books (B : Books shield M s held) {address : ℕ} (hp : placeOf address ∈ places)
    (habs : ¬present (s.pte (placeOf address))) :
    wp (getEmptyPage address) (fun _ s' => ∃ f, M.Has f ∧ s'.mem f = (fun _ => 0) ∧
        Changed shield M s held (placeOf address) (userEntry (f * 4096)) held s')
      (fun _ s' => Books shield M s' held ∧ (∀ q ∈ places, s'.pte q = s.pte q) ∧
        Preserved s held s' ∧ s'.mem 0 = s.mem 0) s := by
  rw [getEmptyPage, wp_bind]
  apply wp_mono (getFreePage_books B) _ (fun _ _ h => h.elim)
  intro tmp s1 h
  rw [wp_ite]
  rcases h with ⟨hz, hs1⟩ | ⟨f, htmp, F⟩
  · refine ⟨fun _ => ?_, fun hne => absurd hz hne⟩
    rw [wp_bind, hz]
    apply wp_mono (freePage_low 0 (by decide) s1) _ (fun _ _ h => h.elim)
    intro _ s2 hs2
    rw [hs2, hs1]
    exact ⟨B, fun _ _ => rfl, Preserved.refl s held, rfl⟩
  · have hge := F.main.lowMem_le
    refine ⟨fun hz => by omega, fun _ => ?_⟩
    have hdata : ∀ g, s.Data held g → s1.Data (f ::ₘ held) g := by
      intro g hg
      refine ⟨hg.1, ?_, hg.2.2.imp Multiset.mem_cons_of_mem ?_⟩
      · rw [← hg.2.1]
        refine countIn_congr ?_
        intro d _
        rw [Mm.Points, Mm.Points, Mm.table, Mm.table, F.dir]
      · rintro ⟨p, hpp, hm⟩
        refine ⟨p, hpp, ?_⟩
        rw [maps_iff_pte] at hm ⊢
        rw [F.pte hpp]
        exact hm
    rw [wp_bind, htmp]
    have hput := putPage_books F.books hp (by rw [F.pte hp]; exact habs) (Multiset.mem_cons_self f held)
    apply wp_mono hput _ (fun _ _ h => h.elim)
    intro r s2 h
    rw [wp_ite]
    rcases h with ⟨hr, hs2⟩ | ⟨hr, C⟩
    · refine ⟨fun _ => ?_, fun hne => absurd hr hne⟩
      rw [wp_bind, hs2]
      apply wp_mono (freePage_held F.books (Multiset.mem_cons_self f held)) _ (fun _ _ h => h.elim)
      intro _ s3 h
      obtain ⟨hmem, B3⟩ := h
      rw [Multiset.erase_cons_head] at B3
      refine ⟨B3, ?_, ?_, ?_⟩
      · intro q hq
        rw [pte_of_mem hmem, F.pte hq]
      · intro g hg
        rw [hmem, F.preserved g hg]
      · rw [hmem, F.dir]
    · refine ⟨fun hz => by omega, fun _ => ?_⟩
      rw [Multiset.erase_cons_head] at C
      refine ⟨f, F.main, ?_, C.books, ?_, ?_, ?_⟩
      · rw [C.kept f (F.books.data_of_held (Multiset.mem_cons_self f held)), F.empty]
      · intro q hq
        rw [C.pte q hq, F.pte hq]
      · intro g hg
        rw [C.kept g (hdata g hg), F.preserved g hg]
      · intro d hd
        rw [C.dir d hd, F.dir]

/-! ### `un_wp_page`, `do_wp_page` and `write_verify` -/

/-- The entry `p` after its write protection is lifted: it was the frame's only reference and gets
its write bit, or it gets a frame of its own with the same contents. -/
structure Unshared (shield : Prop) (M : MainMemory) (s : Mm) (held : Multiset ℕ) (p : ℕ × ℕ)
    (s' : Mm) : Prop where
  entry : (256 ≤ frameOf (s.pte p) ∧ s.count (frameOf (s.pte p)) = 1 ∧ s'.pte p = withWrite (s.pte p)) ∨
    ¬(256 ≤ frameOf (s.pte p) ∧ s.count (frameOf (s.pte p)) = 1) ∧ ∃ f, M.Has f ∧
    s'.pte p = userEntry (f * 4096)
  single : s'.count (frameOf (s'.pte p)) = 1
  contents : shield → s'.mem (frameOf (s'.pte p)) = s.mem (frameOf (s.pte p))
  counts : ∀ g, 256 ≤ g → g ≠ frameOf (s'.pte p) → s'.count g ≤ s.count g
  changed : Changed shield M s held p (s'.pte p) held s'

/-- The entry is there afterwards, and the page may be written. -/
theorem Unshared.own {p : ℕ × ℕ} (U : Unshared shield M s held p s') (hpres : present (s.pte p)) :
    present (s'.pte p) ∧ writable (s'.pte p) := by
  rcases U.entry with ⟨_, _, he⟩ | ⟨_, f, _, he⟩
  · rw [he]
    exact ⟨(present_withWrite _).2 hpres, writable_withWrite _⟩
  · rw [he]
    exact ⟨present_userEntry _, writable_userEntry _⟩

theorem mapNr_frame {f : ℕ} : mapNr (f * 4096) = f - 256 := by
  rw [mapNr, LOW_MEM]
  omega

theorem count_eq_one_iff {f : ℕ} : s.memMap (f - 256) = 1 ↔ s.count f = 1 := by
  rw [Mm.count]
  constructor
  · intro h
    rw [h]
    rfl
  · intro h
    exact BitVec.eq_of_toNat_eq h

theorem unWpPage_books (B : Books shield M s held) {p : ℕ × ℕ} (hp : p ∈ places) (hpres : present (s.pte p)) :
    wp (unWpPage (s.table p.1) p.2) (fun _ s' => Unshared shield M s held p s')
      (fun _ s' => s' = s) s := by
  have hd := dir_of_pte hpres
  have hpte := pte_of_present hd
  have he : present (s.entry p) := hpte ▸ hpres
  have hlowmem : LOW_MEM ≤ frameOf (s.entry p) * 4096 ↔ 256 ≤ frameOf (s.entry p) := by
    rw [LOW_MEM]
    omega
  rw [unWpPage, wp_bind, wp_loadWord]
  simp only [show s.mem (s.table p.1) p.2 = s.entry p from rfl, wp_bind, wp_get, wp_ite,
    mapNr_frame, hlowmem, count_eq_one_iff]
  constructor
  · -- the only reference: the write bit is set in place
    intro hone
    obtain ⟨hf, hone⟩ := hone
    rw [wp_storeWord]
    have B' := B.reflag hp hd (e := withWrite (s.entry p)) (present_withWrite _) (frameOf_withWrite _) (by
        intro _ _ _
        rw [frameOf_withWrite]
        exact ⟨hf, le_of_eq hone⟩)
    have hnew : (s.store (s.table p.1) p.2 (withWrite (s.entry p))).pte p = withWrite (s.entry p) := by
      rw [B.ledger.pte_store hp hp hd, if_pos rfl]
    refine ⟨Or.inl ?_, ?_, ?_, fun _ _ _ => le_rfl, ?_⟩
    · rw [hpte]
      exact ⟨hf, hone, hnew⟩
    · rw [hnew, frameOf_withWrite, store_count]
      exact hone
    · intro hs
      rw [hnew, frameOf_withWrite, hpte, store_mem_of_ne s
        (B.ne_table_of_maps hs hp ⟨hd, he, rfl⟩ (directory_of_places hp) hd)]
    · rw [hnew]
      exact B.ledger.changed_store hp hd rfl B'
  · -- shared, or the kernel's: a copy
    intro hnot
    apply wp_mono (getFreePage_books B) _ (fun _ _ h => h.elim)
    intro newPage s1 h
    rcases h with ⟨hz, hs1⟩ | ⟨f, hnew, F⟩
    · exact ⟨fun _ => hs1, fun hne => absurd hz hne⟩
    · have hge := F.main.lowMem_le
      have hlt := F.main.lt
      refine ⟨fun hz => by omega, fun _ => ?_⟩
      have hfr : frameOf (userEntry (f * 4096)) = f := frameOf_userEntry_frame (by omega)
      have hd1 : present (s1.mem 0 p.1) := by
        rw [F.dir]
        exact hd
      have hent : s1.entry p = s.entry p := F.entry hp hd
      have hne : frameOf (s.entry p) ≠ f := by
        intro h
        exact countIn_eq_zero.1 F.noEntry p hp ⟨hd, he, h⟩
      -- the state before the copy of the contents, whatever was done to the old frame's count
      have hrest : ∀ s2 : Mm, s2.mem = s1.mem → s2.highMemory = s1.highMemory → s2.count f = 1 →
          (∀ g, 256 ≤ g → g < 4096 → s2.count g + one (s1.Maps g p) = s1.count g) →
          (∀ g, 256 ≤ g → s2.count g ≤ s1.count g) →
          Unshared shield M s held p ((s2.store (s.table p.1) p.2 (userEntry (f * 4096))).storePage
            f ((s2.store (s.table p.1) p.2 (userEntry (f * 4096))).mem (frameOf (s.entry p)))) := by
        intro s2 hmem hhigh hcf hcount hle
        have hstore : (s2.store (s.table p.1) p.2 (userEntry (f * 4096))).mem =
            (s1.store (s1.table p.1) p.2 (userEntry (f * 4096))).mem := by
          rw [F.table, Mm.store, Mm.store, hmem]
        have B3 := F.books.put hp hd1 (Multiset.mem_cons_self f held) hstore
          (by rw [store_highMemory, hhigh]) hcount
        have C := F.books.ledger.changed_store hp hd1 hstore B3
        rw [Multiset.erase_cons_head] at B3
        have htr : (s2.store (s.table p.1) p.2 (userEntry (f * 4096))).tableRefs f = 0 := by
          rw [tableRefs_of_mem hstore, F.books.ledger.tableRefs_store hp hd1]
          exact (F.books.ledger.tableRefs_of_held (Multiset.mem_cons_self f held)).1
        have hptes : ∀ q ∈ places, ((s2.store (s.table p.1) p.2 (userEntry (f * 4096))).storePage
            f ((s2.store (s.table p.1) p.2 (userEntry (f * 4096))).mem (frameOf (s.entry p)))).pte q =
            if q = p then userEntry (f * 4096) else s.pte q := by
          intro q hq
          rw [pte_storePage (by omega) htr _ hq, C.pte q hq, F.pte hq]
        have hptep := hptes p hp
        rw [if_pos rfl] at hptep
        refine ⟨Or.inr ⟨?_, f, F.main, hptep⟩, ?_, ?_, ?_, ?_⟩
        · rw [hpte]
          exact hnot
        · rw [hptep, hfr]
          exact hcf
        · intro hs
          have hnt := B.ne_table_of_maps hs hp ⟨hd, he, rfl⟩ (directory_of_places hp) hd
          rw [hptep, hfr, storePage_mem_self, store_mem_of_ne s2 hnt, hmem, F.others _ hne, hpte]
        · intro g hg hgf
          rw [hptep, hfr] at hgf
          rw [storePage_count, store_count, ← F.counts g hg hgf]
          exact hle g hg
        · rw [hptep]
          refine ⟨B3.content (by omega) htr _, hptes, ?_, ?_⟩
          · intro g hg
            have hgt : g ≠ s1.table p.1 := by
              rw [F.table]
              exact ne_table_of_data hg (directory_of_places hp) hd
            rw [storePage_mem_of_ne _ (F.ne_of_data hg), hstore, store_mem_of_ne _ hgt, F.preserved g hg]
          · intro d hne
            rw [storePage_mem_of_ne _ (show 0 ≠ f by omega), C.dir d hne, F.dir]
      rw [hnew]
      simp only [wp_modify, wp_storeWord, show f * 4096 / 4096 = f from by omega,
        show frameOf (s.entry p) * 4096 / 4096 = frameOf (s.entry p) from by omega]
      constructor
      · intro hf
        refine hrest _ rfl rfl ?_ ?_ ?_
        · rw [count_setCount hge hf, if_neg (Ne.symm hne)]
          exact F.single
        · intro g hg _
          have hdec := F.books.ledger.count_dec hp hd1 (by rw [hent]; exact he) (by rw [hent]; exact hf) hg
          rw [hent] at hdec
          exact hdec
        · intro g hg
          have h0 := F.books.ledger.memMap_ne_zero hp hd1 (by rw [hent]; exact he) (by rw [hent]; exact hf)
          rw [hent] at h0
          exact count_dec_le hg hf h0
      · intro hf
        refine hrest s1 rfl rfl F.single ?_ (fun _ _ => le_rfl)
        intro g hg _
        rw [one_of_not]
        · rfl
        · intro hm
          rw [Mm.Maps, hent] at hm
          omega

/-- **`do_wp_page`** on a present page. -/
theorem doWpPage_books (B : Books shield M s held) {address : ℕ} (hp : placeOf address ∈ places)
    (hpres : present (s.pte (placeOf address))) :
    wp (doWpPage address) (fun _ s' => Unshared shield M s held (placeOf address) s')
      (fun _ s' => s' = s) s := by
  have hun := unWpPage_books B hp hpres
  rw [placeOf_fst, placeOf_snd, Mm.table] at hun
  rw [doWpPage, wp_bind, wp_loadWord]
  exact hun

/-- **`write_verify`**: an absent or writable page is left alone. -/
theorem writeVerify_books (B : Books shield M s held) {address : ℕ} (hp : placeOf address ∈ places) :
    wp (writeVerify address) (fun _ s' =>
      (present (s.pte (placeOf address)) ∧ ¬writable (s.pte (placeOf address)) ∧
          Unshared shield M s held (placeOf address) s') ∨
        (present (s.pte (placeOf address)) → writable (s.pte (placeOf address))) ∧ s' = s)
      (fun _ s' => s' = s) s := by
  rw [writeVerify, wp_bind, wp_loadWord, wp_ite]
  constructor
  · intro hd
    have hpte : s.pte (placeOf address) = s.mem (frameOf (s.mem 0 (dirIndex address)))
        (tableIndex address) := by
      rw [Mm.pte, placeOf_fst, if_pos hd, Mm.entry, placeOf_fst, placeOf_snd, Mm.table]
    rw [wp_bind, wp_loadWord, wp_ite, ← hpte]
    constructor
    · intro h
      have hun := unWpPage_books B hp h.1
      rw [placeOf_fst, placeOf_snd, Mm.table] at hun
      apply wp_mono hun _ (fun _ _ h => h)
      intro _ s' hu
      exact Or.inl ⟨h.1, h.2, hu⟩
    · intro h
      refine Or.inr ⟨fun hpres => ?_, rfl⟩
      by_contra hw
      exact h ⟨hpres, hw⟩
  · intro hd
    refine Or.inr ⟨fun hpres => ?_, rfl⟩
    have hdir := dir_of_pte hpres
    rw [placeOf_fst] at hdir
    exact absurd hdir hd

/-! ### `try_to_share` -/

/-- The place of the address `address` of slot `slot`, for an address inside the slot. -/
def slotPlace (slot address : ℕ) : ℕ × ℕ := (slot * 16 + dirIndex address, tableIndex address)

theorem slotPlace_mem {slot address : ℕ} (h0 : 0 < slot) (h : slot < 64)
    (ha : address < 0x4000000) : slotPlace slot address ∈ places := by
  rw [mem_places, slotPlace, dirIndex, tableIndex]
  omega

/-- The entries of a slot begin at 16 times its number. -/
theorem dirIndex_slot {slot : ℕ} (h : slot < 64) (address : ℕ) :
    dirIndex address + dirIndex (slot * 0x4000000) = (slotPlace slot address).1 := by
  rw [slotPlace, dirIndex, dirIndex]
  omega

theorem offset_slotPlace {slot address : ℕ} (ha : address < 0x4000000) :
    offset (slotPlace slot address) = address / 4096 := by
  rw [offset, slotPlace, dirIndex, tableIndex]
  omega

/-- What `try_to_share` does when it succeeds: the clean page at `p` becomes read-only and is mapped
at `q` too. -/
structure Shared (shield : Prop) (M : MainMemory) (s : Mm) (held : Multiset ℕ) (p q : ℕ × ℕ)
    (s' : Mm) : Prop where
  books : Books shield M s' held
  was : present (s.pte p) ∧ ¬dirty (s.pte p) ∧ 256 ≤ frameOf (s.pte p) ∧ ¬present (s.pte q)
  pte : ∀ r ∈ places, s'.pte r = if r = p ∨ r = q then readOnly (s.pte p) else s.pte r
  kept : Preserved s held s'
  dir : ∀ d, d ≠ q.1 → s'.mem 0 d = s.mem 0 d

theorem Books.shared (B : Books shield M s held) {p q : ℕ × ℕ} (hp : p ∈ places) (hq : q ∈ places)
    (hoff : offset p = offset q) (hpres : present (s.pte p)) (hclean : ¬dirty (s.pte p))
    (hf : 256 ≤ frameOf (s.pte p)) (hdq : present (s.mem 0 q.1)) (habs : ¬present (s.pte q)) :
    Shared shield M s held p q (((s.store (s.table p.1) p.2 (readOnly (s.entry p))).store (s.table q.1) q.2
        (readOnly (s.entry p))).setCount (frameOf (s.entry p) - 256)
        (s.memMap (frameOf (s.entry p) - 256) + 1)) := by
  have hd := dir_of_pte hpres
  have hpte := pte_of_present hd
  have hpq : p ≠ q := by
    intro h
    rw [h] at hpres
    exact habs hpres
  have B' := B.shareFrom hp hq hpq hoff hd hdq (by rw [← hpte]; exact hpres)
    (by rw [← pte_of_present hdq]; exact habs) (by rw [← hpte]; exact hf)
  have B1 := B.reflag hp hd (e := readOnly (s.entry p)) (present_readOnly _) (frameOf_readOnly _)
    (fun _ _ hw => absurd hw (not_writable_readOnly _))
  have hdir := B.ledger.store_dir hp hd (readOnly (s.entry p))
  have htab := B.ledger.store_table hp hd (readOnly (s.entry p)) q.1
  refine ⟨B', ⟨hpres, hclean, hf, habs⟩, ?_, ?_, ?_⟩
  · intro r hr
    show ((s.store (s.table p.1) p.2 (readOnly (s.entry p))).store (s.table q.1) q.2 (readOnly (s.entry p))).pte
      r = _
    rw [← htab, B1.ledger.pte_store hq hr (by rw [hdir]; exact hdq), B.ledger.pte_store hp hr hd, ← hpte]
    by_cases hrq : r = q
    · rw [if_pos hrq, if_pos (Or.inr hrq)]
    · rw [if_neg hrq]
      by_cases hrp : r = p
      · rw [if_pos hrp, if_pos (Or.inl hrp)]
      · rw [if_neg hrp, if_neg (fun h => h.elim hrp hrq)]
  · intro g hg
    show ((s.store (s.table p.1) p.2 _).store (s.table q.1) q.2 _).mem g = _
    rw [store_mem_of_ne _ (ne_table_of_data hg (directory_of_places hq) hdq),
      store_mem_of_ne _ (ne_table_of_data hg (directory_of_places hp) hd)]
  · intro d _
    have hgq := B.ledger.table_ge (directory_of_places hq) hdq
    have hgp := B.ledger.table_ge (directory_of_places hp) hd
    show ((s.store (s.table p.1) p.2 _).store (s.table q.1) q.2 _).mem 0 d = _
    rw [store_mem_of_ne _ (by omega), store_mem_of_ne _ (by omega)]

theorem Shared.after_link {f : ℕ} {s1 s2 : Mm} {p q : ℕ × ℕ} (hp : p ∈ places) (hq : q ∈ places)
    (K : Linked shield M s held q.1 f s1) (C : Shared shield M s1 held p q s2) :
    Shared shield M s held p q s2 := by
  refine ⟨C.books, ?_, ?_, ?_, fun d hd => by rw [C.dir d hd, K.dirs d hd]⟩
  · rw [← K.pte p hp, ← K.pte q hq]
    exact C.was
  · intro r hr
    rw [C.pte r hr, K.pte p hp, K.pte r hr]
  · intro g hg
    rw [C.kept g (K.data g hg), K.kept g hg]

/-- **`try_to_share`** between the slots `a` and `b`. -/
theorem tryToShare_books (B : Books shield M s held) {a b address : ℕ} (ha : a < 64) (ha0 : 0 < a)
    (hb : b < 64) (hb0 : 0 < b) (haddr : address < 0x4000000) :
    wp (tryToShare address (a * 0x4000000) (b * 0x4000000)) (fun r s' => r = false ∧ s' = s ∨ r = true ∧
        Shared shield M s held (slotPlace a address) (slotPlace b address) s')
      (fun e s' => Books shield M s' held ∧ (e = .oom → s' = s)) s := by
  have hp := slotPlace_mem ha0 ha haddr
  have hq := slotPlace_mem hb0 hb haddr
  have hoff : offset (slotPlace a address) = offset (slotPlace b address) := by
    rw [offset_slotPlace haddr, offset_slotPlace haddr]
  have hda := dirIndex_slot ha address
  have hdb := dirIndex_slot hb address
  have hia : tableIndex address = (slotPlace a address).2 := rfl
  have hib : (slotPlace a address).2 = (slotPlace b address).2 := rfl
  have htable : ∀ (s : Mm) d, frameOf (s.mem 0 d) = s.table d := fun _ _ => rfl
  have hentry : ∀ (s : Mm) (p : ℕ × ℕ), s.mem (s.table p.1) p.2 = s.entry p := fun _ _ => rfl
  generalize hpp : slotPlace a address = p at *
  generalize hqq : slotPlace b address = q at *
  simp only [tryToShare, wp_bind, wp_loadWord, wp_ite, wp_get, wp_pure, wp_storeWord, wp_modify,
    wp_throw, hda, hdb, hia, htable, hentry]
  refine ⟨fun _ => Or.inl ⟨trivial, trivial⟩, fun hd => ⟨fun _ => Or.inl ⟨trivial, trivial⟩, fun he =>
    ⟨fun _ => Or.inl ⟨trivial, trivial⟩, fun hf => ?_⟩⟩⟩
  have hd := not_not.1 hd
  obtain ⟨he, hclean⟩ := not_not.1 he
  have hge : 256 ≤ frameOf (s.entry p) := by
    rw [LOW_MEM] at hf
    omega
  have hnr : (frameOf (s.entry p) * 4096 - LOW_MEM) / 2 ^ 12 = frameOf (s.entry p) - 256 := mapNr_frame
  have hpte := pte_of_present hd
  simp only [hnr, store_memMap]
  constructor
  · intro hdq
    rw [hib, hentry]
    refine ⟨fun _ => ⟨B, fun h => by cases h⟩, fun habs => Or.inr ⟨trivial, ?_⟩⟩
    have hres := B.shared hp hq hoff (by rw [hpte]; exact he) (by rw [hpte]; exact hclean)
      (by rw [hpte]; exact hge) hdq (by rw [pte_of_present hdq]; exact habs)
    rw [hib] at hres
    exact hres
  · intro hdq
    apply wp_mono (getFreePage_books B) _ (fun _ _ h => h.elim)
    intro tmp s1 h
    rcases h with ⟨hz, hs1⟩ | ⟨f, htmp, F⟩
    · refine ⟨fun _ => ?_, fun hne => absurd hz hne⟩
      rw [hs1]
      exact ⟨B, fun _ => rfl⟩
    · have hfge := F.main.lowMem_le
      refine ⟨fun hz => by omega, fun _ => ?_⟩
      have K := F.link (directory_of_places hq) hdq
      rw [htmp, show f * 4096 / 4096 = f from by omega]
      refine ⟨fun _ => ⟨K.books, fun h => by cases h⟩, fun _ => Or.inr ⟨trivial, ?_⟩⟩
      have hptek := K.pte p hp
      have hdk : present ((s1.store 0 q.1 (userEntry (f * 4096))).mem 0 p.1) :=
        dir_of_pte (by rw [hptek, hpte]; exact he)
      have hpq : p.1 ≠ q.1 := by
        intro h
        rw [h] at hd
        exact hdq hd
      have htk : (s1.store 0 q.1 (userEntry (f * 4096))).table p.1 = s.table p.1 := by
        rw [store_zero_table, if_neg hpq, F.table]
      have hentk : (s1.store 0 q.1 (userEntry (f * 4096))).entry p = s.entry p := by
        rw [← pte_of_present hdk, hptek, hpte]
      have hres := K.books.shared hp hq hoff (by rw [hptek, hpte]; exact he)
        (by rw [hptek, hpte]; exact hclean) (by rw [hptek, hpte]; exact hge) K.dir
        (by rw [K.pte q hq, pte_of_absent hdq]; exact present_zero)
      rw [K.table, htk, hentk, ← hib] at hres
      exact hres.after_link hp hq K

end OldLinux.Memory
