import OldLinux.Memory.CopyExact
import OldLinux.Memory.DirectoryWords

/-!
# `free_page_tables` takes back a copy

Where every page is in main memory or below it, `free_page_tables` has nothing to panic about and
returns.  After a `copy_page_tables` that ran out of memory it leaves the page directory, the counts
and the entries of the other slots as they were before the copy, whatever part of it had been done.
-/

namespace OldLinux.Memory

open Lib

variable {M : MainMemory} {m : ℕ → ℕ → Word} {s s' : Mm} {held : Multiset ℕ} {k : Kernel}

/-! ### `free_page_tables` returns -/

/-- Every page that is not the kernel's is in main memory. -/
def InMain (M : MainMemory) (s : Mm) : Prop := ∀ f, 256 ≤ f → ∀ q ∈ places, s.Maps f q → M.Has f

/-- What the loops of `free_page_tables` keep. -/
structure Clearing (M : MainMemory) (held : Multiset ℕ) (s s' : Mm) : Prop where
  books : Books True M s' held
  main : InMain M s'
  tables : TablesAs s s'

theorem freeEntry_returns {s0 : Mm} (C : Clearing M held s0 s) {p : ℕ × ℕ} (hp : p ∈ places)
    (hd : present (s.mem 0 p.1)) :
    wp (freeEntry (s.table p.1) p.2) (fun _ s' => Clearing M held s0 s' ∧ s'.mem 0 = s.mem 0)
      (fun _ _ => False) s := by
  have B := C.books
  have hge := B.ledger.table_ge (directory_of_places hp) hd
  have hnot : wp (freeEntry (s.table p.1) p.2) (fun _ _ => True) (fun _ _ => False) s := by
    rw [freeEntry, wp_bind, wp_loadWord, wp_ite]
    refine ⟨fun he => ?_, fun _ => trivial⟩
    rw [wp_bind]
    by_cases hlow : frameOf (s.entry p) < 256
    · have hfree := freePage_low (frameOf (s.entry p) * 4096) (by unfold LOW_MEM; omega) s
      exact wp_mono hfree (fun _ _ _ => trivial) (fun _ _ h => h)
    · have hf : 256 ≤ frameOf (s.entry p) := by omega
      have hm : s.Maps (frameOf (s.entry p)) p := ⟨hd, he, rfl⟩
      have hin := C.main _ hf p hp hm
      refine wp_mono (freePage_spec hf (B.ledger.memMap_ne_zero hp hd he hf)) (fun _ _ _ => trivial) ?_
      rintro _ _ ⟨-, -, hhigh⟩
      have hlt : frameOf (s.mem (s.table p.1) p.2) < M.hi := hin.2
      rw [B.ledger.high] at hhigh
      omega
  apply wp_mono (wp_and (freeEntry_books B hp hd) hnot) _ (fun _ _ h => h.2)
  rintro _ s' ⟨⟨B', hmem⟩, -⟩
  refine ⟨⟨B', ?_, ?_⟩, ?_⟩
  · intro f hf q hq hm
    rw [maps_of_mem hmem, B.ledger.maps_store hp hq hd] at hm
    split at hm
    · exact absurd hm.1 present_zero
    · exact C.main f hf q hq hm
  · intro g h0 hg
    rw [hmem, store_mem_of_ne s (by omega), C.tables g h0 hg]
  · rw [hmem, store_mem_of_ne s (by omega)]

theorem freeEntries_returns {s0 : Mm} (C : Clearing M held s0 s) {d : ℕ} (hdd : d ∈ directory)
    (hd : present (s.mem 0 d)) :
    wp (freeEntries (s.table d) 0 1024) (fun _ s' => Clearing M held s0 s' ∧ s'.mem 0 = s.mem 0)
      (fun _ _ => False) s := by
  refine wp_countdown (freeEntries (s.table d)) (freeEntry (s.table d)) (fun _ => rfl)
    (fun _ _ => rfl) 1024 (fun _ s' => Clearing M held s0 s' ∧ s'.mem 0 = s.mem 0)
    (fun _ _ => False) ?_ 1024 0 s le_rfl ⟨C, rfl⟩
  rintro i s' hi ⟨C', hdir⟩
  have hp : (d, i) ∈ places := mem_places.2 ⟨mem_directory.1 hdd, hi⟩
  have htab : s'.table d = s.table d := congrArg frameOf (congrFun hdir d)
  have hbody := freeEntry_returns C' hp (by rw [hdir]; exact hd)
  rw [htab] at hbody
  apply wp_mono hbody _ (fun _ _ h => h)
  intro _ s'' h
  exact ⟨h.1, h.2.trans hdir⟩

theorem freeDirEntry_returns {s0 : Mm} (C : Clearing M held s0 s) {d : ℕ} (hdd : d ∈ directory) :
    wp (freeDirEntry d) (fun _ s' => Clearing M held s0 s') (fun _ _ => False) s := by
  have B := C.books
  have hnot : wp (freeDirEntry d) (fun _ s' => TablesAs s0 s') (fun _ _ => False) s := by
    rw [freeDirEntry, wp_bind, wp_loadWord, wp_ite]
    refine ⟨fun hd => ?_, fun _ => C.tables⟩
    rw [wp_bind]
    apply wp_mono (wp_and (freeEntries_books B hdd hd) (freeEntries_returns C hdd hd)) _ (fun _ _ h => h.2)
    rintro _ s1 ⟨⟨B1, hzero, _⟩, C1, hdir⟩
    have htab : s1.table d = s.table d := congrArg frameOf (congrFun hdir d)
    have hd1 : present (s1.mem 0 d) := by
      rw [hdir]
      exact hd
    obtain ⟨-, h0⟩ := B1.ledger.unlink hdd hd1 (by
      intro j hj
      rw [htab, hzero j hj]
      exact present_zero)
    have hin := B1.ledger.tableIn d hdd hd1
    rw [wp_bind, wp_loadWord, wp_bind]
    refine wp_mono (freePage_spec (B1.ledger.table_ge hdd hd1) h0) ?_ ?_
    · rintro _ s2 rfl
      rw [wp_storeWord]
      intro g hg0 hg
      rw [store_mem_of_ne _ (by omega)]
      exact C1.tables g hg0 hg
    · rintro _ _ ⟨-, -, hhigh⟩
      have hlt : frameOf (s1.mem 0 d) < M.hi := hin.2
      rw [B1.ledger.high] at hhigh
      omega
  apply wp_mono (wp_and (freeDirEntry_books B hdd) hnot) _ (fun _ _ h => h.2)
  rintro _ s' ⟨⟨B', F⟩, htables⟩
  refine ⟨B', ?_, htables⟩
  intro f hf q hq hm
  rw [maps_iff_pte, F.pte q hq] at hm
  split at hm
  · exact absurd hm.1 present_zero
  · exact C.main f hf q hq (maps_iff_pte.2 hm)

theorem freePageTables_returns (B : Books True M s held) (hmain : InMain M s) {slot size : ℕ}
    (hslot : slot < 64) (hpos : 0 < slot) (hsize : size ≤ 0x4000000) :
    wp (freePageTables (slot * 0x4000000) size) (fun _ s' => TablesAs s s')
      (fun _ _ => False) s := by
  have hdir : dirIndex (slot * 0x4000000) = slot * 16 := by
    rw [dirIndex]
    omega
  have hcnt : dirCount size ≤ 16 := by
    rw [dirCount]
    omega
  rw [freePageTables, if_neg (by omega), if_neg (by omega), hdir]
  have hloop := wp_countdown freeDirEntries freeDirEntry (fun _ => rfl) (fun _ _ => rfl)
    (slot * 16 + 16) (fun i s' => slot * 16 ≤ i ∧ Clearing M held s s') (fun _ _ => False) ?_
    (dirCount size) (slot * 16) s (by omega) ⟨le_rfl, B, hmain, (LowAs.refl s).tables⟩
  · exact wp_mono hloop (fun _ _ h => h.2.tables) (fun _ _ h => h)
  · rintro i s' hi ⟨hle, C⟩
    apply wp_mono (freeDirEntry_returns C (mem_directory.2 ⟨by omega, by omega⟩)) _ (fun _ _ h => h)
    intro _ s'' h
    exact ⟨by omega, h⟩

/-! ### The words of the directory -/

theorem tidy_after {α : Type} {c : MmM α} (hc : Leaves Mm.Tidy c) (h : s.Tidy) :
    (after c s).Tidy := after_of_wp (hc s h)

theorem leaves_take : Leaves Mm.Tidy getFreePage := by
  intro s h
  apply wp_mono (getFreePage_low s) _ (fun _ _ h => h.elim)
  intro _ s' h'
  exact h.of_dir (h'.1 0 (by omega))

theorem mm_take (k : Kernel) : k.take.mm = after getFreePage k.mm := by
  rw [Kernel.take, after]
  cases getFreePage k.mm <;> rfl

theorem mm_put (k : Kernel) (frame address : ℕ) :
    (k.put frame address).mm = after (putPage (frame * 4096) address) k.mm := by
  rw [Kernel.put, after]
  cases putPage (frame * 4096) address k.mm <;> rfl

theorem tidy_call (c : Call) (B : Books True M k.mm k.held) (hc : c.Allowed k)
    (h : k.mm.Tidy) : (k.call c).mm.Tidy := by
  have hdir : ∀ slot < 64, dirIndex (slot * 0x4000000) = slot * 16 := by
    intro slot hslot
    rw [dirIndex]
    omega
  have hcnt : ∀ size ≤ 0x4000000, dirCount size ≤ 16 := by
    intro size hsize
    rw [dirCount]
    omega
  cases c with
  | getFreePage =>
    show k.take.mm.Tidy
    rw [mm_take]
    exact tidy_after leaves_take h
  | freePage frame => exact tidy_after (leaves_freePage _) h
  | putPage frame address =>
    show (k.put frame address).mm.Tidy
    rw [mm_put]
    exact tidy_after (leaves_putPage _ _) h
  | getEmptyPage address => exact tidy_after (leaves_getEmptyPage _) h
  | copyPageTables a b size =>
    obtain ⟨ha, hb0, hb, hsize⟩ := hc
    have hn := hcnt size hsize
    refine tidy_after (leaves_copyPageTables ?_ ?_) h
    · rw [hdir a ha]
      omega
    · rw [hdir b hb]
      omega
  | freePageTables slot size =>
    obtain ⟨h0, hslot, hsize⟩ := hc
    have hn := hcnt size hsize
    refine tidy_after (leaves_freePageTables ?_) h
    rw [hdir slot hslot]
    omega
  | unWpPage table i =>
    obtain ⟨d, hdd, _, hd, htab, _⟩ := hc
    have hge := B.ledger.table_ge hdd hd
    exact tidy_after (leaves_unWpPage (by omega) i) h
  | doWpPage address =>
    have hd := dir_of_pte hc.2
    exact after_of_wp (doWpPage_tidy h hd)
  | writeVerify address => exact tidy_after (leaves_writeVerify _) h
  | tryToShare address a b =>
    obtain ⟨haddr, _, ha, _, hb⟩ := hc
    have hlow : dirIndex address < 16 := by
      rw [dirIndex]
      omega
    refine tidy_after (leaves_tryToShare ?_ ?_) h
    · rw [hdir a ha]
      omega
    · rw [hdir b hb]
      omega

theorem Live.tidy (h : Live M m k) : k.mm.Tidy := by
  induction h with
  | boot => exact boot_tidy M m
  | call c hk hc _ _ ih => exact tidy_call c hk.books hc ih

/-! ### A copy that is taken back -/

/-- A write to a page that is write-protected but not shared sets the write bit and nothing else. -/
theorem doWpPage_in_place (B : Books True M s held) {address : ℕ} (hp : placeOf address ∈ places)
    (hpres : present (s.pte (placeOf address))) (hf : 256 ≤ frameOf (s.pte (placeOf address)))
    (hone : s.count (frameOf (s.pte (placeOf address))) = 1) :
    ∃ s', doWpPage address s = .ok () s' ∧ s'.memMap = s.memMap ∧
      s'.pte (placeOf address) = withWrite (s.pte (placeOf address)) ∧
      (∀ q ∈ places, q ≠ placeOf address → s'.pte q = s.pte q) ∧
      s'.mem (frameOf (s.pte (placeOf address))) = s.mem (frameOf (s.pte (placeOf address))) := by
  have hd := dir_of_pte hpres
  have hpte := pte_of_present hd
  have hm : s.Maps (frameOf (s.pte (placeOf address))) (placeOf address) :=
    maps_iff_pte.2 ⟨hpres, rfl⟩
  have hne := B.ne_table_of_maps trivial hp hm (directory_of_places hp) hd
  have hload : s.mem (frameOf (s.mem 0 (dirIndex address))) (tableIndex address) =
      s.pte (placeOf address) := hpte.symm
  have hwp : wp (doWpPage address) (fun _ s' => s' = s.store (s.table (placeOf address).1)
      (placeOf address).2 (withWrite (s.pte (placeOf address)))) (fun _ _ => False) s := by
    rw [doWpPage, wp_bind, wp_loadWord, unWpPage, wp_bind, wp_loadWord, hload]
    simp only [wp_bind, wp_get, wp_ite, mapNr_frame, count_eq_one_iff]
    refine ⟨fun _ => rfl, fun hno => absurd ⟨?_, hone⟩ hno⟩
    rw [LOW_MEM]
    omega
  obtain ⟨_, s', hrun, hs'⟩ := returns_of_wp hwp
  refine ⟨s', hrun, ?_, ?_, ?_, ?_⟩
  · rw [hs', store_memMap]
  · rw [hs', B.ledger.pte_store hp hp hd, if_pos rfl]
  · intro q hq hqp
    rw [hs', B.ledger.pte_store hp hq hd, if_neg hqp]
  · rw [hs', store_mem_of_ne s hne]

/-- What a fork from the slot `P` that ran out of memory is to leave of the state `s` before it. -/
structure Undone (P : ℕ) (s s' : Mm) : Prop where
  memMap : ∀ k < PAGING_PAGES, s'.memMap k = s.memMap k
  directory : ∀ d < 1024, s'.mem 0 d = s.mem 0 d
  parent : ∀ p ∈ places, p.1 / 16 = P → s'.pte p = s.pte p ∨ s'.pte p = readOnly (s.pte p)
  others : ∀ q ∈ places, q.1 / 16 ≠ P → s'.pte q = s.pte q
  kernel : ∀ t, 0 < t → t < 256 → s'.mem t = s.mem t
  restored : ∀ address, placeOf address ∈ places → (placeOf address).1 / 16 = P →
    present (s'.pte (placeOf address)) → 256 ≤ frameOf (s'.pte (placeOf address)) →
    s'.count (frameOf (s'.pte (placeOf address))) = 1 →
    ∃ s'', doWpPage address s' = .ok () s'' ∧ s''.memMap = s'.memMap ∧
      s''.pte (placeOf address) = withWrite (s'.pte (placeOf address)) ∧
      (∀ q ∈ places, q ≠ placeOf address → s''.pte q = s'.pte q) ∧
      s''.mem (frameOf (s'.pte (placeOf address))) = s'.mem (frameOf (s'.pte (placeOf address)))

/-- The counts follow from the directory and the entries. -/
theorem undone_of_entries {P : ℕ} (B : Books True M s held) (B' : Books True M s' held)
    (hdir : ∀ d < 1024, s'.mem 0 d = s.mem 0 d)
    (hparent : ∀ p ∈ places, p.1 / 16 = P → s'.pte p = s.pte p ∨ s'.pte p = readOnly (s.pte p))
    (hothers : ∀ q ∈ places, q.1 / 16 ≠ P → s'.pte q = s.pte q) (hkernel : TablesAs s s') :
    Undone P s s' := by
  have hmaps : ∀ f, ∀ q ∈ places, s'.Maps f q ↔ s.Maps f q := by
    intro f q hq
    rw [maps_iff_pte, maps_iff_pte]
    by_cases hP : q.1 / 16 = P
    · rcases hparent q hq hP with h | h
      · rw [h]
      · rw [h, present_readOnly, frameOf_readOnly]
    · rw [hothers q hq hP]
  refine ⟨?_, hdir, hparent, hothers, hkernel, ?_⟩
  · intro k hk
    have hpages : PAGING_PAGES = 3840 := by decide
    have hold := B.ledger.exact (256 + k) (by omega) (by omega)
    have hnew := B'.ledger.exact (256 + k) (by omega) (by omega)
    have hentries : s'.entryRefs (256 + k) = s.entryRefs (256 + k) := countIn_congr (hmaps _)
    have htables : s'.tableRefs (256 + k) = s.tableRefs (256 + k) := by
      refine countIn_congr ?_
      intro d hd
      rw [Mm.Points, Mm.Points, Mm.table, Mm.table, hdir d (mem_directory.1 hd).2]
    have hcount : s'.count (256 + k) = s.count (256 + k) := by omega
    rw [Mm.count, Mm.count, show 256 + k - 256 = k from by omega] at hcount
    exact BitVec.eq_of_toNat_eq hcount
  · intro address hp _ hpres hf hone
    exact doWpPage_in_place B' hp hpres hf hone

/-- The slot has no page table. -/
def SlotUnused (s : Mm) (b : ℕ) : Prop := ∀ d, d / 16 = b → ¬present (s.mem 0 d)

/-- **A copy that ran out of memory is taken back.**  `f` is the frame of the new task, which goes
back last. -/
theorem undone_of_freed {a b n k f : ℕ} {s1 s2 s3 s4 : Mm} (hn : n ≤ 16) (hk : k ≤ n)
    (B : Books True M s held) (htidy : s.Tidy) (hunused : SlotUnused s b)
    (F : Fresh True M s held f s1) (C : Copied True a b (fun d => d < k) s1 s2)
    (hlow12 : TablesAs s1 s2) (D : Freed (fun d => b * 16 ≤ d ∧ d < b * 16 + n) s2 s3)
    (hlow23 : TablesAs s2 s3) (hmem : s4.mem = s3.mem) (B4 : Books True M s4 held)
    (htidy4 : s4.Tidy) : Undone a s s4 := by
  have hlow : TablesAs s s4 := by
    intro t h0 ht
    have hge := F.main.lowMem_le
    rw [hmem, hlow23 t h0 ht, hlow12 t h0 ht, F.others t (by omega)]
  have hslot : ∀ q ∈ places, q.1 / 16 = b → s.pte q = 0 := fun q _ hq => pte_of_absent (hunused _ hq)
  have hentry : ∀ q ∈ places, s4.pte q = if b * 16 ≤ q.1 ∧ q.1 < b * 16 + n then 0 else s2.pte q := by
    intro q hq
    rw [pte_of_mem hmem, D.pte q hq]
  refine undone_of_entries B B4 ?_ ?_ ?_ hlow
  · intro d hd
    by_cases hin : b * 16 ≤ d ∧ d < b * 16 + n
    · rw [(htidy d hd).eq_zero (hunused d (by omega)), (htidy4 d hd).eq_zero]
      rw [hmem]
      exact D.gone d hin
    · rw [hmem, D.dir d hin, C.dir d (by omega), F.dir]
  · intro p hp hpa
    rw [hentry p hp]
    by_cases hin : b * 16 ≤ p.1 ∧ p.1 < b * 16 + n
    · rw [if_pos hin, hslot p hp (by omega)]
      exact Or.inl rfl
    · rw [if_neg hin, ← F.pte hp]
      by_cases hd : p.1 % 16 < k
      · exact C.source p hp hpa hd
      · exact Or.inl (C.others p hp (fun h => hd h.2))
  · intro q hq hqa
    rw [hentry q hq]
    by_cases hin : b * 16 ≤ q.1 ∧ q.1 < b * 16 + n
    · rw [if_pos hin, hslot q hq (by omega)]
    · rw [if_neg hin, C.others q hq (by omega), F.pte hq]

end OldLinux.Memory
