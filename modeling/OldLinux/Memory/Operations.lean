import OldLinux.Memory.View

/-!
# The functions of `mm/memory.cc` keep the books

One specification for each function.  `get_free_page` is described by the state it leaves
(`Taken`); the others are proved to leave the books in order, whichever way they end, by following
their code with the rules of `Lib.Command` and naming the elementary change at each store.  The two
loops of `free_page_tables` and the two of `copy_page_tables` are counted loops whose invariants say
how far they have come.
-/

namespace OldLinux.Memory

open Lib

variable {shield : Prop} {M : MainMemory} {s : Mm} {held : Multiset ℕ}

theorem wp_loadWord (t i : ℕ) (Q : Word → Mm → Prop) (E : Trap → Mm → Prop) (s : Mm) :
    wp (loadWord t i) Q E s ↔ Q (s.mem t i) s := Iff.rfl

theorem wp_storeWord (t i : ℕ) (e : Word) (Q : PUnit → Mm → Prop) (E : Trap → Mm → Prop)
    (s : Mm) : wp (storeWord t i e) Q E s ↔ Q ⟨⟩ (s.store t i e) := Iff.rfl

/-! ### `get_free_page` and `free_page` -/

theorem scanFree_some {m : ℕ → BitVec 8} {n k : ℕ} (h : scanFree m n = some k) :
    k < n ∧ m k = 0 ∧ ∀ j, k < j → j < n → m j ≠ 0 := by
  induction n with
  | zero => simp [scanFree] at h
  | succ n ih =>
    unfold scanFree at h
    split at h
    · rename_i h0
      cases h
      exact ⟨by omega, h0, fun j h1 h2 => by omega⟩
    · rename_i h0
      obtain ⟨hlt, hk, hmax⟩ := ih h
      refine ⟨by omega, hk, ?_⟩
      intro j h1 h2
      by_cases hj : j = n
      · rw [hj]
        exact h0
      · exact hmax j h1 (by omega)

theorem scanFree_none {m : ℕ → BitVec 8} {n : ℕ} (h : scanFree m n = none) : ∀ k < n, m k ≠ 0 := by
  induction n with
  | zero =>
    intro k hk
    omega
  | succ n ih =>
    unfold scanFree at h
    split at h
    · cases h
    · rename_i h0
      intro k hk
      by_cases hkn : k = n
      · rw [hkn]
        exact h0
      · exact ih h k (by omega)

/-- What `get_free_page` returns and leaves: nothing, or the last free frame, marked and zeroed. -/
inductive Taken (s : Mm) : ℕ → Mm → Prop
  | none : (∀ k < 3840, s.memMap k ≠ 0) → Taken s 0 s
  | some (k : ℕ) : k < 3840 → s.memMap k = 0 → (∀ j, k < j → j < 3840 → s.memMap j ≠ 0) →
      Taken s ((256 + k) * 4096) ((s.setCount k 1).storePage (256 + k) fun _ => 0)

theorem getFreePage_spec (s : Mm) : wp getFreePage (Taken s) (fun _ _ => False) s := by
  unfold getFreePage
  rw [wp_bind, wp_get]
  split
  · rename_i h
    exact Taken.none (scanFree_none h)
  · rename_i k h
    obtain ⟨hk, h0, hmax⟩ := scanFree_some h
    have hpage : k * 2 ^ 12 + LOW_MEM = (256 + k) * 4096 := by
      unfold LOW_MEM
      omega
    have hframe : (k * 2 ^ 12 + LOW_MEM) / 4096 = 256 + k := by omega
    rw [wp_bind, wp_modify, wp_pure, hframe, hpage]
    exact Taken.some k hk h0 hmax

/-- A frame fresh from `get_free_page`, in terms of the books. -/
structure Fresh (shield : Prop) (M : MainMemory) (s : Mm) (held : Multiset ℕ) (f : ℕ) (s' : Mm) :
    Prop where
  books : Books shield M s' (f ::ₘ held)
  main : M.Has f
  notHeld : f ∉ held
  noTable : s.tableRefs f = 0
  noEntry : s.entryRefs f = 0
  empty : s'.mem f = fun _ => 0
  single : s'.count f = 1
  others : ∀ g, g ≠ f → s'.mem g = s.mem g
  counts : ∀ g, 256 ≤ g → g ≠ f → s'.count g = s.count g
  high : s'.highMemory = s.highMemory

theorem Books.fresh (B : Books shield M s held) {k : ℕ} (hk : k < 3840) (h0 : s.memMap k = 0) :
    Fresh shield M s held (256 + k) ((s.setCount k 1).storePage (256 + k) fun _ => 0) := by
  obtain ⟨-, hin, hnot, htr, her⟩ := B.ledger.take hk h0
  refine ⟨B.take hk h0 _, hin, hnot, htr, her, storePage_mem_self _ _ _, ?_, ?_, ?_, rfl⟩
  · rw [storePage_count]
    have hset := count_setCount (s := s) (show 256 ≤ 256 + k by omega) (show 256 ≤ 256 + k by omega) 1
    rw [show 256 + k - 256 = k from by omega, if_pos rfl] at hset
    exact hset
  · intro g hg
    rw [storePage_mem_of_ne _ hg]
    rfl
  · intro g hge hg
    rw [storePage_count]
    have hset := count_setCount (s := s) hge (show 256 ≤ 256 + k by omega) 1
    rw [show 256 + k - 256 = k from by omega, if_neg hg] at hset
    exact hset

theorem Fresh.dir {s' : Mm} {f : ℕ} (F : Fresh shield M s held f s') : s'.mem 0 = s.mem 0 := by
  have := F.main.lowMem_le
  exact F.others 0 (by omega)

theorem Fresh.table {s' : Mm} {f : ℕ} (F : Fresh shield M s held f s') (d : ℕ) : s'.table d = s.table d := by
  unfold Mm.table
  rw [F.dir]

theorem Fresh.entry {s' : Mm} {f : ℕ} (F : Fresh shield M s held f s') {p : ℕ × ℕ}
    (hp : p ∈ places) (hd : present (s.mem 0 p.1)) : s'.entry p = s.entry p := by
  unfold Mm.entry
  rw [F.table, F.others _ (not_points F.noTable (directory_of_places hp) hd)]

/-- The books when `get_free_page` is called: unchanged, or with one more frame held. -/
theorem getFreePage_books (B : Books shield M s held) : wp getFreePage (fun r s' => (r = 0 ∧ s' = s) ∨
      ∃ f, r = f * 4096 ∧ Fresh shield M s held f s') (fun _ _ => False) s := by
  refine wp_mono (getFreePage_spec s) ?_ (fun _ _ h => h)
  intro r s' h
  cases h with
  | none _ => exact Or.inl ⟨rfl, rfl⟩
  | some k hk h0 _ => exact Or.inr ⟨256 + k, rfl, B.fresh hk h0⟩

theorem freePage_low (a : ℕ) (h : a < LOW_MEM) (s : Mm) :
    wp (freePage a) (fun _ s' => s' = s) (fun _ _ => False) s := by
  unfold freePage
  rw [if_pos h]
  exact rfl

/-- `free_page` of a counted frame lowers its count; a frame past the end of memory panics. -/
theorem freePage_spec {f : ℕ} (hf : 256 ≤ f) (h0 : s.memMap (f - 256) ≠ 0) : wp (freePage (f * 4096))
      (fun _ s' => s' = s.setCount (f - 256) (s.memMap (f - 256) - 1))
      (fun e s' => e ≠ .oom ∧ s' = s ∧ s.highMemory ≤ f * 4096) s := by
  unfold freePage
  have hnr : (f * 4096 - LOW_MEM) / 2 ^ 12 = f - 256 := by
    unfold LOW_MEM
    omega
  rw [if_neg (by unfold LOW_MEM; omega), wp_bind, wp_get, wp_ite]
  constructor
  · intro h
    exact ⟨Trap.noConfusion, rfl, h⟩
  · intro _
    simp only [hnr]
    rw [wp_bind, wp_modify, wp_ite]
    exact ⟨fun _ => rfl, fun h => absurd h0 h⟩

theorem freePage_held (B : Books shield M s held) {f : ℕ} (hf : f ∈ held) : wp (freePage (f * 4096))
      (fun _ s' => s'.mem = s.mem ∧ Books shield M s' (held.erase f)) (fun _ _ => False) s := by
  have hin := B.ledger.heldIn f hf
  obtain ⟨-, h0⟩ := B.ledger.release hf
  refine wp_mono (freePage_spec hin.lowMem_le h0) ?_ ?_
  · rintro _ s' rfl
    exact ⟨rfl, B.release hf⟩
  · rintro _ s' ⟨-, -, hhigh⟩
    have := hin.2
    rw [B.ledger.high] at hhigh
    omega

/-- There is no free frame. -/
def Mm.Full (s : Mm) : Prop := ∀ k < 3840, s.memMap k ≠ 0

theorem getFreePage_full (s : Mm) : wp getFreePage (fun r _ => r = 0 → s.Full) (fun _ _ => False) s := by
  apply wp_mono (getFreePage_spec s) _ (fun _ _ h => h)
  intro r s' h hr
  cases h with
  | none hfull => exact hfull
  | some k _ _ _ => omega

/-! ### `free_page_tables` -/

/-- One round of the inner loop clears one entry of the table, and touches no other word. -/
theorem freeEntry_books (B : Books shield M s held) {p : ℕ × ℕ} (hp : p ∈ places) (hd : present (s.mem 0 p.1)) :
    wp (freeEntry (s.table p.1) p.2)
    (fun _ s' => Books shield M s' held ∧ s'.mem = (s.store (s.table p.1) p.2 0).mem)
      (fun e s' => e ≠ .oom ∧ Books shield M s' held ∧ M.hi < 4096) s := by
  rw [freeEntry, wp_bind, wp_loadWord, wp_ite]
  constructor
  · intro he
    have he' : present (s.entry p) := he
    rw [wp_bind]
    by_cases hlow : frameOf (s.entry p) < 256
    · have hfree := freePage_low (frameOf (s.entry p) * 4096) (by unfold LOW_MEM; omega) s
      refine wp_mono hfree ?_ (fun _ _ h => h.elim)
      intro _ s' hs'
      rw [hs', wp_storeWord]
      exact ⟨B.dropLow hp hd (fun _ => hlow), rfl⟩
    · have hf : 256 ≤ frameOf (s.entry p) := by omega
      have hfree := freePage_spec hf (B.ledger.memMap_ne_zero hp hd he' hf)
      refine wp_mono hfree ?_ ?_
      · intro _ s' hs'
        rw [hs', wp_storeWord]
        exact ⟨B.drop hp hd he' hf, rfl⟩
      · intro _ s' hs'
        obtain ⟨hoom, hs', hhigh⟩ := hs'
        have hlt := B.ledger.mapsLt _ p hp ⟨hd, he', rfl⟩
        rw [B.ledger.high] at hhigh
        rw [hs']
        exact ⟨hoom, B, by omega⟩
  · intro he
    rw [wp_storeWord]
    exact ⟨B.dropLow hp hd (fun h => absurd h he), rfl⟩

/-- The inner loop empties the whole table. -/
theorem freeEntries_books (B : Books shield M s held) {d : ℕ} (hdd : d ∈ directory) (hd : present (s.mem 0 d)) :
    wp (freeEntries (s.table d) 0 1024)
    (fun _ s' => Books shield M s' held ∧ (∀ j < 1024, s'.mem (s.table d) j = 0) ∧
        ∀ f, f ≠ s.table d → s'.mem f = s.mem f)
      (fun e s' => e ≠ .oom ∧ Books shield M s' held ∧ M.hi < 4096) s := by
  have hge := B.ledger.table_ge hdd hd
  have hloop := wp_countdown (freeEntries (s.table d)) (freeEntry (s.table d)) (fun _ => rfl)
    (fun _ _ => rfl) 1024
    (fun i s' => Books shield M s' held ∧ (∀ j < i, s'.mem (s.table d) j = 0) ∧
      ∀ f, f ≠ s.table d → s'.mem f = s.mem f)
    (fun e s' => e ≠ .oom ∧ Books shield M s' held ∧ M.hi < 4096) ?_ 1024 0 s le_rfl
    ⟨B, fun j hj => by omega, fun _ _ => rfl⟩
  · exact hloop
  · intro i s' hi h
    obtain ⟨B', hempty, hsame⟩ := h
    have hp : (d, i) ∈ places := mem_places.2 ⟨mem_directory.1 hdd, hi⟩
    have hdir : s'.mem 0 = s.mem 0 := hsame 0 (by omega)
    have htab : s'.table d = s.table d := congrArg frameOf (congrFun hdir d)
    have hbody := freeEntry_books B' hp (by rw [hdir]; exact hd)
    rw [htab] at hbody
    apply wp_mono hbody _ (fun _ _ h => h)
    intro _ s'' h
    obtain ⟨B'', hmem⟩ := h
    refine ⟨B'', ?_, ?_⟩
    · intro j hj
      rw [hmem, store_mem]
      split
      · rfl
      · rename_i hne
        exact hempty j (by omega)
    · intro f hf
      rw [hmem, store_mem_of_ne s' hf, hsame f hf]

/-- What freeing the page tables of the directory entries in `D` leaves: no entry there, the other
entries as they were, and every frame that is no page table as it was. -/
structure Freed (D : ℕ → Prop) [DecidablePred D] (s s' : Mm) : Prop where
  pte : ∀ q ∈ places, s'.pte q = if D q.1 then 0 else s.pte q
  kept : ∀ f, 256 ≤ f → s.tableRefs f = 0 → s'.mem f = s.mem f ∧ s'.tableRefs f = 0
  dir : ∀ d, ¬D d → s'.mem 0 d = s.mem 0 d
  gone : ∀ d, D d → ¬present (s'.mem 0 d)

/-- One round of the outer loop: a present page table is emptied, unlinked and freed. -/
theorem freeDirEntry_books (B : Books shield M s held) {d : ℕ} (hdd : d ∈ directory) :
    wp (freeDirEntry d) (fun _ s' => Books shield M s' held ∧ Freed (fun d' => d' = d) s s')
      (fun e s' => e ≠ .oom ∧ Books shield M s' held ∧ M.hi < 4096) s := by
  rw [freeDirEntry, wp_bind, wp_loadWord, wp_ite]
  constructor
  · intro hd
    have hge := B.ledger.table_ge hdd hd
    rw [wp_bind]
    apply wp_mono (freeEntries_books B hdd hd) _ (fun _ _ h => h)
    intro _ s1 h
    obtain ⟨B1, hzero, hsame⟩ := h
    have hdir : s1.mem 0 = s.mem 0 := hsame 0 (by omega)
    have htab : s1.table d = s.table d := congrArg frameOf (congrFun hdir d)
    have hd1 : present (s1.mem 0 d) := by
      rw [hdir]
      exact hd
    rw [← htab] at hzero
    have hempty : ∀ j < 1024, ¬present (s1.mem (s1.table d) j) := by
      intro j hj
      rw [hzero j hj]
      exact present_zero
    obtain ⟨-, h0⟩ := B1.ledger.unlink hdd hd1 hempty
    rw [wp_bind, wp_loadWord, wp_bind]
    refine wp_mono (freePage_spec (B1.ledger.table_ge hdd hd1) h0) ?_ ?_
    · intro _ s2 hs2
      rw [hs2, wp_storeWord]
      refine ⟨B1.unlink hdd hd1 hempty, ?_, ?_, ?_, ?_⟩
      · intro q hq
        have hpte := B1.ledger.pte_store_zero (d := d) (w := 0) (fun _ => hzero)
          (fun h => absurd h present_zero) hq
        show (s1.store 0 d 0).pte q = _
        rw [hpte]
        by_cases hqd : q.1 = d
        · rw [if_pos hqd, Mm.pte, hqd, if_pos hd1, Mm.entry, hqd]
          exact hzero _ (mem_places.1 hq).2
        · rw [if_neg hqd]
          refine pte_congr hdir ?_
          intro hdq
          rw [hsame _ (fun h => hqd
            (B.ledger.table_inj (directory_of_places hq) hdd hdq hd h))]
      · intro f hf hnot
        have hne : f ≠ s.table d := Ne.symm (not_points hnot hdd hd)
        refine ⟨?_, ?_⟩
        · show (s1.store 0 d 0).mem f = _
          rw [store_mem_of_ne s1 (by omega), hsame f hne]
        · have hrefs := tableRefs_store_zero (s := s1) hdd 0 f
          have hsameRefs : s1.tableRefs f = s.tableRefs f := by
            refine countIn_congr ?_
            intro d' _
            rw [Mm.Points, Mm.Points, Mm.table, Mm.table, hdir]
          rw [one_zero] at hrefs
          show (s1.store 0 d 0).tableRefs f = 0
          omega
      · intro d' hne
        show (s1.store 0 d 0).mem 0 d' = _
        rw [store_zero_dir, if_neg hne, hdir]
      · intro d' heq
        show ¬present ((s1.store 0 d 0).mem 0 d')
        rw [store_zero_dir, if_pos heq]
        exact present_zero
    · intro _ s2 hs2
      obtain ⟨hoom, hs2, hhigh⟩ := hs2
      have hlt := (B1.ledger.tableIn d hdd hd1).lt
      rw [Mm.table] at hlt
      rw [B1.ledger.high] at hhigh
      rw [hs2]
      exact ⟨hoom, B1, by omega⟩
  · intro hd
    refine ⟨B, ?_, fun f _ hnot => ⟨rfl, hnot⟩, fun _ _ => rfl, ?_⟩
    · intro q _
      split
      · rename_i hqd
        rw [Mm.pte, hqd, if_neg hd]
      · rfl
    · intro d' heq
      rw [heq]
      exact hd

/-- **`free_page_tables`** of any part of a process slot keeps the books. -/
theorem freePageTables_books (B : Books shield M s held) {slot size : ℕ} (hslot : slot < 64)
    (hpos : 0 < slot) (hsize : size ≤ 0x4000000) :
    wp (freePageTables (slot * 0x4000000) size) (fun _ s' => Books shield M s' held ∧
        Freed (fun d => slot * 16 ≤ d ∧ d < slot * 16 + dirCount size) s s')
      (fun e s' => e ≠ .oom ∧ Books shield M s' held ∧ M.hi < 4096) s := by
  have hdir : dirIndex (slot * 0x4000000) = slot * 16 := by
    rw [dirIndex]
    omega
  have hcnt : dirCount size ≤ 16 := by
    rw [dirCount]
    omega
  rw [freePageTables, if_neg (by omega), if_neg (by omega), hdir]
  have hloop := wp_countdown freeDirEntries freeDirEntry
    (fun _ => rfl) (fun _ _ => rfl) (slot * 16 + 16)
    (fun i s' => slot * 16 ≤ i ∧ Books shield M s' held ∧
      Freed (fun d => slot * 16 ≤ d ∧ d < i) s s')
    (fun e s' => e ≠ .oom ∧ Books shield M s' held ∧ M.hi < 4096) ?_ (dirCount size) (slot * 16) s (by omega)
    ⟨le_rfl, B, ?_, fun f _ hnot => ⟨rfl, hnot⟩, fun _ _ => rfl, fun d hd => by omega⟩
  · exact wp_mono hloop (fun _ _ h => h.2) (fun _ _ h => h)
  · intro i s' hi h
    obtain ⟨hle, B', F⟩ := h
    apply wp_mono (freeDirEntry_books B' (mem_directory.2 ⟨by omega, by omega⟩)) _ (fun _ _ h => h)
    intro _ s'' h
    obtain ⟨B'', F'⟩ := h
    refine ⟨by omega, B'', ?_, ?_, ?_, ?_⟩
    · intro q hq
      rw [F'.pte q hq, F.pte q hq]
      split_ifs <;> first | rfl | omega
    · intro f hf hnot
      obtain ⟨hmem, hnot'⟩ := F.kept f hf hnot
      obtain ⟨hmem', hnot''⟩ := F'.kept f hf hnot'
      exact ⟨hmem'.trans hmem, hnot''⟩
    · intro d hd
      rw [F'.dir d (by omega), F.dir d (by omega)]
    · intro d hd
      by_cases hdi : d = i
      · exact F'.gone d hdi
      · rw [F'.dir d hdi]
        exact F.gone d (by omega)
  · intro q _
    rw [if_neg (by omega)]

/-! ### `copy_page_tables` -/

/-- A table `copy_page_tables` reads for the directory entry `toDir`, with the number of entries it
copies: one of the kernel's, of which 160 are copied, or one of another slot, at the same position
of that slot.  The runs that keep write protection copy only the first kernel table. -/
inductive Source (shield : Prop) (s : Mm) (toDir : ℕ) : ℕ → ℕ → Prop
  | kernel (d : ℕ) : d < 4 → toDir % 16 = d → (shield → d = 0) → Source shield s toDir (d + 1) 0xA0
  | slot (d : ℕ) : d ∈ directory → present (s.mem 0 d) → d ≠ toDir → d % 16 = toDir % 16 →
      Source shield s toDir (s.table d) 1024

theorem Source.of_dir {s s' : Mm} {toDir t nr : ℕ} (h : Source shield s toDir t nr)
    (hdir : s'.mem 0 = s.mem 0) : Source shield s' toDir t nr := by
  cases h with
  | kernel d hd hmod hs => exact Source.kernel d hd hmod hs
  | slot d hd hp hne hmod =>
    rw [show s.table d = s'.table d from congrArg frameOf (congrFun hdir.symm d)]
    exact Source.slot d hd (by rw [hdir]; exact hp) hne hmod

/-- The entry of a kernel table, seen from a place at the same offset. -/
theorem Ledger.kernel_offset (L : Ledger M s held) {d i toDir : ℕ} (hd : d < 4) (hi : i < 1024)
    (hmod : toDir % 16 = d) : offset (toDir, i) = frameOf (s.mem (d + 1) i) := by
  rw [(L.kernelEntry d hd i hi).2, offset]
  show toDir % 16 * 1024 + i = _
  rw [hmod]

theorem Source.lt {s : Mm} {toDir t nr : ℕ} (h : Source shield s toDir t nr) : nr ≤ 1024 := by
  cases h <;> omega

theorem Source.ne_table (L : Ledger M s held) {toDir t nr : ℕ} (h : Source shield s toDir t nr)
    (hdd : toDir ∈ directory) (hd : present (s.mem 0 toDir)) : t ≠ s.table toDir := by
  cases h with
  | kernel d hd4 _ _ =>
    have := L.table_ge hdd hd
    omega
  | slot d hdd' hd' hne _ =>
    intro ht
    exact hne (L.table_inj hdd' hdd hd' hd ht)

/-- The entry a copy of the entry `e` is: the same frame, read-only. -/
def copied (e : Word) : Word := if present e then readOnly e else 0

theorem copied_of_absent {e : Word} (h : ¬present e) : copied e = 0 := if_neg h

theorem copied_zero : copied 0 = 0 := copied_of_absent present_zero

/-- What a copy of the first `n` entries of the table `ft` into the zeroed table `tt` leaves. -/
structure TableCopied (ft tt n : ℕ) (s s' : Mm) : Prop where
  target : ∀ j < 1024, s'.mem tt j = if j < n then copied (s.mem ft j) else 0
  source : ∀ j, s'.mem ft j = s.mem ft j ∨ j < n ∧ s'.mem ft j = readOnly (s.mem ft j)
  others : ∀ f, f ≠ ft → f ≠ tt → s'.mem f = s.mem f

theorem copyEntry_books (B : Books shield M s held) {toDir ft nr i : ℕ}
    (hsrc : Source shield s toDir ft nr) (hi : i < nr) (hdd : toDir ∈ directory)
    (hd : present (s.mem 0 toDir)) (habs : s.mem (s.table toDir) i = 0) :
    wp (copyEntry ft (s.table toDir) i) (fun _ s' => Books shield M s' held ∧
        (∀ j, s'.mem (s.table toDir) j = if j = i then copied (s.mem ft i) else s.mem (s.table toDir) j) ∧
        (∀ j, s'.mem ft j = s.mem ft j ∨ j = i ∧ s'.mem ft j = readOnly (s.mem ft j)) ∧
        ∀ f, f ≠ ft → f ≠ s.table toDir → s'.mem f = s.mem f)
      (fun _ _ => False) s := by
  have hi' : i < 1024 := lt_of_lt_of_le hi hsrc.lt
  have hq : (toDir, i) ∈ places := mem_places.2 ⟨mem_directory.1 hdd, hi'⟩
  have habs' : ¬present (s.entry (toDir, i)) := by
    show ¬present (s.mem (s.table toDir) i)
    rw [habs]
    exact present_zero
  have hft := hsrc.ne_table B.ledger hdd hd
  rw [copyEntry, wp_bind, wp_loadWord, wp_ite]
  constructor
  swap
  · intro he
    refine ⟨B, ?_, fun _ => Or.inl rfl, fun _ _ _ => rfl⟩
    intro j
    split
    · rename_i hj
      rw [hj, habs, copied_of_absent he]
    · rfl
  intro he
  have hro : present (readOnly (s.mem ft i)) := (present_readOnly _).2 he
  have hnr : 256 ≤ frameOf (s.mem ft i) →
      ((readOnly (s.mem ft i)).toNat - LOW_MEM) / 2 ^ 12 = frameOf (s.mem ft i) - 256 := by
    intro _
    rw [← frameOf_readOnly, frameOf_eq, LOW_MEM]
    omega
  have hlow : LOW_MEM < (readOnly (s.mem ft i)).toNat ↔ 256 ≤ frameOf (s.mem ft i) := by
    rw [← frameOf_readOnly]
    exact lowMem_lt_iff hro
  -- the memory after a store into the new table, and after one into both tables
  have hone : (∀ j, (s.store (s.table toDir) i (readOnly (s.mem ft i))).mem (s.table toDir) j =
        if j = i then copied (s.mem ft i) else s.mem (s.table toDir) j) ∧
      (∀ j, (s.store (s.table toDir) i (readOnly (s.mem ft i))).mem ft j = s.mem ft j ∨
        j = i ∧ (s.store (s.table toDir) i (readOnly (s.mem ft i))).mem ft j = readOnly (s.mem ft j)) ∧
      ∀ f, f ≠ ft → f ≠ s.table toDir →
      (s.store (s.table toDir) i (readOnly (s.mem ft i))).mem f = s.mem f := by
    refine ⟨?_, ?_, ?_⟩
    · intro j
      rw [store_mem, copied, if_pos he]
      by_cases hj : j = i <;> simp [hj]
    · intro j
      rw [store_mem_of_ne s hft]
      exact Or.inl rfl
    · intro f _ hf
      exact store_mem_of_ne s hf _ _
  have htwo : (∀ j, ((s.store ft i (readOnly (s.mem ft i))).store (s.table toDir) i
        (readOnly (s.mem ft i))).mem (s.table toDir) j =
        if j = i then copied (s.mem ft i) else s.mem (s.table toDir) j) ∧
      (∀ j, ((s.store ft i (readOnly (s.mem ft i))).store (s.table toDir) i
        (readOnly (s.mem ft i))).mem ft j = s.mem ft j ∨
        j = i ∧ ((s.store ft i (readOnly (s.mem ft i))).store (s.table toDir) i
          (readOnly (s.mem ft i))).mem ft j = readOnly (s.mem ft j)) ∧
      ∀ f, f ≠ ft → f ≠ s.table toDir → ((s.store ft i (readOnly (s.mem ft i))).store
        (s.table toDir) i (readOnly (s.mem ft i))).mem f = s.mem f := by
    refine ⟨?_, ?_, ?_⟩
    · intro j
      rw [store_mem, store_mem_of_ne s (Ne.symm hft), copied, if_pos he]
      by_cases hj : j = i <;> simp [hj]
    · intro j
      rw [store_mem_of_ne _ hft, store_mem]
      by_cases hj : j = i
      · rw [if_pos ⟨rfl, hj⟩, hj]
        exact Or.inr ⟨rfl, rfl⟩
      · rw [if_neg (fun h => hj h.2)]
        exact Or.inl rfl
    · intro f hf hf'
      rw [store_mem_of_ne _ hf', store_mem_of_ne _ hf]
  simp only [wp_bind, wp_storeWord, wp_ite, wp_modify, wp_pure, hlow]
  cases hsrc with
  | kernel d hd4 hmod hs =>
    have hoff := B.ledger.kernel_offset hd4 hi' hmod
    have hfr := (B.ledger.kernelEntry d hd4 i hi').2
    refine ⟨fun hf => ?_, fun hf => ?_⟩
    · -- a frame of main memory, reached through the kernel's map of the first 16 MB
      rw [hnr hf]
      have hnot : ¬shield := by
        intro h
        have := hs h
        omega
      have B1 := B.reflagKernel hd4 (i := i) (e := readOnly (s.mem (d + 1) i))
        (present_readOnly _) (frameOf_readOnly _) (fun h => absurd h hnot)
      have hdir : (s.store (d + 1) i (readOnly (s.mem (d + 1) i))).mem 0 = s.mem 0 :=
        store_mem_of_ne s (by omega) _ _
      have htab : (s.store (d + 1) i (readOnly (s.mem (d + 1) i))).table toDir =
          s.table toDir := congrArg frameOf (congrFun hdir toDir)
      have hent : (s.store (d + 1) i (readOnly (s.mem (d + 1) i))).entry (toDir, i) = s.entry (toDir, i) := by
        rw [Mm.entry, htab, store_mem_of_ne s (Ne.symm hft), Mm.entry]
      have B2 := B1.share hq (by rw [hdir]; exact hd) (by rw [hent]; exact habs')
        (e := readOnly (s.mem (d + 1) i)) hro (not_writable_readOnly _)
        (by rw [frameOf_readOnly]; exact hf) (by rw [frameOf_readOnly]; omega)
        (Or.inl (by rw [frameOf_readOnly]; exact hoff)) (fun h => absurd h hnot)
        (fun h => absurd h hnot)
      rw [htab, frameOf_readOnly] at B2
      rw [store_comm s (Ne.symm hft)]
      exact ⟨B2, htwo⟩
    · exact ⟨B.shareLow hq hd habs' (not_writable_readOnly _) (by rw [frameOf_readOnly]; omega)
        (Or.inl (by rw [frameOf_readOnly]; exact hoff)), hone⟩
  | slot d hdd' hd' hne hmod =>
    have hp : (d, i) ∈ places := mem_places.2 ⟨mem_directory.1 hdd', hi'⟩
    have hpq : (d, i) ≠ (toDir, i) := fun h => hne (congrArg Prod.fst h)
    have hoff : offset (d, i) = offset (toDir, i) := by
      rw [offset, offset]
      show d % 16 * 1024 + i = toDir % 16 * 1024 + i
      rw [hmod]
    refine ⟨fun hf => ?_, fun hf => ?_⟩
    · have B1 := B.shareFrom hp hq hpq hoff hd' hd he habs' hf
      rw [hnr hf, store_comm s (Ne.symm hft), store_memMap, store_memMap]
      exact ⟨B1, htwo⟩
    · exact ⟨B.shareLow hq hd habs' (not_writable_readOnly _) (by rw [frameOf_readOnly]; omega)
        (Or.inr ⟨(d, i), hp, ⟨hd', he, (frameOf_readOnly _).symm⟩, hoff⟩), hone⟩

/-- The inner loop copies a whole table into a zeroed one. -/
theorem copyEntries_books (B : Books shield M s held) {toDir ft nr : ℕ}
    (hsrc : Source shield s toDir ft nr) (hdd : toDir ∈ directory) (hd : present (s.mem 0 toDir))
    (hzero : ∀ j < 1024, s.mem (s.table toDir) j = 0) :
    wp (copyEntries ft (s.table toDir) 0 nr)
      (fun _ s' => Books shield M s' held ∧ TableCopied ft (s.table toDir) nr s s')
      (fun _ _ => False) s := by
  have hge := B.ledger.table_ge hdd hd
  have hft := hsrc.ne_table B.ledger hdd hd
  have hft0 : ft ≠ 0 := by
    cases hsrc with
    | kernel d _ _ _ => omega
    | slot d hdd' hd' _ _ =>
      have := B.ledger.table_ge hdd' hd'
      omega
  have hnr := hsrc.lt
  have hloop := wp_countdown (copyEntries ft (s.table toDir))
    (copyEntry ft (s.table toDir)) (fun _ => rfl) (fun _ _ => rfl) nr
    (fun i s' => Books shield M s' held ∧ TableCopied ft (s.table toDir) i s s')
    (fun _ _ => False) ?_ nr 0 s (by omega) ⟨B, ?_, fun _ => Or.inl rfl, fun _ _ _ => rfl⟩
  · rw [Nat.zero_add] at hloop
    exact hloop
  · intro i s' hi h
    obtain ⟨B', C⟩ := h
    have hdir : s'.mem 0 = s.mem 0 := C.others 0 (Ne.symm hft0) (by omega)
    have htab : s'.table toDir = s.table toDir := congrArg frameOf (congrFun hdir toDir)
    have hsame : s'.mem ft i = s.mem ft i := by
      rcases C.source i with h | h
      · exact h
      · omega
    have hbody := copyEntry_books B' (hsrc.of_dir hdir) hi hdd (by rw [hdir]; exact hd)
      (by rw [htab, C.target i (by omega), if_neg (by omega)])
    rw [htab] at hbody
    apply wp_mono hbody _ (fun _ _ h => h)
    intro _ s'' h
    obtain ⟨B'', hto, hfrom, hothers⟩ := h
    refine ⟨B'', ?_, ?_, ?_⟩
    · intro j hj
      rw [hto j, hsame, C.target j hj]
      by_cases hji : j = i
      · rw [if_pos hji, if_pos (by omega), hji]
      · rw [if_neg hji]
        split_ifs <;> first | rfl | omega
    · intro j
      rcases hfrom j with h | ⟨hj, h⟩
      · rw [h]
        exact (C.source j).imp_right (fun h => ⟨by omega, h.2⟩)
      · rw [h, hj, hsame]
        exact Or.inr ⟨by omega, rfl⟩
    · intro f hf hf'
      rw [hothers f hf hf', C.others f hf hf']
  · intro j hj
    rw [hzero j hj, if_neg (by omega)]

/-- The entry `copy_page_tables` from slot `a` reads for the place `q` of another slot. -/
def sourceEntry (s : Mm) (a : ℕ) (q : ℕ × ℕ) : Word :=
  if a = 0 then
    if q.1 % 16 < 4 ∧ q.2 < 0xA0 then s.mem (q.1 % 16 + 1) q.2 else 0
  else s.pte (a * 16 + q.1 % 16, q.2)

/-- What a copy of the directory entries in `D` of slot `a` to slot `b` leaves. -/
structure Copied (shield : Prop) (a b : ℕ) (D : ℕ → Prop) (s s' : Mm) : Prop where
  target : ∀ q ∈ places, q.1 / 16 = b → D (q.1 % 16) → s'.pte q = copied (sourceEntry s a q)
  source : ∀ q ∈ places, q.1 / 16 = a → D (q.1 % 16) → s'.pte q = s.pte q ∨ s'.pte q = readOnly (s.pte q)
  others : ∀ q ∈ places, ¬((q.1 / 16 = a ∨ q.1 / 16 = b) ∧ D (q.1 % 16)) → s'.pte q = s.pte q
  kernel : a = 0 → ∀ d, ¬D d → d < 4 → s'.mem (d + 1) = s.mem (d + 1)
  kept : shield → Untouched s s'
  dir : ∀ d, ¬(d / 16 = b ∧ D (d % 16)) → s'.mem 0 d = s.mem 0 d

theorem Copied.empty {a b : ℕ} {D : ℕ → Prop} (hD : ∀ d, ¬D d) (s : Mm) : Copied shield a b D s s where
  target := fun _ _ _ h => absurd h (hD _)
  source := fun _ _ _ h => absurd h (hD _)
  others := fun _ _ _ => rfl
  kernel := fun _ _ _ _ => rfl
  kept := fun _ => Untouched.refl s
  dir := fun _ _ => rfl

section Copied

variable {a b : ℕ} {D : ℕ → Prop} {s s' s'' : Mm}

/-- A copy unmaps nothing when the places it fills were empty. -/
theorem Copied.maps (C : Copied shield a b D s s')
    (hempty : ∀ q ∈ places, q.1 / 16 = b → D (q.1 % 16) → s.pte q = 0) {f : ℕ}
    {p : ℕ × ℕ} (hp : p ∈ places) (hm : s.Maps f p) : s'.Maps f p := by
  rw [maps_iff_pte] at hm ⊢
  by_cases hD : (p.1 / 16 = a ∨ p.1 / 16 = b) ∧ D (p.1 % 16)
  · obtain ⟨ha | hb, hd⟩ := hD
    · rcases C.source p hp ha hd with h | h
      · rw [h]
        exact hm
      · rw [h, frameOf_readOnly]
        exact ⟨(present_readOnly _).2 hm.1, hm.2⟩
    · rw [hempty p hp hb hd] at hm
      exact absurd hm.1 present_zero
  · rw [C.others p hp hD]
    exact hm

/-- What the copy of one directory entry leaves of the source of another. -/
theorem Copied.sourceEntry_eq {r : ℕ} (C : Copied shield a b (fun d => d = r) s s') (ha : a < 64)
    {q : ℕ × ℕ} (hq : q ∈ places) (hr : q.1 % 16 ≠ r) :
    sourceEntry s' a q = sourceEntry s a q := by
  rw [sourceEntry, sourceEntry]
  by_cases ha0 : a = 0
  · rw [if_pos ha0, if_pos ha0]
    split
    · rename_i h
      rw [C.kernel ha0 _ hr h.1]
    · rfl
  · rw [if_neg ha0, if_neg ha0]
    refine C.others _ (mem_places.2 ⟨⟨by omega, by omega⟩, (mem_places.1 hq).2⟩) ?_
    intro h
    exact hr (by omega)

/-- Two copies of different directory entries, one after the other. -/
theorem Copied.trans {r k : ℕ} (ha : a < 64) (C : Copied shield a b (fun d => d = r) s s')
    (C' : Copied shield a b (fun d => r + 1 ≤ d ∧ d < r + 1 + k) s' s'')
    (hempty : ∀ q ∈ places, q.1 / 16 = b → q.1 % 16 = r → s.pte q = 0) :
    Copied shield a b (fun d => r ≤ d ∧ d < r + (k + 1)) s s'' where
  target := by
    intro q hq hb hd
    by_cases hr : q.1 % 16 = r
    · rw [C'.others q hq (by omega), C.target q hq hb hr]
    · rw [C'.target q hq hb (by omega), C.sourceEntry_eq ha hq hr]
  source := by
    intro q hq hqa hd
    by_cases hr : q.1 % 16 = r
    · rw [C'.others q hq (by omega)]
      exact C.source q hq hqa hr
    · have h := C'.source q hq hqa (by omega)
      rw [C.others q hq (by omega)] at h
      exact h
  others := by
    intro q hq hD
    rw [C'.others q hq (by omega), C.others q hq (by omega)]
  kernel := by
    intro ha0 d hD hd
    rw [C'.kernel ha0 d (by omega) hd, C.kernel ha0 d (by omega) hd]
  kept := by
    intro hs p hp f hm hf
    rw [C'.kept hs p hp f (C.maps hempty hp hm) hf, C.kept hs p hp f hm hf]
  dir := by
    intro d hd
    rw [C'.dir d (by omega), C.dir d (by omega)]

end Copied

/-- One round of the outer loop, once there is a frame for the new page table: it is linked, and the
entries of the source table are copied into it. -/
theorem copyTable_books {a b r f : ℕ} {s1 : Mm} (ha : a < 64) (hb : b < 64) (hb0 : 0 < b)
    (hr : r < 16) (hs : shield → a = 0 → r = 0) (B : Books shield M s held)
    (F : Fresh shield M s held f s1) (habs : ¬present (s.mem 0 (b * 16 + r)))
    (hfrom : present (s.mem 0 (a * 16 + r))) :
    wp (copyEntries (frameOf (s.mem 0 (a * 16 + r))) f 0 (if a = 0 then 0xA0 else 1024))
      (fun _ s' => Books shield M s' held ∧ Copied shield a b (fun d => d = r) s s')
      (fun _ _ => False) (s1.store 0 (b * 16 + r) (userEntry (f * 4096))) := by
  have hge := F.main.lowMem_le
  have hdd : b * 16 + r ∈ directory := mem_directory.2 ⟨by omega, by omega⟩
  have habs1 : ¬present (s1.mem 0 (b * 16 + r)) := by
    rw [F.dir]
    exact habs
  have hzero : ∀ j < 1024, s1.mem f j = 0 := by
    intro j _
    rw [F.empty]
  have hfr : frameOf (userEntry (f * 4096)) = f := by
    have := F.main.lt
    exact frameOf_userEntry_frame (by omega)
  have B2 := F.books.link hdd habs1 (Multiset.mem_cons_self f held)
    (fun j hj => by rw [hzero j hj]; exact present_zero)
  rw [Multiset.erase_cons_head] at B2
  have hpte2 : ∀ q ∈ places, (s1.store 0 (b * 16 + r) (userEntry (f * 4096))).pte q = s.pte q := by
    intro q hq
    rw [F.books.ledger.pte_store_zero (fun h => absurd h habs1)
      (fun _ => by rw [hfr]; exact ⟨F.main, hzero⟩) hq]
    refine pte_congr F.dir ?_
    intro hd
    rw [F.others _ (not_points F.noTable (directory_of_places hq) hd)]
  have hmem2 : ∀ g, g ≠ 0 → g ≠ f → (s1.store 0 (b * 16 + r) (userEntry (f * 4096))).mem g = s.mem g := by
    intro g hg hgf
    rw [store_mem_of_ne s1 hg, F.others g hgf]
  have hlinked : (s1.store 0 (b * 16 + r) (userEntry (f * 4096))).mem 0 (b * 16 + r) =
      userEntry (f * 4096) := by
    rw [store_zero_dir, if_pos rfl]
  have htab : (s1.store 0 (b * 16 + r) (userEntry (f * 4096))).table (b * 16 + r) = f := by
    rw [store_zero_table, if_pos rfl, hfr]
  generalize hs2 : s1.store 0 (b * 16 + r) (userEntry (f * 4096)) = s2 at *
  have hdirs : ∀ d, ¬(d / 16 = b ∧ d % 16 = r) → s2.mem 0 d = s.mem 0 d := by
    intro d hd
    rw [← hs2, store_zero_dir, if_neg (by omega), F.dir]
  have hd2 : present (s2.mem 0 (b * 16 + r)) := by
    rw [hlinked]
    exact present_userEntry _
  have hzero2 : ∀ j < 1024, s2.mem (s2.table (b * 16 + r)) j = 0 := by
    intro j hj
    rw [htab, ← hs2, store_mem_of_ne s1 (by omega)]
    exact hzero j hj
  by_cases ha0 : a = 0
  · -- a kernel table
    subst ha0
    have hr4 : r < 4 := by
      have := (B.ledger.kernelDir (0 * 16 + r) (by omega)).1 hfrom
      omega
    have htr : frameOf (s.mem 0 (0 * 16 + r)) = r + 1 := by
      rw [show 0 * 16 + r = r from by omega]
      exact B.ledger.kernelTable r hr4
    have hcopy := copyEntries_books B2
      (Source.kernel r hr4 (show (b * 16 + r) % 16 = r by omega) (fun h => hs h rfl)) hdd hd2 hzero2
    rw [htab] at hcopy
    rw [if_pos rfl, htr]
    apply wp_mono hcopy _ (fun _ _ h => h)
    intro _ s3 h
    obtain ⟨B3, C⟩ := h
    have hdir3 : s3.mem 0 = s2.mem 0 := C.others 0 (by omega) (by omega)
    have hsame : ∀ q ∈ places, q.1 ≠ b * 16 + r → s3.pte q = s.pte q := by
      intro q hq hne
      rw [← hpte2 q hq]
      refine pte_congr hdir3 ?_
      intro hdq
      have hge' := B2.ledger.table_ge (directory_of_places hq) hdq
      rw [C.others _ (by omega) (fun h => hne
        (B2.ledger.table_inj (directory_of_places hq) hdd hdq hd2 (h.trans htab.symm)))]
    refine ⟨B3, ?_, ?_, ?_, ?_, ?_, fun d hd => by rw [hdir3, hdirs d hd]⟩
    · intro q hq hqb hqr
      have hqd : q.1 = b * 16 + r := by omega
      have hd3 : present (s3.mem 0 q.1) := by
        rw [hdir3, hqd]
        exact hd2
      have ht3 : s3.table q.1 = f := by
        rw [Mm.table, hdir3, hqd]
        exact htab
      rw [pte_of_present hd3, Mm.entry, ht3, C.target _ (mem_places.1 hq).2, sourceEntry, if_pos rfl,
        hqr, hmem2 _ (by omega) (by omega)]
      by_cases h160 : q.2 < 160
      · rw [if_pos h160, if_pos ⟨hr4, h160⟩]
      · rw [if_neg h160, if_neg (fun h => h160 h.2), copied_zero]
    · intro q hq hqa _
      have := (mem_places.1 hq).1
      omega
    · intro q hq hne
      refine hsame q hq ?_
      intro h
      exact hne ⟨Or.inr (by omega), by omega⟩
    · intro _ d hd hd4
      rw [C.others _ (by omega) (by omega), hmem2 _ (by omega) (by omega)]
    · intro _ p hp g hm hg
      have hgf : g ≠ f := by
        intro h
        rw [h] at hm
        exact countIn_eq_zero.1 F.noEntry p hp hm
      rw [C.others g (by omega) hgf, hmem2 g (by omega) hgf]
  · -- the table of another slot
    have hne : a * 16 + r ≠ b * 16 + r := by
      intro h
      rw [h] at hfrom
      exact habs hfrom
    have hda : a * 16 + r ∈ directory := mem_directory.2 ⟨by omega, by omega⟩
    have hdir : s2.mem 0 (a * 16 + r) = s.mem 0 (a * 16 + r) := by
      rw [← hs2, store_zero_dir, if_neg hne, F.dir]
    have hda2 : present (s2.mem 0 (a * 16 + r)) := by
      rw [hdir]
      exact hfrom
    have hta : s2.table (a * 16 + r) = s.table (a * 16 + r) := congrArg frameOf hdir
    have hgea := B.ledger.table_ge hda hfrom
    have htf : s.table (a * 16 + r) ≠ f := not_points F.noTable hda hfrom
    have hcopy := copyEntries_books B2 (Source.slot (a * 16 + r) hda hda2 hne (by omega)) hdd hd2 hzero2
    rw [htab, hta] at hcopy
    rw [if_neg ha0]
    apply wp_mono hcopy _ (fun _ _ h => h)
    intro _ s3 h
    obtain ⟨B3, C⟩ := h
    have hdir3 : s3.mem 0 = s2.mem 0 := C.others 0 (by omega) (by omega)
    refine ⟨B3, ?_, ?_, ?_, fun h => absurd h ha0, ?_, fun d hd => by rw [hdir3, hdirs d hd]⟩
    · intro q hq hqb hqr
      have hqd : q.1 = b * 16 + r := by omega
      have hd3 : present (s3.mem 0 q.1) := by
        rw [hdir3, hqd]
        exact hd2
      have ht3 : s3.table q.1 = f := by
        rw [Mm.table, hdir3, hqd]
        exact htab
      rw [pte_of_present hd3, Mm.entry, ht3, C.target _ (mem_places.1 hq).2,
        if_pos (mem_places.1 hq).2, sourceEntry, if_neg ha0, hqr, pte_of_present hfrom, Mm.entry,
        hmem2 _ (by omega) htf]
    · intro q hq hqa hqr
      have hqd : q.1 = a * 16 + r := by omega
      have hd3 : present (s3.mem 0 q.1) := by
        rw [hdir3, hqd]
        exact hda2
      have ht3 : s3.table q.1 = s.table (a * 16 + r) := by
        rw [Mm.table, hdir3, hqd]
        exact hta
      rw [pte_of_present hd3, Mm.entry, ht3, pte_of_present (by rw [hqd]; exact hfrom), Mm.entry, hqd]
      have hsrc := C.source q.2
      rw [hmem2 _ (by omega) htf] at hsrc
      exact hsrc.imp_right And.right
    · intro q hq hD
      rw [← hpte2 q hq]
      refine pte_congr hdir3 ?_
      intro hdq
      have hqb : q.1 ≠ b * 16 + r := fun h => hD ⟨Or.inr (by omega), by omega⟩
      have hqa : q.1 ≠ a * 16 + r := fun h => hD ⟨Or.inl (by omega), by omega⟩
      have htq : s2.table q.1 ≠ s.table (a * 16 + r) := fun h => hqa
        (B2.ledger.table_inj (directory_of_places hq) hda hdq hda2 (h.trans hta.symm))
      have htq' : s2.table q.1 ≠ f := fun h => hqb
        (B2.ledger.table_inj (directory_of_places hq) hdd hdq hd2 (h.trans htab.symm))
      rw [C.others _ htq htq']
    · intro hsh p hp g hm hg
      have hgf : g ≠ f := by
        intro h
        rw [h] at hm
        exact countIn_eq_zero.1 F.noEntry p hp hm
      rw [C.others g (B.ne_table_of_maps hsh hp hm hda hfrom) hgf, hmem2 g (by omega) hgf]

/-- The outer loop.  A panic or an out-of-memory return in the middle leaves the books in order too:
the tables copied so far are linked and counted. -/
theorem copyDirEntries_books {a b : ℕ} (ha : a < 64) (hb : b < 64) (hb0 : 0 < b) :
    ∀ (n r : ℕ) (s : Mm), Books shield M s held → r + n ≤ 16 → (shield → a = 0 → r + n ≤ 1) →
      wp (copyDirEntries (if a = 0 then 0xA0 else 1024) (a * 16 + r) (b * 16 + r) n)
        (fun ret s' => Books shield M s' held ∧ ∃ k ≤ n, (ret = 0 ∧ k = n ∨ ret = -1 ∧ s'.Full) ∧
          Copied shield a b (fun d => r ≤ d ∧ d < r + k) s s')
        (fun e s' => e ≠ .oom ∧ Books shield M s' held ∧
          ∃ d, b * 16 + r ≤ d ∧ d < b * 16 + 16 ∧ present (s.mem 0 d)) s := by
  intro n
  induction n with
  | zero =>
    intro r s B _ _
    exact ⟨B, 0, le_rfl, Or.inl ⟨rfl, rfl⟩, Copied.empty (fun d => by omega) s⟩
  | succ n ih =>
    intro r s B hr hs
    have hnext : ∀ s' : Mm, Books shield M s' held → Copied shield a b (fun d => d = r) s s' →
        (∀ q ∈ places, q.1 / 16 = b → q.1 % 16 = r → s.pte q = 0) →
        wp (copyDirEntries (if a = 0 then 0xA0 else 1024) (a * 16 + r + 1) (b * 16 + r + 1) n)
          (fun ret s' => Books shield M s' held ∧
            ∃ k ≤ n + 1, (ret = 0 ∧ k = n + 1 ∨ ret = -1 ∧ s'.Full) ∧
            Copied shield a b (fun d => r ≤ d ∧ d < r + k) s s')
          (fun e s' => e ≠ .oom ∧ Books shield M s' held ∧
            ∃ d, b * 16 + r ≤ d ∧ d < b * 16 + 16 ∧ present (s.mem 0 d)) s' := by
      intro s' B' C hempty
      rw [show a * 16 + r + 1 = a * 16 + (r + 1) from by omega,
        show b * 16 + r + 1 = b * 16 + (r + 1) from by omega]
      have hrest := ih (r + 1) s' B' (by omega) (fun h1 h2 => by have := hs h1 h2; omega)
      apply wp_mono hrest
      · intro ret s'' h
        obtain ⟨B'', k, hk, hret, C'⟩ := h
        exact ⟨B'', k + 1, by omega, hret.imp_left (fun h => ⟨h.1, by omega⟩), C.trans ha C' hempty⟩
      · intro e s'' h
        obtain ⟨hoom, B'', d, hle, hlt, hd⟩ := h
        rw [C.dir d (by omega)] at hd
        exact ⟨hoom, B'', d, by omega, hlt, hd⟩
    have hrow : ¬present (s.mem 0 (b * 16 + r)) → ∀ q ∈ places, q.1 / 16 = b → q.1 % 16 = r → s.pte q = 0 := by
      intro habs q _ hqb hqr
      rw [show b * 16 + r = q.1 from by omega] at habs
      exact pte_of_absent habs
    rw [copyDirEntries, wp_bind, wp_loadWord, wp_ite]
    refine ⟨fun hd => ⟨Trap.noConfusion, B, b * 16 + r, le_rfl, by omega, hd⟩, fun habs => ?_⟩
    rw [wp_bind, wp_loadWord, wp_ite]
    constructor
    · intro hfrom
      rw [wp_bind]
      apply wp_mono (wp_and (getFreePage_books B) (getFreePage_full s)) _ (fun _ _ h => h.1.elim)
      intro page s1 h
      obtain ⟨h, hfull⟩ := h
      rw [wp_ite]
      rcases h with ⟨hz, hs1⟩ | ⟨f, hpage, F⟩
      · refine ⟨fun _ => ?_, fun hne => absurd hz hne⟩
        rw [hs1]
        exact ⟨B, 0, by omega, Or.inr ⟨rfl, hfull hz⟩, Copied.empty (fun d => by omega) s⟩
      · have hge := F.main.lowMem_le
        refine ⟨fun hz => by omega, fun _ => ?_⟩
        rw [wp_bind, wp_storeWord, wp_bind, hpage, show f * 4096 / 4096 = f from by omega]
        have hcopy := copyTable_books ha hb hb0 (by omega)
          (fun h1 h2 => by have := hs h1 h2; omega) B F habs hfrom
        apply wp_mono hcopy _ (fun _ _ h => h.elim)
        intro _ s3 h
        exact hnext s3 h.1 h.2 (hrow habs)
    · -- nothing to copy for this directory entry
      intro hfrom
      refine hnext s B ?_ (hrow habs)
      refine ⟨?_, fun _ _ _ _ => Or.inl rfl, fun _ _ _ => rfl, fun _ _ _ _ => rfl,
        fun _ => Untouched.refl s, fun _ _ => rfl⟩
      intro q hq hqb hqr
      rw [hrow habs q hq hqb hqr, sourceEntry]
      split
      · rename_i ha0
        have hr4 : ¬r < 4 := by
          intro h
          rw [show a * 16 + r = r from by omega] at hfrom
          exact hfrom ((B.ledger.kernelDir r (by omega)).2 h)
        rw [if_neg (fun h => hr4 (hqr ▸ h.1)), copied_zero]
      · rw [hqr, pte_of_absent hfrom, copied_zero]

/-- **`copy_page_tables`** between slots keeps the books, whichever way it ends. -/
theorem copyPageTables_books (B : Books shield M s held) {a b size : ℕ} (ha : a < 64) (hb : b < 64)
    (hb0 : 0 < b) (hsize : size ≤ 0x4000000) (hs : shield → a = 0 → size ≤ 0x400000) :
    wp (copyPageTables (a * 0x4000000) (b * 0x4000000) size)
      (fun ret s' => Books shield M s' held ∧ ∃ k ≤ dirCount size,
        (ret = 0 ∧ k = dirCount size ∨ ret = -1 ∧ s'.Full) ∧ Copied shield a b (fun d => d < k) s s')
      (fun e s' => e ≠ .oom ∧ Books shield M s' held ∧
        ∃ d, b * 16 ≤ d ∧ d < b * 16 + 16 ∧ present (s.mem 0 d)) s := by
  have hcnt : dirCount size ≤ 16 ∧ (size ≤ 0x400000 → dirCount size ≤ 1) := by
    rw [dirCount]
    omega
  have hda : dirIndex (a * 0x4000000) = a * 16 + 0 := by
    rw [dirIndex]
    omega
  have hdb : dirIndex (b * 0x4000000) = b * 16 + 0 := by
    rw [dirIndex]
    omega
  have hnr : (if a * 0x4000000 = 0 then 0xA0 else 1024) = if a = 0 then 0xA0 else 1024 := by
    by_cases h : a = 0
    · rw [if_pos h, if_pos (by omega)]
    · rw [if_neg h, if_neg (by omega)]
  rw [copyPageTables, if_neg (by omega), hda, hdb, hnr]
  have hloop := copyDirEntries_books ha hb hb0 (dirCount size) 0 s B (by omega) (fun h1 h2 => by
    have := hs h1 h2
    omega)
  simpa only [Nat.zero_le, true_and, Nat.zero_add, Nat.add_zero] using hloop

end OldLinux.Memory
