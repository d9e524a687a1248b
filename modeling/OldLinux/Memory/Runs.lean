import OldLinux.Memory.Room

/-!
# Runs of the memory manager

A run starts at `mem_init` and calls the functions of `mm/memory.cc` in any order, each where its
callers call it: `free_page` and `put_page` on a frame the kernel holds, `put_page` and
`get_empty_page` at an address that is not mapped, `un_wp_page` and `do_wp_page` on a present page,
everything on the slots 1 to 63 except that `copy_page_tables` may copy from slot 0.  A call that
stops in `panic` or `oom` is a step too: the run goes on with the state it left.

Beside the memory a run keeps the multiset of the frames in the kernel's hands.
-/

namespace OldLinux.Memory

open Lib

/-! ### Start-up -/

theorem wp_fillCounts (c : BitVec 8) (n i : ℕ) (s : Mm) : wp (fillCounts c i n)
      (fun _ s' => s' = { s with memMap := fun k => if i ≤ k ∧ k < i + n then c else s.memMap k })
      (fun _ _ => False) s := by
  induction n generalizing i s with
  | zero =>
    show s = _
    have hnone : ∀ k, ¬(i ≤ k ∧ k < i + 0) := fun k => by omega
    simp only [hnone, if_false]
  | succ n ih =>
    rw [fillCounts, wp_bind, wp_modify]
    apply wp_mono (ih (i + 1) (s.setCount i c)) _ (fun _ _ h => h)
    intro _ s' hs'
    rw [hs', Mm.setCount]
    congr 1
    funext k
    simp only [Function.update_apply]
    split_ifs <;> first | rfl | omega

/-- A state as `mem_init` leaves it: main memory marked free, the rest used. -/
def Initial (startMem endMem : ℕ) (s s' : Mm) : Prop :=
  s'.mem = s.mem ∧ s'.highMemory = endMem ∧ ∀ k < PAGING_PAGES, s'.memMap k =
    if mapNr startMem ≤ k ∧ k < mapNr startMem + (endMem - startMem) / 2 ^ 12 then 0 else USED

theorem memInit_spec (startMem endMem : ℕ) (s : Mm) :
    Initial startMem endMem s (after (memInit startMem endMem) s) := by
  apply after_of_wp
  rw [memInit]
  unfold Initial
  generalize PAGING_PAGES = pages
  rw [wp_bind, wp_modify, wp_bind]
  apply wp_mono (wp_fillCounts USED pages 0 _) _ (fun _ _ h => h.elim)
  intro _ s1 hs1
  apply wp_mono (wp_fillCounts 0 _ (mapNr startMem) s1) _ (fun _ _ h => h.elim)
  intro _ s2 hs2
  rw [hs2, hs1]
  refine ⟨rfl, rfl, ?_⟩
  intro k hk
  simp only [Nat.zero_le, true_and, Nat.zero_add, hk, if_true]

variable {M : MainMemory}

/-- The state at boot, for the main memory `M` and whatever the other frames hold. -/
def MainMemory.boot (M : MainMemory) (m : ℕ → ℕ → Word) : Mm :=
  bootState m (M.lo * 4096) (M.hi * 4096)

theorem boot_spec (M : MainMemory) (m : ℕ → ℕ → Word) :
    (M.boot m).mem = setupPaging m ∧ (M.boot m).highMemory = M.hi * 4096 ∧
      ∀ f, 256 ≤ f → f < 4096 → (M.boot m).count f = M.base f := by
  obtain ⟨hmem, hhigh, hcount⟩ :=
    memInit_spec (M.lo * 4096) (M.hi * 4096) ⟨fun _ => 0, 0, setupPaging m⟩
  have hpages : PAGING_PAGES = 3840 := by decide
  rw [← bootState, ← MainMemory.boot] at hmem hhigh hcount
  rw [hpages] at hcount
  refine ⟨hmem, hhigh, ?_⟩
  intro f h1 h2
  have hk := hcount (f - 256) (by omega)
  have hlo := M.lowMem_le
  have hnr : mapNr (M.lo * 4096) = M.lo - 256 := mapNr_frame
  have hsize : (M.hi * 4096 - M.lo * 4096) / 2 ^ 12 = M.hi - M.lo := by omega
  rw [hnr, hsize] at hk
  have hrange : (M.lo - 256 ≤ f - 256 ∧ f - 256 < M.lo - 256 + (M.hi - M.lo)) ↔ M.Has f := by
    rw [MainMemory.Has]
    omega
  rw [Mm.count, MainMemory.base, hk]
  by_cases hf : M.Has f
  · rw [if_pos (hrange.2 hf), if_pos hf]
    rfl
  · rw [if_neg (fun h => hf (hrange.1 h)), if_neg hf]
    rfl

attribute [irreducible] MainMemory.boot

theorem boot_unlinked (M : MainMemory) (m : ℕ → ℕ → Word) {d : ℕ} (hd : d ∈ directory) :
    ¬present ((M.boot m).mem 0 d) := by
  have := mem_directory.1 hd
  rw [(boot_spec M m).1, setupPaging, if_pos rfl, if_neg (by omega)]
  exact present_zero

theorem boot_pte (M : MainMemory) (m : ℕ → ℕ → Word) {q : ℕ × ℕ} (hq : q ∈ places) :
    (M.boot m).pte q = 0 := pte_of_absent (boot_unlinked M m (directory_of_places hq))

/-- **The books are in order at boot.** -/
theorem boot_books (shield : Prop) (M : MainMemory) (m : ℕ → ℕ → Word) : Books shield M (M.boot m) 0 := by
  obtain ⟨hmem, hhigh, hcount⟩ := boot_spec M m
  have hdir : ∀ d, 4 ≤ d → ¬present ((M.boot m).mem 0 d) := by
    intro d hd
    rw [hmem, setupPaging, if_pos rfl, if_neg (by omega)]
    exact present_zero
  have hkernel : ∀ d < 4, (M.boot m).mem 0 d = userEntry ((d + 1) * 4096) := by
    intro d hd
    rw [hmem, setupPaging, if_pos rfl, if_pos hd]
  have hnomap : ∀ f, ∀ p ∈ places, ¬(M.boot m).Maps f p := by
    intro f p hp hm
    have := mem_places.1 hp
    exact hdir p.1 (by omega) hm.1
  have hnotable : ∀ f, (M.boot m).tableRefs f = 0 := by
    intro f
    refine countIn_eq_zero.2 ?_
    intro d hd hp
    have := mem_directory.1 hd
    exact hdir d (by omega) hp.1
  have hnoentry : ∀ f, (M.boot m).entryRefs f = 0 := fun f => countIn_eq_zero.2 (hnomap f)
  have hentry : ∀ d < 4, ∀ j, (M.boot m).mem (d + 1) j = userEntry ((d * 1024 + j) * 4096) := by
    intro d hd j
    rw [hmem, setupPaging, if_neg (by omega), if_pos (by omega), show d + 1 - 1 = d from by omega]
  refine ⟨⟨hhigh, ?_, ?_, ?_, ?_, ?_, ?_, ?_, ?_, ?_⟩, ?_, ?_, ?_⟩
  · intro d _
    by_cases hd4 : d < 4
    · rw [hkernel d hd4]
      simp only [present_userEntry, hd4]
    · simp only [hdir d (by omega), hd4]
  · intro d hd
    rw [Mm.table, hkernel d hd]
    exact frameOf_userEntry_frame (by omega)
  · intro d hd j hj
    rw [hentry d hd j]
    exact ⟨present_userEntry _, frameOf_userEntry_frame (by omega)⟩
  · intro d hd hp
    have := mem_directory.1 hd
    exact absurd hp (hdir d (by omega))
  · intro f h1 h2
    rw [hcount f h1 h2, hnoentry, hnotable, Multiset.count_zero]
    rfl
  · intro f
    rw [hnotable, Multiset.count_zero]
    omega
  · intro f hf
    exact absurd hf (Multiset.notMem_zero f)
  · intro f
    exact ⟨0, fun p hp hm => absurd hm (hnomap f p hp)⟩
  · intro f p hp hm
    exact absurd hm (hnomap f p hp)
  · intro _ p hp f hm
    exact absurd hm (hnomap f p hp)
  · intro _ f _ p hp hm
    exact absurd hm (hnomap f p hp)
  · intro _ d hd j _
    rw [hentry d hd j]
    exact writable_userEntry _

/-! ### Calls -/

/-- The calls a run is made of. -/
inductive Call where
  | getFreePage
  | freePage (frame : ℕ)
  | putPage (frame address : ℕ)
  | getEmptyPage (address : ℕ)
  | copyPageTables (fromSlot toSlot size : ℕ)
  | freePageTables (slot size : ℕ)
  | unWpPage (table i : ℕ)
  | doWpPage (address : ℕ)
  | writeVerify (address : ℕ)
  | tryToShare (address fromSlot toSlot : ℕ)

/-- The memory, and the frames in the kernel's hands. -/
structure Kernel where
  mm : Mm
  held : Multiset ℕ

/-- The address lies in one of the slots 1 to 63. -/
def InSlots (address : ℕ) : Prop := 0x4000000 ≤ address ∧ address < 2 ^ 32

/-- The page of an address is present. -/
def Mm.mapped (s : Mm) (address : ℕ) : Prop := present (s.pte (placeOf address))

theorem placeOf_mem {address : ℕ} (h : InSlots address) : placeOf address ∈ places := by
  obtain ⟨h1, h2⟩ := h
  rw [mem_places, placeOf, dirIndex, tableIndex]
  omega

/-- When a call may be made. -/
def Call.Allowed (k : Kernel) : Call → Prop
  | .getFreePage => True
  | .freePage frame => frame ∈ k.held
  | .putPage frame address => frame ∈ k.held ∧ InSlots address ∧ ¬k.mm.mapped address
  | .getEmptyPage address => InSlots address ∧ ¬k.mm.mapped address
  | .copyPageTables fromSlot toSlot size =>
    fromSlot < 64 ∧ 0 < toSlot ∧ toSlot < 64 ∧ size ≤ 0x4000000
  | .freePageTables slot size => 0 < slot ∧ slot < 64 ∧ size ≤ 0x4000000
  | .unWpPage table i => ∃ d ∈ directory, i < 1024 ∧ present (k.mm.mem 0 d) ∧
      k.mm.table d = table ∧ present (k.mm.mem table i)
  | .doWpPage address => InSlots address ∧ k.mm.mapped address
  | .writeVerify address => InSlots address
  | .tryToShare address fromSlot toSlot => address < 0x4000000 ∧
      0 < fromSlot ∧ fromSlot < 64 ∧ 0 < toSlot ∧ toSlot < 64

/-- The calls whose copies from slot 0 stay inside its first page table, as those of `copy_mem` do:
the segments of task 0 end at 640 kB. -/
def Call.OnSlots : Call → Prop
  | .copyPageTables fromSlot _ size => fromSlot = 0 → size ≤ 0x400000
  | _ => True

/-- The frame `get_free_page` returned, if it returned one, joins the held ones. -/
def Kernel.take (k : Kernel) : Kernel :=
  match getFreePage k.mm with
  | .ok page s => ⟨s, if page = 0 then k.held else (page / 4096) ::ₘ k.held⟩
  | .error _ s => ⟨s, k.held⟩

/-- The frame leaves the held ones unless `put_page` returned 0. -/
def Kernel.put (k : Kernel) (frame address : ℕ) : Kernel :=
  match putPage (frame * 4096) address k.mm with
  | .ok r s => ⟨s, if r = 0 then k.held else k.held.erase frame⟩
  | .error _ s => ⟨s, k.held⟩

/-- What a call leaves. -/
def Kernel.call (k : Kernel) : Call → Kernel
  | .getFreePage => k.take
  | .freePage frame => ⟨after (freePage (frame * 4096)) k.mm, k.held.erase frame⟩
  | .putPage frame address => k.put frame address
  | .getEmptyPage address => ⟨after (getEmptyPage address) k.mm, k.held⟩
  | .copyPageTables fromSlot toSlot size =>
    ⟨after (copyPageTables (fromSlot * 0x4000000) (toSlot * 0x4000000) size) k.mm, k.held⟩
  | .freePageTables slot size => ⟨after (freePageTables (slot * 0x4000000) size) k.mm, k.held⟩
  | .unWpPage table i => ⟨after (unWpPage table i) k.mm, k.held⟩
  | .doWpPage address => ⟨after (doWpPage address) k.mm, k.held⟩
  | .writeVerify address => ⟨after (writeVerify address) k.mm, k.held⟩
  | .tryToShare address fromSlot toSlot =>
    ⟨after (tryToShare address (fromSlot * 0x4000000) (toSlot * 0x4000000)) k.mm, k.held⟩

/-- The states a run of calls of the kind `P` reaches from boot. -/
inductive Reached (M : MainMemory) (m : ℕ → ℕ → Word) (P : Call → Prop) : Kernel → Prop
  | boot : Reached M m P ⟨M.boot m, 0⟩
  | call {k : Kernel} (c : Call) : Reached M m P k → c.Allowed k → P c → Reached M m P (k.call c)

/-! ### Every call keeps the books -/

section Calls

variable {shield : Prop} {k : Kernel}

theorem take_books (B : Books shield M k.mm k.held) : Books shield M k.take.mm k.take.held := by
  have h := getFreePage_books B
  rw [Kernel.take]
  cases hrun : getFreePage k.mm with
  | ok page s =>
    rw [wp, hrun] at h
    rcases h with ⟨hz, hs⟩ | ⟨f, hpage, F⟩
    · show Books shield M s (if page = 0 then k.held else _)
      rw [if_pos hz, hs]
      exact B
    · have hge := F.main.lowMem_le
      show Books shield M s (if page = 0 then k.held else _)
      rw [if_neg (by omega), hpage, show f * 4096 / 4096 = f from by omega]
      exact F.books
  | error e s =>
    rw [wp, hrun] at h
    exact h.elim

theorem put_books (B : Books shield M k.mm k.held) {frame address : ℕ} (hf : frame ∈ k.held)
    (haddr : InSlots address) (habs : ¬k.mm.mapped address) :
    Books shield M (k.put frame address).mm (k.put frame address).held := by
  have h := putPage_books B (placeOf_mem haddr) habs hf
  have hge := (B.ledger.heldIn frame hf).lowMem_le
  rw [Kernel.put]
  cases hrun : putPage (frame * 4096) address k.mm with
  | ok r s =>
    rw [wp, hrun] at h
    show Books shield M s (if r = 0 then k.held else _)
    rcases h with ⟨hz, hs⟩ | ⟨hr, C⟩
    · rw [if_pos hz, hs]
      exact B
    · rw [if_neg (by omega)]
      exact C.books
  | error e s =>
    rw [wp, hrun] at h
    exact h.elim

theorem after_books {α : Type} {held : Multiset ℕ} {c : MmM α} {s : Mm}
    (h : wp c (fun _ s' => Books shield M s' held) (fun _ s' => Books shield M s' held) s) :
    Books shield M (after c s) held := after_of_wp h

/-- A call that leaves the state alone when it stops. -/
theorem books_of_stop {held : Multiset ℕ} {s : Mm} (B : Books shield M s held) :
    ∀ (_ : Trap) (s' : Mm), s' = s → Books shield M s' held := by
  intro _ s' hs'
  rw [hs']
  exact B

theorem copyPageTables_call (B : Books shield M k.mm k.held) {a b size : ℕ}
    (h : (Call.copyPageTables a b size).Allowed k)
    (hs : shield → (Call.copyPageTables a b size).OnSlots) :
    Books shield M (after (copyPageTables (a * 0x4000000) (b * 0x4000000) size) k.mm) k.held := by
  obtain ⟨ha, hb0, hb, hsize⟩ := h
  have hcall := copyPageTables_books B ha hb hb0 hsize hs
  exact after_books (wp_mono hcall (fun _ _ h => h.1) (fun _ _ h => h.2.1))

theorem freePageTables_call (B : Books shield M k.mm k.held) {slot size : ℕ}
    (h : (Call.freePageTables slot size).Allowed k) :
    Books shield M (after (freePageTables (slot * 0x4000000) size) k.mm) k.held := by
  obtain ⟨h0, hslot, hsize⟩ := h
  have hcall := freePageTables_books B hslot h0 hsize
  exact after_books (wp_mono hcall (fun _ _ h => h.1) (fun _ _ h => h.2.1))

theorem unWpPage_call (B : Books shield M k.mm k.held) {table i : ℕ} (h : (Call.unWpPage table i).Allowed k) :
    Books shield M (after (unWpPage table i) k.mm) k.held := by
  obtain ⟨d, hdd, hi, hd, htab, he⟩ := h
  have hp : (d, i) ∈ places := mem_places.2 ⟨mem_directory.1 hdd, hi⟩
  have hpres : present (k.mm.pte (d, i)) := by
    rw [pte_of_present (p := (d, i)) hd, Mm.entry, htab]
    exact he
  have hcall := unWpPage_books B hp hpres
  rw [htab] at hcall
  exact after_books (wp_mono hcall (fun _ _ h => h.changed.books) (books_of_stop B))

theorem writeVerify_call (B : Books shield M k.mm k.held) {address : ℕ} (h : InSlots address) :
    Books shield M (after (writeVerify address) k.mm) k.held := by
  apply after_books
  apply wp_mono (writeVerify_books B (placeOf_mem h)) _ (books_of_stop B)
  intro _ s' hcase
  rcases hcase with ⟨_, _, hu⟩ | ⟨_, hs'⟩
  · exact hu.changed.books
  · rw [hs']
    exact B

theorem tryToShare_call (B : Books shield M k.mm k.held) {address a b : ℕ}
    (h : (Call.tryToShare address a b).Allowed k) :
    Books shield M (after (tryToShare address (a * 0x4000000) (b * 0x4000000)) k.mm) k.held := by
  obtain ⟨haddr, ha0, ha, hb0, hb⟩ := h
  apply after_books
  apply wp_mono (tryToShare_books B ha ha0 hb hb0 haddr) _ (fun _ _ h => h.1)
  intro _ s' hcase
  rcases hcase with ⟨_, hs'⟩ | ⟨_, C⟩
  · rw [hs']
    exact B
  · exact C.books

/-- **One call** keeps the books; the calls that copy more of the kernel's tables than `copy_mem`
does keep the ledger alone. -/
theorem Books.call (c : Call) (B : Books shield M k.mm k.held) (h : c.Allowed k)
    (hs : shield → c.OnSlots) : Books shield M (k.call c).mm (k.call c).held := by
  cases c with
  | getFreePage => exact take_books B
  | freePage frame =>
    exact after_books (wp_mono (freePage_held B h) (fun _ _ h => h.2) (fun _ _ h => h.elim))
  | putPage frame address => exact put_books B h.1 h.2.1 h.2.2
  | getEmptyPage address =>
    have hcall := getEmptyPage_books B (placeOf_mem h.1) h.2
    exact after_books (wp_mono hcall (fun _ _ ⟨_, _, _, C⟩ => C.books) (fun _ _ h => h.1))
  | copyPageTables fromSlot toSlot size =>
    rw [Kernel.call]
    exact copyPageTables_call B h hs
  | freePageTables slot size =>
    rw [Kernel.call]
    exact freePageTables_call B h
  | unWpPage table i => exact unWpPage_call B h
  | doWpPage address =>
    exact after_books (wp_mono (doWpPage_books B (placeOf_mem h.1) h.2)
      (fun _ _ h => h.changed.books) (books_of_stop B))
  | writeVerify address => exact writeVerify_call B h
  | tryToShare address fromSlot toSlot =>
    rw [Kernel.call]
    exact tryToShare_call B h

/-- **Every run** keeps the books. -/
theorem Reached.books {m : ℕ → ℕ → Word} {P : Call → Prop} (hP : shield → ∀ c, P c → c.OnSlots)
    (h : Reached M m P k) : Books shield M k.mm k.held := by
  induction h with
  | boot => exact boot_books shield M m
  | call c _ hc hp ih => exact ih.call c hc (fun hs => hP hs c hp)

end Calls

/-! ### What every run keeps -/

/-- The page directory points to frame `f`. -/
def Mm.IsPageTable (s : Mm) (f : ℕ) : Prop := ∃ d < 1024, s.Points f d

instance (s : Mm) (f : ℕ) : Decidable (s.IsPageTable f) :=
  inferInstanceAs (Decidable (∃ d, d < 1024 ∧ s.Points f d))

/-- The directory entries of slot 0 point into the kernel, so the page tables in main memory are
those of the processes. -/
theorem Ledger.isPageTable_iff {s : Mm} {held : Multiset ℕ} (L : Ledger M s held) {f : ℕ}
    (hf : M.Has f) : s.IsPageTable f ↔ s.tableRefs f ≠ 0 := by
  constructor
  · intro h hz
    obtain ⟨d, hd, hp⟩ := h
    by_cases hlow : d < 16
    · have h4 := (L.kernelDir d hlow).1 hp.1
      have htab := L.kernelTable d h4
      rw [hp.2] at htab
      have := hf.lowMem_le
      omega
    · exact countIn_eq_zero.1 hz d (mem_directory.2 ⟨by omega, hd⟩) hp
  · intro h
    by_contra hno
    refine h (countIn_eq_zero.2 ?_)
    intro d hd hp
    exact hno ⟨d, (mem_directory.1 hd).2, hp⟩

theorem Ledger.count_eq {s : Mm} {held : Multiset ℕ} (L : Ledger M s held) {f : ℕ} (hf : M.Has f) :
    s.count f = s.entryRefs f + (if s.IsPageTable f then 1 else 0) + held.count f := by
  have he := L.exact f hf.lowMem_le hf.lt
  have hs := L.single f
  rw [MainMemory.base, if_pos hf] at he
  by_cases ht : s.IsPageTable f
  · have := (L.isPageTable_iff hf).1 ht
    rw [if_pos ht]
    omega
  · have hz : s.tableRefs f = 0 := by
      by_contra h
      exact ht ((L.isPageTable_iff hf).2 h)
    rw [if_neg ht]
    omega

/-- **Page reference counts are exact.**  In every state of every run, the count of a frame of main
memory is the number of page table entries of the slots 1 to 63 that map it, plus one if it is a
page table, plus the number of times it is held; no count comes near the top of its byte, and a
frame whose count is 0 is named nowhere. -/
theorem reference_counts_exact {m : ℕ → ℕ → Word} {k : Kernel} (h : Reached M m (fun _ => True) k) :
    (∀ f, M.Has f → (k.mm.memMap (mapNr (f * 4096))).toNat =
      k.mm.entryRefs f + (if k.mm.IsPageTable f then 1 else 0) + k.held.count f) ∧
    (∀ f, 256 ≤ f → f < 4096 → (k.mm.memMap (mapNr (f * 4096))).toNat < 200) ∧
    ∀ f, M.Has f → k.mm.memMap (mapNr (f * 4096)) = 0 →
      (∀ p ∈ places, ¬k.mm.Maps f p) ∧ ¬k.mm.IsPageTable f ∧ f ∉ k.held := by
  have B : Books False M k.mm k.held := h.books (fun hs => hs.elim)
  have L := B.ledger
  refine ⟨?_, ?_, ?_⟩
  · intro f hf
    rw [mapNr_frame]
    exact L.count_eq hf
  · intro f h1 h2
    rw [mapNr_frame]
    exact L.count_lt h1 h2
  · intro f hf hz
    rw [mapNr_frame] at hz
    have hc : k.mm.count f = 0 := by
      rw [Mm.count, hz]
      rfl
    obtain ⟨-, her, htr, hheld⟩ := L.refs_of_count_zero hf.lowMem_le hf.lt hc
    refine ⟨countIn_eq_zero.1 her, ?_, Multiset.count_eq_zero.1 hheld⟩
    intro ht
    exact (L.isPageTable_iff hf).1 ht htr

/-- A machine with 16 MB, of which the first four are the kernel's and the buffer cache's. -/
def sixteenMegabytes : MainMemory := ⟨1024, 4096, by omega, by omega⟩

/-- The state after task 0 has forked `init` and the kernel has taken a frame. -/
def afterFork : Kernel :=
  ((⟨sixteenMegabytes.boot fun _ _ => 0, 0⟩ : Kernel).call (.copyPageTables 0 1 0xA0000)).call
    .getFreePage

theorem afterFork_reached {P : Call → Prop} (hcopy : P (.copyPageTables 0 1 0xA0000))
    (htake : P .getFreePage) : Reached sixteenMegabytes (fun _ _ => 0) P afterFork :=
  Reached.call _ (Reached.call _ Reached.boot ⟨by omega, by omega, by omega, by omega⟩ hcopy) trivial htake

theorem reference_counts_exact_afterFork : Reached sixteenMegabytes (fun _ _ => 0) (fun _ => True) afterFork ∧
    ∀ f, sixteenMegabytes.Has f → (afterFork.mm.memMap (mapNr (f * 4096))).toNat =
      afterFork.mm.entryRefs f + (if afterFork.mm.IsPageTable f then 1 else 0) + afterFork.held.count f :=
  ⟨afterFork_reached trivial trivial, (reference_counts_exact (afterFork_reached trivial trivial)).1⟩

/-- Slot 1 gets its first page. -/
def ownsPage : Kernel := (⟨sixteenMegabytes.boot fun _ _ => 0, 0⟩ : Kernel).call (.getEmptyPage 0x4000000)

theorem ownsPage_allowed :
    (Call.getEmptyPage 0x4000000).Allowed ⟨sixteenMegabytes.boot fun _ _ => 0, 0⟩ := by
  have hplace : placeOf 0x4000000 = (16, 0) := by decide
  refine ⟨⟨by omega, by omega⟩, ?_⟩
  rw [Mm.mapped, hplace, boot_pte _ _ (mem_places.2 (by omega))]
  exact present_zero

theorem ownsPage_changed : ∃ f, sixteenMegabytes.Has f ∧
    Changed True sixteenMegabytes (sixteenMegabytes.boot fun _ _ => 0) 0 (16, 0) (userEntry (f * 4096)) 0
      ownsPage.mm := by
  have B := boot_books True sixteenMegabytes fun _ _ => 0
  have hplace : placeOf 0x4000000 = (16, 0) := by decide
  have hzero : ∀ q ∈ places, ¬present ((sixteenMegabytes.boot fun _ _ => 0).pte q) := fun q hq => by
    rw [boot_pte _ _ hq]
    exact present_zero
  have hroom := B.roomy (n := 0) ⟨∅, Nat.le_refl 0, fun q hq hp => absurd hp (hzero q hq)⟩ (by decide)
  have hin : placeOf 0x4000000 ∈ places := placeOf_mem ⟨by omega, by omega⟩
  have hspec := wp_and (getEmptyPage_books B hin (hzero _ hin)) (getEmptyPage_ok hroom 0x4000000)
  obtain ⟨_, s', hrun, ⟨f, hf, -, hchanged⟩, -⟩ :=
    returns_of_wp (wp_mono hspec (fun _ _ h => h) fun _ _ h => h.2)
  refine ⟨f, hf, ?_⟩
  rw [hplace] at hchanged
  show Changed _ _ _ _ _ _ _ (after (getEmptyPage 0x4000000) _)
  rw [after, hrun]
  exact hchanged

/-- Slot 2 gets a copy of the page: the copy goes through, and both slots map its frame. -/
theorem ownsPage_copied : ∃ f s', sixteenMegabytes.Has f ∧ Books True sixteenMegabytes s' 0 ∧
    copyPageTables (1 * 0x4000000) (2 * 0x4000000) 0x1000 ownsPage.mm = .ok 0 s' ∧
    s'.Few 1 ∧ s'.Maps f (16, 0) ∧ s'.Maps f (32, 0) := by
  obtain ⟨f, hf, C⟩ := ownsPage_changed
  have hframe : frameOf (userEntry (f * 4096)) = f := frameOf_userEntry_frame (by have := hf.lt; omega)
  have hpte : ∀ q ∈ places, ownsPage.mm.pte q = if q = (16, 0) then userEntry (f * 4096) else 0 :=
    fun q hq => by rw [C.pte q hq, boot_pte _ _ hq]
  have hspec := copyPageTables_books C.books (show 1 < 64 by omega) (show 2 < 64 by omega)
    (show 0 < 2 by omega) (show 0x1000 ≤ 0x4000000 by omega) (fun _ _ => by omega)
  have h16 : ((16, 0) : ℕ × ℕ) ∈ places := mem_places.2 (by omega)
  have h32 : ((32, 0) : ℕ × ℕ) ∈ places := mem_places.2 (by omega)
  rw [wp] at hspec
  split at hspec
  · rename_i r s' hrun
    obtain ⟨B, n, hn, hret, T⟩ := hspec
    have hmapped : ∀ q ∈ places, present (s'.pte q) → frameOf (s'.pte q) = f := by
      intro q hq hp
      by_cases hD : (q.1 / 16 = 1 ∨ q.1 / 16 = 2) ∧ q.1 % 16 < n
      · obtain ⟨h1 | h2, hlt⟩ := hD
        · rcases T.source q hq h1 hlt with h | h
          · rw [h, hpte q hq] at hp ⊢
            split_ifs at hp ⊢
            · exact hframe
            · exact absurd hp present_zero
          · rw [h, hpte q hq] at hp ⊢
            rw [frameOf_readOnly]
            split_ifs at hp ⊢
            · exact hframe
            · exact absurd ((present_readOnly 0).1 hp) present_zero
        · have htarget := T.target q hq h2 hlt
          have hback : (1 * 16 + q.1 % 16, q.2) ∈ places := mem_places.2 (by have := mem_places.1 hq; omega)
          rw [sourceEntry, if_neg (by omega), hpte _ hback] at htarget
          split_ifs at htarget
          · rw [htarget, copied, if_pos (present_userEntry _), frameOf_readOnly, hframe]
          · rw [htarget, copied_zero] at hp
            exact absurd hp present_zero
      · rw [T.others q hq hD, hpte q hq] at hp ⊢
        split_ifs at hp ⊢
        · exact hframe
        · exact absurd hp present_zero
    have hfew : s'.Few 1 :=
      ⟨{f}, Nat.le_refl 1, fun q hq hp _ => Finset.mem_singleton.2 (hmapped q hq hp)⟩
    rcases hret with ⟨h0, hcount⟩ | ⟨-, hfull⟩
    · rw [h0] at hrun
      have hone : n = 1 := by rw [hcount]; decide
      have hchild : s'.pte (32, 0) = readOnly (userEntry (f * 4096)) := by
        rw [T.target (32, 0) h32 rfl (by omega), sourceEntry, if_neg (by omega)]
        show copied (ownsPage.mm.pte (16, 0)) = _
        rw [hpte _ h16, if_pos rfl, copied, if_pos (present_userEntry _)]
      have hparent : present (s'.pte (16, 0)) := by
        rcases T.source (16, 0) h16 rfl (by omega) with h | h <;>
          simp [h, hpte _ h16]
      refine ⟨f, s', hf, B, hrun, hfew, maps_iff_pte.2 ⟨hparent, hmapped _ h16 hparent⟩, maps_iff_pte.2 ?_⟩
      rw [hchild, frameOf_readOnly, hframe, present_readOnly]
      exact ⟨present_userEntry _, rfl⟩
    · exact absurd hfull.tight (B.roomy hfew (by decide))
  · obtain ⟨-, -, d, h1, h2, hd⟩ := hspec
    rw [C.dir d (by omega)] at hd
    exact absurd hd (boot_unlinked _ _ (mem_directory.2 ⟨by omega, by omega⟩))

/-- **Shared means read-only.**  In every state of every run whose copies from slot 0 are those of
`copy_mem`, an entry for a frame that is counted more than once has its write bit clear; and when
`do_wp_page` returns for a present page, the page is writable, in a frame of its own with the same
contents, and no other entry of any slot has changed its frame. -/
theorem shared_pages_read_only {m : ℕ → ℕ → Word} {k : Kernel} (h : Reached M m Call.OnSlots k) :
    (∀ p ∈ places, ∀ f, k.mm.Maps f p → 256 ≤ f → 1 < k.mm.count f → ¬writable (k.mm.pte p)) ∧
    ∀ address s', InSlots address → k.mm.mapped address → doWpPage address k.mm = .ok () s' →
      s'.mapped address ∧ writable (s'.pte (placeOf address)) ∧
      s'.count (frameOf (s'.pte (placeOf address))) = 1 ∧
      s'.mem (frameOf (s'.pte (placeOf address))) = k.mm.mem (frameOf (k.mm.pte (placeOf address))) ∧
      (∀ q ∈ places, q ≠ placeOf address → s'.pte q = k.mm.pte q) ∧
      ∀ d < 4, ∀ j < 1024, frameOf (s'.mem (s'.table d) j) = frameOf (k.mm.mem (k.mm.table d) j) := by
  have B : Books True M k.mm k.held := h.books (fun _ _ hc => hc)
  constructor
  · intro p hp f hm hf hc hw
    rw [pte_of_present hm.1] at hw
    have := (B.shielded trivial p hp f hm hw).2
    omega
  · intro address s' haddr hpres hrun
    have U := wp_ok (doWpPage_books B (placeOf_mem haddr) hpres) hrun
    have hentry := U.own hpres
    refine ⟨hentry.1, hentry.2, U.single, U.contents trivial, ?_, ?_⟩
    · intro q hq hne
      rw [U.changed.pte q hq, if_neg hne]
    · intro d hd j hj
      have L := B.ledger
      have L' := U.changed.books.ledger
      rw [L'.kernelTable d hd, L.kernelTable d hd, (L'.kernelEntry d hd j hj).2, (L.kernelEntry d hd j hj).2]

/-- Slot 2 has a copy of the page of slot 1. -/
def sharesPage : Kernel := ownsPage.call (.copyPageTables 1 2 0x1000)

theorem shared_pages_read_only_sharesPage :
    Reached sixteenMegabytes (fun _ _ => 0) Call.OnSlots sharesPage ∧
    ∃ f s', 256 ≤ f ∧ 1 < sharesPage.mm.count f ∧
      sharesPage.mm.Maps f (16, 0) ∧ ¬writable (sharesPage.mm.pte (16, 0)) ∧
      sharesPage.mm.Maps f (32, 0) ∧ ¬writable (sharesPage.mm.pte (32, 0)) ∧
      doWpPage 0x4000000 sharesPage.mm = .ok () s' ∧
      writable (s'.pte (16, 0)) ∧ s'.count (frameOf (s'.pte (16, 0))) = 1 ∧
      s'.mem (frameOf (s'.pte (16, 0))) = sharesPage.mm.mem f ∧
      s'.pte (32, 0) = sharesPage.mm.pte (32, 0) := by
  have hplace : placeOf 0x4000000 = (16, 0) := by decide
  have h16 : ((16, 0) : ℕ × ℕ) ∈ places := mem_places.2 (by omega)
  have h32 : ((32, 0) : ℕ × ℕ) ∈ places := mem_places.2 (by omega)
  have h : Reached sixteenMegabytes (fun _ _ => 0) Call.OnSlots sharesPage :=
    .call _ (.call _ .boot ownsPage_allowed trivial) ⟨by omega, by omega, by omega, by omega⟩
      (fun h0 => by omega)
  obtain ⟨f, s1, hf, B, hrun, hfew, m16, m32⟩ := ownsPage_copied
  have hmm : sharesPage.mm = s1 := by
    show after (copyPageTables (1 * 0x4000000) (2 * 0x4000000) 0x1000) ownsPage.mm = s1
    rw [after, hrun]
  have hreadOnly := shared_pages_read_only h
  rw [hmm] at hreadOnly ⊢
  obtain ⟨hro, hown⟩ := hreadOnly
  have hcount : 1 < s1.count f := by
    have hle := B.ledger.count_eq hf
    by_contra hno
    have hone : s1.entryRefs f ≤ 1 := by omega
    have := eq_of_countIn_le_one hone h16 h32 m16 m32
    exact absurd this (by decide)
  have hroom := B.roomy hfew (by decide)
  have hmapped : s1.mapped 0x4000000 := by
    rw [Mm.mapped, hplace]
    exact (maps_iff_pte.1 m16).1
  have hwp := doWpPage_ok (fun hfull => hroom hfull.tight) 0x4000000
  obtain ⟨_, s', hwrite, -⟩ := returns_of_wp hwp
  have hcopy := hown 0x4000000 s' ⟨by omega, by omega⟩ hmapped hwrite
  rw [hplace, (maps_iff_pte.1 m16).2] at hcopy
  obtain ⟨-, hwritable, hsingle, hcontents, hothers, -⟩ := hcopy
  exact ⟨h, f, s', hf.lowMem_le, hcount, m16, hro _ h16 f m16 hf.lowMem_le hcount, m32,
    hro _ h32 f m32 hf.lowMem_le hcount, hwrite, hwritable, hsingle, hcontents,
    hothers _ h32 (by decide)⟩

end OldLinux.Memory
