import OldLinux.Memory.Runs

/-!
# A frame lies at one offset

The pages of a process are copied by `fork` and shared by `share_page` at the same offset of another
slot, and every other entry is made for a frame of its own.  So in a run in which nothing panicked
all the places that map a frame of main memory lie at one offset, and a slot maps it once at most.
An entry that is not present is 0, and one that is present maps main memory or the kernel's first
megabyte, so `free_page_tables` has nothing to panic about.
-/

namespace OldLinux.Memory

open Lib

variable {M : MainMemory} {m : ℕ → ℕ → Word} {s s' : Mm} {held held' : Multiset ℕ} {k : Kernel}

structure Neat (M : MainMemory) (s : Mm) : Prop where
  oneOffset : ∀ f, 256 ≤ f → ∀ p ∈ places, ∀ q ∈ places, s.Maps f p → s.Maps f q → offset p = offset q
  blank : ∀ q ∈ places, ¬present (s.pte q) → s.pte q = 0
  main : ∀ f, 256 ≤ f → ∀ q ∈ places, s.Maps f q → M.Has f

/-- Where the entry `e` at the place `q` comes from. -/
inductive Descends (s : Mm) (q : ℕ × ℕ) : Word → Prop
  | same : Descends s q (s.pte q)
  | guarded (p : ℕ × ℕ) : p ∈ places → offset p = offset q → Descends s q (readOnly (s.pte p))
  | cleared : Descends s q 0
  | own (e : Word) : present e → writable e → Descends s q e
  | kernel (e : Word) : present e → frameOf e < 256 → Descends s q e

theorem readOnly_zero : readOnly 0 = 0 := by decide

/-- A writable entry is the only one for its frame. -/
theorem Books.eq_of_writable (B : Books True M s held) {f : ℕ} {p q : ℕ × ℕ} (hp : p ∈ places)
    (hq : q ∈ places) (hmp : s.Maps f p) (hmq : s.Maps f q) (hw : writable (s.pte p)) : q = p := by
  rw [pte_of_present hmp.1] at hw
  obtain ⟨hf, hc⟩ := B.shielded trivial p hp f hmp hw
  have he := B.ledger.exact f hf (B.ledger.mapsLt f p hp hmp)
  exact eq_of_countIn_le_one (S := places) (P := s.Maps f) (by unfold Mm.entryRefs at he; omega) hq hp hmq hmp

/-- An entry of main memory after a step has an ancestor at its offset, or is the only one. -/
theorem Descends.ancestor (B' : Books True M s' held') {f : ℕ} (hf : 256 ≤ f) {q : ℕ × ℕ}
    (hq : q ∈ places) (hm : s'.Maps f q) (h : Descends s q (s'.pte q)) :
    (∃ p ∈ places, offset p = offset q ∧ s.Maps f p) ∨ ∀ r ∈ places, s'.Maps f r → r = q := by
  have hpres := maps_iff_pte.1 hm
  generalize he : s'.pte q = e at h hpres
  cases h with
  | same => exact Or.inl ⟨q, hq, rfl, maps_iff_pte.2 hpres⟩
  | guarded p hp hoff =>
    rw [present_readOnly, frameOf_readOnly] at hpres
    exact Or.inl ⟨p, hp, hoff, maps_iff_pte.2 hpres⟩
  | cleared => exact absurd hpres.1 present_zero
  | own _ _ hw =>
    refine Or.inr ?_
    intro r hr hmr
    exact B'.eq_of_writable hq hr hm hmr (by rw [he]; exact hw)
  | kernel _ _ hlow =>
    omega

/-- A writable entry of main memory: a frame counted twice is not one of main memory's. -/
theorem Books.has_of_writable (B : Books True M s held) {f : ℕ} {p : ℕ × ℕ} (hp : p ∈ places)
    (hm : s.Maps f p) (hw : writable (s.pte p)) : M.Has f := by
  rw [pte_of_present hm.1] at hw
  obtain ⟨hf, hc⟩ := B.shielded trivial p hp f hm hw
  have he := B.ledger.exact f hf (B.ledger.mapsLt f p hp hm)
  by_contra hno
  rw [MainMemory.base, if_neg hno] at he
  omega

theorem Neat.step (h : Neat M s) (B' : Books True M s' held')
    (hent : ∀ q ∈ places, Descends s q (s'.pte q)) : Neat M s' where
  oneOffset := by
    intro f hf p hp q hq hmp hmq
    rcases (hent p hp).ancestor B' hf hp hmp with ⟨p', hp', hop, hmp'⟩ | honly
    · rcases (hent q hq).ancestor B' hf hq hmq with ⟨q', hq', hoq, hmq'⟩ | honly
      · rw [← hop, ← hoq]
        exact h.oneOffset f hf p' hp' q' hq' hmp' hmq'
      · rw [honly p hp hmp]
    · rw [honly q hq hmq]
  blank := by
    intro q hq hnot
    have hd := hent q hq
    generalize s'.pte q = e at hd hnot
    cases hd with
    | same => exact h.blank q hq hnot
    | guarded p hp _ =>
      rw [present_readOnly] at hnot
      rw [h.blank p hp hnot]
      exact readOnly_zero
    | cleared => rfl
    | own _ hpres _ => exact absurd hpres hnot
    | kernel _ hpres _ => exact absurd hpres hnot
  main := by
    intro f hf q hq hm
    have hpres := maps_iff_pte.1 hm
    have hd := hent q hq
    generalize he : s'.pte q = e at hd hpres
    cases hd with
    | same => exact h.main f hf q hq (maps_iff_pte.2 hpres)
    | guarded p hp _ =>
      rw [present_readOnly, frameOf_readOnly] at hpres
      exact h.main f hf p hp (maps_iff_pte.2 hpres)
    | cleared => exact absurd hpres.1 present_zero
    | own _ _ hw => exact B'.has_of_writable hq hm (by rw [he]; exact hw)
    | kernel _ _ hlow =>
      omega

theorem Neat.same (h : Neat M s) (hpte : ∀ q ∈ places, s'.pte q = s.pte q) : Neat M s' where
  oneOffset := by
    intro f hf p hp q hq hmp hmq
    rw [maps_iff_pte, hpte p hp, ← maps_iff_pte] at hmp
    rw [maps_iff_pte, hpte q hq, ← maps_iff_pte] at hmq
    exact h.oneOffset f hf p hp q hq hmp hmq
  blank := by
    intro q hq hnot
    rw [hpte q hq] at hnot ⊢
    exact h.blank q hq hnot
  main := by
    intro f hf q hq hm
    rw [maps_iff_pte, hpte q hq, ← maps_iff_pte] at hm
    exact h.main f hf q hq hm

/-! ### Every call keeps it -/

theorem Changed.neat {p : ℕ × ℕ} {e : Word} (C : Changed True M s held p e held' s') (h : Neat M s)
    (he : present e ∧ writable e) : Neat M s' := by
  refine h.step C.books ?_
  intro q hq
  rw [C.pte q hq]
  split
  · exact Descends.own e he.1 he.2
  · exact Descends.same

theorem Unshared.neat {p : ℕ × ℕ} (hpres : present (s.pte p)) (U : Unshared True M s held p s')
    (h : Neat M s) : Neat M s' := U.changed.neat h (U.own hpres)

theorem Shared.neat {p q : ℕ × ℕ} (hp : p ∈ places) (hoff : offset p = offset q)
    (C : Shared True M s held p q s') (h : Neat M s) : Neat M s' := by
  refine h.step C.books ?_
  intro r hrp
  rw [C.pte r hrp]
  split
  · rename_i hr
    rcases hr with rfl | rfl
    · exact Descends.guarded _ hp rfl
    · exact Descends.guarded _ hp hoff
  · exact Descends.same

theorem Freed.neat {D : ℕ → Prop} [DecidablePred D] (F : Freed D s s')
    (B' : Books True M s' held') (h : Neat M s) : Neat M s' := by
  refine h.step B' ?_
  intro q hq
  rw [F.pte q hq]
  split
  · exact Descends.cleared
  · exact Descends.same

/-- The place of slot `a` that corresponds to `q`. -/
def inSlotOf (a : ℕ) (q : ℕ × ℕ) : ℕ × ℕ := (a * 16 + q.1 % 16, q.2)

theorem inSlotOf_mem {a : ℕ} (ha0 : 0 < a) (ha : a < 64) {q : ℕ × ℕ} (hq : q ∈ places) :
    inSlotOf a q ∈ places := by
  have := (mem_places.1 hq).2
  exact mem_places.2 ⟨⟨by simp only [inSlotOf]; omega, by simp only [inSlotOf]; omega⟩, this⟩

theorem offset_inSlotOf (a : ℕ) (q : ℕ × ℕ) : offset (inSlotOf a q) = offset q := by
  simp only [offset, inSlotOf]
  omega

theorem Copied.neat {a b : ℕ} {D : ℕ → Prop} (ha : a < 64) (hzero : a = 0 → ∀ d, D d → d = 0)
    (B : Books True M s held) (C : Copied True a b D s s') (B' : Books True M s' held') (h : Neat M s) :
    Neat M s' := by
  refine h.step B' ?_
  intro q hq
  by_cases hD : (q.1 / 16 = a ∨ q.1 / 16 = b) ∧ D (q.1 % 16)
  · obtain ⟨hslot, hd⟩ := hD
    by_cases hb : q.1 / 16 = b
    · rw [C.target q hq hb hd, copied]
      split
      · rename_i hpres
        by_cases ha0 : a = 0
        · -- an entry of the kernel's first page table maps one of the first 160 frames
          have hd0 := hzero ha0 _ hd
          rw [sourceEntry, if_pos ha0] at hpres ⊢
          split at hpres
          · rename_i h160
            rw [if_pos h160, hd0]
            refine Descends.kernel _ ((present_readOnly _).2 (hd0 ▸ hpres)) ?_
            rw [frameOf_readOnly, (B.ledger.kernelEntry 0 (by omega) q.2 (by omega)).2]
            omega
          · exact absurd hpres present_zero
        · rw [sourceEntry, if_neg ha0]
          exact Descends.guarded (inSlotOf a q) (inSlotOf_mem (by omega) ha hq) (offset_inSlotOf a q)
      · exact Descends.cleared
    · rcases C.source q hq (hslot.resolve_right hb) hd with he | he
      · rw [he]
        exact Descends.same
      · rw [he]
        exact Descends.guarded q hq rfl
  · rw [C.others q hq hD]
    exact Descends.same

/-- The call ends in `panic`, which does not return to anybody.  The calls that are not listed never
do when they are allowed. -/
def Call.Panics (k : Kernel) : Call → Prop
  | .copyPageTables fromSlot toSlot size => ∃ message s,
      Memory.copyPageTables (fromSlot * 0x4000000) (toSlot * 0x4000000) size k.mm = .error (.panic message) s
  | .freePageTables slot size => ∃ message s,
      Memory.freePageTables (slot * 0x4000000) size k.mm = .error (.panic message) s
  | .tryToShare address fromSlot toSlot => ∃ message s,
      Memory.tryToShare address (fromSlot * 0x4000000) (toSlot * 0x4000000) k.mm = .error (.panic message) s
  | _ => False

/-- The states a run reaches in which the kernel has not panicked and the copies from slot 0 are
those of `copy_mem`. -/
inductive Live (M : MainMemory) (m : ℕ → ℕ → Word) : Kernel → Prop
  | boot : Live M m ⟨M.boot m, 0⟩
  | call {k : Kernel} (c : Call) : Live M m k → c.Allowed k → c.OnSlots → ¬c.Panics k → Live M m (k.call c)

theorem Live.reached (h : Live M m k) : Reached M m Call.OnSlots k := by
  induction h with
  | boot => exact Reached.boot
  | call c _ hc hs _ ih => exact Reached.call c ih hc hs

theorem Live.books (h : Live M m k) : Books True M k.mm k.held := h.reached.books (fun _ _ hc => hc)

/-- A command that leaves something good unless it panics. -/
theorem after_of_live {α : Type} {c : MmM α} {I : Mm → Prop} {Q : α → Mm → Prop}
    {E : Trap → Mm → Prop} (hwp : wp c Q E s) (hok : ∀ a s', Q a s' → I s')
    (hoom : ∀ s', E .oom s' → I s') (hno : ¬∃ message s', c s = .error (.panic message) s') :
    I (after c s) := by
  unfold wp at hwp
  unfold after
  cases hrun : c s with
  | ok a s' =>
    rw [hrun] at hwp
    exact hok a s' hwp
  | error e s' =>
    rw [hrun] at hwp
    cases e with
    | panic message => exact absurd ⟨message, s', hrun⟩ hno
    | oom => exact hoom s' hwp

theorem take_neat (B : Books True M k.mm k.held) (h : Neat M k.mm) : Neat M k.take.mm := by
  have hspec := getFreePage_books B
  rw [Kernel.take]
  cases hrun : getFreePage k.mm with
  | ok page s =>
    rw [wp, hrun] at hspec
    rcases hspec with ⟨_, hs⟩ | ⟨f, _, F⟩
    · show Neat M s
      rw [hs]
      exact h
    · exact h.same (fun q hq => F.pte hq)
  | error e s =>
    rw [wp, hrun] at hspec
    exact hspec.elim

theorem put_neat (B : Books True M k.mm k.held) {frame address : ℕ} (hf : frame ∈ k.held)
    (haddr : InSlots address) (habs : ¬k.mm.mapped address) (h : Neat M k.mm) :
    Neat M (k.put frame address).mm := by
  have hspec := putPage_books B (placeOf_mem haddr) habs hf
  rw [Kernel.put]
  cases hrun : putPage (frame * 4096) address k.mm with
  | ok r s =>
    rw [wp, hrun] at hspec
    rcases hspec with ⟨_, hs⟩ | ⟨_, C⟩
    · show Neat M s
      rw [hs]
      exact h
    · exact C.neat h ⟨present_userEntry _, writable_userEntry _⟩
  | error e s =>
    rw [wp, hrun] at hspec
    exact hspec.elim

theorem neat_of_stop (h : Neat M s) (_ : Trap) (s' : Mm) (hs : s' = s) : Neat M s' := by
  rw [hs]
  exact h

theorem Neat.call (c : Call) (B : Books True M k.mm k.held) (hc : c.Allowed k) (hs : c.OnSlots)
    (hno : ¬c.Panics k) (h : Neat M k.mm) : Neat M (k.call c).mm := by
  cases c with
  | getFreePage => exact take_neat B h
  | freePage frame =>
    refine after_of_wp (wp_mono (freePage_held B hc) ?_ (fun _ _ h => h.elim))
    intro _ s' h'
    exact h.same (fun q _ => pte_of_mem h'.1 q)
  | putPage frame address => exact put_neat B hc.1 hc.2.1 hc.2.2 h
  | getEmptyPage address =>
    refine after_of_wp (wp_mono (getEmptyPage_books B (placeOf_mem hc.1) hc.2) ?_ ?_)
    · rintro _ s' ⟨f, _, _, C⟩
      exact C.neat h ⟨present_userEntry _, writable_userEntry _⟩
    · intro _ s' h'
      exact h.same h'.2.1
  | copyPageTables fromSlot toSlot size =>
    obtain ⟨ha, hb0, hb, hsize⟩ := hc
    refine after_of_live (copyPageTables_books B ha hb hb0 hsize (fun _ => hs)) ?_
      (fun _ h => absurd rfl h.1) hno
    rintro _ s' ⟨B', n, hn, _, C⟩
    refine C.neat ha ?_ B B' h
    intro h0 d hd
    have hle := hs h0
    rw [dirCount] at hn
    omega
  | freePageTables slot size =>
    obtain ⟨h0, hslot, hsize⟩ := hc
    refine after_of_live (freePageTables_books B hslot h0 hsize) ?_ (fun _ h => absurd rfl h.1) hno
    intro _ s' h'
    exact h'.2.neat h'.1 h
  | unWpPage table i =>
    obtain ⟨d, hdd, hi, hd, htab, he⟩ := hc
    have hp : (d, i) ∈ places := mem_places.2 ⟨mem_directory.1 hdd, hi⟩
    have hpres : present (k.mm.pte (d, i)) := by
      rw [pte_of_present (p := (d, i)) hd, Mm.entry, htab]
      exact he
    have hspec := unWpPage_books B hp hpres
    rw [htab] at hspec
    exact after_of_wp (wp_mono hspec (fun _ _ U => U.neat hpres h) (neat_of_stop h))
  | doWpPage address =>
    exact after_of_wp (wp_mono (doWpPage_books B (placeOf_mem hc.1) hc.2)
      (fun _ _ U => U.neat hc.2 h) (neat_of_stop h))
  | writeVerify address =>
    refine after_of_wp (wp_mono (writeVerify_books B (placeOf_mem hc)) ?_ (neat_of_stop h))
    rintro _ s' (⟨hpres, _, U⟩ | ⟨_, hs'⟩)
    · exact U.neat hpres h
    · exact neat_of_stop h .oom s' hs'
  | tryToShare address fromSlot toSlot =>
    obtain ⟨haddr, ha0, ha, hb0, hb⟩ := hc
    refine after_of_live (tryToShare_books B ha ha0 hb hb0 haddr) ?_ ?_ hno
    · rintro _ s' (⟨_, hs'⟩ | ⟨_, C⟩)
      · exact neat_of_stop h .oom s' hs'
      · refine C.neat (slotPlace_mem ha0 ha haddr) ?_ h
        rw [offset_slotPlace haddr, offset_slotPlace haddr]
    · intro s' h'
      exact neat_of_stop h .oom s' (h'.2 rfl)

theorem boot_neat (M : MainMemory) (m : ℕ → ℕ → Word) : Neat M (M.boot m) := by
  have hnone : ∀ f, ∀ q ∈ places, ¬(M.boot m).Maps f q := by
    intro f q hq hm
    rw [maps_iff_pte, boot_pte M m hq] at hm
    exact present_zero hm.1
  exact ⟨fun f _ p hp _ _ hm _ => absurd hm (hnone f p hp), fun q hq _ => boot_pte M m hq,
    fun f _ q hq hm => absurd hm (hnone f q hq)⟩

/-- **A frame lies at one offset**, in every state of every run without a panic. -/
theorem Live.neat (h : Live M m k) : Neat M k.mm := by
  induction h with
  | boot => exact boot_neat M m
  | call c hk hc hs hno ih => exact ih.call c hk.books hc hs hno

end OldLinux.Memory
