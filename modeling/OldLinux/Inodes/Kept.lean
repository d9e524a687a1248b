import OldLinux.Inodes.Turns

/-!
# One step of the inode table for a system call

What a system call may rely on when it takes a step of the inode table: where its own process goes, and
what the step keeps of the others.
-/

namespace OldLinux.Inodes

open Function Lib

/-- The event has to do with process `P` only, and with no mounted device. -/
def Event.Local {n : ℕ} (P : Fin n) : Event n → Prop
  | .give _ _ => False
  | .mount _ _ => False
  | .share _ Q => Q = P
  | _ => True

namespace Table

/-- The process before and after the event. -/
inductive Did {n : ℕ} (σ τ : Table n) : Event n → Proc → Proc → Prop
  | iget (dev nr j l) : dev ≠ 0 → Did σ τ (.iget dev nr) ⟨.user, l⟩ ⟨.emptyWait (.iget dev nr) j, l⟩
  | newInode (dev j l) : Did σ τ (.newInode dev) ⟨.user, l⟩ ⟨.emptyWait (.newInode dev) j, l⟩
  | getEmpty (j l) : Did σ τ .getEmpty ⟨.user, l⟩ ⟨.emptyWait .other j, l⟩
  | iput (i l) : i ∈ l → Did σ τ (.iput i) ⟨.user, l⟩ ⟨.put i .done, l.erase i⟩
  | share (i Q l) : i ∈ l → Did σ τ (.share i Q) ⟨.user, l⟩ ⟨.user, i :: l⟩
  | modify (i d l) : i ∈ l → Did σ τ (.modify i d) ⟨.user, l⟩ ⟨.user, l⟩
  | noBit (i dev l) : Did σ τ (.bit none) ⟨.newInode i dev, l⟩ ⟨.put i .done, l⟩
  | bit (i dev nr l) : (τ.inode i).is dev nr → Did σ τ (.bit (some nr)) ⟨.newInode i dev, l⟩ ⟨.user, i :: l⟩
  | run (p q) : Turn σ τ p q → Did σ τ .run p q

variable {n : ℕ} {σ τ : Table n} {P Q : Fin n} {i j e : Fin 32} {k : After} {dev nr : ℕ}
variable {ev : Event n}

/-- There is an entry if the event needs one. -/
def RoomFor (σ : Table n) (P : Fin n) : Event n → Prop
  | .iget _ _ => σ.Room
  | .newInode _ => σ.Room
  | .getEmpty => σ.Room
  | .run => σ.Retries P → σ.Room
  | _ => True

/-- What a step of process `P` keeps. -/
structure Kept (σ τ : Table n) (P : Fin n) : Prop where
  sound : Sound τ
  tidy : Tidy σ τ P
  others : ∀ Q, Q ≠ P → τ.proc Q = σ.proc Q
  sb : ∀ i, τ.sb i = none
  calm : τ.panicked = false
  bits : ∀ dev nr, (∀ i k, (σ.proc P).pc = .putTrunc i k → ¬(σ.inode i).is dev nr) →
    σ.bit dev nr = true → τ.bit dev nr = true ∧ τ.freed dev nr = σ.freed dev nr
  alike : ∀ j, j ∉ (σ.proc P).refs → (σ.inode j).count ≠ 0 → ¬Hits σ P j → Alike (σ.inode j) (τ.inode j)

theorem Kept.same (h : Sound σ) (hsb : ∀ i, σ.sb i = none) (hcalm : σ.panicked = false) (P : Fin n) :
    Kept σ σ P :=
  ⟨h, ⟨fun _ => Or.inr (Or.inr ⟨rfl, rfl⟩), fun _ _ => Or.inr rfl⟩, fun _ _ => rfl, hsb, hcalm,
    fun _ _ _ h => ⟨h, rfl⟩, fun _ _ _ _ => Alike.refl _⟩

theorem getEmpty_proc {k : Caller} (hcalm : (σ.getEmpty P k).panicked = false) :
    ∃ j, (σ.getEmpty P k).proc = update σ.proc P ⟨.emptyWait k j, (σ.proc P).held⟩ := by
  rw [getEmpty] at hcalm ⊢
  split
  · exact ⟨_, rfl⟩
  · rename_i hnone
    rw [hnone] at hcalm
    split
    · exact ⟨_, rfl⟩
    · rename_i hfree
      rw [hfree] at hcalm
      cases hcalm

/-- A step that frees nothing. -/
theorem kept_of_sameBits (h : Sound σ) (hl : Listed σ (P, ev)) (hsb : ∀ i, σ.sb i = none)
    (hs : step σ (P, ev) = some τ) {p : Proc} (hproc : τ.proc = update σ.proc P p)
    (hsame : SameBits σ τ) (hcalm : τ.panicked = false) (hdid : Did σ τ ev (σ.proc P) p) :
    Kept σ τ P ∧ Did σ τ ev (σ.proc P) (τ.proc P) := by
  obtain ⟨hsound, htidy⟩ := step_spec h hl hs
  refine ⟨⟨hsound, htidy, ?_, ?_, hcalm, ?_, fun j => step_alike hs⟩, ?_⟩
  · intro Q hQ
    rw [hproc, update_of_ne hQ]
  · rw [hsame.2.2]
    exact hsb
  · intro dev nr _ hbit
    rw [hsame.1, hsame.2.1]
    exact ⟨hbit, rfl⟩
  · rw [hproc, update_self]
    exact hdid

theorem getEmpty_kept (h : Sound σ) (hl : Listed σ (P, ev)) (hsb : ∀ i, σ.sb i = none)
    (hcalm : σ.panicked = false) {k : Caller} (hroom : σ.Room)
    (hs : step σ (P, ev) = some (σ.getEmpty P k)) {l : List (Fin 32)} (hp : σ.proc P = ⟨.user, l⟩)
    (hdid : ∀ j, Did σ (σ.getEmpty P k) ev ⟨.user, l⟩ ⟨.emptyWait k j, l⟩) :
    Kept σ (σ.getEmpty P k) P ∧ Did σ (σ.getEmpty P k) ev (σ.proc P) ((σ.getEmpty P k).proc P) := by
  have hcalm' := getEmpty_calm (P := P) hroom hcalm k
  obtain ⟨j, hproc⟩ := getEmpty_proc hcalm'
  refine kept_of_sameBits h hl hsb hs hproc (getEmpty_sameBits k) hcalm' ?_
  rw [hp]
  exact hdid j

theorem run_kept (h : Sound σ) (hl : Listed σ (P, .run)) (hsb : ∀ i, σ.sb i = none)
    (hcalm : σ.panicked = false) (hlone : Lone σ) (hroom : σ.Retries P → σ.Room)
    (hs : step σ (P, .run) = some τ) : Kept σ τ P ∧ Did σ τ .run (σ.proc P) (τ.proc P) := by
  obtain ⟨hsound, htidy⟩ := step_spec h hl hs
  have hrun : σ.run P = some τ := by
    simpa only [step, hcalm, Bool.false_eq_true, if_false] using hs
  have hcalm' := run_calm h hlone hroom hcalm hrun
  obtain ⟨hturn, hothers⟩ := run_turn hsb hrun hcalm'
  refine ⟨⟨hsound, htidy, hothers, ?_, hcalm', ?_, fun j => step_alike hs⟩, .run _ _ hturn⟩
  · rw [run_sb hrun]
    exact hsb
  · intro dev nr hfree hbit
    obtain ⟨h1, h2⟩ := run_bit hrun hfree
    rw [h1]
    exact ⟨hbit, h2⟩

theorem allocated_kept (h : Sound σ) (hl : Listed σ (P, .bit (some nr))) (hsb : ∀ i, σ.sb i = none)
    (hcalm : σ.panicked = false) {l : List (Fin 32)} (hp : σ.proc P = ⟨.newInode i dev, l⟩)
    (hs : step σ (P, .bit (some nr)) = some (σ.allocated P i dev nr)) :
    Kept σ (σ.allocated P i dev nr) P ∧
    Did σ (σ.allocated P i dev nr) (.bit (some nr)) (σ.proc P) ((σ.allocated P i dev nr).proc P) := by
  obtain ⟨hsound, htidy⟩ := step_spec h hl hs
  refine ⟨⟨hsound, htidy, ?_, hsb, hcalm, ?_, fun j => step_alike hs⟩, ?_⟩
  · intro Q hQ
    exact update_of_ne hQ _ _
  · intro d m _ hbit
    refine ⟨?_, rfl⟩
    show update σ.bit dev (update (σ.bit dev) nr true) d m = true
    by_cases hname : dev = d ∧ nr = m
    · obtain ⟨rfl, rfl⟩ := hname
      rw [update_self, update_self]
    · rw [update_update_of_not hname]
      exact hbit
  · show Did σ _ _ (σ.proc P) (update σ.proc P _ P)
    rw [update_self, hp]
    refine .bit i dev nr l ?_
    show ((σ.setInode i _).inode i).is dev nr
    rw [setInode_inode, if_pos rfl]
    exact ⟨rfl, rfl⟩

/-- **A step of the inode table** for a process in its call. -/
theorem step_kept (h : Sound σ) (hl : Listed σ (P, ev)) (hsb : ∀ i, σ.sb i = none)
    (hcalm : σ.panicked = false) (hlone : Lone σ) (hlocal : ev.Local P) (hroom : σ.RoomFor P ev)
    (hs : step σ (P, ev) = some τ) : Kept σ τ P ∧ Did σ τ ev (σ.proc P) (τ.proc P) := by
  have hstep := hs
  rw [step, hcalm, if_neg Bool.false_ne_true] at hs
  cases hp : σ.proc P with
  | mk pc l =>
    cases ev with
    | run =>
      rw [← hp]
      exact run_kept h hl hsb hcalm hlone hroom hstep
    | iget dev nr =>
      cases pc <;> simp only [hp, reduceCtorEq] at hs
      obtain ⟨hdev, heq⟩ := Option.ite_none_right_eq_some.1 hs
      cases heq
      rw [← hp]
      exact getEmpty_kept h hl hsb hcalm hroom hstep hp fun j => .iget dev nr j l hdev
    | newInode dev =>
      cases pc <;> simp only [hp, reduceCtorEq] at hs
      obtain ⟨hdev, heq⟩ := Option.ite_none_right_eq_some.1 hs
      cases heq
      rw [← hp]
      exact getEmpty_kept h hl hsb hcalm hroom hstep hp fun j => .newInode dev j l
    | getEmpty =>
      cases pc <;> simp only [hp, reduceCtorEq] at hs
      cases hs
      rw [← hp]
      exact getEmpty_kept h hl hsb hcalm hroom hstep hp fun j => .getEmpty j l
    | iput i =>
      cases pc <;> simp only [hp, reduceCtorEq] at hs
      obtain ⟨hi, heq⟩ := Option.ite_none_right_eq_some.1 hs
      cases heq
      rw [← hp]
      refine kept_of_sameBits h hl hsb hstep rfl ⟨rfl, rfl, rfl⟩ hcalm ?_
      rw [hp]
      exact .iput i l hi
    | share i Q =>
      cases hlocal
      cases pc <;> simp only [hp, reduceCtorEq] at hs
      obtain ⟨hi, heq⟩ := Option.ite_none_right_eq_some.1 hs
      cases heq
      rw [← hp]
      refine kept_of_sameBits h hl hsb hstep rfl ⟨rfl, rfl, rfl⟩ hcalm ?_
      show Did σ _ _ _ { σ.proc P with held := i :: (σ.proc P).held }
      rw [hp]
      exact .share i P l hi
    | give i Q => cases hlocal
    | modify i disk =>
      cases pc <;> simp only [hp, reduceCtorEq] at hs
      obtain ⟨hi, heq⟩ := Option.ite_none_right_eq_some.1 hs
      cases heq
      rw [← hp]
      refine kept_of_sameBits h hl hsb hstep (update_eq_self P σ.proc).symm ⟨rfl, rfl, rfl⟩ hcalm ?_
      rw [hp]
      exact .modify i disk l hi
    | mount i dev => cases hlocal
    | bit nr =>
      cases nr with
      | none =>
        cases pc <;> simp only [hp, reduceCtorEq] at hs
        cases hs
        rw [← hp]
        refine kept_of_sameBits h hl hsb hstep rfl ⟨rfl, rfl, rfl⟩ hcalm ?_
        rw [hp]
        exact .noBit _ _ l
      | some nr =>
        cases pc <;> simp only [hp, reduceCtorEq] at hs
        obtain ⟨-, heq⟩ := Option.ite_none_right_eq_some.1 hs
        cases heq
        rw [← hp]
        exact allocated_kept h hl hsb hcalm hp hstep

/-! ### Names -/

/-- The entry has the inode, and that has not been freed since. -/
structure Names (σ : Table n) (i : Fin 32) (dev nr gen : ℕ) : Prop where
  is : (σ.inode i).is dev nr
  freed : σ.freed dev nr = gen
  dev : dev ≠ 0

theorem Names.bit {gen : ℕ} (N : Names σ i dev nr gen) (h : Sound σ) : σ.bit dev nr = true := by
  obtain ⟨h1, h2⟩ := N.is
  have hbit := h.bits i (by rw [h1]; exact N.dev)
  rwa [h1, h2] at hbit

/-- Where there is another reference, that of the call is not the only one. -/
theorem Sound.not_alone (h : Sound σ) (hi : i ∈ (σ.proc Q).held ∨ Q ≠ P ∧ i ∈ (σ.proc Q).refs)
    (hP : i ∈ (σ.proc P).pc.refs) : 1 < (σ.inode i).count := by
  by_contra hle
  rcases hi with hi | ⟨hQP, hi⟩
  · exact h.not_held hP (Nat.not_lt.1 hle) hi
  · have h2 := h.two_le_count hQP hi (List.mem_append_right _ hP)
    omega

theorem Kept.name (K : Kept σ τ P) (h : Sound σ) (hi : i ∈ (σ.proc Q).held ∨ Q ≠ P ∧ i ∈ (σ.proc Q).refs) :
    (τ.inode i).dev = (σ.inode i).dev ∧ (τ.inode i).num = (σ.inode i).num := by
  have hmem : i ∈ (σ.proc Q).refs := by
    rcases hi with hi | hi
    · exact List.mem_append_left _ hi
    · exact hi.2
  rcases K.tidy.names i with h0 | ⟨hP, h1⟩ | hsame
  · have hpos := h.count_pos hmem
    omega
  · have h2 := h.not_alone hi hP
    omega
  · exact hsame

/-- **A reference keeps the inode**, whatever the others do. -/
theorem Names.kept {gen : ℕ} (N : Names σ i dev nr gen) (h : Sound σ) (K : Kept σ τ P)
    (hi : i ∈ (σ.proc Q).held ∨ Q ≠ P ∧ i ∈ (σ.proc Q).refs) : Names τ i dev nr gen := by
  obtain ⟨hdev, hnum⟩ := K.name h hi
  refine ⟨⟨hdev.trans N.is.1, hnum.trans N.is.2⟩, ?_, N.dev⟩
  rcases K.tidy.freed dev nr with ⟨j, hj, h1, his⟩ | hsame
  · have heq : i = j := by
      refine h.single i j ?_ ?_
      · rw [N.is.1]
        exact N.dev
      · rw [N.is.1, N.is.2]
        exact his
    rw [← heq] at hj h1
    have h2 := h.not_alone hi hj
    omega
  · rw [hsame]
    exact N.freed

end Table

end OldLinux.Inodes
