import OldLinux.Tty.Machine

/-!
# Newlines on output

`tty_write` sends a newline in two steps, `'\r'` and then `'\n'`, and remembers in the one variable
`cr_flag` that the first half has been sent.  Between the halves the queue may be full, and then other
calls run.

* `Translated`: on each terminal the bytes sent are the translations of the bytes accepted, and at
  most one `'\r'` more.
* `newlines_translated`: this holds in all runs in which the byte handled after a `'\r'` is the newline
  it belongs to.
-/

namespace OldLinux.Tty

open Function Lib Console

variable {w w' : World} {s s' : System} {ch : Fin 3} {b : ℤ} {fs : List Frame}

/-- What is to be sent for a byte: `'\r\n'` for a newline, also for one that the other flags make, and
else the byte as the other flags make it. -/
def translation (w : World) (ch : Fin 3) (b : ℤ) : List ℤ :=
  if b = 10 ∨ posted (w.termios ch) b = 10 then [13, 10]
  else [raised w.below (w.termios ch) (posted (w.termios ch) b)]

/-- On each terminal the bytes sent are the translations of the bytes accepted, in their order, and
then at most one `'\r'`. -/
def Translated (w : World) : Prop :=
  ∀ ch, ∃ pending, (pending = [] ∨ pending = [13]) ∧
  w.sent ch = (w.accepted ch).flatMap (translation w ch) ++ pending

/-- `tty_write` has given up the processor, or has not begun. -/
def resting : List Frame → Bool
  | [] => true
  | [.tty_write _ _ .outer] => true
  | [.tty_write _ _ .asleep] => true
  | [.tty_write _ _ .sched] => true
  | _ => false

/-- Calls of `tty_write` that take turns where they block or call `schedule`, and lines that send. -/
def interleaved (s : System) : Event → Bool
  | .write _ _ => s.tasks.all resting
  | .run i _ => (s.tasks.set i []).all resting
  | .transmit _ => true
  | _ => false

/-- No newline is half sent and nothing is counted yet; `OPOST` and `ONLCR` are set. -/
structure System.NewlineStart (s : System) : Prop where
  idle : s.tasks = []
  cr_flag : s.world.cr_flag = false
  sent : ∀ ch, s.world.sent ch = []
  accepted : ∀ ch, s.world.accepted ch = []
  opost : ∀ ch, (s.world.termios ch).O_POST = true
  onlcr : ∀ ch, (s.world.termios ch).O_NLCR = true

/-- The byte that a call of `tty_write` is about to handle: while `cr_flag` is set it is the newline
that the flag was set for, on that terminal; and it is no newline with `ONLRET` set. -/
def handles (w : World) : List Frame → Bool
  | .tty_write ch (b :: _) .byte :: _ =>
    (!w.cr_flag || (ch = w.cr_by && posted (w.termios ch) b = 10)) && !(b = 10 && (w.termios ch).O_NLRET)
  | _ => true

/-- The step does not part a newline. -/
def newlinesWhole (s : System) : Event → Bool
  | .run i _ => (s.tasks[i]?).all (handles s.world)
  | _ => true

/-! ### Steps that do not handle a byte of `tty_write` -/

/-- Nothing has been sent or accepted, and the settings are the same. -/
structure Quiet (w w' : World) : Prop where
  sent : w'.sent = w.sent
  accepted : w'.accepted = w.accepted
  cr_flag : w'.cr_flag = w.cr_flag
  cr_by : w'.cr_by = w.cr_by
  termios : w'.termios = w.termios
  below : w'.below = w.below

theorem Quiet.refl (w : World) : Quiet w w := ⟨rfl, rfl, rfl, rfl, rfl, rfl⟩

theorem quiet_upd (w : World) (i : Qid) (f : Queue → Queue) : Quiet w (w.upd i f) :=
  ⟨rfl, rfl, rfl, rfl, rfl, rfl⟩

theorem Quiet.trans {w'' : World} (h : Quiet w w') (h' : Quiet w' w'') : Quiet w w'' :=
  ⟨h'.sent.trans h.sent, h'.accepted.trans h.accepted, h'.cr_flag.trans h.cr_flag,
    h'.cr_by.trans h.cr_by, h'.termios.trans h.termios, h'.below.trans h.below⟩

theorem quiet_count (w : World) (ch : Fin 3) (c n : ℤ) : Quiet w (w.count ch c n) := by
  rw [World.count]
  split_ifs
  · exact quiet_upd w _ _
  · exact .refl w

theorem quiet_cookChar (w : World) (ch : Fin 3) (c : ℤ) : Quiet w (w.cookChar ch c).1 := by
  simp only [World.cookChar]
  split_ifs
  · exact .refl w
  · exact .refl w
  · exact .refl w
  · exact ⟨rfl, rfl, rfl, rfl, rfl, rfl⟩
  · exact ⟨rfl, rfl, rfl, rfl, rfl, rfl⟩
  · exact .refl w
  · exact quiet_count w ch c 1

theorem quiet_cook (w : World) (ch : Fin 3) (pc : CookPc) : Quiet w (w.cook ch pc).1 := by
  cases pc with
  | top =>
    rw [World.cook]
    split_ifs
    · exact .refl w
    · split
      · exact quiet_upd w _ _
      · exact (quiet_upd w _ _).trans (quiet_cookChar _ ch _)
  | kill => exact .refl w
  | echo cs a =>
    cases cs with
    | nil => exact .refl w
    | cons c cs => exact quiet_upd w _ _
  | after a =>
    cases a with
    | store c => exact quiet_upd w _ _
    | del again => exact quiet_upd w _ _

theorem quiet_con_write (w : World) (nr : ℕ) : Quiet w (w.con_write nr).1 := by
  cases nr with
  | zero => exact .refl w
  | succ nr => exact ⟨rfl, rfl, rfl, rfl, rfl, rfl⟩

theorem quiet_respond (w : World) : Quiet w w.respond.1 := ⟨rfl, rfl, rfl, rfl, rfl, rfl⟩

theorem quiet_tty_read (w : World) (ch : Fin 3) (nr : ℕ) (take : Bool) : Quiet w (w.tty_read ch nr take).1 := by
  cases take with
  | false =>
    rw [World.tty_read]
    split_ifs
    · exact .refl w
    · exact .refl w
  | true => exact (quiet_upd w _ _).trans (quiet_count _ ch _ _)

theorem quiet_tty_write {signal : Bool} {bytes : List ℤ} {pc : WritePc} {r : World × List Frame}
    (hpc : pc ≠ .byte) (h : w.tty_write signal ch bytes pc = some r) : Quiet w r.1 := by
  cases pc with
  | byte => exact absurd rfl hpc
  | outer =>
    simp only [World.tty_write] at h
    split_ifs at h <;> cases h <;> exact .refl w
  | asleep =>
    simp only [World.tty_write] at h
    split_ifs at h <;> cases h <;> exact .refl w
  | inner =>
    simp only [World.tty_write] at h
    split_ifs at h <;> cases h <;> exact .refl w
  | sched =>
    cases h
    exact .refl w

/-! ### The byte -/

/-- What is sent, with the half newline. -/
def Halved (w : World) : Prop :=
  (∀ ch, (w.termios ch).O_POST = true ∧ (w.termios ch).O_NLCR = true) ∧
    ∀ ch, w.sent ch = (w.accepted ch).flatMap (translation w ch) ++
      (if w.cr_flag = true ∧ w.cr_by = ch then [13] else [])

theorem Halved.of_quiet (h : Halved w) (hq : Quiet w w') : Halved w' := by
  have htr : translation w' = translation w := by
    funext ch b
    rw [translation, translation, hq.termios, hq.below]
  rw [Halved, hq.termios, hq.sent, hq.accepted, hq.cr_flag, hq.cr_by, htr]
  exact h

theorem raised_newline (below : ℤ → ℕ) (t : Termios) : raised below t 10 = 10 := by
  have hlower : islower below 10 = false := by simp [islower]
  simp [raised, toupper, hlower]

/-- **A byte.**  The first half of a newline is left pending, or the byte is sent whole. -/
theorem Halved.putByte (h : Halved w) {rest : List ℤ}
    (hok : handles w (.tty_write ch (b :: rest) .byte :: fs) = true) :
    Halved (w.putByte ch b rest).1 := by
  obtain ⟨hflags, hsent⟩ := h
  obtain ⟨hpost, hnlcr⟩ := hflags ch
  simp only [handles, Bool.and_eq_true, Bool.or_eq_true, Bool.not_eq_true', decide_eq_true_eq,
    Bool.and_eq_false_iff, decide_eq_false_iff_not] at hok
  obtain ⟨hcr, hret⟩ := hok
  simp only [World.putByte, hpost, hnlcr, if_true, true_and, and_true]
  split_ifs with hhalf
  · -- the first half of a newline
    refine ⟨hflags, fun ch' => ?_⟩
    by_cases hch : ch' = ch
    · subst hch
      have hbefore := hsent ch'
      rw [if_neg fun hc => hhalf.2 hc.1, List.append_nil] at hbefore
      show update w.sent ch' (w.sent ch' ++ [13]) ch' = _
      rw [update_self, hbefore, if_pos ⟨rfl, rfl⟩]
      rfl
    · have hbefore := hsent ch'
      rw [if_neg fun hc => hhalf.2 hc.1] at hbefore
      show update w.sent ch (w.sent ch ++ [13]) ch' = _
      rw [update_of_ne hch, hbefore, if_neg fun hc => hch hc.2.symm]
      rfl
  · -- the byte, or the second half of the newline
    refine ⟨hflags, fun ch' => ?_⟩
    show update w.sent ch (w.sent ch ++ [_]) ch' =
      (update w.accepted ch (w.accepted ch ++ [b]) ch').flatMap (translation w ch') ++
        (if false = true ∧ w.cr_by = ch' then [13] else [])
    have hnone : ¬(false = true ∧ w.cr_by = ch') := fun hc => Bool.false_ne_true hc.1
    by_cases hch : ch' = ch
    · subst hch
      rw [update_self, update_self, hsent ch', List.flatMap_append,
        List.flatMap_singleton, if_neg hnone, List.append_nil, List.append_assoc]
      congr 1
      rcases hcr with hoff | ⟨hby, hnl⟩
      · have hnot : posted (w.termios ch') b ≠ 10 := fun hc => hhalf ⟨hc, by simp [hoff]⟩
        have hb : b ≠ 10 := by
          intro hb
          rcases hret with hb' | hret
          · exact hb' hb
          · exact hnot (by simp [posted, hb, hret])
        rw [if_neg (by simp [hoff]), translation, if_neg (by tauto)]
        rfl
      · have hon : w.cr_flag = true := by
          by_contra hoff
          exact hhalf ⟨hnl, hoff⟩
        rw [if_pos ⟨hon, hby.symm⟩, translation, if_pos (.inr hnl), hnl, raised_newline]
        rfl
    · rw [update_of_ne hch, update_of_ne hch, hsent ch', if_neg hnone, if_neg]
      rintro ⟨hon, hby⟩
      rcases hcr with hoff | ⟨hby', -⟩
      · exact Bool.false_ne_true (hoff.symm.trans hon)
      · exact hch (hby.symm.trans hby'.symm)

theorem Halved.run {signal : Bool} {r : World × List Frame} (h : Halved w)
    (hok : handles w fs = true) (hrun : run w signal fs = some r) : Halved r.1 := by
  cases fs with
  | nil => cases hrun
  | cons f fs =>
    obtain ⟨r, hr, rfl⟩ := Option.map_eq_some_iff.1 hrun
    cases f with
    | cook ch pc =>
      cases hr
      exact h.of_quiet (quiet_cook w ch pc)
    | con_write nr =>
      cases hr
      exact h.of_quiet (quiet_con_write w nr)
    | respond =>
      cases hr
      exact h.of_quiet (quiet_respond w)
    | tty_read ch nr take =>
      cases hr
      exact h.of_quiet (quiet_tty_read w ch nr take)
    | tty_write ch bytes pc =>
      by_cases hpc : pc = .byte
      · subst hpc
        cases bytes with
        | nil => cases hr
        | cons b rest =>
          cases hr
          exact h.putByte hok
      · have hquiet : Quiet w r.1 := quiet_tty_write hpc hr
        exact h.of_quiet hquiet

/-- **Every run.** -/
theorem Halved.step {e : Event} (h : Halved s.world) (hi : interleaved s e = true)
    (hok : newlinesWhole s e = true) (hs : s.step e = some s') : Halved s'.world := by
  cases e with
  | run i signal =>
    obtain ⟨fs, hfs, hs⟩ := Option.bind_eq_some_iff.1 hs
    obtain ⟨r, hr, hs⟩ := Option.bind_eq_some_iff.1 hs
    cases hs
    simp only [newlinesWhole, hfs, Option.all_some] at hok
    exact h.run hok hr
  | write ch bytes =>
    cases hs
    exact h
  | transmit ch =>
    obtain ⟨r, hr, hs⟩ := Option.bind_eq_some_iff.1 hs
    cases hs
    simp only [World.event] at hr
    split_ifs at hr
    cases hr
    exact h.of_quiet (quiet_upd _ _ _)
  | input ch cs => exact absurd hi Bool.false_ne_true
  | interrupt ch => exact absurd hi Bool.false_ne_true
  | read ch nr => exact absurd hi Bool.false_ne_true
  | set_termios ch t flush => exact absurd hi Bool.false_ne_true
  | set_termio ch t flush => exact absurd hi Bool.false_ne_true

theorem Halved.translated (h : Halved w) : Translated w := by
  intro ch
  refine ⟨_, ?_, h.2 ch⟩
  split_ifs
  · exact .inr rfl
  · exact .inl rfl

/-- Three terminals with `OPOST` and `ONLCR`; the line of the second is slow, there is one place left
in its queue. -/
def slowLine : System :=
  let w := World.boot (con_init ⟨0, 0, false, 80, false⟩ fun _ => 0)
  { world := { w with
      termios := fun _ => { c_iflag := 0, c_oflag := 0o5, c_lflag := 0, c_cc := INIT_C_CC }
      queue := update w.queue (write_q 1) { w.queue (write_q 1) with head := 1022 } }
    tasks := [] }

theorem slowLine_start : slowLine.NewlineStart :=
  ⟨rfl, rfl, fun _ => rfl, fun _ => rfl, fun _ => by simp [slowLine, Termios.O_POST],
    fun _ => by simp [slowLine, Termios.O_NLCR]⟩

/-- Two calls of `tty_write` send one newline each; the first has to wait for its second half. -/
def twoNewlines : List Event :=
  [.write 1 [10], .run 0 false, .run 0 false, .run 0 false, .run 0 false,
    .write 2 [10], .run 1 false, .run 1 false, .run 1 false]

/-- **A newline without its `'\r'`.**  The second call finds `cr_flag` set for the other terminal. -/
theorem newline_loses_cr : ¬∀ s, Reach System.NewlineStart System.step (fun s e => interleaved s e = true) s →
      Translated s.world := by
  intro hall
  have hlog : (exec System.step slowLine twoNewlines).map
      (fun s => (s.world.sent 2, s.world.accepted 2)) = some ([10], [10]) := by rfl
  obtain ⟨s, hs, hb⟩ := Option.map_eq_some_iff.1 hlog
  have hreach : Reach System.NewlineStart System.step (fun s e => interleaved s e = true) s :=
    Reach.exec (.start slowLine_start) (along_of_checks (by rfl)) hs
  obtain ⟨pending, hpending, hsent⟩ := hall s hreach 2
  obtain ⟨hs2, ha2⟩ := Prod.mk.injEq .. ▸ hb
  rw [hs2, ha2, List.flatMap_singleton, translation, if_pos (.inl rfl)] at hsent
  exact absurd (congrArg List.head? hsent) (by simp)

/-- **Newlines stay whole.**  In every interleaving of calls of `tty_write` in which the byte handled
after a `'\r'` is the newline it belongs to, the bytes sent on each terminal are the translations of
the bytes accepted. -/
theorem newlines_translated (h : Reach System.NewlineStart System.step
      (fun s e => interleaved s e = true ∧ newlinesWhole s e = true) s) : Translated s.world := by
  refine Halved.translated (Reach.invariant (I := fun s => Halved s.world) (fun s hs => ?_)
    (fun s e s' hI ha hs => hI.step ha.1 ha.2 hs) h)
  refine ⟨fun ch => ⟨hs.opost ch, hs.onlcr ch⟩, fun ch => ?_⟩
  rw [hs.sent, hs.accepted, hs.cr_flag, if_neg fun hc => Bool.false_ne_true hc.1]
  rfl

/-- Two calls on the same terminal, one after the other. -/
def oneByOne : List Event :=
  .write 2 [10] :: List.replicate 6 (.run 0 false) ++ .write 2 [10] :: List.replicate 6 (.run 1 false)

theorem newlines_translated_two : ∃ s, exec System.step slowLine oneByOne = some s ∧
    s.world.sent 2 = [13, 10, 13, 10] ∧ Translated s.world := by
  have hlog : (exec System.step slowLine oneByOne).map (fun s => s.world.sent 2) =
    some [13, 10, 13, 10] := by rfl
  obtain ⟨s, hs, hb⟩ := Option.map_eq_some_iff.1 hlog
  refine ⟨s, hs, hb, newlines_translated (Reach.exec (.start slowLine_start) ?_ hs)⟩
  have hchecks : checks System.step (fun s e => interleaved s e && newlinesWhole s e) slowLine
      oneByOne = true := by
    rfl
  simpa using along_of_checks hchecks

end OldLinux.Tty
