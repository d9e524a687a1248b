import OldLinux.Tty.Reader

/-!
# The alarm of a reader

`tty_read` gives the alarm of its task back before it returns, but it returns in the middle of its loop
when it has taken an end-of-file character in canonical mode.

* `Holds`: who has the alarm on the way, and at each of the returns.
* `alarm_given_back`: the alarm is what it was at every return, but for that one, which leaves what is in
  force then.
-/

namespace OldLinux.Tty.Reading

open Lib Sched

/-! ### Who has the alarm -/

/-- The alarm in force before the last batch of characters in canonical mode: the borrowed one, or
none after it has expired. -/
def Setting.inForce (k : Setting) (expired : Bool) : ℤ :=
  if expired then 0 else if k.lent then long (k.time + k.jiffies) else k.alarm

/-- What the alarm is on the way, and at each of the returns. -/
def Holds (k : Setting) (r : Reader) : Prop :=
  match r.pc with
  | .returned _ false => r.alarm = k.alarm
  | .returned _ true => r.alarm = k.inForce r.expired
  | _ => r.oldalarm = k.alarm ∧ (r.termios.L_CANON = true → r.alarm = k.inForce r.expired)

variable {k : Setting} {r r' t : Reader} {e : ReadEvent} {es : List ReadEvent} {channel : ℕ} {nr : ℤ}

theorem holds_start (k : Setting) (channel : ℕ) (nr : ℤ) : Holds k (k.tty_read channel nr) := by
  by_cases hbad : 2 < channel ∨ nr < 0
  · rw [Setting.tty_read, if_pos hbad]
    exact rfl
  · rw [Setting.tty_read, if_neg hbad]
    exact ⟨rfl, fun _ => rfl⟩

/-- On the way, and the step goes on without touching the alarm. -/
theorem holds_of_same (hold : r.oldalarm = k.alarm)
    (hcanon : r.termios.L_CANON = true → r.alarm = k.inForce r.expired)
    (hpc : ∀ value at_eof, r.pc ≠ .returned value at_eof) : Holds k r := by
  cases h : r.pc with
  | returned value at_eof => exact absurd h (hpc value at_eof)
  | _ =>
    rw [Holds, h]
    exact ⟨hold, hcanon⟩

theorem holds_loop (hold : r.oldalarm = k.alarm)
    (hcanon : r.termios.L_CANON = true → r.alarm = k.inForce r.expired) : Holds k r.loop := by
  rw [Reader.loop]
  by_cases hnr : r.nr ≤ 0
  · rw [if_pos hnr]
    exact ⟨hold, hcanon⟩
  · rw [if_neg hnr]
    by_cases halrm : r.flag = true ∧ r.signal &&& ALRMMASK ≠ 0
    · rw [if_pos halrm]
      exact ⟨hold, hcanon⟩
    · rw [if_neg halrm]
      by_cases hsignal : r.signal ≠ 0
      · rw [if_pos hsignal]
        exact ⟨hold, hcanon⟩
      · rw [if_neg hsignal]
        refine holds_of_same hold hcanon fun value at_eof h => ?_
        dsimp only at h
        split_ifs at h

/-- The return for an end-of-file character leaves the alarm as it is. -/
theorem holds_take (hold : r.oldalarm = k.alarm)
    (hcanon : r.termios.L_CANON = true → r.alarm = k.inForce r.expired) : Holds k r.take := by
  rw [Reader.take]
  by_cases heof : r.secondary.next = r.termios.EOF_CHAR ∧ r.termios.L_CANON = true
  · rw [if_pos heof]
    exact hcanon heof.2
  · rw [if_neg heof]
    exact ⟨hold, hcanon⟩

theorem holds_after (hold : r.oldalarm = k.alarm)
    (hcanon : r.termios.L_CANON = true → r.alarm = k.inForce r.expired) : Holds k r.after := by
  refine holds_of_same hold (fun h => ?_) fun value at_eof h => ?_
  · have hmode : r.termios.L_CANON = true := h
    have hagain : ¬(r.time ≠ 0 ∧ ¬r.termios.L_CANON = true) := fun ⟨_, hraw⟩ => hraw hmode
    show (if r.time ≠ 0 ∧ ¬r.termios.L_CANON = true then _ else r.alarm) = k.inForce r.expired
    rw [if_neg hagain]
    exact hcanon hmode
  · rw [Reader.after] at h
    dsimp only at h
    split_ifs at h

theorem holds_run (h : Holds k r) (hrun : r.run = some r') : Holds k r' := by
  rw [Reader.run] at hrun
  cases hpc : r.pc with
  | returned value at_eof =>
    rw [hpc] at hrun
    cases hrun
  | loop =>
    rw [Holds, hpc] at h
    rw [hpc] at hrun
    cases hrun
    exact holds_loop h.1 h.2
  | asleep =>
    rw [Holds, hpc] at h
    rw [hpc] at hrun
    dsimp only at hrun
    split_ifs at hrun
    cases hrun
    exact ⟨h.1, h.2⟩
  | take =>
    rw [Holds, hpc] at h
    rw [hpc] at hrun
    cases hrun
    exact holds_take h.1 h.2
  | store c =>
    rw [Holds, hpc] at h
    rw [hpc] at hrun
    cases hrun
    refine holds_of_same h.1 h.2 fun value at_eof hret => ?_
    rw [Reader.store] at hret
    dsimp only at hret
    split_ifs at hret
  | after =>
    rw [Holds, hpc] at h
    rw [hpc] at hrun
    cases hrun
    exact holds_after h.1 h.2
  | finish =>
    rw [Holds, hpc] at h
    rw [hpc] at hrun
    cases hrun
    exact h.1

theorem holds_expire (h : Holds k r) (hstep : r.step .expire = some r') : Holds k r' := by
  rw [Reader.step] at hstep
  split_ifs at hstep with hexp
  cases hstep
  have hsleeps := hexp.1
  rw [Reader.sleeps] at hsleeps
  cases hpc : r.pc with
  | asleep =>
    rw [Holds, hpc] at h
    exact ⟨h.1, fun _ => rfl⟩
  | store c =>
    rw [Holds, hpc] at h
    exact ⟨h.1, fun _ => rfl⟩
  | loop => simp [hpc] at hsleeps
  | take => simp [hpc] at hsleeps
  | after => simp [hpc] at hsleeps
  | finish => simp [hpc] at hsleeps
  | returned value at_eof => simp [hpc] at hsleeps

theorem holds_step (h : Holds k r) (hstep : r.step e = some r') : Holds k r' := by
  cases e with
  | run => exact holds_run h hstep
  | input q =>
    cases hstep
    exact h
  | tick =>
    cases hstep
    exact h
  | kill mask =>
    cases hstep
    exact h
  | expire => exact holds_expire h hstep

theorem holds_exec (h : Holds k r) (hexec : exec Reader.step r es = some t) : Holds k t := by
  induction es generalizing r with
  | nil =>
    cases hexec
    exact h
  | cons e es ih =>
    obtain ⟨s, hs, hrest⟩ := Option.bind_eq_some_iff.1 hexec
    exact ih (holds_step h hs) hrest

/-! ### Every return -/

/-- **The alarm is given back** at every return of `tty_read`, but for the one at an end-of-file
character: there it is what it was before exactly if that is in force. -/
theorem alarm_given_back {value : ℤ} {at_eof : Bool}
    (hexec : exec Reader.step (k.tty_read channel nr) es = some t)
    (hret : t.pc = .returned value at_eof) :
    t.alarm = k.alarm ↔ (at_eof = true → k.inForce t.expired = k.alarm) := by
  have h := holds_exec (holds_start k channel nr) hexec
  rw [Holds, hret] at h
  cases at_eof with
  | false => exact ⟨fun _ heof => absurd heof Bool.false_ne_true, fun _ => h⟩
  | true =>
    have halarm : t.alarm = k.inForce t.expired := h
    rw [halarm]
    exact ⟨fun heq _ => heq, fun heq => heq rfl⟩

/-- A terminal in canonical mode with a timeout of five tenths of a second and an end-of-file character
in its queue, and a task with an alarm in ten seconds. -/
def eofTyped : Setting :=
  { alarm := 2000
    signal := 0
    jiffies := 1000
    termios := { c_iflag := 0, c_oflag := 0, c_lflag := 0o2
                 c_cc := fun i => if i = 4 then 4 else if i = VTIME then 5 else 0 }
    secondary := { Queue.PUTCH 4 Queue.initial with data := 1 } }

/-- **The alarm is lost.**  `tty_read` returns at the end-of-file character, and the alarm rings with
the timeout. -/
theorem alarm_lost : ¬∀ (k : Setting) (channel : ℕ) (nr : ℤ) (es : List ReadEvent) (t : Reader) (value : ℤ)
      (at_eof : Bool), exec Reader.step (k.tty_read channel nr) es = some t →
        t.pc = .returned value at_eof → t.alarm = k.alarm := by
  intro hall
  have hrun : (exec Reader.step (eofTyped.tty_read 0 10) [.run, .run]).map
      (fun t => (t.alarm, match t.pc with | .returned value at_eof => some (value, at_eof) | _ => none))
      = some (1050, some (0, true)) := by decide
  obtain ⟨t, ht, hres⟩ := Option.map_eq_some_iff.1 hrun
  obtain ⟨halarm, hpc⟩ := Prod.mk.inj hres
  cases h : t.pc with
  | returned value at_eof =>
    have hback := hall eofTyped 0 10 [.run, .run] t value at_eof ht h
    rw [halarm] at hback
    exact absurd hback (by decide)
  | _ => simp [h] at hpc

/-- A task that waits with a timeout in raw mode gets a character and has its alarm again. -/
theorem alarm_given_back_raw :
    ∃ t, exec Reader.step (({ eofTyped with
        termios := { eofTyped.termios with c_lflag := 0 } } : Setting).tty_read 0 10)
      [.run, .run, .run, .run, .run] = some t ∧ t.alarm = 2000 := by
  have hrun : (exec Reader.step (({ eofTyped with
        termios := { eofTyped.termios with c_lflag := 0 } } : Setting).tty_read 0 10)
      [.run, .run, .run, .run, .run]).map
      (fun t => match t.pc with | .returned value at_eof => some (value, at_eof) | _ => none)
      = some (some (1, false)) := by decide
  obtain ⟨t, ht, hpc⟩ := Option.map_eq_some_iff.1 hrun
  cases h : t.pc with
  | returned value at_eof =>
    rw [h] at hpc
    obtain ⟨-, rfl⟩ := Prod.mk.inj (Option.some.inj hpc)
    exact ⟨t, ht, (alarm_given_back ht h).2 fun heof => absurd heof Bool.false_ne_true⟩
  | _ => simp [h] at hpc

end OldLinux.Tty.Reading
