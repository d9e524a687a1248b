import OldLinux.Lib.LineEditor
import OldLinux.Tty.Answers

/-!
# `copy_to_cooked`, key by key

A call of `copy_to_cooked` next to the line editor: what it makes of each character, with the loops that
kill a line and that echo.  The call runs on its own.

* `Rests`: the queues hold what the editor says, and the screen has interpreted what has been sent.
* `Outcome`: a stretch of the call goes through, or a call of `con_write` in it is about to answer an
  `ESC Z`.
* `key_outcome`: one character.
-/

namespace OldLinux.Tty.Cooking

open Lib Console

variable {w v v' : World} {ch : Fin 3} {fs gs hs : List Frame} {input input' text text' sent cs : List ℤ}
  {ms ms' : List (Mark ℤ)} {c x : ℤ} {s s' : World × List Frame}

abbrev Steps : World × List Frame → World × List Frame → Prop := Relation.ReflTransGen Next

/-! ### The editor -/

/-- What a character asks for. -/
def keyOf (t : Termios) (c : ℤ) : Key ℤ :=
  if t.L_CANON ∧ c = t.KILL_CHAR then .kill
  else if t.L_CANON ∧ c = t.ERASE_CHAR then .erase
  else if t.L_CANON ∧ (c = t.STOP_CHAR ∨ c = t.START_CHAR) then .drop
  else if t.L_ISIG ∧ (c = t.INTR_CHAR ∨ c = t.QUIT_CHAR) then .drop
  else .put c

def keys (below : ℤ → ℕ) (t : Termios) (input : List ℤ) : List (Key ℤ) :=
  (input.filterMap (received below t)).map (keyOf t)

/-- What is sent for a character that is typed or removed. -/
def markText (t : Termios) : Mark ℤ → List ℤ
  | .typed c => echoed t c
  | .removed c => rubout c

def sentFor (t : Termios) (ms : List (Mark ℤ)) : List ℤ := if t.L_ECHO then ms.flatMap (markText t) else []

/-! ### The console -/

/-- One of the characters is the `Z` of an `ESC Z`. -/
def Asks (w : World) (cs : List ℤ) : Prop :=
  ∃ before c after, cs = before ++ c :: after ∧ (interpret w before).asks c = true

/-- The console shows an echo, and with it an `ESC Z`. -/
def EchoAsks (w : World) (ms : List (Mark ℤ)) : Prop :=
  (w.termios 0).L_ECHO = true ∧ ms ≠ [] ∧ Asks w ((w.queue (write_q 0)).chars ++ sentFor (w.termios 0) ms)

/-- All that was in the queue of the console and has been sent is shown, or still in the queue. -/
def Shown (w : World) (sent : List ℤ) (v : World) : Prop :=
  ∃ done, (w.queue (write_q 0)).chars ++ sent = done ++ (v.queue (write_q 0)).chars ∧
    v.screen = interpret w done ∧ ¬Asks w done

/-- From `w` on, the call has come to this input and this text, and has sent this. -/
structure Is (w : World) (ch : Fin 3) (input text sent : List ℤ) (v : World) : Prop where
  wf : ∀ i, (v.queue i).Wf
  termios : v.termios = w.termios
  below : v.below = w.below
  reads : (v.queue (read_q ch)).chars = input
  given : (v.queue (read_q ch)).put = (w.queue (read_q ch)).put
  holds : (v.queue (secondary ch)).chars = text
  puts : (v.queue (write_q ch)).put = (w.queue (write_q ch)).put ++ sent
  shown : ch = 0 → Shown w sent v

/-- The call is not in an echo: the console has shown what has been echoed. -/
structure Rests (w : World) (ch : Fin 3) (input text : List ℤ) (ms : List (Mark ℤ)) (v : World) : Prop
    extends Is w ch input text (sentFor (w.termios ch) ms) v where
  room : ch = 0 → (v.queue (write_q 0)).CHARS ≤ 1021
  flushed : ch = 0 → (w.termios ch).L_ECHO = true → ms ≠ [] → (v.queue (write_q 0)).chars = []

/-- A call of `con_write` is about to answer. -/
def Answering (w : World) (s : World × List Frame) : Prop :=
  ∃ x gs, Steps s (x, .respond :: gs) ∧ (x.queue (read_q 0)).put = (w.queue (read_q 0)).put

/-- The call goes on to `gs`, with this input and this text, after these marks, or stops to answer. -/
def Outcome (w : World) (ch : Fin 3) (input text : List ℤ) (ms : List (Mark ℤ))
    (s : World × List Frame) (gs : List Frame) : Prop :=
  (∃ v, Steps s (v, gs) ∧ Rests w ch input text ms v) ∨ ch = 0 ∧ EchoAsks w ms ∧ Answering w s

/-! ### `Asks` -/

theorem Asks.append (h : Asks w cs) (cs' : List ℤ) : Asks w (cs ++ cs') := by
  obtain ⟨p, c, s, rfl, hc⟩ := h
  exact ⟨p, c, s ++ cs', by simp, hc⟩

theorem asks_concat (h : (interpret w cs).asks c = true) : Asks w (cs ++ [c]) := ⟨cs, c, [], rfl, h⟩

theorem not_asks_concat (h : ¬Asks w cs) (hc : (interpret w cs).asks c = false) : ¬Asks w (cs ++ [c]) := by
  rintro ⟨p, x, s, heq, hx⟩
  rcases List.eq_nil_or_concat s with rfl | ⟨s, y, rfl⟩
  · obtain ⟨rfl, hcx⟩ := List.append_inj' heq rfl
    obtain rfl : c = x := by simpa using hcx
    rw [hx] at hc
    cases hc
  · rw [List.concat_eq_append, ← List.cons_append, ← List.append_assoc] at heq
    exact h ⟨p, x, s, (List.append_inj' heq rfl).1, hx⟩

theorem not_asks_nil (w : World) : ¬Asks w [] := by
  rintro ⟨p, x, s, heq, -⟩
  cases p <;> cases heq

theorem EchoAsks.append (h : EchoAsks w ms) (ms' : List (Mark ℤ)) : EchoAsks w (ms ++ ms') := by
  obtain ⟨hecho, hne, hasks⟩ := h
  refine ⟨hecho, fun h => hne (List.append_eq_nil_iff.1 h).1, ?_⟩
  rw [sentFor, if_pos hecho, List.flatMap_append, ← List.append_assoc]
  rw [sentFor, if_pos hecho] at hasks
  exact hasks.append _

/-! ### Outcomes -/

theorem Answering.head (hs : Steps s s') (h : Answering w s') : Answering w s := by
  obtain ⟨x, gs, hrun, hput⟩ := h
  exact ⟨x, gs, hs.trans hrun, hput⟩

theorem Outcome.head (hs : Steps s s') (h : Outcome w ch input text ms s' gs) :
    Outcome w ch input text ms s gs := by
  rcases h with ⟨v, hrun, hv⟩ | ⟨hch, hasks, hans⟩
  · exact .inl ⟨v, hs.trans hrun, hv⟩
  · exact .inr ⟨hch, hasks, hans.head hs⟩

/-- One stretch after the other. -/
theorem Outcome.bind (h : Outcome w ch input text ms s gs)
    (hnext : ∀ v, Rests w ch input text ms v → Outcome w ch input' text' (ms ++ ms') (v, gs) hs) :
    Outcome w ch input' text' (ms ++ ms') s hs := by
  rcases h with ⟨v, hrun, hv⟩ | ⟨hch, hasks, hans⟩
  · exact (hnext v hv).head hrun
  · exact .inr ⟨hch, hasks.append ms', hans⟩

theorem Rests.outcome (h : Rests w ch input text ms v) : Outcome w ch input text ms (v, gs) gs :=
  .inl ⟨v, .refl, h⟩

/-! ### Operations on the queues -/

theorem Shown.same (h : Shown w sent v) (hq : v'.queue (write_q 0) = v.queue (write_q 0))
    (hs : v'.screen = v.screen) : Shown w sent v' := by
  obtain ⟨done, hall, hscreen, hno⟩ := h
  exact ⟨done, hq ▸ hall, hs.trans hscreen, hno⟩

theorem Is.pos (h : Is w ch (x :: input) text sent v) : 0 < (v.queue (read_q ch)).CHARS := by
  rw [← Queue.chars_length, h.reads]
  exact Nat.succ_pos _

/-- The next character of the input is taken. -/
theorem Is.getch (h : Is w ch (x :: input) text sent v) : (v.queue (read_q ch)).next = x ∧
    Is w ch input text sent (v.upd (read_q ch) Queue.GETCH) := by
  have hchars := Queue.getch_chars (h.wf (read_q ch)) h.pos
  rw [h.reads] at hchars
  obtain ⟨hx, hrest⟩ := List.cons_eq_cons.1 hchars
  refine ⟨hx.symm, upd_wf h.wf (Queue.getch_wf (h.wf _)), h.termios, h.below, ?_, ?_, ?_, ?_, fun h0 =>
    (h.shown h0).same (upd_other (by simp) _) rfl⟩
  · rw [upd_self, ← hrest]
  · rw [upd_self]
    exact h.given
  · rw [upd_other (by simp)]
    exact h.holds
  · rw [upd_other (by simp)]
    exact h.puts

/-- An operation on the secondary queue. -/
theorem Is.secondary {f : Queue → Queue} (h : Is w ch input text sent v)
    (hf : (f (v.queue (secondary ch))).Wf) (htext : (f (v.queue (secondary ch))).chars = text') :
    Is w ch input text' sent (v.upd (secondary ch) f) := by
  refine ⟨upd_wf h.wf hf, h.termios, h.below, ?_, ?_, ?_, ?_, fun h0 =>
    (h.shown h0).same (upd_other (by simp) _) rfl⟩
  · rw [upd_other (by simp)]
    exact h.reads
  · rw [upd_other (by simp)]
    exact h.given
  · rw [upd_self]
    exact htext
  · rw [upd_other (by simp)]
    exact h.puts

theorem Is.count (h : Is w ch input text sent v) (c n : ℤ) : Is w ch input text sent (v.count ch c n) := by
  rw [World.count]
  split_ifs
  · exact h.secondary (h.wf (Tty.secondary ch)) h.holds
  · exact h

/-- A character is put for the echo. -/
theorem Is.putch (h : Is w ch input text sent v) (hroom : ch = 0 → 0 < (v.queue (write_q 0)).LEFT) (c : ℤ) :
    Is w ch input text (sent ++ [c]) (v.upd (write_q ch) (Queue.PUTCH c)) := by
  refine ⟨upd_wf h.wf (Queue.putch_wf (h.wf _)), h.termios, h.below, ?_, ?_, ?_, ?_, fun h0 => ?_⟩
  · rw [upd_other (by simp)]
    exact h.reads
  · rw [upd_other (by simp)]
    exact h.given
  · rw [upd_other (by simp)]
    exact h.holds
  · rw [upd_self, ← List.append_assoc, ← h.puts]
    rfl
  · subst h0
    obtain ⟨done, hall, hscreen, hno⟩ := h.shown rfl
    refine ⟨done, ?_, hscreen, hno⟩
    rw [upd_self, Queue.putch_chars (h.wf _) (hroom rfl), ← List.append_assoc, hall, List.append_assoc]

/-! ### `con_write` -/

/-- All that is in the queue of the console is shown, or there is an `ESC Z` in it. -/
theorem con_write_outcome {nr : ℕ} (fs : List Frame) (h : Is w 0 input text sent v)
    (hnr : (v.queue (write_q 0)).CHARS = nr) :
    (∃ v', Steps (v, .con_write nr :: fs) (v', fs) ∧ Is w 0 input text sent v' ∧
      (v'.queue (write_q 0)).chars = []) ∨
    Asks w ((w.queue (write_q 0)).chars ++ sent) ∧ Answering w (v, .con_write nr :: fs) := by
  induction nr generalizing v with
  | zero => exact .inl ⟨v, .single rfl, h, Queue.chars_nil hnr⟩
  | succ nr ih =>
    have hpos : 0 < (v.queue (write_q 0)).CHARS := by omega
    have hcons := Queue.getch_chars (h.wf (write_q 0)) hpos
    have hlen := Queue.getch_CHARS (h.wf (write_q 0)) hpos
    obtain ⟨done, hall, hscreen, hno⟩ := h.shown rfl
    rw [hcons] at hall
    cases hasks : v.screen.asks (v.queue (write_q 0)).next with
    | true =>
      refine .inr ⟨?_, (v.con_write (nr + 1)).1, .con_write nr :: fs, .single ?_, ?_⟩
      · rw [hscreen] at hasks
        rw [hall, List.append_cons]
        exact (asks_concat hasks).append _
      · show run v false (.con_write (nr + 1) :: fs) = _
        rw [run, Frame.step, Option.map_some]
        simp only [World.con_write, hasks, if_true, List.cons_append, List.nil_append]
      · show (((v.upd (write_q 0) Queue.GETCH).queue) (read_q 0)).put = _
        rw [upd_other (by simp)]
        exact h.given
    | false =>
      have hstep : Next (v, .con_write (nr + 1) :: fs) ((v.con_write (nr + 1)).1, .con_write nr :: fs) := by
        show run v false (.con_write (nr + 1) :: fs) = _
        rw [run, Frame.step, Option.map_some]
        simp only [World.con_write, hasks, Bool.false_eq_true, if_false, List.cons_append, List.nil_append]
      have hqueue : ∀ i, (v.con_write (nr + 1)).1.queue i = (v.upd (write_q 0) Queue.GETCH).queue i := fun _ =>
        rfl
      have hnext : Is w 0 input text sent (v.con_write (nr + 1)).1 := by
        refine ⟨fun i => ?_, h.termios, h.below, ?_, ?_, ?_, ?_, fun _ => ?_⟩
        · rw [hqueue]
          exact upd_wf h.wf (Queue.getch_wf (h.wf _)) i
        · rw [hqueue, upd_other (by simp)]
          exact h.reads
        · rw [hqueue, upd_other (by simp)]
          exact h.given
        · rw [hqueue, upd_other (by simp)]
          exact h.holds
        · rw [hqueue, upd_self]
          exact h.puts
        · refine ⟨done ++ [(v.queue (write_q 0)).next], ?_, ?_, ?_⟩
          · rw [hqueue, upd_self, hall, List.append_assoc, List.singleton_append]
          · show v.screen.con_char ((v.termios 0).c_cc 2) (v.queue (write_q 0)).next = _
            rw [hscreen, h.termios, interpret, interpret, List.foldl_concat]
          · rw [hscreen] at hasks
            exact not_asks_concat hno hasks
      have hleft : ((v.con_write (nr + 1)).1.queue (write_q 0)).CHARS = nr := by
        rw [hqueue, upd_self]
        omega
      rcases ih hnext hleft with ⟨v', hrun, hv'⟩ | ⟨hall', hans⟩
      · exact .inl ⟨v', .head hstep hrun, hv'⟩
      · exact .inr ⟨hall', hans.head (.single hstep)⟩

/-! ### Echoes -/

theorem next_cook (v : World) (ch : Fin 3) (pc : CookPc) (fs : List Frame) :
    Next (v, .cook ch pc :: fs) ((v.cook ch pc).1, (v.cook ch pc).2 ++ fs) := rfl

/-- An echo is put and, on the console, shown. -/
theorem echo_outcome (fs : List Frame) (h : Is w ch input text sent v)
    (hroom : ch = 0 → (v.queue (write_q 0)).CHARS + cs.length ≤ 1023) (a : After) :
    (∃ v', Steps (v, .cook ch (.echo cs a) :: fs) (v', .cook ch (.after a) :: fs) ∧
      Is w ch input text (sent ++ cs) v' ∧ (ch = 0 → (v'.queue (write_q 0)).chars = [])) ∨
    ch = 0 ∧ Asks w ((w.queue (write_q 0)).chars ++ (sent ++ cs)) ∧
    Answering w (v, .cook ch (.echo cs a) :: fs) := by
  induction cs generalizing v sent with
  | nil =>
    have hstep := next_cook v ch (.echo [] a) fs
    rw [List.append_nil]
    by_cases hch : ch = 0
    · subst hch
      have hframes : (v.cook 0 (.echo [] a)).2 ++ fs =
          .con_write (v.queue (write_q 0)).CHARS :: .cook 0 (.after a) :: fs := rfl
      rw [hframes] at hstep
      rcases con_write_outcome (.cook 0 (.after a) :: fs) h rfl with
        ⟨v', hrun, hv', hnil⟩ | ⟨hasks, hans⟩
      · exact .inl ⟨v', .head hstep hrun, hv', fun _ => hnil⟩
      · exact .inr ⟨rfl, hasks, hans.head (.single hstep)⟩
    · have hframes : (v.cook ch (.echo [] a)).2 ++ fs = .cook ch (.after a) :: fs := by
        rw [World.cook, World.write, if_neg hch]
        rfl
      rw [hframes] at hstep
      exact .inl ⟨v, .single hstep, h, fun h0 => absurd h0 hch⟩
  | cons c cs ih =>
    have hstep := next_cook v ch (.echo (c :: cs) a) fs
    have hroom0 : ch = 0 → 0 < (v.queue (write_q 0)).LEFT := fun h0 => by
      have hsum := Queue.left_add_chars (v.queue (write_q 0))
      have hle := hroom h0
      rw [List.length_cons] at hle
      omega
    have hput := h.putch hroom0 c
    have hroom' : ch = 0 → ((v.upd (write_q ch) (Queue.PUTCH c)).queue (write_q 0)).CHARS + cs.length ≤
        1023 := by
      intro h0
      subst h0
      have hle := hroom rfl
      rw [List.length_cons] at hle
      rw [upd_self, Queue.putch_CHARS (h.wf _) (hroom0 rfl)]
      omega
    rcases ih hput hroom' with ⟨v', hrun, hv', hnil⟩ | ⟨h0, hasks, hans⟩
    · rw [List.append_assoc] at hv'
      exact .inl ⟨v', .head hstep hrun, hv', hnil⟩
    · rw [List.append_assoc] at hasks
      exact .inr ⟨h0, hasks, hans.head (.single hstep)⟩

/-- The frame that echoes a mark, or does not. -/
def markFrame (t : Termios) (ch : Fin 3) (m : Mark ℤ) (a : After) : Frame :=
  if t.L_ECHO then .cook ch (.echo (markText t m) a) else .cook ch (.after a)

theorem markText_length (t : Termios) (m : Mark ℤ) : (markText t m).length ≤ 2 := by
  cases m with
  | typed c => exact echoed_length t c
  | removed c =>
    rw [markText, rubout]
    split_ifs <;> simp

theorem sentFor_concat (t : Termios) (ms : List (Mark ℤ)) (m : Mark ℤ) :
    sentFor t (ms ++ [m]) = if t.L_ECHO then sentFor t ms ++ markText t m else [] := by
  rw [sentFor, sentFor]
  split_ifs
  · rw [List.flatMap_append, List.flatMap_singleton]
  · rfl

/-- The echo of one mark. -/
theorem mark_outcome (fs : List Frame) (h : Rests w ch input text ms v) (m : Mark ℤ) (a : After) :
    Outcome w ch input text (ms ++ [m]) (v, markFrame (w.termios ch) ch m a :: fs)
    (.cook ch (.after a) :: fs) := by
  have hsent := sentFor_concat (w.termios ch) ms m
  by_cases hecho : (w.termios ch).L_ECHO = true
  · rw [if_pos hecho] at hsent
    rw [markFrame, if_pos hecho]
    have hroom : ch = 0 → (v.queue (write_q 0)).CHARS + (markText (w.termios ch) m).length ≤ 1023 := by
      intro h0
      have h1 := h.room h0
      have h2 := markText_length (w.termios ch) m
      omega
    rcases echo_outcome fs h.toIs hroom a with ⟨v', hrun, hv', hnil⟩ | ⟨h0, hasks, hans⟩
    · rw [← hsent] at hv'
      refine .inl ⟨v', hrun, hv', fun h0 => ?_, fun h0 _ _ => hnil h0⟩
      rw [← Queue.chars_length, hnil h0]
      exact Nat.zero_le _
    · rw [← hsent] at hasks
      subst h0
      exact .inr ⟨rfl, ⟨hecho, by simp, hasks⟩, hans⟩
  · rw [if_neg hecho] at hsent
    have hnone : sentFor (w.termios ch) ms = [] := if_neg hecho
    rw [markFrame, if_neg hecho]
    refine .inl ⟨v, .refl, ?_, h.room, fun _ hyes => absurd hyes hecho⟩
    rw [hsent, ← hnone]
    exact h.toIs

/-! ### One character -/

/-- Nothing is left of the current line. -/
theorem lineEnd_iff (h : Is w ch input text sent v) :
    v.lineEnd ch = true ↔ current (w.termios ch).ends text = [] := by
  rw [World.lineEnd, decide_eq_true_iff, h.termios]
  have hwf := h.wf (secondary ch)
  rcases Nat.eq_zero_or_pos (v.queue (secondary ch)).CHARS with h0 | hpos
  · have htext : text = [] := by rw [← h.holds, Queue.chars_nil h0]
    rw [htext]
    exact ⟨fun _ => rfl, fun _ => .inl ((Queue.empty_iff hwf).2 h0)⟩
  · have hempty : ¬(v.queue (secondary ch)).EMPTY = true := fun he => by
      have := (Queue.empty_iff hwf).1 he
      omega
    rw [← h.holds, Queue.dec_chars hwf hpos]
    cases hends : (w.termios ch).ends (v.queue (secondary ch)).LAST with
    | true => exact ⟨fun _ => (concat_ends hends _).2, fun _ => .inr rfl⟩
    | false =>
      rw [(concat_current hends _).2]
      refine ⟨fun hor => ?_, fun hnil => absurd hnil (by simp)⟩
      rcases hor with he | he
      · exact absurd he hempty
      · cases he

/-- The last character of the line is taken off. -/
theorem Is.dec (h : Is w ch input (text ++ [c]) sent v) : (v.queue (Tty.secondary ch)).LAST = c ∧
    Is w ch input text sent (v.upd (Tty.secondary ch) Queue.DEC) := by
  have hpos : 0 < (v.queue (Tty.secondary ch)).CHARS := by
    rw [← Queue.chars_length, h.holds, List.length_append]
    exact Nat.succ_pos _
  have hchars := Queue.dec_chars (h.wf (Tty.secondary ch)) hpos
  rw [h.holds] at hchars
  obtain ⟨htext, hlast⟩ := List.append_inj' hchars rfl
  have hc : c = (v.queue (Tty.secondary ch)).LAST := by simpa using hlast
  exact ⟨hc.symm, h.secondary (Queue.dec_wf (h.wf _)) htext.symm⟩

theorem Rests.secondary {f : Queue → Queue} (h : Rests w ch input text ms v)
    (hf : Is w ch input text' (sentFor (w.termios ch) ms) (v.upd (Tty.secondary ch) f)) :
    Rests w ch input text' ms (v.upd (Tty.secondary ch) f) := by
  refine ⟨hf, fun h0 => ?_, fun h0 => ?_⟩
  · rw [upd_other (by simp)]
    exact h.room h0
  · rw [upd_other (by simp)]
    exact h.flushed h0

theorem rub_outcome (h : Rests w ch input (text ++ [c]) ms v) (again : Bool) :
    Outcome w ch input text (ms ++ [Mark.removed c]) (v, v.takeOff ch again :: fs)
      (.cook ch (if again then .kill else .top) :: fs) := by
  have hframe : v.takeOff ch again = markFrame (w.termios ch) ch (.removed c) (.del again) := by
    rw [World.takeOff, h.termios, h.toIs.dec.1]
    rfl
  rw [hframe]
  rcases mark_outcome fs h (.removed c) (.del again) with ⟨v', hrun, hv'⟩ | hans
  · have hstep := next_cook v' ch (.after (.del again)) fs
    exact .inl ⟨_, hrun.tail hstep, hv'.secondary hv'.toIs.dec.2⟩
  · exact .inr hans

/-- **A line is killed** from its end. -/
theorem kill_outcome {line : List ℤ} (hline : ∀ c ∈ line, (w.termios ch).ends c = false)
    (h : Rests w ch input (finished (w.termios ch).ends text ++ line) ms v) :
    Outcome w ch input (finished (w.termios ch).ends text) (ms ++ line.reverse.map .removed)
      (v, .cook ch .kill :: fs) (.cook ch .top :: fs) := by
  have hcurrent := (finished_append hline text).2
  induction line using List.reverseRecOn generalizing v ms with
  | nil =>
    have hend : v.lineEnd ch = true := (lineEnd_iff h.toIs).2 hcurrent
    have hstep := next_cook v ch .kill fs
    rw [World.cook, if_pos hend] at hstep
    rw [List.append_nil] at h
    rw [List.reverse_nil, List.map_nil, List.append_nil]
    exact .inl ⟨v, .single hstep, h⟩
  | append_singleton line c ih =>
    have hend : ¬v.lineEnd ch = true := fun hyes => by
      have hnil := (lineEnd_iff h.toIs).1 hyes
      rw [hcurrent] at hnil
      exact absurd hnil (by simp)
    have hstep := next_cook v ch .kill fs
    rw [World.cook, if_neg hend] at hstep
    have hline' : ∀ x ∈ line, (w.termios ch).ends x = false := fun x hx =>
      hline x (List.mem_append_left _ hx)
    rw [← List.append_assoc] at h
    have hmarks : ms ++ (line ++ [c]).reverse.map Mark.removed =
        (ms ++ [Mark.removed c]) ++ line.reverse.map .removed := by simp
    rw [hmarks]
    refine (Outcome.bind (rub_outcome h true) fun v' hv' => ?_).head (.single hstep)
    exact ih hline' hv' (finished_append hline' text).2

/-- A character goes into the secondary queue. -/
theorem keep_outcome (h : Rests w ch input text ms v) (hroom : text.length < 1023) (c : ℤ) :
    Outcome w ch input (text ++ [c]) (ms ++ [Mark.typed c]) ((v.keep ch c).1, (v.keep ch c).2 ++ fs)
      (.cook ch .top :: fs) := by
  have hframe : (v.keep ch c).2 ++ fs = markFrame (w.termios ch) ch (.typed c) (.store c) :: fs := by
    rw [World.keep, h.termios, markFrame]
    dsimp only
    split_ifs <;> rfl
  have hwrite : (v.count ch c 1).queue (write_q 0) = v.queue (write_q 0) := by
    rw [World.count]
    split_ifs
    · exact upd_other (by simp) _
    · rfl
  have hcount : Rests w ch input text ms (v.keep ch c).1 := by
    refine ⟨h.toIs.count c 1, fun h0 => ?_, fun h0 => ?_⟩
    · show ((v.count ch c 1).queue (write_q 0)).CHARS ≤ 1021
      rw [hwrite]
      exact h.room h0
    · show _ → _ → ((v.count ch c 1).queue (write_q 0)).chars = []
      rw [hwrite]
      exact h.flushed h0
  rw [hframe]
  rcases mark_outcome fs hcount (.typed c) (.store c) with ⟨v', hrun, hv'⟩ | hans
  · have hstep := next_cook v' ch (.after (.store c)) fs
    have hwf := hv'.wf (secondary ch)
    have hleft : 0 < (v'.queue (secondary ch)).LEFT := by
      have hsum := Queue.left_add_chars (v'.queue (secondary ch))
      rw [← Queue.chars_length, hv'.holds] at hsum
      omega
    have hput := hv'.toIs.secondary (Queue.putch_wf (c := c) hwf)
      ((Queue.putch_chars hwf hleft).trans (by rw [hv'.holds]))
    exact .inl ⟨_, hrun.tail hstep, hv'.secondary hput⟩
  · exact .inr hans

/-- `tty->stopped` is set or cleared. -/
theorem Rests.stopped (h : Rests w ch input text ms v) (f : Fin 3 → Bool) :
    Rests w ch input text ms { v with stopped := f } :=
  ⟨⟨h.wf, h.termios, h.below, h.reads, h.given, h.holds, h.puts, h.shown⟩, h.room, h.flushed⟩

/-- **One character** does to the secondary queue what the editor does with its key. -/
theorem key_outcome (h : Rests w ch input text ms v) (hroom : text.length < 1023) (c : ℤ) :
    Outcome w ch input (press (w.termios ch).ends text (keyOf (w.termios ch) c))
      (ms ++ marks (w.termios ch).ends text (keyOf (w.termios ch) c))
      ((v.cookChar ch c).1, (v.cookChar ch c).2 ++ fs) (.cook ch .top :: fs) := by
  have hnothing : ∀ {v'}, Rests w ch input text ms v' →
      Outcome w ch input text (ms ++ []) (v', .cook ch .top :: fs) (.cook ch .top :: fs) := by
    intro v' hv'
    rw [List.append_nil]
    exact hv'.outcome
  have hterm : v.termios ch = w.termios ch := by rw [h.termios]
  rw [World.cookChar, hterm, keyOf]
  by_cases hkill : (w.termios ch).L_CANON = true ∧ c = (w.termios ch).KILL_CHAR
  · rw [if_pos hkill, if_pos hkill]
    have hall := finished_append_current (w.termios ch).ends text
    refine kill_outcome (fun x hx => ends_of_mem_current hx) ?_
    rw [hall]
    exact h
  rw [if_neg hkill, if_neg hkill]
  by_cases herase : (w.termios ch).L_CANON = true ∧ c = (w.termios ch).ERASE_CHAR
  · rw [if_pos herase, if_pos herase]
    by_cases hend : v.lineEnd ch = true
    · have hnil := (lineEnd_iff h.toIs).1 hend
      rw [if_pos hend, press_erase_nil hnil, marks, hnil]
      exact hnothing h
    · rw [if_neg hend]
      have hne : current (w.termios ch).ends text ≠ [] := fun hnil => hend ((lineEnd_iff h.toIs).2 hnil)
      obtain ⟨line, x, hline⟩ := (List.eq_nil_or_concat _).resolve_left hne
      rw [List.concat_eq_append] at hline
      have hall := finished_append_current (w.termios ch).ends text
      rw [hline, ← List.append_assoc] at hall
      rw [press, marks, hline, List.dropLast_concat, List.getLast?_concat]
      rw [← hall] at h
      exact rub_outcome h false
  rw [if_neg herase, if_neg herase]
  by_cases hstop : (w.termios ch).L_CANON = true ∧ c = (w.termios ch).STOP_CHAR
  · rw [if_pos hstop, if_pos ⟨hstop.1, .inl hstop.2⟩]
    exact hnothing (h.stopped _)
  rw [if_neg hstop]
  by_cases hstart : (w.termios ch).L_CANON = true ∧ c = (w.termios ch).START_CHAR
  · rw [if_pos hstart, if_pos ⟨hstart.1, .inr hstart.2⟩]
    exact hnothing (h.stopped _)
  have hneither : ¬((w.termios ch).L_CANON = true ∧
      (c = (w.termios ch).STOP_CHAR ∨ c = (w.termios ch).START_CHAR)) := by
    rintro ⟨hcanon, hc | hc⟩
    · exact hstop ⟨hcanon, hc⟩
    · exact hstart ⟨hcanon, hc⟩
  rw [if_neg hstart, if_neg hneither]
  by_cases hsignal : (w.termios ch).L_ISIG = true ∧
    (c = (w.termios ch).INTR_CHAR ∨ c = (w.termios ch).QUIT_CHAR)
  · rw [if_pos hsignal, if_pos hsignal]
    exact hnothing h
  rw [if_neg hsignal, if_neg hsignal]
  exact keep_outcome h hroom c

end OldLinux.Tty.Cooking
