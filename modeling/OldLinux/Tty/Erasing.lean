import OldLinux.Tty.Cooked

/-!
# Echo and erase

A control character is echoed as `^` and a letter if `ECHOCTL` is set, and not at all otherwise; when it
is erased or its line is killed, two `DEL`s are sent in both cases.

* `Session`: calls of `copy_to_cooked`, and what happens between them.
* `Levels`: a call sends as many `DEL`s for a character it removes as its echo had characters.
* `echo_erase_agree_iff`: all calls do so, and the output comes back to where the line began, exactly if
  `ECHOCTL` is set or no control character is removed.
-/

namespace OldLinux.Tty.Cooking

open Lib

variable {w v z : World} {vs : List World} {ch : Fin 3} {c : ℤ}

/-- Between two calls: the settings and the line that is being typed stay. -/
structure Between (ch : Fin 3) (w v : World) : Prop where
  termios : v.termios = w.termios
  line : current (w.termios ch).ends (v.queue (secondary ch)).chars =
    current (w.termios ch).ends (w.queue (secondary ch)).chars

/-- Calls of `copy_to_cooked` from `w` to `z`, which begin in the states of the list. -/
inductive Session (ch : Fin 3) : World → List World → World → Prop
  | nil (w : World) : Session ch w [] w
  | call {w v z : World} {vs : List World} : Steps (w, [.cook ch .top]) (v, []) → Session ch v vs z →
      Session ch w (w :: vs) z
  | between {w v z : World} {vs : List World} : Between ch w v → Session ch v vs z → Session ch w vs z

/-- By how much a call moves the output: characters it types move it on, `DEL`s back. -/
def shift (v : World) (ch : Fin 3) : ℤ :=
  ((trailOf v ch).map (Mark.moves (fun c => ((echoed (v.termios ch) c).length : ℤ))
    fun c => ((rubout c).length : ℤ))).sum

/-- The call edits the line, sends the echo of each character it types and `DEL`s for each one it
removes, and there are as many of these as the echo had characters. -/
def Levels (v : World) (ch : Fin 3) : Prop :=
  ∃ v', Steps (v, [.cook ch .top]) (v', []) ∧ Edited v v' ch ∧
    (v'.queue (write_q ch)).put = (v.queue (write_q ch)).put ++ sentFor (v.termios ch) (trailOf v ch) ∧
    ∀ c ∈ removals (trailOf v ch), (rubout c).length = (echoed (v.termios ch) c).length

/-- `ECHOCTL` is set or no control character is removed; the echo asks for no answer. -/
def Agrees (v : World) (ch : Fin 3) : Prop :=
  ¬(ch = 0 ∧ EchoAsks v (trailOf v ch)) ∧
  ((v.termios ch).L_ECHOCTL = true ∨ ∀ c ∈ removals (trailOf v ch), 32 ≤ c)

/-- The call may begin: `ICANON` and `ECHO` are set, the console has room for an echo, and no character that is
typed ends a line. -/
structure Typing (v : World) (ch : Fin 3) : Prop where
  canon : (v.termios ch).L_CANON = true
  echo : (v.termios ch).L_ECHO = true
  wf : ∀ i, (v.queue i).Wf
  room : ch = 0 → 2 ≤ (v.queue (write_q ch)).LEFT
  plain : ∀ c, .put c ∈ handled v ch → (v.termios ch).ends c = false

/-! ### One call -/

/-- A character that ends no line. -/
theorem rubout_length_iff (t : Termios) (hends : t.ends c = false) :
    (rubout c).length = (echoed t c).length ↔ t.L_ECHOCTL = true ∨ 32 ≤ c := by
  have hten : c ≠ 10 := by
    rintro rfl
    simp [Termios.ends] at hends
  rw [rubout, echoed, if_neg hten]
  by_cases hctl : c < 32
  · rw [if_pos hctl, if_pos hctl]
    cases t.L_ECHOCTL with
    | true => exact ⟨fun _ => .inl rfl, fun _ => rfl⟩
    | false =>
      have htwo : ([127, 127] : List ℤ).length ≠ ([] : List ℤ).length := by decide
      refine ⟨fun h => absurd h htwo, fun h => ?_⟩
      rcases h with h | h
      · cases h
      · omega
  · rw [if_neg hctl, if_neg hctl]
    exact ⟨fun _ => .inr (Int.not_lt.1 hctl), fun _ => rfl⟩

theorem levels_iff (h : Typing v ch) : Levels v ch ↔ Agrees v ch := by
  have heach : (∀ c ∈ removals (trailOf v ch), (rubout c).length = (echoed (v.termios ch) c).length) ↔
      ((v.termios ch).L_ECHOCTL = true ∨ ∀ c ∈ removals (trailOf v ch), 32 ≤ c) := by
    constructor
    · intro hsame
      by_cases hctl : (v.termios ch).L_ECHOCTL = true
      · exact .inl hctl
      · exact .inr fun c hc => ((rubout_length_iff _ (ends_of_mem_removals hc)).1 (hsame c hc)).resolve_left
          hctl
    · intro hor c hc
      exact (rubout_length_iff _ (ends_of_mem_removals hc)).2 (hor.imp_right fun hall => hall c hc)
  constructor
  · rintro ⟨v', hrun, hedited, -, hsame⟩
    exact ⟨fun hasks => not_edited_of_asks h.wf h.room hasks ⟨v', hrun, hedited⟩, heach.1 hsame⟩
  · rintro ⟨hno, hsame⟩
    rcases cook_outcome [] (rests_start h.wf h.room) with ⟨v', hrun, hrests⟩ | ⟨hch, hasks, -⟩
    · exact ⟨v', hrun, edited_of_rests hrests, hrests.puts, heach.2 hsame⟩
    · subst hch
      exact absurd ⟨rfl, hasks⟩ hno

/-! ### The position -/

/-- How many characters the echo of the current line has. -/
def width (w : World) (ch : Fin 3) : ℤ :=
  ((current (w.termios ch).ends (w.queue (secondary ch)).chars).map
    fun c => ((echoed (w.termios ch) c).length : ℤ)).sum

theorem terminal (w : World) {s : World × List Frame} (h : Steps (w, []) s) : s = (w, []) := by
  rcases Relation.ReflTransGen.cases_head h with heq | ⟨t, ht, -⟩
  · exact heq.symm
  · cases ht

/-- A call comes to one end only. -/
theorem steps_unique {v' : World} (h : Steps (w, [.cook ch .top]) (v, []))
    (h' : Steps (w, [.cook ch .top]) (v', [])) : v = v' := by
  rcases Relation.ReflTransGen.total_of_right_unique next_unique h h' with hrun | hrun
  · exact (Prod.mk.inj (terminal v hrun)).1.symm
  · exact (Prod.mk.inj (terminal v' hrun)).1

/-- What a call has come to, if its echo asks for no answer. -/
theorem rests_of_steps (h : Typing w ch) (hno : ¬(ch = 0 ∧ EchoAsks w (trailOf w ch)))
    (hrun : Steps (w, [.cook ch .top]) (v, [])) :
    v.termios = w.termios ∧ (v.queue (secondary ch)).chars =
      typeKeys (w.termios ch).ends (w.queue (secondary ch)).chars (handled w ch) := by
  rcases cook_outcome [] (rests_start h.wf h.room) with ⟨v', hrun', hrests⟩ | ⟨hch, hasks, -⟩
  · obtain rfl := steps_unique hrun hrun'
    exact ⟨hrests.termios, hrests.holds⟩
  · subst hch
    exact absurd ⟨rfl, hasks⟩ hno

/-- A call moves the output by what it makes the line longer. -/
theorem shift_call (h : Typing w ch) (hok : Agrees w ch) (hrun : Steps (w, [.cook ch .top]) (v, [])) :
    shift w ch = width v ch - width w ch := by
  obtain ⟨hterm, hchars⟩ := rests_of_steps h hok.1 hrun
  have hsame : ∀ c ∈ removals (trailOf w ch), ((echoed (w.termios ch) c).length : ℤ) = (rubout c).length := by
    intro c hc
    have hlen := (rubout_length_iff _ (ends_of_mem_removals hc)).2 (hok.2.imp_right fun hall => hall c hc)
    rw [hlen]
  rw [width, width, hterm, hchars]
  exact trail_level h.plain hsame

theorem shift_session (h : Session ch w vs z) (htyping : ∀ v ∈ vs, Typing v ch)
    (hok : ∀ v ∈ vs, Agrees v ch) : (vs.map (shift · ch)).sum = width z ch - width w ch := by
  induction h with
  | nil w => simp
  | @call w v z vs hrun _ ih =>
    have hfirst := shift_call (htyping w List.mem_cons_self) (hok w List.mem_cons_self) hrun
    have hrest := ih (fun x hx => htyping x (List.mem_cons_of_mem _ hx))
      fun x hx => hok x (List.mem_cons_of_mem _ hx)
    rw [List.map_cons, List.sum_cons, hrest]
    omega
  | @between w v z vs hbetween _ ih =>
    have hwidth : width v ch = width w ch := by rw [width, width, hbetween.termios, hbetween.line]
    rw [← hwidth]
    exact ih htyping hok

/-- **Echo and erase agree**, and after the whole line has been removed the output is where it was,
exactly if `ECHOCTL` is set or no control character is removed, and no echo asks for an answer. -/
theorem echo_erase_agree_iff (h : Session ch w vs z) (htyping : ∀ v ∈ vs, Typing v ch)
    (hbefore : current (w.termios ch).ends (w.queue (secondary ch)).chars = [])
    (hafter : current (z.termios ch).ends (z.queue (secondary ch)).chars = []) :
    ((∀ v ∈ vs, Levels v ch) ∧ (vs.map (shift · ch)).sum = 0) ↔ ∀ v ∈ vs, Agrees v ch := by
  constructor
  · exact fun hlevel v hv => (levels_iff (htyping v hv)).1 (hlevel.1 v hv)
  · intro hok
    refine ⟨fun v hv => (levels_iff (htyping v hv)).2 (hok v hv), ?_⟩
    rw [shift_session h htyping hok, width, width, hbefore, hafter]
    rfl

/-- A serial line with `ICANON` and `ECHO` set, and with or without `ECHOCTL`, on which `cs` is typed. -/
def lineTyped (echoctl : Bool) (cs : List ℤ) : World :=
  { (typedAt [] []).upd (read_q 1) (arrive cs) with
    termios := fun _ =>
      { c_iflag := 0, c_oflag := 0, c_lflag := if echoctl then 0o1012 else 0o12, c_cc := INIT_C_CC } }

theorem lineTyped_wf (echoctl : Bool) (cs : List ℤ) (i : Qid) : ((lineTyped echoctl cs).queue i).Wf :=
  upd_wf (typedAt_wf [] []) (arrive_wf (typedAt_wf [] [] (read_q 1)) cs) i

theorem not_asks_line (w : World) (ms : List (Mark ℤ)) : ¬((1 : Fin 3) = 0 ∧ EchoAsks w ms) :=
  fun h => absurd h.1 (by decide)

/-- A control character is typed and erased. -/
theorem lineTyped_typing (echoctl : Bool) : Typing (lineTyped echoctl [1, 127]) 1 := by
  have hkeys : handled (lineTyped echoctl [1, 127]) 1 = [.put 1, .erase] := by cases echoctl <;> rfl
  refine ⟨by cases echoctl <;> rfl, by cases echoctl <;> rfl, lineTyped_wf echoctl [1, 127],
    (fun h => by cases h), fun c hc => ?_⟩
  rw [hkeys] at hc
  rcases List.mem_cons.1 hc with hc | hc
  · cases hc
    cases echoctl <;> rfl
  · cases List.mem_singleton.1 hc

theorem lineTyped_session (echoctl : Bool) : ∃ z,
    Session 1 (lineTyped echoctl [1, 127]) [lineTyped echoctl [1, 127]] z ∧
      current (z.termios 1).ends (z.queue (secondary 1)).chars = [] := by
  have htyping := lineTyped_typing echoctl
  rcases cook_outcome [] (rests_start htyping.wf htyping.room) with ⟨z, hrun, hrests⟩ | ⟨h0, -, -⟩
  · obtain ⟨hterm, hchars⟩ := rests_of_steps htyping (not_asks_line _ _) hrun
    refine ⟨z, .call hrun (.nil z), ?_⟩
    rw [hterm, hchars]
    cases echoctl <;> rfl
  · cases h0

/-- **Two `DEL`s for nothing.**  Without `ECHOCTL` a control character is not echoed, but erased with two
`DEL`s. -/
theorem control_character_erased : ¬∀ (ch : Fin 3) (w z : World) (vs : List World), Session ch w vs z →
    (∀ v ∈ vs, Typing v ch) →
    current (w.termios ch).ends (w.queue (secondary ch)).chars = [] →
    current (z.termios ch).ends (z.queue (secondary ch)).chars = [] →
    (∀ v ∈ vs, Levels v ch) ∧ (vs.map (shift · ch)).sum = 0 := by
  intro hall
  obtain ⟨z, hsession, hz⟩ := lineTyped_session false
  have hlevel := (hall 1 _ z _ hsession (fun v hv => by
    rw [List.mem_singleton.1 hv]
    exact lineTyped_typing false) rfl hz).2
  have hshift : shift (lineTyped false [1, 127]) 1 = -2 := by rfl
  rw [List.map_singleton, List.sum_singleton, hshift] at hlevel
  cases hlevel

/-- With `ECHOCTL` the two agree. -/
theorem echo_erase_agree_control : ∃ z,
    Session 1 (lineTyped true [1, 127]) [lineTyped true [1, 127]] z ∧ Levels (lineTyped true [1, 127]) 1 := by
  obtain ⟨z, hsession, hz⟩ := lineTyped_session true
  have hagree := (echo_erase_agree_iff hsession (fun v hv => by
    rw [List.mem_singleton.1 hv]
    exact lineTyped_typing true) rfl hz).2 fun v hv => by
      rw [List.mem_singleton.1 hv]
      exact ⟨not_asks_line _ _, .inl rfl⟩
  exact ⟨z, hsession, hagree.1 _ List.mem_cons_self⟩

end OldLinux.Tty.Cooking
