import OldLinux.Tty.Cooked

/-!
# Which contents of the queue make `con_write` take ahead

A call of `con_write` goes wrong when the answer to an `ESC Z` is echoed while characters are still to
be taken.  Whether that happens can be seen from the queues when the call begins.

* `typesAnswer`: the answer, behind what is in the read queue, types or removes a character.
* `answeredAhead`: an `ESC Z` that is not the last one in the queue has such an answer.  Once the read
  queue has been emptied every answer types something: it has seven different characters, and only six
  have a meaning of their own.
* `interpreted_once_iff`: a call interprets every character once, in order, and leaves the queue empty
  exactly if there is no such `ESC Z`, or nothing is echoed, or no character can be stored.
-/

namespace OldLinux.Tty

open Lib Console Cooking

variable {w v v' : World} {fs : List Frame} {cs input text : List ℤ} {c : ℤ} {s t : World × List Frame}

/-! ### The condition -/

/-- The characters of the read queue, with an answer behind them, type or remove something. -/
def typesAnswer (w : World) : Bool :=
  !(trail (w.termios 0).ends (w.queue (secondary 0)).chars
    (keys w.below (w.termios 0) (answer (w.queue (read_q 0))).chars)).isEmpty

/-- An `ESC Z` before the last of the characters has an answer that types something; `typed`: the next
one has.  Those after it have one in any case. -/
def answeredAhead (erase : Fin 256) : Bool → Screen → List ℤ → Bool
  | _, _, [] => false
  | typed, s, c :: cs =>
    if s.asks c then (typed && !cs.isEmpty) || answeredAhead erase true (s.con_char erase c) cs
    else answeredAhead erase typed (s.con_char erase c) cs

/-- What the console is about to show makes it echo an answer too early. -/
def echoesAhead (w : World) : Bool :=
  (w.termios 0).L_ECHO && !(w.queue (secondary 0)).FULL &&
    answeredAhead ((w.termios 0).c_cc 2) (typesAnswer w) w.screen (w.queue (write_q 0)).chars

/-! ### Whether an echo begins too early -/

def Never (s : World × List Frame) : Prop := ∀ t, Steps s t → echoesEarly t = false

def Early (s : World × List Frame) : Prop := ∃ t, Steps s t ∧ echoesEarly t = true

/-- The call goes on, and no echo begins too early on the way. -/
abbrev Quietly : World × List Frame → World × List Frame → Prop :=
  Relation.ReflTransGen fun s t => Next s t ∧ echoesEarly s = false

theorem Quietly.never (h : Quietly s t) (ht : Never t) : Never s := by
  induction h using Relation.ReflTransGen.head_induction_on with
  | refl => exact ht
  | head hstep _ ih =>
    intro u hu
    rcases Relation.ReflTransGen.cases_head hu with rfl | ⟨x, hx, hu⟩
    · exact hstep.2
    · rw [next_unique hx hstep.1] at hu
      exact ih u hu

theorem Quietly.early (h : Quietly s t) (ht : Early t) : Early s := by
  obtain ⟨u, hu, hearly⟩ := ht
  have hsub : ∀ x y, Next x y ∧ echoesEarly x = false → Next x y := fun _ _ hstep => hstep.1
  have hrun : Steps s t := Relation.ReflTransGen.mono hsub _ _ h
  exact ⟨u, hrun.trans hu, hearly⟩

/-- A property that each step keeps, and under which no echo begins too early. -/
theorem never_of_invariant {P : World × List Frame → Prop} (hkeep : ∀ s t, P s → Next s t → P t)
    (hearly : ∀ s, P s → echoesEarly s = false) (h : P s) : Never s := by
  intro t ht
  refine hearly t ?_
  induction ht with
  | refl => exact h
  | tail _ hn ih => exact hkeep _ _ ih hn

/-! ### Without echo, and with a full secondary queue -/

/-- A call of the console that does not echo: `copy_to_cooked` comes no further than its first test. -/
def Frame.mute (echo : Bool) : Frame → Bool
  | .cook ch .top => ch = 0
  | .cook ch pc => ch = 0 ∧ echo = false ∧ pc.silent
  | .con_write _ => true
  | .respond => true
  | _ => false

/-- No call echoes: the flag is off, or the secondary queue is full. -/
structure Mute (s : World × List Frame) : Prop where
  full : (s.1.termios 0).L_ECHO = true → (s.1.queue (secondary 0)).FULL = true
  frames : ∀ f ∈ s.2, f.mute (s.1.termios 0).L_ECHO = true

theorem Mute.early (h : Mute s) : echoesEarly s = false := by
  obtain ⟨v, fs⟩ := s
  cases fs with
  | nil => rfl
  | cons f fs =>
    have hf := h.frames f List.mem_cons_self
    cases f with
    | cook ch pc =>
      cases pc with
      | echo cs a => simp [Frame.mute, CookPc.silent] at hf
      | _ => rfl
    | _ => rfl

theorem mute_takeOff (h : (v.termios 0).L_ECHO = false) (again : Bool) :
    (v.takeOff 0 again).mute false = true := by
  rw [World.takeOff, if_neg (by simp [h])]
  rfl

theorem mute_cook {pc : CookPc} (h : (v.termios 0).L_ECHO = false) (hpc : pc.silent = true) :
    ∀ f ∈ (v.cook 0 pc).2, f.mute false = true := by
  have htop : ∀ f ∈ [Frame.cook 0 .top], f.mute false = true := by simp [Frame.mute]
  cases pc with
  | top =>
    rw [World.cook]
    split_ifs
    · simp
    · split
      · exact htop
      · simp only [World.cookChar]
        split_ifs
        · simp [Frame.mute, CookPc.silent]
        · exact htop
        · simpa using mute_takeOff (v := v.upd (read_q 0) Queue.GETCH) h false
        · exact htop
        · exact htop
        · exact htop
        · simp only [World.keep]
          rw [if_neg (by simp [World.upd, h])]
          simp [Frame.mute, CookPc.silent]
  | kill =>
    rw [World.cook]
    split_ifs
    · exact htop
    · simpa using mute_takeOff h true
  | echo cs a => cases hpc
  | after a =>
    cases a with
    | store c => exact htop
    | del again => cases again <;> simp [World.cook, Frame.mute, CookPc.silent]

theorem ofConsole_of_mute {f : Frame} {echo : Bool} (h : f.mute echo = true) : f.ofConsole = true := by
  cases f with
  | cook ch pc => cases pc <;> simp_all [Frame.mute, Frame.ofConsole]
  | con_write nr => rfl
  | respond => rfl
  | _ => cases h

theorem Mute.next (h : Mute s) (hn : Next s t) : Mute t := by
  obtain ⟨v, fs⟩ := s
  obtain ⟨hfull, hframes⟩ := h
  cases fs with
  | nil => cases hn
  | cons f fs =>
    obtain ⟨hf, hrest⟩ := List.forall_mem_cons.1 hframes
    rcases next_cases (ofConsole_of_mute hf) hn with ⟨pc, rfl, rfl⟩ | ⟨nr, rfl, rfl⟩ | ⟨rfl, rfl⟩
    · dsimp only at hfull hf hrest
      have hterm := (quiet_cook v 0 pc).termios
      cases hecho : (v.termios 0).L_ECHO with
      | false =>
        rw [hecho] at hf hrest
        have hpc : pc.silent = true := by cases pc <;> first | rfl | cases hf
        refine ⟨?_, List.forall_mem_append.2 ⟨?_, ?_⟩⟩
        · rw [hterm, hecho]
          exact fun h => by cases h
        · rw [hterm, hecho]
          exact mute_cook hecho hpc
        · rw [hterm, hecho]
          exact hrest
      | true =>
        have hpc : pc = .top := by
          rw [hecho] at hf
          cases pc <;> first | rfl | simp [Frame.mute] at hf
        rw [hpc, World.cook, if_pos (.inr (hfull hecho))]
        exact ⟨hfull, hrest⟩
    · cases nr with
      | zero => exact ⟨hfull, hrest⟩
      | succ nr =>
        have hsec : (v.con_write (nr + 1)).1.queue (secondary 0) = v.queue (secondary 0) :=
          upd_other (w := v) (i := write_q 0) (j := secondary 0) (by simp) Queue.GETCH
        refine ⟨fun h => hsec ▸ hfull h, List.forall_mem_append.2 ⟨?_, hrest⟩⟩
        simp only [World.con_write]
        split_ifs <;> simp [Frame.mute]
    · have hsec : v.respond.1.queue (secondary 0) = v.queue (secondary 0) :=
        upd_other (w := v) (i := read_q 0) (j := secondary 0) (by simp) answer
      exact ⟨fun h => hsec ▸ hfull h, List.forall_mem_cons.2 ⟨rfl, hrest⟩⟩

theorem never_of_mute {nr : ℕ} (h : (v.termios 0).L_ECHO = true → (v.queue (secondary 0)).FULL = true) :
    Never (v, [.con_write nr]) :=
  never_of_invariant (fun _ _ => Mute.next) (fun _ => Mute.early)
    (⟨h, by simp [Frame.mute]⟩ : Mute (v, [.con_write nr]))

/-! ### Once nothing more is promised -/

/-- Nothing is promised below the call on top, and a `Z` can only be the last character it shows. -/
def Settled (w : World) : List Frame → Prop
  | [] => True
  | .con_write nr :: fs =>
    promised fs = 0 ∧ nr = (w.queue (write_q 0)).CHARS ∧ 90 ∉ (w.queue (write_q 0)).chars.dropLast
  | .cook _ (.echo cs _) :: fs =>
    promised fs = 0 ∧ (w.queue (write_q 0)).CHARS + cs.length ≤ 2 ∧
    90 ∉ ((w.queue (write_q 0)).chars ++ cs).dropLast
  | _ :: fs => promised fs = 0 ∧ (w.queue (write_q 0)).CHARS = 0

/-- No echo can begin too early any more. -/
structure Harmless (s : World × List Frame) : Prop extends OfConsole s where
  settled : Settled s.1 s.2
  waits : ∀ f ∈ s.2.tail, f.waits = true

theorem Harmless.early (h : Harmless s) : echoesEarly s = false := by
  obtain ⟨v, fs⟩ := s
  obtain ⟨-, hset, -⟩ := h
  cases fs with
  | nil => rfl
  | cons f fs =>
    cases f with
    | cook ch pc =>
      cases pc with
      | echo cs a => simp [echoesEarly, show promised fs = 0 from hset.1]
      | _ => rfl
    | _ => rfl

/-- The call on top is done. -/
theorem settled_below (hw : ∀ f ∈ fs, f.waits = true) (hprom : promised fs = 0)
    (hzero : (v.queue (write_q 0)).CHARS = 0) : Settled v fs := by
  cases fs with
  | nil => trivial
  | cons f fs =>
    have hf := hw f List.mem_cons_self
    cases f with
    | con_write nr =>
      rw [promised_con_write] at hprom
      refine ⟨by omega, by omega, ?_⟩
      rw [Queue.chars_nil hzero]
      simp
    | cook ch pc =>
      rw [promised_cook] at hprom
      cases pc with
      | after a => exact ⟨hprom, hzero⟩
      | _ => cases hf
    | _ => cases hf

theorem not_mem_dropLast {x : ℤ} (h : x ∉ (c :: cs).dropLast) : x ∉ cs.dropLast := by
  cases cs with
  | nil => simp
  | cons d cs =>
    rw [List.dropLast_cons_cons] at h
    exact fun hx => h (List.mem_cons_of_mem _ hx)

theorem Settled.take {nr : ℕ} (hwf : ∀ i, (v.queue i).Wf) (h : Settled v (.con_write nr :: fs))
    (hw : ∀ f ∈ fs, f.waits = true) : Settled (v.con_write nr).1 ((v.con_write nr).2 ++ fs) ∧
      ∀ f ∈ ((v.con_write nr).2 ++ fs).tail, f.waits = true := by
  obtain ⟨hprom, hnr, hlast⟩ := h
  cases nr with
  | zero =>
    refine ⟨settled_below hw hprom hnr.symm, fun f hf => hw f (List.mem_of_mem_tail hf)⟩
  | succ nr =>
    have hpos : 0 < (v.queue (write_q 0)).CHARS := by omega
    have hqueue : (v.con_write (nr + 1)).1.queue (write_q 0) = (v.queue (write_q 0)).GETCH :=
      upd_self v (write_q 0) Queue.GETCH
    have hget := Queue.getch_CHARS (hwf (write_q 0)) hpos
    rw [Queue.getch_chars (hwf _) hpos] at hlast
    by_cases hasks : v.screen.asks (v.queue (write_q 0)).next = true
    · -- the `Z` is the last character
      have hz : (v.queue (write_q 0)).next = 90 := (of_decide_eq_true hasks : v.screen.state = 1 ∧ _).2
      have hnone : (v.queue (write_q 0)).GETCH.chars = [] := by
        by_contra hne
        obtain ⟨d, ds, hd⟩ := List.exists_cons_of_ne_nil hne
        rw [hd, hz, List.dropLast_cons_cons] at hlast
        exact hlast List.mem_cons_self
      have hzero : (v.queue (write_q 0)).GETCH.CHARS = 0 := by
        rw [← Queue.chars_length, hnone, List.length_nil]
      obtain rfl : nr = 0 := by omega
      have hframes : (v.con_write (0 + 1)).2 = [.respond, .con_write 0] := if_pos hasks
      rw [hframes]
      refine ⟨⟨?_, ?_⟩, List.forall_mem_cons.2 ⟨rfl, hw⟩⟩
      · show promised (.con_write 0 :: fs) = 0
        rw [promised_con_write, hprom]
      · rw [hqueue]
        exact hzero
    · have hframes : (v.con_write (nr + 1)).2 = [.con_write nr] := if_neg hasks
      rw [hframes]
      refine ⟨⟨hprom, ?_, ?_⟩, hw⟩
      · rw [hqueue]
        omega
      · rw [hqueue]
        exact not_mem_dropLast hlast

theorem Settled.cook {pc : CookPc} (hwf : ∀ i, (v.queue i).Wf) (h : Settled v (.cook 0 pc :: fs))
    (hw : ∀ f ∈ fs, f.waits = true) : Settled (v.cook 0 pc).1 ((v.cook 0 pc).2 ++ fs) ∧
      ∀ f ∈ ((v.cook 0 pc).2 ++ fs).tail, f.waits = true := by
  cases hsilent : pc.silent with
  | true =>
    obtain ⟨hprom, hzero⟩ : promised fs = 0 ∧ (v.queue (write_q 0)).CHARS = 0 := by
      cases pc <;> first | exact h | cases hsilent
    obtain ⟨haside, hgoes⟩ := cook_aside hwf hsilent
    rw [← haside.write] at hzero
    rcases hgoes with hnil | ⟨pc', hpc, hfresh⟩
    · rw [hnil]
      exact ⟨settled_below hw hprom hzero, fun f hf => hw f (List.mem_of_mem_tail hf)⟩
    · rw [hpc]
      refine ⟨?_, hw⟩
      cases pc' with
      | echo cs a =>
        refine ⟨hprom, ?_, ?_⟩
        · rw [hzero, Nat.zero_add]
          exact hfresh.1
        · rw [Queue.chars_nil hzero]
          exact hfresh.2.1
      | _ => exact ⟨hprom, hzero⟩
  | false =>
    obtain ⟨cs, a, rfl⟩ : ∃ cs a, pc = .echo cs a := by
      cases pc with
      | echo cs a => exact ⟨cs, a, rfl⟩
      | _ => cases hsilent
    obtain ⟨hprom, hshort, hlast⟩ := h
    cases cs with
    | nil =>
      rw [List.append_nil] at hlast
      refine ⟨⟨?_, rfl, hlast⟩, List.forall_mem_cons.2 ⟨rfl, hw⟩⟩
      show promised (.cook 0 (.after a) :: fs) = 0
      rw [promised_cook, hprom]
    | cons c cs =>
      rw [List.length_cons] at hshort
      have hsum := Queue.left_add_chars (v.queue (write_q 0))
      have hchars := Queue.putch_chars (c := c) (hwf (write_q 0)) (by omega)
      have hput := Queue.putch_CHARS (c := c) (hwf (write_q 0)) (by omega)
      refine ⟨⟨hprom, ?_, ?_⟩, hw⟩
      · rw [World.cook, upd_self]
        omega
      · rw [World.cook, upd_self, hchars, List.append_assoc]
        exact hlast

theorem Harmless.next (h : Harmless s) (hn : Next s t) : Harmless t := by
  suffices hnext : Settled t.1 t.2 ∧ ∀ f ∈ t.2.tail, f.waits = true from
    ⟨h.toOfConsole.next hn, hnext.1, hnext.2⟩
  obtain ⟨⟨hwf, hframes⟩, hset, hw⟩ := h
  obtain ⟨v, fs⟩ := s
  cases fs with
  | nil => cases hn
  | cons f fs =>
    rcases next_cases (hframes f List.mem_cons_self) hn with ⟨pc, rfl, rfl⟩ | ⟨nr, rfl, rfl⟩ | ⟨rfl, rfl⟩
    · exact Settled.cook hwf hset hw
    · exact Settled.take hwf hset hw
    · refine ⟨⟨hset.1, ?_⟩, hw⟩
      show ((v.upd (read_q 0) answer).queue (write_q 0)).CHARS = 0
      rw [upd_other (by simp)]
      exact hset.2

theorem Harmless.never (h : Harmless s) : Never s :=
  never_of_invariant (fun _ _ => Harmless.next) (fun _ => Harmless.early) h

/-! ### An answer while characters are promised -/

/-- The call has gone through the input and has found nothing to echo. -/
structure Passed (v v' : World) : Prop where
  wf : ∀ i, (v'.queue i).Wf
  termios : v'.termios = v.termios
  below : v'.below = v.below
  screen : v'.screen = v.screen
  write : v'.queue (write_q 0) = v.queue (write_q 0)
  holds : (v'.queue (secondary 0)) = v.queue (secondary 0)

theorem press_of_marks {ends : ℤ → Bool} {k : Key ℤ} (h : marks ends text k = []) :
    press ends text k = text := by
  cases k with
  | put c => cases h
  | erase =>
    have hnil : current ends text = [] := by simpa [marks] using h
    rw [press, hnil, List.dropLast_nil, List.append_nil]
    have := finished_append_current ends text
    rwa [hnil, List.append_nil] at this
  | kill =>
    have hnil : current ends text = [] := by simpa [marks] using h
    have := finished_append_current ends text
    rwa [hnil, List.append_nil] at this
  | drop => rfl

theorem is_self (hwf : ∀ i, (v.queue i).Wf) :
    Is v 0 (v.queue (read_q 0)).chars (v.queue (secondary 0)).chars [] v :=
  ⟨hwf, rfl, rfl, rfl, rfl, rfl, (List.append_nil _).symm,
    fun _ => ⟨[], by rw [List.append_nil, List.nil_append], rfl, not_asks_nil v⟩⟩

theorem early_echo {a : After} (h : 0 < promised fs) : Early (v, .cook 0 (.echo cs a) :: fs) :=
  ⟨_, .refl, decide_eq_true h⟩

theorem early_takeOff {again : Bool} (hecho : (v.termios 0).L_ECHO = true) (h : 0 < promised fs) :
    Early (v, v.takeOff 0 again :: fs) := by
  rw [World.takeOff, if_pos hecho]
  exact early_echo h

/-- One character that is not ignored. -/
theorem char_ahead (hwf : ∀ i, (v.queue i).Wf) (hecho : (v.termios 0).L_ECHO = true)
    (h : 0 < promised fs) (c : ℤ) :
    (marks (v.termios 0).ends (v.queue (secondary 0)).chars (keyOf (v.termios 0) c) = [] →
      ∃ stopped, Quietly ((v.cookChar 0 c).1, (v.cookChar 0 c).2 ++ fs)
        ({ v with stopped := stopped }, .cook 0 .top :: fs)) ∧
    (marks (v.termios 0).ends (v.queue (secondary 0)).chars (keyOf (v.termios 0) c) ≠ [] →
      Early ((v.cookChar 0 c).1, (v.cookChar 0 c).2 ++ fs)) := by
  have hend := lineEnd_iff (is_self hwf)
  simp only [World.cookChar, keyOf]
  by_cases hkill : (v.termios 0).L_CANON = true ∧ c = (v.termios 0).KILL_CHAR
  · simp only [if_pos hkill]
    have hstep : Next (v, .cook 0 .kill :: fs) ((v.cook 0 .kill).1, (v.cook 0 .kill).2 ++ fs) := rfl
    have hfirst : echoesEarly (v, .cook 0 .kill :: fs) = false := rfl
    rw [World.cook] at hstep
    by_cases hnil : current (v.termios 0).ends (v.queue (secondary 0)).chars = []
    · rw [if_pos (hend.2 hnil)] at hstep
      refine ⟨fun _ => ⟨v.stopped, .single ⟨hstep, hfirst⟩⟩, fun hne => absurd ?_ hne⟩
      rw [marks, hnil]
      rfl
    · rw [if_neg (fun hyes => hnil (hend.1 hyes))] at hstep
      exact ⟨fun hmarks => absurd (by simpa [marks] using hmarks) hnil, fun _ =>
        Quietly.early (.single ⟨hstep, hfirst⟩) (early_takeOff hecho h)⟩
  · simp only [if_neg hkill]
    by_cases herase : (v.termios 0).L_CANON = true ∧ c = (v.termios 0).ERASE_CHAR
    · simp only [if_pos herase]
      by_cases hnil : current (v.termios 0).ends (v.queue (secondary 0)).chars = []
      · rw [if_pos (hend.2 hnil)]
        refine ⟨fun _ => ⟨v.stopped, .refl⟩, fun hne => absurd ?_ hne⟩
        rw [marks, hnil]
        rfl
      · rw [if_neg (fun hyes => hnil (hend.1 hyes))]
        exact ⟨fun hmarks => absurd (by simpa [marks] using hmarks) hnil, fun _ => early_takeOff hecho h⟩
    · simp only [if_neg herase]
      by_cases hstop : (v.termios 0).L_CANON = true ∧ c = (v.termios 0).STOP_CHAR
      · have hdrop : (v.termios 0).L_CANON = true ∧
          (c = (v.termios 0).STOP_CHAR ∨ c = (v.termios 0).START_CHAR) :=
          ⟨hstop.1, .inl hstop.2⟩
        rw [if_pos hstop, if_pos hdrop]
        exact ⟨fun _ => ⟨_, .refl⟩, fun hne => absurd rfl hne⟩
      · by_cases hstart : (v.termios 0).L_CANON = true ∧ c = (v.termios 0).START_CHAR
        · have hdrop : (v.termios 0).L_CANON = true ∧
            (c = (v.termios 0).STOP_CHAR ∨ c = (v.termios 0).START_CHAR) :=
            ⟨hstart.1, .inr hstart.2⟩
          rw [if_neg hstop, if_pos hstart, if_pos hdrop]
          exact ⟨fun _ => ⟨_, .refl⟩, fun hne => absurd rfl hne⟩
        · have hdrop : ¬((v.termios 0).L_CANON = true ∧
            (c = (v.termios 0).STOP_CHAR ∨ c = (v.termios 0).START_CHAR)) :=
            fun hor => hor.2.elim (fun h => hstop ⟨hor.1, h⟩) fun h => hstart ⟨hor.1, h⟩
          rw [if_neg hstop, if_neg hstart, if_neg hdrop]
          by_cases hsig : (v.termios 0).L_ISIG = true ∧
            (c = (v.termios 0).INTR_CHAR ∨ c = (v.termios 0).QUIT_CHAR)
          · rw [if_pos hsig, if_pos hsig]
            exact ⟨fun _ => ⟨v.stopped, .refl⟩, fun hne => absurd rfl hne⟩
          · rw [if_neg hsig, if_neg hsig, World.keep, if_pos hecho]
            exact ⟨fun hmarks => (by cases hmarks), fun _ => early_echo h⟩

theorem Passed.trans {u : World} (h : Passed v u) (h' : Passed u v') : Passed v v' :=
  ⟨h'.wf, h'.termios.trans h.termios, h'.below.trans h.below, h'.screen.trans h.screen, h'.write.trans h.write,
    h'.holds.trans h.holds⟩

/-- **An answer is cooked.**  Either the input types and removes nothing, or an echo begins. -/
theorem cook_ahead (hwf : ∀ i, (v.queue i).Wf) (hecho : (v.termios 0).L_ECHO = true)
    (hroom : (v.queue (secondary 0)).FULL = false) (h : 0 < promised fs)
    (hin : (v.queue (read_q 0)).chars = input) :
    (trail (v.termios 0).ends (v.queue (secondary 0)).chars (keys v.below (v.termios 0) input) = [] →
      ∃ v', Quietly (v, .cook 0 .top :: fs) (v', fs) ∧ Passed v v' ∧ (v'.queue (read_q 0)).chars = []) ∧
    (trail (v.termios 0).ends (v.queue (secondary 0)).chars (keys v.below (v.termios 0) input) ≠ [] →
      Early (v, .cook 0 .top :: fs)) := by
  have hstep := next_cook v 0 .top fs
  have hfirst : echoesEarly (v, .cook 0 .top :: fs) = false := rfl
  induction input generalizing v with
  | nil =>
    have hempty : (v.queue (read_q 0)).EMPTY = true := by
      rw [Queue.empty_iff (hwf _), ← Queue.chars_length, hin, List.length_nil]
    rw [World.cook, if_pos (.inl hempty)] at hstep
    exact ⟨fun _ => ⟨v, .single ⟨hstep, hfirst⟩, ⟨hwf, rfl, rfl, rfl, rfl, rfl⟩, hin⟩,
      fun hne => absurd rfl hne⟩
  | cons x input ih =>
    obtain ⟨hx, hget⟩ := (hin ▸ is_self hwf).getch
    have hpos : 0 < (v.queue (read_q 0)).CHARS := (hin ▸ is_self hwf).pos
    have hgo : ¬((v.queue (read_q 0)).EMPTY = true ∨ (v.queue (secondary 0)).FULL = true) := by
      rw [Queue.empty_iff (hwf _), hroom]
      simp
      omega
    rw [World.cook, if_neg hgo, hx] at hstep
    -- the character is taken
    obtain ⟨u, hu⟩ : ∃ u, v.upd (read_q 0) Queue.GETCH = u := ⟨_, rfl⟩
    rw [hu] at hstep hget
    have hpass : Passed v u := by
      refine ⟨hget.wf, hget.termios, hget.below, ?_, ?_, ?_⟩
      · rw [← hu]
        rfl
      · rw [← hu, upd_other (by simp)]
      · rw [← hu, upd_other (by simp)]
    have hnext : ∀ y, Passed v y → (y.queue (read_q 0)).chars = input →
        (trail (v.termios 0).ends (v.queue (secondary 0)).chars (keys v.below (v.termios 0) input) = [] →
          ∃ v', Quietly (y, .cook 0 .top :: fs) (v', fs) ∧ Passed v v' ∧ (v'.queue (read_q 0)).chars = []) ∧
        (trail (v.termios 0).ends (v.queue (secondary 0)).chars (keys v.below (v.termios 0) input) ≠ [] →
          Early (y, .cook 0 .top :: fs)) := by
      intro y hy hreads
      have hrec := ih (v := y) hy.wf (by rw [hy.termios, hecho]) (by rw [hy.holds, hroom]) hreads
        (next_cook y 0 .top fs) rfl
      rw [hy.termios, hy.below, hy.holds] at hrec
      refine ⟨fun hnil => ?_, hrec.2⟩
      obtain ⟨v', hrun, hv', hread⟩ := hrec.1 hnil
      exact ⟨v', hrun, hy.trans hv', hread⟩
    cases hrec : received v.below (v.termios 0) x with
    | none =>
      have hkeys : keys v.below (v.termios 0) (x :: input) = keys v.below (v.termios 0) input := by
        simp [keys, hrec]
      rw [hrec] at hstep
      rw [hkeys]
      obtain ⟨hpassed, hearly⟩ := hnext u hpass hget.reads
      refine ⟨fun hnil => ?_, fun hne => Quietly.early (.single ⟨hstep, hfirst⟩) (hearly hne)⟩
      obtain ⟨v', hrun, hv', hread⟩ := hpassed hnil
      exact ⟨v', .head ⟨hstep, hfirst⟩ hrun, hv', hread⟩
    | some c =>
      have hkeys : keys v.below (v.termios 0) (x :: input) =
          keyOf (v.termios 0) c :: keys v.below (v.termios 0) input := by simp [keys, hrec]
      have hchar := char_ahead hget.wf (by rw [hget.termios, hecho]) h c
      rw [hrec] at hstep
      rw [hget.termios, hpass.holds] at hchar
      rw [hkeys, trail]
      by_cases hmarks : marks (v.termios 0).ends (v.queue (secondary 0)).chars (keyOf (v.termios 0) c) = []
      · obtain ⟨stopped, hquiet⟩ := hchar.1 hmarks
        rw [← hget.termios] at hquiet
        obtain ⟨hpassed, hearly⟩ := hnext { u with stopped := stopped }
          ⟨hpass.wf, hpass.termios, hpass.below, hpass.screen, hpass.write, hpass.holds⟩ hget.reads
        rw [hmarks, List.nil_append, press_of_marks hmarks]
        refine ⟨fun hnil => ?_, fun hne => Quietly.early (.head ⟨hstep, hfirst⟩ hquiet) (hearly hne)⟩
        obtain ⟨v', hrun, hv', hread⟩ := hpassed hnil
        exact ⟨v', .head ⟨hstep, hfirst⟩ (hquiet.trans hrun), hv', hread⟩
      · refine ⟨fun hnil => absurd (List.append_eq_nil_iff.1 hnil).1 hmarks, fun _ => ?_⟩
        exact Quietly.early (.single ⟨hstep, hfirst⟩) (hchar.2 hmarks)

/-! ### What an answer types -/

theorem not_put_of_trail {ends : ℤ → Bool} {ks : List (Key ℤ)} (h : trail ends text ks = []) :
    ∀ c, Key.put c ∉ ks := by
  induction ks generalizing text with
  | nil => simp
  | cons k ks ih =>
    rw [trail, List.append_eq_nil_iff] at h
    intro c hc
    rcases List.mem_cons.1 hc with rfl | hc
    · cases h.1
    · exact ih h.2 c hc

theorem received_answer (below : ℤ → ℕ) (t : Termios) (hc : c ∈ RESPONSE) : received below t c = some c := by
  simp only [RESPONSE, List.mem_cons, List.not_mem_nil, or_false] at hc
  rcases hc with rfl | rfl | rfl | rfl | rfl | rfl | rfl <;> simp [received, tolower, isupper]

/-- The characters that are not stored. -/
def special (t : Termios) : List ℤ :=
  [t.KILL_CHAR, t.ERASE_CHAR, t.STOP_CHAR, t.START_CHAR, t.INTR_CHAR, t.QUIT_CHAR]

theorem keyOf_put {t : Termios} (h : c ∉ special t) : keyOf t c = .put c := by
  simp only [special, List.mem_cons, List.not_mem_nil, or_false, not_or] at h
  obtain ⟨h1, h2, h3, h4, h5, h6⟩ := h
  rw [keyOf, if_neg (by simp [h1]), if_neg (by simp [h2]), if_neg (by simp [h3, h4]), if_neg (by simp [h5, h6])]

/-- **An answer that is alone in the read queue types something.**  Not all of its characters can be
special ones. -/
theorem answer_types (below : ℤ → ℕ) (t : Termios) (text : List ℤ) :
    trail t.ends text (keys below t RESPONSE) ≠ [] := by
  intro hnil
  have hsub : RESPONSE ⊆ special t := by
    intro c hc
    by_contra hno
    refine not_put_of_trail hnil c ?_
    rw [keys, List.mem_map]
    exact ⟨c, List.mem_filterMap.2 ⟨c, hc, received_answer below t hc⟩, keyOf_put hno⟩
  have hnodup : RESPONSE.Nodup := by decide
  have hlen := (List.subperm_of_subset hnodup hsub).length_le
  simp [RESPONSE, special] at hlen

theorem foldl_putch_chars {q : Queue} (h : q.Wf) (hl : cs.length ≤ q.LEFT) :
    (cs.foldl (fun q c => q.PUTCH c) q).chars = q.chars ++ cs := by
  induction cs generalizing q with
  | nil => exact (List.append_nil _).symm
  | cons c cs ih =>
    rw [List.length_cons] at hl
    have hleft := Queue.putch_LEFT (c := c) h (by omega)
    rw [List.foldl_cons, ih (Queue.putch_wf h) (by omega), Queue.putch_chars h (by omega), List.append_assoc]
    rfl

theorem typesAnswer_of_empty (hwf : ∀ i, (v.queue i).Wf) (h : (v.queue (read_q 0)).chars = []) :
    typesAnswer v = true := by
  have hsum := Queue.left_add_chars (v.queue (read_q 0))
  have hzero : (v.queue (read_q 0)).CHARS = 0 := by rw [← Queue.chars_length, h, List.length_nil]
  have hanswer : (answer (v.queue (read_q 0))).chars = RESPONSE := by
    rw [answer, foldl_putch_chars (hwf _) (by rw [RESPONSE, List.length]; simp; omega), h, List.nil_append]
  rw [typesAnswer, hanswer]
  simpa using answer_types v.below (v.termios 0) _

/-! ### The outermost call -/

/-- **What lies ahead of a call of `con_write`**, with the characters that it still has to take. -/
theorem ahead_of_call (hwf : ∀ i, (v.queue i).Wf) (hecho : (v.termios 0).L_ECHO = true)
    (hroom : (v.queue (secondary 0)).FULL = false) (hcs : (v.queue (write_q 0)).chars = cs) :
    if answeredAhead ((v.termios 0).c_cc 2) (typesAnswer v) v.screen cs = true then
      Early (v, [.con_write cs.length])
    else Never (v, [.con_write cs.length]) := by
  induction cs generalizing v with
  | nil =>
    rw [answeredAhead, if_neg Bool.false_ne_true]
    refine Harmless.never ⟨⟨hwf, by simp [Frame.ofConsole]⟩, ⟨rfl, ?_, ?_⟩, by simp⟩
    · rw [← Queue.chars_length, hcs]
    · rw [hcs]
      simp
  | cons c cs ih =>
    have hlen := Queue.chars_length (v.queue (write_q 0))
    rw [hcs, List.length_cons] at hlen
    have hget := Queue.getch_chars (hwf (write_q 0)) (by omega)
    rw [hcs] at hget
    obtain ⟨hc, hrest⟩ := List.cons_eq_cons.1 hget
    obtain ⟨u, hu⟩ : ∃ u, (v.con_write (cs.length + 1)).1 = u := ⟨_, rfl⟩
    have hqueue : ∀ i, u.queue i = (v.upd (write_q 0) Queue.GETCH).queue i := fun i => by
      rw [← hu]
      rfl
    have hterm : u.termios = v.termios := by
      rw [← hu]
      rfl
    have hbelow : u.below = v.below := by
      rw [← hu]
      rfl
    have hscreen : u.screen = v.screen.con_char ((v.termios 0).c_cc 2) c := by
      rw [← hu, hc]
      rfl
    have hwf' : ∀ i, (u.queue i).Wf := fun i => by
      rw [hqueue]
      exact upd_wf hwf (Queue.getch_wf (hwf _)) i
    have hread : u.queue (read_q 0) = v.queue (read_q 0) := by rw [hqueue, upd_other (by simp)]
    have hsec : u.queue (secondary 0) = v.queue (secondary 0) := by rw [hqueue, upd_other (by simp)]
    have hleft : (u.queue (write_q 0)).chars = cs := by rw [hqueue, upd_self, hrest]
    have htypes : typesAnswer u = typesAnswer v := by rw [typesAnswer, typesAnswer, hterm, hbelow, hread, hsec]
    have hfirst : echoesEarly (v, [.con_write (cs.length + 1)]) = false := rfl
    by_cases hasks : v.screen.asks c = true
    · rw [answeredAhead, if_pos hasks, ← hscreen]
      by_cases hnil : cs = []
      · -- the `Z` is the last character
        subst hnil
        rw [answeredAhead, if_neg (by simp)]
        refine Harmless.never ⟨⟨hwf, by simp [Frame.ofConsole]⟩, ⟨rfl, hlen, ?_⟩, by simp⟩
        rw [hcs]
        simp
      · have hstep : Next (v, [.con_write (cs.length + 1)]) (u, [.respond, .con_write cs.length]) := by
          show run v false [.con_write (cs.length + 1)] = _
          rw [run, Frame.step, Option.map_some, hu]
          simp [World.con_write, ← hc, hasks]
        have hsecond : Next (u, [.respond, .con_write cs.length])
            (u.respond.1, [.cook 0 .top, .con_write cs.length]) := rfl
        have hquiet : Quietly (v, [.con_write (cs.length + 1)])
            (u.respond.1, [.cook 0 .top, .con_write cs.length]) :=
          .tail (.single ⟨hstep, hfirst⟩) ⟨hsecond, rfl⟩
        have hprom : 0 < promised [.con_write cs.length] := by
          rw [promised_con_write]
          have := List.length_pos_iff.2 hnil
          omega
        have hsec' : u.respond.1.queue (secondary 0) = v.queue (secondary 0) := by
          rw [← hsec]
          exact upd_other (w := u) (i := read_q 0) (j := secondary 0) (by simp) answer
        have hwrite' : u.respond.1.queue (write_q 0) = u.queue (write_q 0) :=
          upd_other (w := u) (i := read_q 0) (j := write_q 0) (by simp) answer
        have hread' : u.respond.1.queue (read_q 0) = answer (v.queue (read_q 0)) := by
          rw [← hread]
          exact upd_self u (read_q 0) answer
        have hterm' : u.respond.1.termios = v.termios := hterm
        have hbelow' : u.respond.1.below = v.below := hbelow
        have hwf'' : ∀ i, (u.respond.1.queue i).Wf := upd_wf hwf' (answer_wf (hwf' _))
        have hcook := cook_ahead hwf'' (hterm' ▸ hecho) (hsec' ▸ hroom) hprom rfl
        rw [hterm', hbelow', hsec', hread'] at hcook
        cases htyped : typesAnswer v with
        | true =>
          have hne : trail (v.termios 0).ends (v.queue (secondary 0)).chars
              (keys v.below (v.termios 0) (answer (v.queue (read_q 0))).chars) ≠ [] := by
            simpa [typesAnswer] using htyped
          rw [if_pos (by simp [hnil])]
          exact hquiet.early (hcook.2 hne)
        | false =>
          have heq : trail (v.termios 0).ends (v.queue (secondary 0)).chars
              (keys v.below (v.termios 0) (answer (v.queue (read_q 0))).chars) = [] := by
            simpa [typesAnswer] using htyped
          obtain ⟨v', hrun, hv', hempty⟩ := hcook.1 heq
          have hrec := ih (v := v') hv'.wf (by rw [hv'.termios, hterm', hecho])
            (by rw [hv'.holds, hsec', hroom])
            (by rw [hv'.write, hwrite', hleft])
          have hscreen' : v'.screen = u.screen := hv'.screen
          rw [hv'.termios, hterm', hscreen', typesAnswer_of_empty hv'.wf hempty] at hrec
          rw [Bool.false_and, Bool.false_or]
          split_ifs at hrec ⊢
          · exact hquiet.early (Quietly.early hrun hrec)
          · exact hquiet.never (Quietly.never hrun hrec)
    · have hstep : Next (v, [.con_write (cs.length + 1)]) (u, [.con_write cs.length]) := by
        show run v false [.con_write (cs.length + 1)] = _
        rw [run, Frame.step, Option.map_some, hu]
        simp [World.con_write, ← hc, hasks]
      have hrec := ih (v := u) hwf' (by rw [hterm, hecho]) (by rw [hsec, hroom]) hleft
      rw [hterm, htypes, hscreen] at hrec
      rw [answeredAhead, if_neg hasks]
      split_ifs at hrec ⊢
      · exact Quietly.early (.single ⟨hstep, hfirst⟩) hrec
      · exact Quietly.never (.single ⟨hstep, hfirst⟩) hrec

/-- **Every character is interpreted once**, in order, exactly if no `ESC Z` in the queue makes the
console echo an answer before the rest has been taken. -/
theorem interpreted_once_iff (h : Callable w) : InterpretedOnce w ↔ echoesAhead w = false := by
  rw [interpreted_iff_never_early h]
  have hcall : w.call = (w, [.con_write (w.queue (write_q 0)).chars.length]) := by
    rw [Queue.chars_length]
    rfl
  rw [hcall]
  cases hecho : (w.termios 0).L_ECHO with
  | false => exact ⟨fun _ => by simp [echoesAhead, hecho], fun _ => never_of_mute fun h => by simp [hecho] at h⟩
  | true =>
    cases hfull : (w.queue (secondary 0)).FULL with
    | true => exact ⟨fun _ => by simp [echoesAhead, hfull], fun _ => never_of_mute fun _ => hfull⟩
    | false =>
      have hahead := ahead_of_call h.wf hecho hfull rfl
      rw [echoesAhead, hecho, hfull, Bool.not_false, Bool.and_self, Bool.true_and]
      split_ifs at hahead with hyes
      · obtain ⟨t, ht, hearly⟩ := hahead
        rw [hyes]
        refine ⟨fun hnever => ?_, fun hno => by cases hno⟩
        rw [hnever t ht] at hearly
        cases hearly
      · exact ⟨fun _ => by simpa using hyes, fun _ => hahead⟩

/-- A letter and an `ESC Z` are written: the answer comes when all has been taken. -/
theorem interpreted_once_answered : InterpretedOnce (written [97, 27, 90]) :=
  (interpreted_once_iff (written_callable _)).2 (by rfl)

end OldLinux.Tty
