import OldLinux.Console.Escape
import OldLinux.Tty.Newlines

/-!
# Characters for the console

`con_write` counts the characters in its queue when it is called.  For an `ESC Z` it answers through
`copy_to_cooked`, whose echo puts characters into the same queue and calls `con_write` again: the call
inside takes all that is there, also what the call outside has counted.

* `echoesEarly`: an echo begins while a call of `con_write` still has characters to take.
* `interpreted_iff_never_early`: a call interprets every character once, in order, and leaves the queue
  empty exactly if that never happens.
-/

namespace OldLinux.Tty

open Lib Console

variable {w w' v : World} {f : Frame} {fs r : List Frame} {c : ℤ} {q : Queue} {s t : World × List Frame}

/-! ### A call of `con_write` -/

def After.takes (ch : Fin 3) (i : Qid) : After → ℕ
  | .store _ => 0
  | .del _ => if i = secondary ch then 1 else 0

/-- The characters that a call will take from a queue before it tests it again. -/
def Frame.takes (i : Qid) : Frame → ℕ
  | .cook ch (.echo _ a) => a.takes ch i
  | .cook ch (.after a) => a.takes ch i
  | .con_write nr => if i = write_q 0 then nr else 0
  | .tty_read ch _ true => if i = secondary ch then 1 else 0
  | _ => 0

/-- The next step of the call. -/
def Next (s t : World × List Frame) : Prop := run s.1 false s.2 = some t

/-- The characters that the calls in progress are still going to take. -/
def promised (fs : List Frame) : ℕ := (fs.map (Frame.takes (write_q 0))).sum

/-- `copy_to_cooked` is in an echo while a call of `con_write` has characters to take. -/
def echoesEarly (s : World × List Frame) : Bool :=
  match s.2 with
  | .cook _ (.echo _ _) :: fs => 0 < promised fs
  | _ => false

/-- What `con_write` does to the screen with the characters. -/
def interpret (w : World) (cs : List ℤ) : Screen :=
  cs.foldl (fun s c => s.con_char ((w.termios 0).c_cc 2) c) w.screen

/-- From `w` on, all characters of the queue and those put since have been taken, none from an empty
queue, and interpreted in this order; the queue is empty. -/
structure Interpreted (w w' : World) : Prop where
  empty : (w'.queue (write_q 0)).EMPTY = true
  sound : (w'.queue (write_q 0)).underrun = false
  all : ∃ echo, (w'.queue (write_q 0)).put = (w.queue (write_q 0)).put ++ echo ∧ (w'.queue (write_q 0)).taken =
      (w.queue (write_q 0)).taken ++ ((w.queue (write_q 0)).chars ++ echo) ∧
    w'.screen = interpret w ((w.queue (write_q 0)).chars ++ echo)

/-- A world in which `con_write` may be called. -/
structure Callable (w : World) : Prop where
  wf : ∀ i, (w.queue i).Wf
  sound : (w.queue (write_q 0)).underrun = false

def World.call (w : World) : World × List Frame := (w, w.write 0)

/-- `con_write` returns, and every character has been interpreted once. -/
def InterpretedOnce (w : World) : Prop :=
  ∃ w', Relation.ReflTransGen Next w.call (w', []) ∧ Interpreted w w'

/-! ### Steps of the call -/

/-- The calls that `con_write` leads to. -/
def Frame.ofConsole : Frame → Bool
  | .cook ch _ => ch = 0
  | .con_write _ => true
  | .respond => true
  | _ => false

/-- What a step of `copy_to_cooked` leaves alone if it is not in an echo. -/
structure Aside (w w' : World) : Prop where
  wf : ∀ i, (w'.queue i).Wf
  write : w'.queue (write_q 0) = w.queue (write_q 0)
  screen : w'.screen = w.screen

theorem aside_upd {i : Qid} {g : Queue → Queue} (hwf : ∀ i, (w.queue i).Wf)
    (hg : (g (w.queue i)).Wf) (hi : write_q 0 ≠ i) : Aside w (w.upd i g) :=
  ⟨upd_wf hwf hg, upd_other hi g, rfl⟩

theorem Aside.trans (h : Aside w v) (h' : Aside v w') : Aside w w' :=
  ⟨h'.wf, h'.write.trans h.write, h'.screen.trans h.screen⟩

theorem aside_count (hwf : ∀ i, (w.queue i).Wf) (c n : ℤ) : Aside w (w.count 0 c n) := by
  rw [World.count]
  split_ifs
  · exact aside_upd hwf (hwf (secondary 0)) (by decide)
  · exact ⟨hwf, rfl, rfl⟩

theorem aside_cookChar (hwf : ∀ i, (w.queue i).Wf) (c : ℤ) : Aside w (w.cookChar 0 c).1 := by
  simp only [World.cookChar]
  split_ifs
  · exact ⟨hwf, rfl, rfl⟩
  · exact ⟨hwf, rfl, rfl⟩
  · exact ⟨hwf, rfl, rfl⟩
  · exact ⟨hwf, rfl, rfl⟩
  · exact ⟨hwf, rfl, rfl⟩
  · exact ⟨hwf, rfl, rfl⟩
  · exact aside_count hwf c 1

/-- Where `copy_to_cooked` may go on: an echo is short and has a `Z` only at its end, and a character
that is going to be taken off is there. -/
def CookPc.Fresh (w : World) : CookPc → Prop
  | .echo cs a => cs.length ≤ 2 ∧ 90 ∉ cs.dropLast ∧
      (a.takes 0 (secondary 0) = 1 → (∀ c ∈ cs, c = 127) ∧ 0 < (w.queue (secondary 0)).CHARS)
  | .after a => a.takes 0 (secondary 0) = 1 → 0 < (w.queue (secondary 0)).CHARS
  | _ => True

/-- The frames after a step of `copy_to_cooked` on the console: none, or the place where it goes on. -/
def GoesOn (w : World) (r : List Frame) : Prop := r = [] ∨ ∃ pc, r = [.cook 0 pc] ∧ pc.Fresh w

theorem goesOn_takeOff {again : Bool} (hwf : ∀ i, (w.queue i).Wf) (h : ¬w.lineEnd 0 = true) :
    GoesOn w [w.takeOff 0 again] := by
  have hpos : 0 < (w.queue (secondary 0)).CHARS := by
    refine Nat.pos_of_ne_zero fun h0 => h ?_
    simp [World.lineEnd, (Queue.empty_iff (hwf _)).2 h0]
  rw [World.takeOff]
  split_ifs
  · refine .inr ⟨_, rfl, ?_, ?_, fun _ => ⟨?_, hpos⟩⟩
    · rw [rubout]
      split_ifs <;> simp
    · rw [rubout]
      split_ifs <;> simp
    · rw [rubout]
      split_ifs <;> simp
  · exact .inr ⟨_, rfl, fun _ => hpos⟩

theorem echoed_length (t : Termios) (c : ℤ) : (echoed t c).length ≤ 2 := by
  rw [echoed]
  split_ifs <;> simp

theorem echoed_dropLast (t : Termios) (c : ℤ) : 90 ∉ (echoed t c).dropLast := by
  rw [echoed]
  split_ifs <;> simp

theorem goesOn_keep (w v : World) (c : ℤ) : GoesOn v (w.keep 0 c).2 := by
  rw [World.keep]
  dsimp only
  split_ifs
  · exact .inr ⟨_, rfl, echoed_length _ c, echoed_dropLast _ c, fun h => absurd h Nat.zero_ne_one⟩
  · exact .inr ⟨_, rfl, fun h => absurd h Nat.zero_ne_one⟩

theorem goesOn_cookChar (hwf : ∀ i, (w.queue i).Wf) (c : ℤ) : GoesOn (w.cookChar 0 c).1 (w.cookChar 0 c).2 := by
  simp only [World.cookChar]
  split_ifs with h1 h2 h3
  · exact .inr ⟨_, rfl, trivial⟩
  · exact .inr ⟨_, rfl, trivial⟩
  · exact goesOn_takeOff hwf h3
  · exact .inr ⟨_, rfl, trivial⟩
  · exact .inr ⟨_, rfl, trivial⟩
  · exact .inr ⟨_, rfl, trivial⟩
  · exact goesOn_keep w _ c

/-- `copy_to_cooked` is not in an echo. -/
def CookPc.silent : CookPc → Bool
  | .echo _ _ => false
  | _ => true

theorem cook_aside {pc : CookPc} (hwf : ∀ i, (w.queue i).Wf) (h : pc.silent = true) :
    Aside w (w.cook 0 pc).1 ∧ GoesOn (w.cook 0 pc).1 (w.cook 0 pc).2 := by
  cases pc with
  | top =>
    rw [World.cook]
    split_ifs
    · exact ⟨⟨hwf, rfl, rfl⟩, .inl rfl⟩
    · have hget : Aside w (w.upd (read_q 0) Queue.GETCH) :=
        aside_upd hwf (Queue.getch_wf (hwf _)) (by decide)
      split
      · exact ⟨hget, .inr ⟨_, rfl, trivial⟩⟩
      · rename_i c _
        exact ⟨hget.trans (aside_cookChar hget.wf c), goesOn_cookChar hget.wf c⟩
  | kill =>
    refine ⟨⟨hwf, rfl, rfl⟩, ?_⟩
    rw [World.cook]
    dsimp only
    split_ifs with hend
    · exact .inr ⟨_, rfl, trivial⟩
    · exact goesOn_takeOff hwf hend
  | echo cs a => cases h
  | after a =>
    cases a with
    | store c => exact ⟨aside_upd hwf (Queue.putch_wf (hwf _)) (by decide), .inr ⟨_, rfl, trivial⟩⟩
    | del again =>
      refine ⟨aside_upd hwf (Queue.dec_wf (hwf _)) (by decide), .inr ⟨_, rfl, ?_⟩⟩
      cases again <;> trivial

/-! ### Promises -/

@[simp] theorem promised_con_write (nr : ℕ) (fs : List Frame) :
    promised (.con_write nr :: fs) = nr + promised fs := by
  simp [promised, Frame.takes]

@[simp] theorem promised_respond (fs : List Frame) : promised (.respond :: fs) = promised fs := by
  simp [promised, Frame.takes]

@[simp] theorem promised_cook (ch : Fin 3) (pc : CookPc) (fs : List Frame) :
    promised (.cook ch pc :: fs) = promised fs := by
  have hafter : ∀ a : After, a.takes ch (write_q 0) = 0 := fun a => by cases a <;> simp [After.takes]
  cases pc <;> simp [promised, Frame.takes, hafter]

theorem GoesOn.promised (h : GoesOn w r) (fs : List Frame) : promised (r ++ fs) = Tty.promised fs := by
  rcases h with rfl | ⟨pc, rfl, -⟩
  · rfl
  · exact promised_cook 0 pc fs

/-! ### Once an echo begins too early -/

/-- A state of a call of `con_write`. -/
structure OfConsole (s : World × List Frame) : Prop where
  wf : ∀ i, (s.1.queue i).Wf
  frames : ∀ f ∈ s.2, f.ofConsole = true

/-- A character is missing, or is going to be: more are promised than there are. -/
def Lost (s : World × List Frame) : Prop :=
  (s.1.queue (write_q 0)).underrun = true ∨ (s.1.queue (write_q 0)).CHARS < promised s.2 ∨ echoesEarly s = true

theorem GoesOn.frames (h : GoesOn w r) : ∀ f ∈ r, f.ofConsole = true := by
  rcases h with rfl | ⟨pc, rfl, -⟩
  · simp
  · simp [Frame.ofConsole]

theorem con_write_frames (w : World) (nr : ℕ) (fs : List Frame) :
      (∀ f ∈ (w.con_write nr).2, f.ofConsole = true) ∧
      promised ((w.con_write nr).2 ++ fs) = nr - 1 + promised fs := by
  cases nr with
  | zero => simp [World.con_write]
  | succ nr =>
    rw [World.con_write]
    dsimp only
    split_ifs <;> simp [Frame.ofConsole]

/-- What a call of the console does next. -/
theorem next_cases (hf : f.ofConsole = true) (hn : Next (w, f :: fs) t) :
    (∃ pc, f = .cook 0 pc ∧ t = ((w.cook 0 pc).1, (w.cook 0 pc).2 ++ fs)) ∨
    (∃ nr, f = .con_write nr ∧ t = ((w.con_write nr).1, (w.con_write nr).2 ++ fs)) ∨
    (f = .respond ∧ t = (w.respond.1, w.respond.2 ++ fs)) := by
  have hn : run w false (f :: fs) = some t := hn
  obtain ⟨r, hr, rfl⟩ := Option.map_eq_some_iff.1 hn
  cases f with
  | cook ch pc =>
    obtain rfl : ch = 0 := of_decide_eq_true hf
    cases hr
    exact .inl ⟨pc, rfl, rfl⟩
  | con_write nr =>
    cases hr
    exact .inr (.inl ⟨nr, rfl, rfl⟩)
  | respond =>
    cases hr
    exact .inr (.inr ⟨rfl, rfl⟩)
  | tty_write ch bytes pc => cases hf
  | tty_read ch nr take => cases hf

theorem OfConsole.next (h : OfConsole s) (hn : Next s t) : OfConsole t := by
  obtain ⟨w, fs⟩ := s
  cases fs with
  | nil => cases hn
  | cons f fs =>
    have hwf : ∀ i, (w.queue i).Wf := h.wf
    obtain ⟨hf, hrest⟩ := List.forall_mem_cons.1 h.frames
    rcases next_cases hf hn with ⟨pc, rfl, rfl⟩ | ⟨nr, rfl, rfl⟩ | ⟨rfl, rfl⟩
    · cases hsilent : pc.silent with
      | true =>
        obtain ⟨haside, hgoes⟩ := cook_aside hwf hsilent
        exact ⟨haside.wf, List.forall_mem_append.2 ⟨hgoes.frames, hrest⟩⟩
      | false =>
        cases pc with
        | echo cs a =>
          cases cs with
          | nil => exact ⟨hwf, List.forall_mem_cons.2 ⟨rfl, List.forall_mem_cons.2 ⟨rfl, hrest⟩⟩⟩
          | cons c cs => exact ⟨upd_wf hwf (Queue.putch_wf (hwf _)), List.forall_mem_cons.2 ⟨rfl, hrest⟩⟩
        | _ => cases hsilent
    · refine ⟨?_, List.forall_mem_append.2 ⟨(con_write_frames w nr fs).1, hrest⟩⟩
      cases nr with
      | zero => exact hwf
      | succ nr => exact upd_wf hwf (Queue.getch_wf (hwf _))
    · exact ⟨upd_wf hwf (answer_wf (hwf _)), List.forall_mem_cons.2 ⟨rfl, hrest⟩⟩

theorem Lost.take {nr : ℕ} (hwf : ∀ i, (w.queue i).Wf) (h : Lost (w, .con_write nr :: fs)) :
    Lost ((w.con_write nr).1, (w.con_write nr).2 ++ fs) := by
  have hprom := (con_write_frames w nr fs).2
  have hlost : (w.queue (write_q 0)).underrun = true ∨ (w.queue (write_q 0)).CHARS < nr + promised fs := by
    rcases h with hunder | hmore | hearly
    · exact .inl hunder
    · rw [promised_con_write] at hmore
      exact .inr hmore
    · cases hearly
  cases nr with
  | zero =>
    rw [Nat.zero_add] at hlost
    exact hlost.imp_right .inl
  | succ nr =>
    have hqueue : (w.con_write (nr + 1)).1.queue (write_q 0) = (w.queue (write_q 0)).GETCH :=
      upd_self w (write_q 0) Queue.GETCH
    rw [Lost, hqueue, hprom]
    by_cases hchars : (w.queue (write_q 0)).CHARS = 0
    · -- nothing is left to take
      refine .inl ?_
      rw [Queue.GETCH]
      simp [(Queue.empty_iff (hwf _)).2 hchars]
    · refine hlost.imp (fun hunder => ?_) fun hmore => .inl ?_
      · rw [Queue.GETCH]
        exact Bool.or_eq_true_iff.2 (.inl hunder)
      · have hget := Queue.getch_CHARS (hwf (write_q 0)) (Nat.pos_of_ne_zero hchars)
        show _ < nr + promised fs
        omega

theorem Lost.cook {pc : CookPc} (hwf : ∀ i, (w.queue i).Wf) (h : Lost (w, .cook 0 pc :: fs)) :
    Lost ((w.cook 0 pc).1, (w.cook 0 pc).2 ++ fs) := by
  cases hsilent : pc.silent with
  | true =>
    obtain ⟨haside, hgoes⟩ := cook_aside hwf hsilent
    rw [Lost, haside.write, hgoes.promised]
    rcases h with hunder | hmore | hearly
    · exact .inl hunder
    · rw [promised_cook] at hmore
      exact .inr (.inl hmore)
    · cases pc <;> first | cases hearly | cases hsilent
  | false =>
    obtain ⟨cs, a, rfl⟩ : ∃ cs a, pc = .echo cs a := by
      cases pc with
      | echo cs a => exact ⟨cs, a, rfl⟩
      | _ => cases hsilent
    have hpos : (w.queue (write_q 0)).underrun = true ∨ 0 < promised fs := by
      rcases h with hunder | hmore | hearly
      · exact .inl hunder
      · rw [promised_cook] at hmore
        exact .inr (Nat.lt_of_le_of_lt (Nat.zero_le _) hmore)
      · exact .inr (of_decide_eq_true hearly)
    cases cs with
    | nil =>
      refine hpos.imp_right fun hpos => .inl ?_
      show _ < promised (.con_write (w.queue (write_q 0)).CHARS :: .cook 0 (.after a) :: fs)
      rw [promised_con_write, promised_cook]
      exact Nat.lt_add_of_pos_right hpos
    | cons c cs =>
      refine hpos.imp (fun hunder => ?_) fun hpos => .inr (decide_eq_true hpos)
      show ((w.upd (write_q 0) (Queue.PUTCH c)).queue (write_q 0)).underrun = true
      rw [upd_self]
      exact hunder

/-- **What is lost stays lost.** -/
theorem Lost.next (hs : OfConsole s) (h : Lost s) (hn : Next s t) : Lost t := by
  obtain ⟨w, fs⟩ := s
  cases fs with
  | nil => cases hn
  | cons f fs =>
    rcases next_cases (hs.frames f List.mem_cons_self) hn with ⟨pc, rfl, rfl⟩ | ⟨nr, rfl, rfl⟩ | ⟨rfl, rfl⟩
    · exact h.cook hs.wf
    · exact h.take hs.wf
    · have hqueue : w.respond.1.queue (write_q 0) = w.queue (write_q 0) := upd_other (by decide) _
      rcases h with hunder | hmore | hearly
      · exact .inl (hqueue ▸ hunder)
      · refine .inr (.inl ?_)
        show (w.respond.1.queue (write_q 0)).CHARS < promised (.cook 0 .top :: fs)
        rw [hqueue, promised_cook]
        simpa using hmore
      · cases hearly

/-- A call that goes wrong ends after a `GETCH` on an empty queue. -/
theorem Lost.underrun (h : Lost (w, [])) : (w.queue (write_q 0)).underrun = true := by
  rcases h with hunder | hmore | hearly
  · exact hunder
  · cases hmore
  · cases hearly

/-! ### As long as no echo begins too early -/

/-- The characters of the secondary queue that are going to be taken off. -/
def erases (fs : List Frame) : ℕ := (fs.map (Frame.takes (secondary 0))).sum

/-- A call that waits for the calls above it. -/
def Frame.waits : Frame → Bool
  | .con_write _ => true
  | .cook ch (.after _) => ch = 0
  | _ => false

/-- An echo that has been put and a character to be taken off after it: the echo asks for no answer,
and the character is there. -/
def RubsOut (w : World) (fs : List Frame) : Prop :=
  ∃ again rest, fs = .cook 0 (.after (.del again)) :: rest ∧ erases rest = 0 ∧
    0 < (w.queue (secondary 0)).CHARS ∧ ∀ c ∈ (w.queue (write_q 0)).chars, c = 127

/-- The calls that wait have nothing to take off. -/
structure Waiting (fs : List Frame) : Prop where
  waits : ∀ f ∈ fs, f.waits = true
  erases : Tty.erases fs = 0

/-- All characters of the queue are promised, but for those of an echo that is being put. -/
def Poised (w : World) : List Frame → Prop
  | [] => (w.queue (write_q 0)).CHARS = 0
  | .con_write nr :: fs =>
    nr + promised fs = (w.queue (write_q 0)).CHARS ∧ (∀ f ∈ fs, f.waits = true) ∧ (erases fs = 0 ∨ RubsOut w fs)
  | .respond :: fs => promised fs = (w.queue (write_q 0)).CHARS ∧ Waiting fs
  | .cook ch (.echo cs a) :: fs =>
    ch = 0 ∧ promised fs = 0 ∧ Waiting fs ∧ (w.queue (write_q 0)).CHARS + cs.length ≤ 2 ∧
      (a.takes 0 (secondary 0) = 1 → (∀ c ∈ (w.queue (write_q 0)).chars ++ cs, c = 127) ∧
        0 < (w.queue (secondary 0)).CHARS)
  | .cook ch (.after a) :: fs =>
    ch = 0 ∧ promised fs = (w.queue (write_q 0)).CHARS ∧ Waiting fs ∧
      (a.takes 0 (secondary 0) = 1 → 0 < (w.queue (secondary 0)).CHARS)
  | .cook ch _ :: fs => ch = 0 ∧ promised fs = (w.queue (write_q 0)).CHARS ∧ Waiting fs
  | _ => False

/-- What has been taken since `w` has been interpreted, and what has been put comes after it. -/
structure Kept (w v : World) : Prop where
  wf : ∀ i, (v.queue i).Wf
  sound : (v.queue (write_q 0)).underrun = false
  termios : v.termios = w.termios
  history : ∃ echo seen, (v.queue (write_q 0)).put = (w.queue (write_q 0)).put ++ echo ∧
    (v.queue (write_q 0)).taken = (w.queue (write_q 0)).taken ++ seen ∧
    seen ++ (v.queue (write_q 0)).chars = (w.queue (write_q 0)).chars ++ echo ∧
    v.screen = interpret w seen

theorem erases_cons (f : Frame) (fs : List Frame) : erases (f :: fs) = f.takes (secondary 0) + erases fs := by
  simp [erases]

theorem erases_con_write (nr : ℕ) (fs : List Frame) : erases (.con_write nr :: fs) = erases fs := by
  simp [erases, Frame.takes]

theorem erases_after (a : After) (fs : List Frame) :
    erases (.cook 0 (.after a) :: fs) = a.takes 0 (secondary 0) + erases fs :=
  erases_cons ..

/-- The call on top is done, and the one below goes on. -/
theorem poised_below (hw : ∀ f ∈ fs, f.waits = true)
    (hprom : promised fs = (w.queue (write_q 0)).CHARS) (her : erases fs = 0 ∨ RubsOut w fs) :
    Poised w fs := by
  cases fs with
  | nil => exact hprom.symm
  | cons f fs =>
    have hrest : ∀ g ∈ fs, g.waits = true := fun g hg => hw g (List.mem_cons_of_mem _ hg)
    have hf := hw f List.mem_cons_self
    cases f with
    | con_write nr =>
      rw [promised_con_write] at hprom
      refine ⟨hprom, hrest, .inl ?_⟩
      rcases her with her | ⟨again, rest, heq, -⟩
      · rwa [erases_con_write] at her
      · cases heq
    | cook ch pc =>
      cases pc with
      | after a =>
        obtain rfl : ch = 0 := of_decide_eq_true hf
        rw [promised_cook] at hprom
        rcases her with her | ⟨again, rest, heq, her, hsec, -⟩
        · rw [erases_after] at her
          exact ⟨rfl, hprom, ⟨hrest, by omega⟩, fun h => by omega⟩
        · cases heq
          exact ⟨rfl, hprom, ⟨hrest, her⟩, fun _ => hsec⟩
      | _ => cases hf
    | _ => cases hf

theorem Kept.aside (h : Kept w v) (ha : Aside v w') (hterm : w'.termios = v.termios) : Kept w w' := by
  obtain ⟨-, hsound, hkept, hhist⟩ := h
  refine ⟨ha.wf, ?_, hterm.trans hkept, ?_⟩
  · rwa [ha.write]
  · rwa [ha.write, ha.screen]

/-- A character is put. -/
theorem Kept.put (h : Kept w v) (hl : 0 < (v.queue (write_q 0)).LEFT) :
    Kept w (v.upd (write_q 0) (Queue.PUTCH c)) := by
  obtain ⟨hwf, hsound, hterm, echo, seen, hput, htaken, hchars, hscreen⟩ := h
  refine ⟨upd_wf hwf (Queue.putch_wf (hwf _)), ?_, hterm, echo ++ [c], seen, ?_, ?_, ?_, hscreen⟩
  · rw [upd_self]
    exact hsound
  · rw [upd_self, ← List.append_assoc, ← hput]
    rfl
  · rw [upd_self]
    exact htaken
  · rw [upd_self, Queue.putch_chars (hwf _) hl, ← List.append_assoc, hchars, List.append_assoc]

/-- A character is taken and interpreted. -/
theorem Kept.take (h : Kept w v) (hc : 0 < (v.queue (write_q 0)).CHARS) (nr : ℕ) :
    Kept w (v.con_write (nr + 1)).1 := by
  obtain ⟨hwf, hsound, hterm, echo, seen, hput, htaken, hchars, hscreen⟩ := h
  have hqueue : (v.con_write (nr + 1)).1.queue (write_q 0) = (v.queue (write_q 0)).GETCH :=
    upd_self v (write_q 0) Queue.GETCH
  refine ⟨upd_wf hwf (Queue.getch_wf (hwf _)), ?_, hterm, echo,
    seen ++ [(v.queue (write_q 0)).next], ?_, ?_, ?_, ?_⟩
  · rw [hqueue]
    have hempty : (v.queue (write_q 0)).EMPTY = false := by
      rw [← Bool.not_eq_true, Queue.empty_iff (hwf _)]
      omega
    show ((v.queue (write_q 0)).underrun || (v.queue (write_q 0)).EMPTY) = false
    rw [hsound, hempty]
    rfl
  · rw [hqueue]
    exact hput
  · rw [hqueue, ← List.append_assoc, ← htaken]
    rfl
  · rw [hqueue, ← hchars, Queue.getch_chars (hwf _) hc, List.append_assoc]
    rfl
  · show v.screen.con_char ((v.termios 0).c_cc 2) (v.queue (write_q 0)).next = _
    rw [interpret, List.foldl_append, ← interpret, ← hscreen, hterm]
    rfl

/-! ### How long a call can take -/

/-- A weight for each character of the queue. -/
def Queue.weight (g : ℤ → ℕ) (q : Queue) : ℕ := (q.chars.map g).sum

theorem putch_weight (g : ℤ → ℕ) (h : q.Wf) (c : ℤ) : (q.PUTCH c).weight g ≤ q.weight g + g c := by
  by_cases hl : q.LEFT = 0
  · rw [Queue.weight, Queue.chars_nil (Queue.putch_full h hl)]
    exact Nat.zero_le _
  · rw [Queue.weight, Queue.putch_chars h (Nat.pos_of_ne_zero hl)]
    simp [Queue.weight]

theorem foldl_putch_weight (g : ℤ → ℕ) (h : q.Wf) (cs : List ℤ) :
    (cs.foldl (fun q c => q.PUTCH c) q).weight g ≤ q.weight g + (cs.map g).sum := by
  induction cs generalizing q with
  | nil => exact Nat.le_refl _
  | cons c cs ih =>
    have hrest := ih (q := q.PUTCH c) (Queue.putch_wf h)
    have hone := putch_weight g h c
    rw [List.foldl_cons, List.map_cons, List.sum_cons]
    omega

theorem getch_weight (g : ℤ → ℕ) (h : q.Wf) (hc : 0 < q.CHARS) : q.weight g = g q.next + q.GETCH.weight g := by
  rw [Queue.weight, Queue.getch_chars h hc, List.map_cons, List.sum_cons, Queue.weight]

theorem putch_CHARS_le (h : q.Wf) (c : ℤ) : (q.PUTCH c).CHARS ≤ q.CHARS + 1 := by
  by_cases hl : q.LEFT = 0
  · rw [Queue.putch_full h hl]
    exact Nat.zero_le _
  · rw [Queue.putch_CHARS h (Nat.pos_of_ne_zero hl)]

/-- A character in the console's queue: an `ESC` may lead to an answer. -/
def writeRank (c : ℤ) : ℕ := if c = 27 then 151 else 1

/-- A character to be cooked: only negative ones are echoed with an `ESC`. -/
def readRank (c : ℤ) : ℕ := if c < 0 then 170 else 20

def echoRank (cs : List ℤ) : ℕ := (cs.map fun c => writeRank c + 1).sum

def After.rank : After → ℕ
  | .store _ => 12
  | .del _ => 2

def Frame.rank : Frame → ℕ
  | .con_write _ => 1
  | .respond => 142
  | .cook _ .top => 1
  | .cook _ .kill => 9
  | .cook _ (.echo cs a) => echoRank cs + 2 + a.rank
  | .cook _ (.after a) => a.rank
  | _ => 0

def World.rank (w : World) : ℕ :=
  (w.queue (write_q 0)).weight writeRank + (if w.screen.state = 1 then 150 else 0) +
    (w.queue (read_q 0)).weight readRank + 10 * (w.queue (secondary 0)).CHARS

/-- A bound for the steps to come. -/
def rank (s : World × List Frame) : ℕ := s.1.rank + (s.2.map Frame.rank).sum

theorem rank_read (w : World) (g : Queue → Queue) :
      (w.upd (read_q 0) g).rank + (w.queue (read_q 0)).weight readRank =
      w.rank + (g (w.queue (read_q 0))).weight readRank := by
  rw [World.rank, World.rank, upd_self, upd_other (by decide), upd_other (by decide)]
  show _ + (if w.screen.state = 1 then 150 else 0) + _ + _ + _ = _
  omega

theorem rank_secondary (w : World) (g : Queue → Queue) :
    (w.upd (secondary 0) g).rank + 10 * (w.queue (secondary 0)).CHARS =
      w.rank + 10 * (g (w.queue (secondary 0))).CHARS := by
  rw [World.rank, World.rank, upd_self, upd_other (by decide), upd_other (by decide)]
  show _ + (if w.screen.state = 1 then 150 else 0) + _ + _ + _ = _
  omega

theorem rank_write (w : World) (g : Queue → Queue) :
    (w.upd (write_q 0) g).rank + (w.queue (write_q 0)).weight writeRank =
      w.rank + (g (w.queue (write_q 0))).weight writeRank := by
  rw [World.rank, World.rank, upd_self, upd_other (by decide), upd_other (by decide)]
  show _ + (if w.screen.state = 1 then 150 else 0) + _ + _ + _ = _
  omega

theorem rank_screen (w : World) (s : Screen) :
    ({ w with screen := s } : World).rank + (if w.screen.state = 1 then 150 else 0) =
      w.rank + (if s.state = 1 then 150 else 0) := by
  rw [World.rank, World.rank]
  dsimp only
  omega

theorem rank_count (w : World) (c n : ℤ) : (w.count 0 c n).rank = w.rank := by
  rw [World.count]
  split_ifs
  · exact Nat.add_right_cancel (rank_secondary w fun q => { q with data := q.data + n })
  · rfl

theorem echoRank_cons (c : ℤ) (cs : List ℤ) : echoRank (c :: cs) = writeRank c + 1 + echoRank cs := by
  rw [echoRank, List.map_cons, List.sum_cons, echoRank]

theorem rubout_rank (c : ℤ) : echoRank (rubout c) ≤ 4 := by
  rw [rubout]
  split_ifs <;> decide

theorem takeOff_rank (w : World) (again : Bool) : (w.takeOff 0 again).rank ≤ 8 := by
  have hrub := rubout_rank (w.queue (secondary 0)).LAST
  rw [World.takeOff]
  split_ifs
  · show _ + 2 + 2 ≤ 8
    omega
  · show 2 ≤ 8
    omega

/-- Only `c + 64` can be an `ESC`. -/
theorem echoed_rank (t : Termios) (c : ℤ) : echoRank (echoed t c) ≤ 4 + if c < 0 then 150 else 0 := by
  have hnil : echoRank [] = 0 := rfl
  rw [echoed]
  by_cases hc : c = 10
  · rw [hc, if_pos rfl]
    decide
  · rw [if_neg hc]
    split
    · split
      · rw [echoRank_cons, echoRank_cons, hnil, writeRank, writeRank]
        split_ifs <;> omega
      · exact Nat.zero_le _
    · rw [echoRank_cons, hnil, writeRank]
      split_ifs <;> omega

theorem keep_rank (w : World) (c : ℤ) : ((w.keep 0 c).2.map Frame.rank).sum ≤ 18 + if c < 0
    then 150 else 0 := by
  have hecho := echoed_rank (w.termios 0) c
  rw [World.keep]
  dsimp only
  split
  · rw [List.map_singleton, List.sum_singleton]
    show echoRank _ + 2 + 12 ≤ _
    omega
  · rw [List.map_singleton, List.sum_singleton]
    show 12 ≤ _
    omega

theorem cookChar_rank (w : World) (c : ℤ) : (w.cookChar 0 c).1.rank + ((w.cookChar 0 c).2.map Frame.rank).sum ≤
      w.rank + 18 + if c < 0 then 150 else 0 := by
  have htake := takeOff_rank w false
  have hkeep := keep_rank w c
  have hframe : ∀ f : Frame, f.rank ≤ 18 →
      w.rank + ([f].map Frame.rank).sum ≤ w.rank + 18 + if c < 0 then 150 else 0 := by
    intro f hf
    rw [List.map_singleton, List.sum_singleton]
    omega
  simp only [World.cookChar]
  split
  · exact hframe _ (by decide)
  · split
    · split
      · exact hframe _ (by decide)
      · exact hframe _ (by omega)
    · split
      · exact hframe _ (by decide)
      · split
        · exact hframe _ (by decide)
        · split
          · exact hframe _ (by decide)
          · rw [show (w.keep 0 c).1.rank = w.rank from rank_count w c 1]
            omega

theorem tolower_neg {below : ℤ → ℕ} (h : tolower below c < 0) : c < 0 := by
  by_contra hc
  rw [tolower] at h
  split_ifs at h with hup
  · rw [isupper, if_neg (by omega)] at hup
    have hrange : 65 ≤ c ∧ c ≤ 90 := of_decide_eq_true hup
    rw [toChar] at h
    omega
  · omega

/-- What has become of a character is negative only if it was. -/
theorem received_neg {below : ℤ → ℕ} {t : Termios} {x : ℤ} (h : received below t x = some c)
    (hc : c < 0) : x < 0 := by
  have hlower : ∀ y : ℤ, (if t.I_UCLC then tolower below y else y) < 0 → y < 0 := by
    intro y hy
    split_ifs at hy
    · exact tolower_neg hy
    · exact hy
  simp only [received] at h
  split at h
  · split at h
    · cases h
      exact absurd (hlower 10 hc) (by decide)
    · split at h
      · cases h
      · cases h
        exact absurd (hlower 13 hc) (by decide)
  · split at h
    · cases h
      exact absurd (hlower 13 hc) (by decide)
    · cases h
      exact hlower x hc

/-- **A step of `copy_to_cooked`** that is not in an echo makes the rest shorter. -/
theorem cook_rank {pc : CookPc} (hwf : ∀ i, (w.queue i).Wf) (h : pc.silent = true)
    (hdel : ∀ again, pc = .after (.del again) → 0 < (w.queue (secondary 0)).CHARS) :
    (w.cook 0 pc).1.rank + ((w.cook 0 pc).2.map Frame.rank).sum < w.rank + (Frame.cook 0 pc).rank := by
  cases pc with
  | top =>
    rw [World.cook]
    split_ifs with hstop
    · exact Nat.lt_add_of_pos_right Nat.one_pos
    · have hpos : 0 < (w.queue (read_q 0)).CHARS := by
        refine Nat.pos_of_ne_zero fun h0 => hstop (.inl ?_)
        exact (Queue.empty_iff (hwf _)).2 h0
      have hweight := getch_weight readRank (hwf (read_q 0)) hpos
      have hrank := rank_read w Queue.GETCH
      have hlow : 20 ≤ readRank (w.queue (read_q 0)).next := by
        rw [readRank]
        split_ifs <;> omega
      split
      · show (w.upd (read_q 0) Queue.GETCH).rank + 1 < w.rank + 1
        omega
      · rename_i c hc
        have hchar := cookChar_rank (w.upd (read_q 0) Queue.GETCH) c
        show _ < w.rank + 1
        by_cases hneg : c < 0
        · rw [readRank, if_pos (received_neg hc hneg)] at hweight
          rw [if_pos hneg] at hchar
          omega
        · rw [if_neg hneg] at hchar
          omega
  | kill =>
    have htake := takeOff_rank w true
    show w.rank + ([if w.lineEnd 0 then Frame.cook 0 .top else w.takeOff 0 true].map Frame.rank).sum <
      w.rank + 9
    rw [List.map_singleton, List.sum_singleton]
    split_ifs
    · exact Nat.add_lt_add_left (by decide) _
    · omega
  | echo cs a => cases h
  | after a =>
    cases a with
    | store c =>
      have hrank := rank_secondary w (Queue.PUTCH c)
      have hput := putch_CHARS_le (hwf (secondary 0)) c
      show (w.upd (secondary 0) (Queue.PUTCH c)).rank + 1 < w.rank + 12
      omega
    | del again =>
      have hrank := rank_secondary w Queue.DEC
      have hdec := Queue.dec_CHARS (hwf (secondary 0)) (hdel again rfl)
      show (w.upd (secondary 0) Queue.DEC).rank +
        ([Frame.cook 0 (if again then .kill else .top)].map Frame.rank).sum < w.rank + 2
      cases again
      · show _ + 1 < _
        omega
      · show _ + 9 < _
        omega

theorem put_rank {cs : List ℤ} {a : After} (hwf : ∀ i, (w.queue i).Wf) :
    (w.upd (write_q 0) (Queue.PUTCH c)).rank + (Frame.cook 0 (.echo cs a)).rank <
      w.rank + (Frame.cook 0 (.echo (c :: cs) a)).rank := by
  have hrank := rank_write w (Queue.PUTCH c)
  have hput := putch_weight writeRank (hwf (write_q 0)) c
  show _ + (echoRank cs + 2 + a.rank) < w.rank + (echoRank (c :: cs) + 2 + a.rank)
  rw [echoRank_cons]
  omega

theorem respond_rank (hwf : ∀ i, (w.queue i).Wf) : w.respond.1.rank + 1 < w.rank + 142 := by
  have hrank := rank_read w answer
  have hput := foldl_putch_weight readRank (hwf (read_q 0)) RESPONSE
  have hanswer : (RESPONSE.map readRank).sum = 140 := by decide
  show (w.upd (read_q 0) answer).rank + 1 < _
  rw [answer] at hrank
  omega

/-- A character of `con_write`: an `ESC` has paid for the answer. -/
theorem take_rank {nr : ℕ} (hwf : ∀ i, (w.queue i).Wf) (hc : 0 < (w.queue (write_q 0)).CHARS) :
    (w.con_write (nr + 1)).1.rank + ((w.con_write (nr + 1)).2.map Frame.rank).sum < w.rank + 1 := by
  have hweight := getch_weight writeRank (hwf (write_q 0)) hc
  have hqueue := rank_write w Queue.GETCH
  have hscreen := rank_screen (w.upd (write_q 0) Queue.GETCH)
    (w.screen.con_char ((w.termios 0).c_cc 2) (w.queue (write_q 0)).next)
  have hone : 1 ≤ writeRank (w.queue (write_q 0)).next := by
    rw [writeRank]
    split_ifs <;> omega
  replace hscreen : (w.con_write (nr + 1)).1.rank + (if w.screen.state = 1 then 150 else 0) = _ := hscreen
  by_cases hasks : w.screen.asks (w.queue (write_q 0)).next = true
  · obtain ⟨hstate, -⟩ : w.screen.state = 1 ∧ _ := of_decide_eq_true hasks
    rw [Screen.con_char_asked hasks, if_pos hstate, if_neg Nat.zero_ne_one] at hscreen
    rw [World.con_write, if_pos hasks] at hscreen ⊢
    show _ + (142 + 1) < w.rank + 1
    omega
  · have hframes : ((w.con_write (nr + 1)).2.map Frame.rank).sum = 1 := by
      rw [World.con_write, if_neg hasks]
      rfl
    rw [hframes]
    by_cases hstate : (w.screen.con_char ((w.termios 0).c_cc 2) (w.queue (write_q 0)).next).state = 1
    · obtain ⟨hzero, hesc⟩ := Screen.con_char_state hstate
      rw [if_pos hstate, if_neg (by omega)] at hscreen
      rw [writeRank, if_pos hesc] at hweight
      omega
    · rw [if_neg hstate] at hscreen
      omega

theorem rank_lt (h : w'.rank + (r.map Frame.rank).sum < w.rank + f.rank) :
    rank (w', r ++ fs) < rank (w, f :: fs) := by
  rw [rank, rank]
  simp only [List.map_append, List.sum_append, List.map_cons, List.sum_cons]
  omega

/-! ### One step -/

/-- Everything is as it should be in the call that has begun in `w`. -/
structure Fine (w : World) (s : World × List Frame) : Prop where
  kept : Kept w s.1
  poised : Poised s.1 s.2

theorem mem_getch_chars (h : q.Wf) (hc : 0 < q.CHARS) {x : ℤ} (hx : x ∈ q.GETCH.chars) : x ∈ q.chars := by
  rw [Queue.getch_chars h hc]
  exact List.mem_cons_of_mem _ hx

theorem Fine.take {nr : ℕ} (h : Fine w (v, .con_write nr :: fs)) :
    Fine w ((v.con_write nr).1, (v.con_write nr).2 ++ fs) ∧
      (v.con_write nr).1.rank + ((v.con_write nr).2.map Frame.rank).sum <
      v.rank + (Frame.con_write nr).rank := by
  obtain ⟨hkept, hprom, hwaits, her⟩ := h
  replace hprom : nr + promised fs = (v.queue (write_q 0)).CHARS := hprom
  replace hkept : Kept w v := hkept
  cases nr with
  | zero =>
    rw [Nat.zero_add] at hprom
    exact ⟨⟨hkept, poised_below hwaits hprom her⟩, Nat.lt_add_of_pos_right Nat.one_pos⟩
  | succ nr =>
    have hpos : 0 < (v.queue (write_q 0)).CHARS := by omega
    have hget := Queue.getch_CHARS (hkept.wf (write_q 0)) hpos
    have hqueue : (v.con_write (nr + 1)).1.queue (write_q 0) = (v.queue (write_q 0)).GETCH :=
      upd_self v (write_q 0) Queue.GETCH
    have hsec : (v.con_write (nr + 1)).1.queue (secondary 0) = v.queue (secondary 0) :=
      upd_other (w := v) (i := write_q 0) (j := secondary 0) (by simp) Queue.GETCH
    refine ⟨⟨hkept.take hpos nr, ?_⟩, take_rank hkept.wf hpos⟩
    dsimp only
    by_cases hasks : v.screen.asks (v.queue (write_q 0)).next = true
    · have hframes : (v.con_write (nr + 1)).2 = [.respond, .con_write nr] := by
        rw [World.con_write]
        exact if_pos hasks
      have hzero : erases fs = 0 := by
        refine her.resolve_right fun hrub => ?_
        obtain ⟨again, rest, -, -, -, hall⟩ := hrub
        have hnext : (v.queue (write_q 0)).next = 127 := by
          refine hall _ ?_
          rw [Queue.getch_chars (hkept.wf _) hpos]
          exact List.mem_cons_self
        rw [hnext] at hasks
        simp [Screen.asks] at hasks
      rw [hframes]
      refine ⟨?_, List.forall_mem_cons.2 ⟨rfl, hwaits⟩, ?_⟩
      · show promised (.con_write nr :: fs) = _
        rw [hqueue, promised_con_write]
        omega
      · show erases (.con_write nr :: fs) = 0
        rwa [erases_con_write]
    · have hframes : (v.con_write (nr + 1)).2 = [.con_write nr] := by
        rw [World.con_write]
        exact if_neg hasks
      rw [hframes]
      refine ⟨?_, hwaits, her.imp_right ?_⟩
      · show nr + promised fs = _
        rw [hqueue]
        omega
      · rintro ⟨again, rest, heq, hrest, hchars, hall⟩
        refine ⟨again, rest, heq, hrest, ?_, ?_⟩
        · rwa [hsec]
        · rw [hqueue]
          exact fun c hc => hall c (mem_getch_chars (hkept.wf _) hpos hc)

theorem Fine.respond (h : Fine w (v, .respond :: fs)) : Fine w (v.respond.1, v.respond.2 ++ fs) ∧
    v.respond.1.rank + (v.respond.2.map Frame.rank).sum < v.rank + Frame.respond.rank := by
  obtain ⟨hkept, hprom, hwait⟩ := h
  have haside : Aside v v.respond.1 :=
    aside_upd hkept.wf (answer_wf (hkept.wf _)) (by decide)
  refine ⟨⟨hkept.aside haside rfl, rfl, ?_, hwait⟩, respond_rank hkept.wf⟩
  rw [haside.write]
  exact hprom

theorem Fine.write {a : After} (h : Fine w (v, .cook 0 (.echo [] a) :: fs)) :
    Fine w ((v.cook 0 (.echo [] a)).1, (v.cook 0 (.echo [] a)).2 ++ fs) ∧
      (v.cook 0 (.echo [] a)).1.rank + ((v.cook 0 (.echo [] a)).2.map Frame.rank).sum <
        v.rank + (Frame.cook 0 (.echo [] a)).rank := by
  obtain ⟨hkept, -, hprom, hwait, hroom, hdel⟩ := h
  refine ⟨⟨hkept, ?_, List.forall_mem_cons.2 ⟨rfl, hwait.waits⟩, ?_⟩, ?_⟩
  · show (v.queue (write_q 0)).CHARS + promised (.cook 0 (.after a) :: fs) = _
    rw [promised_cook, hprom]
    rfl
  · cases a with
    | store c =>
      refine .inl ?_
      show erases (.cook 0 (.after (.store c)) :: fs) = 0
      rw [erases_after, hwait.erases]
      rfl
    | del again =>
      obtain ⟨hall, hsec⟩ := hdel rfl
      rw [List.append_nil] at hall
      exact .inr ⟨again, fs, rfl, hwait.erases, hsec, hall⟩
  · show v.rank + (1 + (a.rank + 0)) < v.rank + (0 + 2 + a.rank)
    omega

theorem Fine.put {cs : List ℤ} {a : After} (h : Fine w (v, .cook 0 (.echo (c :: cs) a) :: fs)) :
    Fine w (v.upd (write_q 0) (Queue.PUTCH c), .cook 0 (.echo cs a) :: fs) := by
  obtain ⟨hkept, -, hprom, hwait, hroom, hdel⟩ := h
  replace hkept : Kept w v := hkept
  replace hroom : (v.queue (write_q 0)).CHARS + (c :: cs).length ≤ 2 := hroom
  rw [List.length_cons] at hroom
  have hleft := Queue.left_add_chars (v.queue (write_q 0))
  have hchars := Queue.putch_chars (c := c) (hkept.wf (write_q 0)) (by omega)
  have hput := Queue.putch_CHARS (c := c) (hkept.wf (write_q 0)) (by omega)
  refine ⟨hkept.put (by omega), rfl, hprom, hwait, ?_, ?_⟩
  · rw [upd_self, hput]
    omega
  · intro hone
    rw [upd_self, upd_other (by decide), hchars, List.append_assoc]
    exact hdel hone

/-- `copy_to_cooked` goes on, or has returned. -/
theorem Fine.cook {pc : CookPc} (h : Fine w (v, .cook 0 pc :: fs)) (hsilent : pc.silent = true)
    (hearly : echoesEarly ((v.cook 0 pc).1, (v.cook 0 pc).2 ++ fs) = false) :
    Fine w ((v.cook 0 pc).1, (v.cook 0 pc).2 ++ fs) ∧
      (v.cook 0 pc).1.rank + ((v.cook 0 pc).2.map Frame.rank).sum < v.rank + (Frame.cook 0 pc).rank := by
  obtain ⟨hkept, hpoised⟩ := h
  replace hkept : Kept w v := hkept
  have hplain : promised fs = (v.queue (write_q 0)).CHARS ∧ Waiting fs ∧
      ∀ again, pc = .after (.del again) → 0 < (v.queue (secondary 0)).CHARS := by
    cases pc with
    | top => exact ⟨hpoised.2.1, hpoised.2.2, fun _ h => by cases h⟩
    | kill => exact ⟨hpoised.2.1, hpoised.2.2, fun _ h => by cases h⟩
    | echo cs a => cases hsilent
    | after a =>
      refine ⟨hpoised.2.1, hpoised.2.2.1, fun again h => ?_⟩
      cases h
      exact hpoised.2.2.2 rfl
  obtain ⟨hprom, hwait, hdel⟩ := hplain
  obtain ⟨haside, hgoes⟩ := cook_aside hkept.wf hsilent
  refine ⟨⟨hkept.aside haside (quiet_cook v 0 pc).termios, ?_⟩, cook_rank hkept.wf hsilent hdel⟩
  rw [← haside.write] at hprom
  rcases hgoes with hnil | ⟨pc', hpc, hfresh⟩
  · rw [hnil]
    exact poised_below hwait.waits hprom (.inl hwait.erases)
  · rw [hpc] at hearly ⊢
    cases pc' with
    | top => exact ⟨rfl, hprom, hwait⟩
    | kill => exact ⟨rfl, hprom, hwait⟩
    | after a => exact ⟨rfl, hprom, hwait, hfresh⟩
    | echo cs a =>
      have hnone : promised fs = 0 := Nat.eq_zero_of_not_pos (of_decide_eq_false hearly)
      have hempty : ((v.cook 0 pc).1.queue (write_q 0)).CHARS = 0 := hprom.symm.trans hnone
      obtain ⟨hshort, -, hrub⟩ := hfresh
      refine ⟨rfl, hnone, hwait, ?_, ?_⟩
      · rwa [hempty, Nat.zero_add]
      · rw [Queue.chars_nil hempty]
        exact hrub

/-- **One step of a call that is fine.** -/
theorem Fine.next (h : Fine w s) (hsome : s.2 ≠ []) :
    ∃ t, Next s t ∧ (echoesEarly t = false → Fine w t ∧ rank t < rank s) := by
  obtain ⟨v, fs⟩ := s
  cases fs with
  | nil => exact absurd rfl hsome
  | cons f fs =>
    cases f with
    | con_write nr => exact ⟨_, rfl, fun _ => ⟨h.take.1, rank_lt h.take.2⟩⟩
    | respond => exact ⟨_, rfl, fun _ => ⟨h.respond.1, rank_lt h.respond.2⟩⟩
    | cook ch pc =>
      obtain rfl : ch = 0 := by
        cases pc <;> exact h.poised.1
      cases hsilent : pc.silent with
      | true =>
        refine ⟨_, rfl, fun hearly => ?_⟩
        obtain ⟨hfine, hrank⟩ := h.cook hsilent hearly
        exact ⟨hfine, rank_lt hrank⟩
      | false =>
        cases pc with
        | echo cs a =>
          cases cs with
          | nil => exact ⟨_, rfl, fun _ => ⟨h.write.1, rank_lt h.write.2⟩⟩
          | cons c cs =>
            refine ⟨_, rfl, fun _ => ⟨h.put, rank_lt ?_⟩⟩
            rw [World.cook, List.map_singleton, List.sum_singleton]
            exact put_rank h.kept.wf
        | _ => cases hsilent
    | tty_write ch bytes pc => exact absurd h.poised id
    | tty_read ch nr take => exact absurd h.poised id

/-! ### The whole call -/

theorem next_unique : Relator.RightUnique Next := by
  intro s t t' h h'
  exact Option.some.inj (h.symm.trans h')

theorem OfConsole.run (h : OfConsole s) (hrun : Relation.ReflTransGen Next s t) : OfConsole t := by
  induction hrun with
  | refl => exact h
  | tail _ hn ih => exact ih.next hn

theorem Lost.run (hs : OfConsole s) (h : Lost s) (hrun : Relation.ReflTransGen Next s t) : Lost t := by
  induction hrun with
  | refl => exact h
  | tail hrun hn ih => exact ih.next (hs.run hrun) hn

theorem Callable.ofConsole (h : Callable w) : OfConsole w.call := by
  refine ⟨h.wf, ?_⟩
  simp [World.call, World.write, Frame.ofConsole]

theorem Callable.fine (h : Callable w) : Fine w w.call := by
  refine ⟨⟨h.wf, h.sound, rfl, [], [], ?_, ?_, ?_, rfl⟩, ?_⟩
  · rw [List.append_nil]
    rfl
  · rw [List.append_nil]
    rfl
  · rw [List.append_nil]
    rfl
  · refine ⟨rfl, ?_, .inl rfl⟩
    simp

theorem Fine.interpreted (h : Fine w (w', [])) : Interpreted w w' := by
  obtain ⟨⟨hwf, hsound, -, echo, seen, hput, htaken, hchars, hscreen⟩, hempty⟩ := h
  replace hempty : (w'.queue (write_q 0)).CHARS = 0 := hempty
  rw [Queue.chars_nil hempty, List.append_nil] at hchars
  refine ⟨(Queue.empty_iff (hwf _)).2 hempty, hsound, echo, hput, ?_, ?_⟩
  · rw [← hchars]
    exact htaken
  · rw [← hchars]
    exact hscreen

/-- A call that never echoes too early returns. -/
theorem Fine.runs (h : Fine w s) (hnever : ∀ t, Relation.ReflTransGen Next s t → echoesEarly t = false) :
    ∃ w', Relation.ReflTransGen Next s (w', []) ∧ Fine w (w', []) := by
  induction hn : rank s using Nat.strong_induction_on generalizing s with
  | _ n ih =>
    by_cases hnil : s.2 = []
    · obtain ⟨v, fs⟩ := s
      obtain rfl : fs = [] := hnil
      exact ⟨v, .refl, h⟩
    · obtain ⟨t, hst, hfine⟩ := h.next hnil
      obtain ⟨ht, hrank⟩ := hfine (hnever t (.single hst))
      obtain ⟨w', hrun, hend⟩ := ih (rank t) (hn ▸ hrank) ht (fun u hu => hnever u (.head hst hu)) rfl
      exact ⟨w', .head hst hrun, hend⟩

/-- If every character is interpreted once, no echo has begun too early. -/
theorem InterpretedOnce.never_early (hi : InterpretedOnce w) (h : Callable w)
    (hs : Relation.ReflTransGen Next w.call s) : echoesEarly s = false := by
  obtain ⟨w', hrun, hint⟩ := hi
  by_contra hearly
  have hlost : Lost s := .inr (.inr (by simpa using hearly))
  have hend : Relation.ReflTransGen Next s (w', []) := by
    rcases Relation.ReflTransGen.total_of_right_unique next_unique hs hrun with h' | h'
    · exact h'
    · -- the call has returned before
      rcases Relation.ReflTransGen.cases_head h' with rfl | ⟨t, ht, -⟩
      · exact absurd rfl hearly
      · cases ht
  have hunder := (hlost.run (h.ofConsole.run hs) hend).underrun
  rw [hint.sound] at hunder
  cases hunder

/-! ### With echo -/

theorem initial_wf : Queue.initial.Wf := ⟨Nat.succ_pos _, Nat.succ_pos _⟩

/-- A console after boot on which `cs` has been written. -/
def written (cs : List ℤ) : World :=
  (World.boot (con_init ⟨0, 0, false, 80, false⟩ fun _ => 0)).upd (write_q 0) fun q =>
    cs.foldl (fun q c => q.PUTCH c) q

theorem written_callable (cs : List ℤ) : Callable (written cs) := by
  refine ⟨upd_wf (fun i => initial_wf) (foldl_putch_wf initial_wf cs), ?_⟩
  rw [written, upd_self]
  show (cs.foldl (fun q c => q.PUTCH c) Queue.initial).underrun = false
  suffices h : ∀ q : Queue, (cs.foldl (fun q c => q.PUTCH c) q).underrun = q.underrun from h _
  induction cs with
  | nil => exact fun q => rfl
  | cons c cs ih => exact fun q => ih (q.PUTCH c)

/-- **The answer takes what is still to come.**  After `ESC Z` there is another character; the echo of
the answer begins before it is taken. -/
theorem answer_takes_ahead : ¬∀ w, Callable w → InterpretedOnce w := by
  intro hall
  have hcall := written_callable [27, 90, 97]
  have hearly : (exec single (written [27, 90, 97]).call
      [.run 0 false, .run 0 false, .run 0 false, .run 0 false]).map echoesEarly = some true := by rfl
  obtain ⟨s, hs, hb⟩ := Option.map_eq_some_iff.1 hearly
  have hrun : Relation.ReflTransGen Next (written [27, 90, 97]).call s := by
    obtain ⟨s1, h1, hs⟩ := Option.bind_eq_some_iff.1 hs
    obtain ⟨s2, h2, hs⟩ := Option.bind_eq_some_iff.1 hs
    obtain ⟨s3, h3, hs⟩ := Option.bind_eq_some_iff.1 hs
    obtain ⟨s4, h4, hs⟩ := Option.bind_eq_some_iff.1 hs
    cases hs
    exact .tail (.tail (.tail (.single h1) h2) h3) h4
  have hnever := (hall _ hcall).never_early hcall hrun
  rw [hb] at hnever
  cases hnever

/-- Every character is interpreted once, in order, exactly if no echo begins while a call of `con_write`
has characters to take. -/
theorem interpreted_iff_never_early (h : Callable w) : InterpretedOnce w ↔
    ∀ s, Relation.ReflTransGen Next w.call s → echoesEarly s = false := by
  constructor
  · exact fun hi s hs => hi.never_early h hs
  · intro hnever
    obtain ⟨w', hrun, hend⟩ := h.fine.runs hnever
    exact ⟨w', hrun, hend.interpreted⟩

end OldLinux.Tty
