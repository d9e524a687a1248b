import OldLinux.Tty.Machine
import Mathlib.Algebra.BigOperators.Group.List.Basic

/-!
# The count of lines

`secondary.data` is to be the number of characters in the secondary queue that end a line.
`copy_to_cooked` counts a character before its echo and puts it afterwards; `tty_read` counts down
what it takes; erasing must not touch what counts, and the end-of-file character can change while
characters wait.

* `Exact`: the count is right, but for the characters that are being echoed.
* `lines_counted`: it stays so in all runs whose steps meet `countsRight`.
-/

namespace OldLinux.Tty

open Function Lib Console

variable {w w' : World} {f : Frame} {fs r : List Frame} {ch : Fin 3} {c : ℤ} {t : Termios} {i : Qid} {q : Queue}

/-- The character is a newline or, as a byte, the end-of-file character. -/
def isEnd (t : Termios) (c : ℤ) : Bool := c % 256 = 10 ∨ c % 256 = t.EOF_CHAR

/-- How many characters of the secondary queue end a line. -/
def World.ended (w : World) (t : Termios) (ch : Fin 3) : ℕ :=
  (w.queue (secondary ch)).chars.countP (isEnd t)

/-- The character that a call of `copy_to_cooked` has still to put into the secondary queue. -/
def CookPc.storing : CookPc → Option ℤ
  | .echo _ (.store c) => some c
  | .after (.store c) => some c
  | _ => none

/-- One for a call that has counted a character and not put it yet. -/
def Frame.counted (w : World) (ch : Fin 3) : Frame → ℤ
  | .cook ch' pc => if ch' = ch ∧ (pc.storing.any (w.termios ch).ends) then 1 else 0
  | _ => 0

/-- The characters of all calls that are counted and not put yet. -/
def counted (w : World) (ch : Fin 3) (fs : List Frame) : ℤ := (fs.map (Frame.counted w ch)).sum

/-- The count is the number of the characters that end a line, between two calls. -/
def LinesCounted (s : World × List Frame) : Prop :=
  ∀ ch, 0 ≤ (s.1.queue (secondary ch)).data ∧
    (s.2 = [] → (s.1.queue (secondary ch)).data = s.1.ended (s.1.termios ch) ch)

/-- The next step leaves the count right.  A character is put when the queue has room or nothing is
counted, and it does not equal the end-of-file character as a byte only; a character is erased that
ends no line. -/
def stepCounts (w : World) : List Frame → Bool
  | .cook ch (.after (.store c)) :: _ =>
    isEnd (w.termios ch) c = (w.termios ch).ends c && (!(w.queue (secondary ch)).FULL ||
        (w.ended (w.termios ch) ch = 0 && !(w.termios ch).ends c))
  | .cook ch (.after (.del _)) :: _ =>
    !(w.queue (secondary ch)).EMPTY && !isEnd (w.termios ch) (w.queue (secondary ch)).LAST
  | .tty_read ch _ true :: _ =>
    isEnd (w.termios ch) (w.queue (secondary ch)).next = (w.termios ch).ends (w.queue (secondary ch)).next
  | _ => true

/-- New settings leave the number of characters that end a line as it is, and steps count right. -/
def countsRight (s : World × List Frame) : Event → Bool
  | .set_termios ch t _ => s.1.ended t ch = s.1.ended (s.1.termios ch) ch
  | .set_termio ch t _ =>
    s.1.ended ((s.1.termios ch).set_termio t) ch = s.1.ended (s.1.termios ch) ch
  | .run _ _ => stepCounts s.1 s.2
  | _ => true

/-- No call is in progress, and the count is right. -/
structure LinesStart (s : World × List Frame) : Prop where
  idle : s.2 = []
  wf : ∀ i, (s.1.queue i).Wf
  data : ∀ ch, (s.1.queue (secondary ch)).data = s.1.ended (s.1.termios ch) ch

/-! ### One step -/

/-- By how much the count is ahead. -/
def gap (w : World) (ch : Fin 3) : ℤ :=
  (w.queue (secondary ch)).data - w.ended (w.termios ch) ch

/-- A step keeps the count right: what it is ahead is counted by calls. -/
structure Fair (w w' : World) (f : Frame) (r : List Frame) : Prop where
  termios : w'.termios = w.termios
  wf : ∀ i, (w'.queue i).Wf
  gap_eq : ∀ ch, gap w' ch + f.counted w ch = gap w ch + counted w ch r

theorem counted_nil (w : World) (ch : Fin 3) : counted w ch [] = 0 := rfl

theorem counted_append (w : World) (ch : Fin 3) (fs gs : List Frame) :
    counted w ch (fs ++ gs) = counted w ch fs + counted w ch gs := by
  simp [counted]

theorem counted_cons (w : World) (ch : Fin 3) (f : Frame) (fs : List Frame) :
    counted w ch (f :: fs) = f.counted w ch + counted w ch fs := by
  simp [counted]

theorem counted_congr (h : w'.termios = w.termios) (ch : Fin 3) (fs : List Frame) :
    counted w' ch fs = counted w ch fs := by
  unfold counted
  congr 1
  refine List.map_congr_left fun f _ => ?_
  cases f <;> simp only [Frame.counted, h]

/-- A step that leaves the secondary queues alone. -/
theorem fair_of_same (hterm : w'.termios = w.termios) (hwf : ∀ i, (w'.queue i).Wf)
    (hsec : ∀ ch, w'.queue (secondary ch) = w.queue (secondary ch))
    (hcount : ∀ ch, f.counted w ch = counted w ch r) : Fair w w' f r := by
  refine ⟨hterm, hwf, fun ch => ?_⟩
  have hgap : gap w' ch = gap w ch := by rw [gap, gap, World.ended, World.ended, hterm, hsec]
  rw [hgap, hcount]

/-- A character that is going to be put is counted now if it ends a line. -/
theorem gap_count (w : World) (ch ch' : Fin 3) (c n : ℤ) : gap (w.count ch c n) ch' =
      gap w ch' + (if ch = ch' ∧ (w.termios ch').ends c = true then n else 0) := by
  rw [World.count]
  by_cases hch : ch = ch'
  · subst hch
    by_cases hends : (w.termios ch).ends c = true
    · rw [if_pos hends, if_pos ⟨rfl, hends⟩]
      unfold gap World.ended
      rw [upd_self]
      show (w.queue (secondary ch)).data + n - _ = (w.queue (secondary ch)).data - _ + n
      rw [show ({ w.queue (secondary ch) with data := (w.queue (secondary ch)).data + n } : Queue).chars
        = (w.queue (secondary ch)).chars from rfl]
      rw [show (w.upd (secondary ch) fun q => { q with data := q.data + n }).termios = w.termios from rfl]
      omega
    · rw [if_neg hends, if_neg fun h => hends h.2, add_zero]
  · rw [if_neg (c := ch = ch' ∧ _) fun h => hch h.1, add_zero]
    split_ifs
    · unfold gap World.ended
      rw [upd_other (by simpa using fun h => hch h.symm)]
      rfl
    · rfl

theorem count_wf (h : ∀ i, (w.queue i).Wf) (ch : Fin 3) (c n : ℤ) (i : Qid) :
    ((w.count ch c n).queue i).Wf := by
  rw [World.count]
  split_ifs
  · exact upd_wf h (h (secondary ch)) i
  · exact h i

theorem count_termios (w : World) (ch : Fin 3) (c n : ℤ) : (w.count ch c n).termios = w.termios := by
  rw [World.count]
  split_ifs <;> rfl

theorem counted_storing {pc : CookPc} (h : pc.storing = some c) (w : World) (ch ch' : Fin 3) :
    (Frame.cook ch pc).counted w ch' = if ch = ch' ∧ (w.termios ch').ends c = true then 1 else 0 := by
  simp only [Frame.counted, h, Option.any_some]

theorem counted_none {pc : CookPc} (h : pc.storing = none) (w : World) (ch ch' : Fin 3) :
    (Frame.cook ch pc).counted w ch' = 0 := by
  simp [Frame.counted, h]

theorem counted_takeOff (w w' : World) (ch ch' : Fin 3) (again : Bool) :
    (w.takeOff ch again).counted w' ch' = 0 := by
  rw [World.takeOff]
  split_ifs <;> simp [Frame.counted, CookPc.storing]

theorem counted_keep (w : World) (ch ch' : Fin 3) (c : ℤ) :
    counted w ch' (w.keep ch c).2 = if ch = ch' ∧ (w.termios ch').ends c = true then 1 else 0 := by
  rw [World.keep]
  dsimp only
  by_cases hecho : (w.termios ch).L_ECHO = true
  · rw [if_pos hecho, counted_cons, counted_nil, add_zero, counted_storing rfl]
  · rw [if_neg hecho, counted_cons, counted_nil, add_zero, counted_storing rfl]

theorem cookChar_fair (hwf : ∀ i, (w.queue i).Wf) (ch : Fin 3) (c : ℤ) :
    Fair w (w.cookChar ch c).1 (.cook ch .top) (w.cookChar ch c).2 := by
  have htop : ∀ ch', counted w ch' [.cook ch .top] = 0 := fun ch' => by
    simp [counted, Frame.counted, CookPc.storing]
  have hzero : ∀ ch', (Frame.cook ch .top).counted w ch' = 0 := fun ch' => by
    simp [Frame.counted, CookPc.storing]
  have hsame : ∀ {v : World} {g : List Frame}, v.termios = w.termios → v.queue = w.queue →
      (∀ ch', counted w ch' g = 0) → Fair w v (.cook ch .top) g := fun hterm hq hg =>
    fair_of_same hterm (hq ▸ hwf) (fun _ => by rw [hq]) fun ch' => by rw [hzero, hg]
  simp only [World.cookChar]
  split_ifs
  · exact hsame rfl rfl fun ch' => by simp [counted, Frame.counted, CookPc.storing]
  · exact hsame rfl rfl htop
  · exact hsame rfl rfl fun ch' => by rw [counted_cons, counted_takeOff, counted_nil, add_zero]
  · exact hsame rfl rfl htop
  · exact hsame rfl rfl htop
  · exact hsame rfl rfl htop
  · refine ⟨count_termios w ch c 1, count_wf hwf ch c 1, fun ch' => ?_⟩
    show gap (w.count ch c 1) ch' + _ = gap w ch' + counted w ch' (w.keep ch c).2
    rw [gap_count, counted_keep, hzero, add_zero]

/-! ### The secondary queue -/

theorem ended_eq (w : World) (t : Termios) (ch : Fin 3) :
    w.ended t ch = (w.queue (secondary ch)).chars.countP (isEnd t) := rfl

/-- The gap after an operation on one secondary queue. -/
theorem gap_upd (w : World) (ch ch' : Fin 3) (g : Queue → Queue) :
        gap (w.upd (secondary ch) g) ch' = if ch = ch' then
        (g (w.queue (secondary ch))).data - (g (w.queue (secondary ch))).chars.countP (isEnd (w.termios ch))
      else gap w ch' := by
  unfold gap World.ended
  split_ifs with hch
  · subst hch
    rw [upd_self]
    rfl
  · rw [upd_other (by simpa using fun h => hch h.symm)]
    rfl

theorem store_fair (hwf : ∀ i, (w.queue i).Wf)
    (hok : stepCounts w (.cook ch (.after (.store c)) :: fs) = true) :
    Fair w (w.upd (secondary ch) (Queue.PUTCH c)) (.cook ch (.after (.store c))) [.cook ch .top] := by
  refine ⟨rfl, upd_wf hwf (Queue.putch_wf (hwf _)), fun ch' => ?_⟩
  simp only [stepCounts, Bool.and_eq_true, decide_eq_true_eq, Bool.or_eq_true, Bool.not_eq_true'] at hok
  obtain ⟨hbyte, hroom⟩ := hok
  have htop : counted w ch' [.cook ch .top] = 0 := by simp [counted, Frame.counted, CookPc.storing]
  rw [htop, counted_storing rfl, gap_upd]
  by_cases hch : ch = ch'
  · subst hch
    rw [if_pos rfl, add_zero]
    by_cases hfull : (w.queue (secondary ch)).FULL = true
    · -- the queue looks empty afterwards, and nothing in it was counted
      obtain ⟨hnone, hends⟩ := hroom.resolve_left (by simp [hfull])
      rw [Queue.chars_nil (Queue.putch_full (hwf _) (Queue.full_iff.1 hfull)), gap, hnone,
        if_neg (by simp [hends])]
      show (w.queue (secondary ch)).data - _ + 0 = _
      simp
    · have hleft : 0 < (w.queue (secondary ch)).LEFT :=
        Nat.pos_of_ne_zero fun h => hfull (Queue.full_iff.2 h)
      rw [Queue.putch_chars (hwf _) hleft, List.countP_append, List.countP_singleton, hbyte, gap, ended_eq]
      show (w.queue (secondary ch)).data - _ + _ = _
      by_cases hends : (w.termios ch).ends c = true
      · simp only [hends, if_true, and_self]
        push_cast
        omega
      · simp [hends]
  · rw [if_neg hch, if_neg fun h => hch h.1]

theorem del_fair {again : Bool} (hwf : ∀ i, (w.queue i).Wf)
    (hok : stepCounts w (.cook ch (.after (.del again)) :: fs) = true) :
    Fair w (w.upd (secondary ch) Queue.DEC) (.cook ch (.after (.del again)))
      [.cook ch (if again then .kill else .top)] := by
  refine ⟨rfl, upd_wf hwf (Queue.dec_wf (hwf _)), fun ch' => ?_⟩
  simp only [stepCounts, Bool.and_eq_true, Bool.not_eq_true'] at hok
  obtain ⟨hchars, hlast⟩ := hok
  have hnext : counted w ch' [.cook ch (if again then .kill else .top)] = 0 := by
    cases again <;> simp [counted, Frame.counted, CookPc.storing]
  have hself : (Frame.cook ch (.after (.del again))).counted w ch' = 0 := by
    simp [Frame.counted, CookPc.storing]
  rw [hnext, hself, gap_upd]
  by_cases hch : ch = ch'
  · subst hch
    have hpos : 0 < (w.queue (secondary ch)).CHARS := by
      refine Nat.pos_of_ne_zero fun h => ?_
      rw [(Queue.empty_iff (hwf _)).2 h] at hchars
      cases hchars
    rw [if_pos rfl, gap, ended_eq, Queue.dec_chars (hwf _) hpos, List.countP_append,
      List.countP_singleton, hlast, Queue.dec_data]
    simp
  · rw [if_neg hch]

theorem take_fair {nr : ℕ} (hwf : ∀ i, (w.queue i).Wf) (hpos : 0 < (w.queue (secondary ch)).CHARS)
    (hok : stepCounts w (.tty_read ch nr true :: fs) = true) :
    Fair w (w.tty_read ch nr true).1 (.tty_read ch nr true) (w.tty_read ch nr true).2 := by
  refine ⟨count_termios _ _ _ _, count_wf (upd_wf hwf (Queue.getch_wf (hwf _))) _ _ _, fun ch' => ?_⟩
  simp only [stepCounts, decide_eq_true_eq] at hok
  have hnext : counted w ch' (w.tty_read ch nr true).2 = 0 := by
    rw [World.tty_read]
    dsimp only
    split_ifs <;> simp [counted, Frame.counted]
  have hself : (Frame.tty_read ch nr true).counted w ch' = 0 := rfl
  rw [hnext, hself, World.tty_read]
  dsimp only
  rw [gap_count, gap_upd]
  by_cases hch : ch = ch'
  · subst hch
    rw [if_pos rfl, gap, ended_eq, Queue.getch_chars (hwf _) hpos, List.countP_cons, hok]
    show (w.queue (secondary ch)).data - _ + (if _ ∧ (w.termios ch).ends _ = true then _ else _) + 0
      = (w.queue (secondary ch)).data - _ + 0
    by_cases hends : (w.termios ch).ends (w.queue (secondary ch)).next = true
    · simp only [hends, if_true, and_self]
      push_cast
      omega
    · simp [hends]
  · rw [if_neg hch, if_neg fun h => hch h.1, add_zero]

/-! ### All steps of a call -/

theorem cook_fair {pc : CookPc} (hwf : ∀ i, (w.queue i).Wf) (hok : stepCounts w (.cook ch pc :: fs) = true) :
    Fair w (w.cook ch pc).1 (.cook ch pc) (w.cook ch pc).2 := by
  cases pc with
  | top =>
    rw [World.cook]
    split_ifs
    · exact fair_of_same rfl hwf (fun _ => rfl) fun ch' => by
        rw [counted_none rfl, counted_nil]
    · have hget : ∀ i, ((w.upd (read_q ch) Queue.GETCH).queue i).Wf :=
        upd_wf hwf (Queue.getch_wf (hwf _))
      split
      · exact fair_of_same rfl hget (fun _ => upd_other (by simp) _) fun ch' => by
          rw [counted_cons, counted_none rfl, counted_nil, add_zero]
      · rename_i c _
        obtain ⟨hterm, hwf', hgap⟩ := cookChar_fair hget ch c
        refine ⟨hterm, hwf', fun ch' => (hgap ch').trans ?_⟩
        rw [gap, World.ended, upd_other (by simp)]
        rfl
  | kill =>
    refine fair_of_same rfl hwf (fun _ => rfl) fun ch' => ?_
    rw [World.cook]
    dsimp only
    split_ifs
    · rw [counted_cons, counted_none rfl, counted_none rfl, counted_nil, add_zero]
    · rw [counted_cons, counted_none rfl, counted_takeOff, counted_nil, add_zero]
  | echo cs a =>
    cases cs with
    | nil =>
      refine fair_of_same rfl hwf (fun _ => rfl) fun ch' => ?_
      rw [World.cook]
      dsimp only
      have hwrite : counted w ch' (w.write ch) = 0 := by
        rw [World.write]
        split_ifs <;> rfl
      rw [counted_append, hwrite, zero_add, counted_cons, counted_nil, add_zero]
      cases a <;> rfl
    | cons c cs =>
      refine fair_of_same rfl (upd_wf hwf (Queue.putch_wf (hwf _)))
        (fun _ => upd_other (by simp) _) fun ch' => ?_
      rw [World.cook]
      dsimp only
      rw [counted_cons, counted_nil, add_zero]
      cases a <;> rfl
  | after a =>
    cases a with
    | store c => exact store_fair hwf hok
    | del again => exact del_fair hwf hok

theorem tty_write_same {signal : Bool} {bytes : List ℤ} {pc : WritePc} {r : World × List Frame}
    (hwf : ∀ i, (w.queue i).Wf) (h : w.tty_write signal ch bytes pc = some r) :
    r.1.termios = w.termios ∧ (∀ i, (r.1.queue i).Wf) ∧
      (∀ ch', r.1.queue (secondary ch') = w.queue (secondary ch')) ∧ ∀ ch', counted w ch' r.2 = 0 := by
  have hwrite : ∀ ch' pc', counted w ch' (w.write ch ++ [Frame.tty_write ch bytes pc']) = 0 := by
    intro ch' pc'
    rw [counted_append, World.write]
    split_ifs <;> rfl
  cases pc with
  | outer =>
    simp only [World.tty_write] at h
    split_ifs at h <;> cases h <;> exact ⟨rfl, hwf, fun _ => rfl, fun _ => rfl⟩
  | asleep =>
    simp only [World.tty_write] at h
    split_ifs at h <;> cases h <;> exact ⟨rfl, hwf, fun _ => rfl, fun _ => rfl⟩
  | inner =>
    simp only [World.tty_write] at h
    split_ifs at h
    · cases h
      exact ⟨rfl, hwf, fun _ => rfl, fun _ => rfl⟩
    · cases h
      exact ⟨rfl, hwf, fun _ => rfl, fun ch' => hwrite ch' _⟩
  | sched =>
    cases h
    exact ⟨rfl, hwf, fun _ => rfl, fun _ => rfl⟩
  | byte =>
    cases bytes with
    | nil => cases h
    | cons b rest =>
      cases h
      simp only [World.putByte]
      split_ifs
      all_goals
        exact ⟨rfl, upd_wf hwf (Queue.putch_wf (hwf _)), (fun _ => upd_other (by simp) _), fun _ => rfl⟩

theorem respond_fair (hwf : ∀ i, (w.queue i).Wf) : Fair w w.respond.1 .respond w.respond.2 := by
  rw [World.respond]
  refine fair_of_same rfl (upd_wf hwf (answer_wf (hwf _))) (fun _ => upd_other (by simp) _) fun ch' => ?_
  rw [counted_cons, counted_none rfl, counted_nil]
  rfl

/-- The next character of a reader is there. -/
def Ready (w : World) : Frame → Prop
  | .tty_read ch _ true => 0 < (w.queue (secondary ch)).CHARS
  | _ => True

/-- **One step of a call** keeps the count right. -/
theorem Frame.step_fair {signal : Bool} {r : World × List Frame} (hwf : ∀ i, (w.queue i).Wf)
    (hready : Ready w f) (hok : stepCounts w (f :: fs) = true) (h : f.step w signal = some r) :
    Fair w r.1 f r.2 := by
  cases f with
  | cook ch pc =>
    cases h
    exact cook_fair hwf hok
  | con_write nr =>
    cases h
    cases nr with
    | zero => exact fair_of_same rfl hwf (fun _ => rfl) fun _ => rfl
    | succ nr =>
      refine fair_of_same rfl (upd_wf hwf (Queue.getch_wf (hwf _)))
        (fun _ => upd_other (by simp) _) fun ch' => ?_
      rw [World.con_write]
      dsimp only
      split_ifs <;> rfl
  | respond =>
    cases h
    exact respond_fair hwf
  | tty_write ch bytes pc =>
    obtain ⟨hterm, hwf', hsec, hcount⟩ := tty_write_same hwf h
    exact fair_of_same hterm hwf' hsec fun ch' => (hcount ch').symm
  | tty_read ch nr take =>
    cases h
    cases take with
    | false =>
      rw [World.tty_read]
      split_ifs
      · exact fair_of_same rfl hwf (fun _ => rfl) fun _ => rfl
      · exact fair_of_same rfl hwf (fun _ => rfl) fun _ => rfl
    | true => exact take_fair hwf hready hok

/-! ### Runs -/

def Frame.reads : Frame → Bool
  | .tty_read _ _ _ => true
  | _ => false

@[simp] theorem reads_cook (ch : Fin 3) (pc : CookPc) : (Frame.cook ch pc).reads = false := by
  simp only [Frame.reads]

@[simp] theorem reads_con_write (nr : ℕ) : (Frame.con_write nr).reads = false := by
  simp only [Frame.reads]

@[simp] theorem reads_respond : Frame.respond.reads = false := by
  simp only [Frame.reads]

@[simp] theorem reads_tty_write (ch : Fin 3) (bytes : List ℤ) (pc : WritePc) :
    (Frame.tty_write ch bytes pc).reads = false := by
  simp only [Frame.reads]

@[simp] theorem reads_takeOff (w : World) (ch : Fin 3) (again : Bool) : (w.takeOff ch again).reads = false := by
  rw [World.takeOff]
  split_ifs <;> rfl

/-- A reader is on its own. -/
def Readers (w : World) (fs : List Frame) : Prop :=
  (∃ f, fs = [f] ∧ f.reads = true ∧ Ready w f) ∨ ∀ f ∈ fs, f.reads = false

/-- The count is right but for the characters that are being echoed. -/
structure Exact (s : World × List Frame) : Prop where
  wf : ∀ i, (s.1.queue i).Wf
  gap_eq : ∀ ch, gap s.1 ch = counted s.1 ch s.2
  readers : Readers s.1 s.2

theorem Readers.ready (h : Readers w (f :: fs)) : Ready w f := by
  rcases h with ⟨g, hg, -, hready⟩ | hnone
  · cases hg
    exact hready
  · cases f with
    | tty_read ch nr take => exact absurd (hnone _ List.mem_cons_self) (by simp [Frame.reads])
    | cook ch pc => trivial
    | con_write nr => trivial
    | respond => trivial
    | tty_write ch bytes pc => trivial

/-- Only a call of `tty_read` goes on as one. -/
theorem Frame.step_reads {signal : Bool} {r : World × List Frame} (hf : f.reads = false)
    (h : f.step w signal = some r) : ∀ g ∈ r.2, g.reads = false := by
  have hwrite : ∀ ch, ∀ g ∈ w.write ch, g.reads = false := by
    intro ch g hg
    rw [World.write] at hg
    split_ifs at hg
    · rw [List.mem_singleton.1 hg]
      rfl
    · exact absurd hg List.not_mem_nil
  cases f with
  | tty_read ch nr take => cases hf
  | con_write nr =>
    cases h
    cases nr with
    | zero => simp [World.con_write]
    | succ nr =>
      simp only [World.con_write]
      split_ifs <;> simp
  | respond =>
    cases h
    simp [World.respond]
  | tty_write ch bytes pc =>
    cases pc with
    | outer =>
      simp only [Frame.step, World.tty_write] at h
      split_ifs at h <;> cases h <;> simp
    | asleep =>
      simp only [Frame.step, World.tty_write] at h
      split_ifs at h <;> cases h <;> simp
    | inner =>
      simp only [Frame.step, World.tty_write] at h
      split_ifs at h <;> cases h <;> intro g hg
      · simp_all
      · rcases List.mem_append.1 hg with hg | hg
        · exact hwrite ch g hg
        · rw [List.mem_singleton.1 hg]
          rfl
    | sched =>
      cases h
      simp
    | byte =>
      cases bytes with
      | nil => cases h
      | cons b rest =>
        cases h
        simp only [World.putByte]
        split_ifs <;> simp
  | cook ch pc =>
    cases h
    cases pc with
    | top =>
      simp only [World.cook]
      split_ifs
      · simp
      · split
        · simp
        · simp only [World.cookChar, World.keep]
          split_ifs <;> simp
    | kill =>
      simp only [World.cook]
      split_ifs <;> simp
    | echo cs a =>
      cases cs with
      | nil =>
        intro g hg
        rcases List.mem_append.1 hg with hg | hg
        · exact hwrite ch g hg
        · rw [List.mem_singleton.1 hg]
          rfl
      | cons c cs => simp [World.cook]
    | after a =>
      cases a <;> simp [World.cook]

theorem Exact.run {signal : Bool} {r : World × List Frame} (h : Exact (w, fs))
    (hok : stepCounts w fs = true) (hrun : run w signal fs = some r) :
    Exact r ∧ r.1.termios = w.termios := by
  cases fs with
  | nil => cases hrun
  | cons f fs =>
    obtain ⟨r, hr, rfl⟩ := Option.map_eq_some_iff.1 hrun
    obtain ⟨hterm, hwf, hgap⟩ := f.step_fair h.wf h.readers.ready hok hr
    refine ⟨⟨hwf, fun ch => ?_, ?_⟩, hterm⟩
    · have h1 := hgap ch
      have h2 := h.gap_eq ch
      show gap r.1 ch = counted r.1 ch (r.2 ++ fs)
      rw [counted_cons] at h2
      rw [counted_congr hterm, counted_append]
      dsimp only at h1 h2 ⊢
      omega
    · show Readers r.1 (r.2 ++ fs)
      rcases h.readers with ⟨g, hg, hreads, hready⟩ | hnone
      · cases hg
        rw [List.append_nil]
        cases f with
        | tty_read ch nr take =>
          cases hr
          cases take with
          | false =>
            simp only [World.tty_read]
            split_ifs with hmore
            · refine .inl ⟨_, rfl, rfl, Nat.pos_of_ne_zero fun h0 => hmore.2 ?_⟩
              exact (Queue.empty_iff (h.wf _)).2 h0
            · exact .inr fun _ hf => absurd hf List.not_mem_nil
          | true =>
            simp only [World.tty_read]
            split_ifs
            · exact .inr fun _ hf => absurd hf List.not_mem_nil
            · exact .inl ⟨_, rfl, rfl, trivial⟩
        | cook ch pc => cases hreads
        | con_write nr => cases hreads
        | respond => cases hreads
        | tty_write ch bytes pc => cases hreads
      · refine .inr fun g hg => ?_
        rcases List.mem_append.1 hg with hg | hg
        · exact Frame.step_reads (hnone f List.mem_cons_self) hr g hg
        · exact hnone g (List.mem_cons_of_mem _ hg)

/-- New settings between two calls. -/
theorem Exact.settings {flush : Bool} (h : Exact (w, []))
    (hok : w.ended t ch = w.ended (w.termios ch) ch) : Exact (w.settings ch t flush, []) := by
  have hflush : ∀ ch', (w.settings ch t flush).queue (secondary ch') = w.queue (secondary ch') := by
    intro ch'
    rw [World.settings]
    cases flush
    · rfl
    · exact upd_other (by simp) _
  refine ⟨fun i => ?_, fun ch' => ?_, .inr fun _ hf => absurd hf List.not_mem_nil⟩
  · show ((w.settings ch t flush).queue i).Wf
    rw [World.settings]
    cases flush
    · exact h.wf i
    · exact upd_wf h.wf (Queue.flush_wf (h.wf _)) i
  · have hbefore := h.gap_eq ch'
    have hterm : (w.settings ch t flush).termios = update w.termios ch t := by
      rw [World.settings]
      cases flush <;> rfl
    show gap (w.settings ch t flush) ch' = 0
    rw [gap, World.ended, hflush, hterm]
    by_cases hch : ch' = ch
    · subst hch
      rw [update_self]
      have hgap : gap w ch' = 0 := hbefore
      rw [gap, ← hok] at hgap
      exact hgap
    · rw [update_of_ne hch]
      exact hbefore

/-- An operation on a queue that is not a secondary one. -/
theorem Exact.other {g : Queue → Queue} (h : Exact (w, fs)) (hwf : (g (w.queue i)).Wf)
    (hsec : ∀ ch, (w.upd i g).queue (secondary ch) = w.queue (secondary ch)) :
    Exact (w.upd i g, fs) := by
  refine ⟨upd_wf h.wf hwf, fun ch => ?_, ?_⟩
  · have hbefore := h.gap_eq ch
    dsimp only at hbefore ⊢
    rw [gap, World.ended, hsec]
    exact hbefore
  · rcases h.readers with ⟨f, hf, hreads, hready⟩ | hnone
    · refine .inl ⟨f, hf, hreads, ?_⟩
      cases f with
      | tty_read ch nr take =>
        cases take with
        | false => trivial
        | true =>
          show 0 < ((w.upd i g).queue (secondary ch)).CHARS
          rw [hsec]
          exact hready
      | cook ch pc => trivial
      | con_write nr => trivial
      | respond => trivial
      | tty_write ch bytes pc => trivial
    · exact .inr hnone

/-- A call that begins has counted nothing yet. -/
theorem Exact.begin (h : Exact (w, [])) (hcount : ∀ ch, f.counted w ch = 0)
    (hreaders : Readers w [f]) : Exact (w, [f]) := by
  refine ⟨h.wf, fun ch => (h.gap_eq ch).trans ?_, hreaders⟩
  show counted w ch [] = counted w ch [f]
  rw [counted_cons, hcount, counted_nil, add_zero]

theorem Exact.step {s s' : World × List Frame} {e : Event} (h : Exact s)
    (hok : countsRight s e = true) (hs : single s e = some s') : Exact s' := by
  obtain ⟨w, fs⟩ := s
  have hidle : ∀ r, (if fs.isEmpty then w.event e else none) = some r → fs = [] ∧ w.event e = some r := by
    intro r hr
    split_ifs at hr with hempty
    exact ⟨List.isEmpty_iff.1 hempty, hr⟩
  cases e with
  | run i signal => exact (h.run hok hs).1
  | input ch cs =>
    cases hs
    exact h.other (arrive_wf (h.wf _) cs) (fun _ => upd_other (by simp) _)
  | transmit ch =>
    simp only [single] at hs
    split_ifs at hs
    cases hs
    exact h.other (Queue.getch_wf (h.wf _)) (fun _ => upd_other (by simp) _)
  | interrupt ch =>
    obtain ⟨rfl, hs⟩ := hidle s' hs
    cases hs
    exact h.begin (fun _ => counted_none rfl w ch _) (.inr (by simp))
  | read ch nr =>
    obtain ⟨rfl, hs⟩ := hidle s' hs
    have hread : (if w.readable ch then some (w, [Frame.tty_read ch nr false]) else none) = some s' := hs
    split_ifs at hread
    cases hread
    exact h.begin (fun _ => rfl) (.inl ⟨_, rfl, rfl, trivial⟩)
  | write ch bytes =>
    obtain ⟨rfl, hs⟩ := hidle s' hs
    cases hs
    exact h.begin (fun _ => rfl) (.inr (by simp))
  | set_termios ch t flush =>
    obtain ⟨rfl, hs⟩ := hidle s' hs
    cases hs
    exact h.settings (of_decide_eq_true hok)
  | set_termio ch t flush =>
    obtain ⟨rfl, hs⟩ := hidle s' hs
    cases hs
    exact h.settings (of_decide_eq_true hok)

theorem counted_nonneg (w : World) (ch : Fin 3) (fs : List Frame) : 0 ≤ counted w ch fs := by
  induction fs with
  | nil => exact Int.le_refl 0
  | cons f fs ih =>
    rw [counted_cons]
    have hf : 0 ≤ f.counted w ch := by
      cases f with
      | cook ch' pc =>
        rw [Frame.counted]
        split_ifs <;> decide
      | con_write nr => exact Int.le_refl 0
      | respond => exact Int.le_refl 0
      | tty_write ch' bytes pc => exact Int.le_refl 0
      | tty_read ch' nr take => exact Int.le_refl 0
    omega

theorem Exact.linesCounted {s : World × List Frame} (h : Exact s) : LinesCounted s := by
  intro ch
  have hgap := h.gap_eq ch
  have hpos := counted_nonneg s.1 ch s.2
  rw [gap] at hgap
  refine ⟨by omega, fun hidle => ?_⟩
  rw [hidle, counted_nil] at hgap
  omega

/-- The terminals after a start, with no call in progress. -/
def afterBoot : World × List Frame :=
  (World.boot (con_init ⟨0, 0, false, 80, false⟩ fun _ => 0), [])

theorem afterBoot_start : LinesStart afterBoot :=
  ⟨rfl, fun _ => ⟨Nat.succ_pos _, Nat.succ_pos _⟩, fun _ => rfl⟩

/-- A letter arrives on a line, it becomes the end-of-file character, and is read. -/
def newEof : List Event :=
  [.input 1 [97], .interrupt 1, .run 0 false, .run 0 false, .run 0 false,
    .set_termios 1 { c_iflag := 0, c_oflag := 0, c_lflag := 0, c_cc := fun i => if i = 4 then 97 else 0 }
      false,
    .read 1 1, .run 0 false, .run 0 false]

/-- **A count below zero.**  The letter has not been counted when it came, but it is counted down. -/
theorem count_below_zero :
    ¬∀ s : World × List Frame, Reach LinesStart single (fun _ _ => True) s → LinesCounted s := by
  intro hall
  have hdata : (exec single afterBoot newEof).map (fun s => (s.1.queue (secondary 1)).data)
      = some (-1) := by rfl
  obtain ⟨s, hs, hb⟩ := Option.map_eq_some_iff.1 hdata
  have hpos := (hall s (Reach.exec (.start afterBoot_start) (along_true _ _) hs) 1).1
  rw [hb] at hpos
  exact absurd hpos (by decide)

/-- **The count of lines is exact.**  In every sequence of calls and arriving characters whose steps
count right, the count is the number of the characters that end a line whenever no call is in
progress, and never negative. -/
theorem lines_counted {s : World × List Frame}
    (h : Reach LinesStart single (fun s e => countsRight s e = true) s) : LinesCounted s := by
  refine Exact.linesCounted (Reach.invariant (fun s hs => ?_) (fun s e s' hI ha hs => hI.step ha hs) h)
  refine ⟨hs.wf, fun ch => ?_, .inr fun f hf => ?_⟩
  · rw [hs.idle, counted_nil, gap, hs.data, sub_self]
  · rw [hs.idle] at hf
    exact absurd hf List.not_mem_nil

/-- A letter and a newline are typed on the console and come to the secondary queue. -/
def letterNewline : List Event := [.input 0 [97, 10], .interrupt 0] ++ List.replicate 15 (.run 0 false)

theorem lines_counted_one : ∃ s, exec single afterBoot letterNewline = some s ∧
    (s.1.queue (secondary 0)).chars = [97, 10] ∧ LinesCounted s := by
  have hend : (exec single afterBoot letterNewline).map (fun s => (s.1.queue (secondary 0)).chars) =
      some [97, 10] := by
    rfl
  obtain ⟨s, hs, hchars⟩ := Option.map_eq_some_iff.1 hend
  exact ⟨s, hs, hchars, lines_counted (Reach.exec (.start afterBoot_start) (along_of_checks (by rfl)) hs)⟩

end OldLinux.Tty
