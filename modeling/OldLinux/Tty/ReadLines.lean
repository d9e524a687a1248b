import OldLinux.Lib.LineEditor
import OldLinux.Tty.Reader

/-!
# What a read returns

In canonical mode `tty_read` waits for a finished line, but its inner loop goes on until the count is
reached, the queue is empty or an end-of-file character is taken: it does not stop at a newline.

* `stopsAtNewline`: once a newline has been stored the loop ends, or takes an end-of-file character.
* `read_one_line`: what is returned belongs to one finished line if all steps meet it, and only then.

While it reads, characters may be typed: what is finished in the queue stays (`finished_typeKeys`), and
`secondary.data` counts the lines.  Nobody else reads.
-/

namespace OldLinux.Tty.Reading

open Lib

variable {k : Setting} {r r' t : Reader} {e : ReadEvent} {es : List ReadEvent} {channel : ℕ} {nr : ℤ}
  {c : ℤ} {cs : List ℤ}

/-- There are more than 20 free places, and `secondary.data` is the number of lines that have ended. -/
def Counted (t : Termios) (q : Queue) : Prop := 20 < q.LEFT ∧ q.data = q.chars.countP t.ends

/-- The queue changes as it does when characters are typed. -/
def TypedOnly (r : Reader) : ReadEvent → Prop
  | .input q => q.Wf ∧ Counted r.termios q ∧ finished r.termios.ends r.secondary.chars <+: q.chars
  | _ => True

/-- Nothing is typed between a test for an empty queue and its `GETCH`. -/
def Undisturbed (r : Reader) : ReadEvent → Prop
  | .input _ => r.pc ≠ .take
  | _ => True

/-- The characters are of the first line that was in the queue, and that line has ended. -/
def FromOneLine (r : Reader) (cs : List ℤ) : Prop :=
  cs = [] ∨ ∃ line e rest, r.seen = line ++ e :: rest ∧ (∀ c ∈ line, r.termios.ends c = false) ∧
    r.termios.ends e = true ∧ cs <+: line ++ [e]

/-- A newline has been stored: the count is used up with it, or the queue is empty, or an end-of-file
character comes next. -/
def stopsAtNewline (r : Reader) : ReadEvent → Bool
  | .run =>
    match r.pc with
    | .store c => c = 10 → r.nr ≤ 1 ∨ r.secondary.EMPTY ∨ r.secondary.next = r.termios.EOF_CHAR
    | _ => true
  | _ => true

/-! ### The characters that have been taken -/

namespace Reader

/-- The characters of the buffer, and the one that is on its way there. -/
def got (r : Reader) : List ℤ :=
  match r.pc with
  | .store c => r.buf ++ [c]
  | _ => r.buf

theorem got_of_pc (h : ∀ c, r.pc ≠ .store c) : r.got = r.buf := by
  rw [got]
  split
  · rename_i c hc
    exact absurd hc (h c)
  · rfl

theorem loop_got (r : Reader) : r.loop.got = r.buf := by
  rw [loop]
  split_ifs <;> rfl

theorem store_got (r : Reader) (c : ℤ) : (r.store c).got = r.buf ++ [c] := by
  refine got_of_pc fun x hx => ?_
  rw [store] at hx
  dsimp only at hx
  split_ifs at hx

theorem after_got (r : Reader) : r.after.got = r.buf := by
  refine got_of_pc fun x hx => ?_
  rw [after] at hx
  dsimp only at hx
  split_ifs at hx

theorem take_eof (h : r.secondary.next = r.termios.EOF_CHAR ∧ r.termios.L_CANON = true) :
    r.take.pc = .returned r.buf.length true ∧ r.take.got = r.buf := by
  have hpc : r.take.pc = .returned r.buf.length true := if_pos h
  refine ⟨hpc, got_of_pc fun c hc => ?_⟩
  rw [hpc] at hc
  cases hc

theorem take_store (h : ¬(r.secondary.next = r.termios.EOF_CHAR ∧ r.termios.L_CANON = true)) :
    r.take.pc = .store r.secondary.next ∧ r.take.got = r.buf ++ [r.secondary.next] := by
  have hpc : r.take.pc = .store r.secondary.next := if_neg h
  refine ⟨hpc, ?_⟩
  rw [got, hpc]
  rfl

theorem take_chars (r : Reader) : r.take.secondary.chars = r.secondary.GETCH.chars := by
  rw [take]
  dsimp only
  split_ifs <;> rfl

theorem take_wf (h : r.secondary.Wf) : r.take.secondary.Wf := by
  rw [take]
  dsimp only
  split_ifs
  · exact Queue.getch_wf h
  · exact Queue.getch_wf h

/-- What a step of `tty_read` other than a `GETCH` leaves alone. -/
theorem run_same (hpc : r.pc ≠ .take) (h : r.run = some r') : r'.termios = r.termios ∧
    r'.secondary = r.secondary ∧ r'.seen = r.seen ∧ r'.got = r.got := by
  rw [run] at h
  cases hr : r.pc with
  | take => exact absurd hr hpc
  | loop =>
    rw [hr] at h
    cases h
    rw [got_of_pc (r := r) (by simp [hr]), loop_got, loop]
    split_ifs <;> exact ⟨rfl, rfl, rfl, rfl⟩
  | asleep =>
    rw [hr] at h
    dsimp only at h
    split_ifs at h
    cases h
    rw [got_of_pc (r := r) (by simp [hr])]
    exact ⟨rfl, rfl, rfl, rfl⟩
  | store c =>
    rw [hr] at h
    cases h
    rw [store_got, got, hr]
    exact ⟨rfl, rfl, rfl, rfl⟩
  | after =>
    rw [hr] at h
    cases h
    rw [after_got, got_of_pc (r := r) (by simp [hr])]
    exact ⟨rfl, rfl, rfl, rfl⟩
  | finish =>
    rw [hr] at h
    cases h
    rw [got_of_pc (r := r) (by simp [hr])]
    exact ⟨rfl, rfl, rfl, rfl⟩
  | returned value at_eof =>
    rw [hr] at h
    cases h

/-- What happens meanwhile leaves all but the queue alone. -/
theorem step_same (he : e ≠ .run) (h : r.step e = some r') : r'.termios = r.termios ∧
    r'.seen = r.seen ∧ r'.got = r.got ∧ r'.pc = r.pc ∧ r'.buf = r.buf ∧
      (r'.secondary = r.secondary ∨ e = .input r'.secondary) := by
  cases e with
  | run => exact absurd rfl he
  | input q =>
    cases h
    exact ⟨rfl, rfl, rfl, rfl, rfl, .inr rfl⟩
  | tick =>
    cases h
    exact ⟨rfl, rfl, rfl, rfl, rfl, .inl rfl⟩
  | kill mask =>
    cases h
    exact ⟨rfl, rfl, rfl, rfl, rfl, .inl rfl⟩
  | expire =>
    rw [step] at h
    split_ifs at h
    cases h
    exact ⟨rfl, rfl, rfl, rfl, rfl, .inl rfl⟩

end Reader

/-! ### While the rule holds -/

/-- The characters begin the first line, which had ended; the rest of it is still in the queue. -/
def Within (r : Reader) (cs : List ℤ) : Prop :=
  cs = [] ∨ r.termios.EOF_CHAR ∉ cs ∧ ∃ line e rest tail, r.seen = line ++ e :: rest ∧
    (∀ c ∈ line, r.termios.ends c = false) ∧ r.termios.ends e = true ∧ cs ++ tail = line ++ [e] ∧
    tail <+: r.secondary.chars

theorem Within.fromOneLine (h : Within r cs) : FromOneLine r cs := by
  rcases h with rfl | ⟨-, line, e, rest, tail, hseen, hline, he, hcs, -⟩
  · exact .inl rfl
  · exact .inr ⟨line, e, rest, hseen, hline, he, tail, hcs⟩

/-- What is left of the line stays in the queue: its last character ends it. -/
theorem Within.typed (h : Within r cs) (hterm : r'.termios = r.termios) (hseen : r'.seen = r.seen)
    (hq : finished r.termios.ends r.secondary.chars <+: r'.secondary.chars) : Within r' cs := by
  rcases h with rfl | ⟨heof, line, e, rest, tail, hs, hline, he, hcs, htail⟩
  · exact .inl rfl
  · rw [Within, hterm, hseen]
    refine .inr ⟨heof, line, e, rest, tail, hs, hline, he, hcs, ?_⟩
    rcases List.eq_nil_or_concat tail with rfl | ⟨init, x, hx⟩
    · exact List.nil_prefix
    · rw [List.concat_eq_append] at hx
      rw [hx, ← List.append_assoc] at hcs
      obtain ⟨-, hxe⟩ := List.append_inj' hcs rfl
      obtain rfl : x = e := by simpa using hxe
      rw [hx] at htail ⊢
      exact (finished_of_ends he htail).trans hq

theorem Within.same (h : Within r cs) (hterm : r'.termios = r.termios) (hseen : r'.seen = r.seen)
    (hq : r'.secondary = r.secondary) : Within r' cs := by
  refine h.typed hterm hseen ?_
  rw [hq]
  exact finished_start _

/-- What comes next is fine: the first character is of a line that has ended, and behind a newline there is
only an end-of-file character. -/
def Ready (r : Reader) : Prop :=
  match r.pc with
  | .take => [r.termios.EOF_CHAR] <+: r.secondary.chars ∨
      if r.buf = [] then r.secondary.chars.any r.termios.ends = true else r.buf.getLast? ≠ some 10
  | .loop => r.buf = [] ∧ Counted r.termios r.secondary
  | .asleep => r.buf = [] ∧ Counted r.termios r.secondary
  | .after => r.buf ≠ []
  | _ => True

/-- The state of a call that has kept the rule so far. -/
structure Tidy (k : Setting) (r : Reader) : Prop where
  termios : r.termios = k.termios
  wf : r.secondary.Wf
  ready : Ready r
  within : match r.pc with
    | .returned _ _ => FromOneLine r r.got
    | _ => Within r r.got

theorem Tidy.fromOneLine (h : Tidy k r) : FromOneLine r r.got := by
  have hw := h.within
  split at hw
  · exact hw
  · exact hw.fromOneLine

theorem tidy_start (hwf : k.secondary.Wf) (hcount : Counted k.termios k.secondary) (channel : ℕ) (nr : ℤ) :
    Tidy k (k.tty_read channel nr) := by
  by_cases hbad : 2 < channel ∨ nr < 0
  · rw [Setting.tty_read, if_pos hbad]
    exact ⟨rfl, hwf, trivial, .inl rfl⟩
  · rw [Setting.tty_read, if_neg hbad]
    exact ⟨rfl, hwf, ⟨rfl, hcount⟩, .inl rfl⟩

/-- The first line of a text that has one. -/
theorem exists_first {ends : ℤ → Bool} (h : cs.any ends = true) :
    ∃ line e rest, cs = line ++ e :: rest ∧ (∀ c ∈ line, ends c = false) ∧ ends e = true := by
  induction cs with
  | nil => cases h
  | cons c cs ih =>
    cases hc : ends c with
    | true => exact ⟨[], c, cs, rfl, fun x hx => absurd hx List.not_mem_nil, hc⟩
    | false =>
      rw [List.any_cons, hc, Bool.false_or] at h
      obtain ⟨line, e, rest, hcs, hline, he⟩ := ih h
      exact ⟨c :: line, e, rest, congrArg (c :: ·) hcs, List.forall_mem_cons.2 ⟨hc, hline⟩, he⟩

theorem ends_iff (t : Termios) (c : ℤ) : t.ends c = true ↔ c = 10 ∨ c = t.EOF_CHAR := by
  rw [Termios.ends, decide_eq_true_iff]

/-- A queue whose characters begin with some is not empty, and `GETCH` takes the first. -/
theorem next_of_head {q : Queue} {x : ℤ} (hwf : q.Wf) (h : x :: cs <+: q.chars) :
    q.next = x ∧ cs <+: q.GETCH.chars := by
  have hpos : 0 < q.CHARS := by
    refine Nat.pos_of_ne_zero fun h0 => ?_
    rw [Queue.chars_nil h0] at h
    exact List.cons_ne_nil x cs (List.prefix_nil.1 h)
  rw [Queue.getch_chars hwf hpos] at h
  obtain ⟨hx, hcs⟩ := List.cons_prefix_cons.1 h
  exact ⟨hx.symm, hcs⟩

/-- A character that the rule allows. -/
theorem within_take (hw : Within r r.buf) (hwf : r.secondary.Wf) (heof : r.secondary.next ≠ r.termios.EOF_CHAR)
    (hok : if r.buf = [] then r.secondary.chars.any r.termios.ends = true
      else r.buf.getLast? ≠ some 10) :
    Within r.take (r.buf ++ [r.secondary.next]) := by
  refine .inr ⟨?_, ?_⟩
  · intro hmem
    rcases List.mem_append.1 hmem with hmem | hmem
    · rcases hw with hnil | ⟨hnot, -⟩
      · rw [hnil] at hmem
        cases hmem
      · exact hnot hmem
    · exact heof (List.mem_singleton.1 hmem).symm
  · rw [Reader.take_chars]
    by_cases hbuf : r.buf = []
    · -- the first character of the first line
      rw [if_pos hbuf] at hok
      obtain ⟨line, e, rest, hchars, hline, he⟩ := exists_first hok
      have hseen : r.take.seen = r.secondary.chars := if_pos hbuf
      rw [hbuf, List.nil_append, hseen]
      cases line with
      | nil =>
        have hhead : [e] <+: r.secondary.chars := ⟨rest, hchars.symm⟩
        obtain ⟨hnext, -⟩ := next_of_head hwf hhead
        exact ⟨[], e, rest, [], hchars, hline, he, by rw [hnext]; rfl, List.nil_prefix⟩
      | cons x line =>
        have hhead : x :: (line ++ [e]) <+: r.secondary.chars := ⟨rest, by rw [hchars]; simp⟩
        obtain ⟨hnext, htail⟩ := next_of_head hwf hhead
        exact ⟨x :: line, e, rest, line ++ [e], hchars, hline, he, by rw [hnext]; rfl, htail⟩
    · -- the next one of the line: the line has not ended, its end would be a newline
      rw [if_neg hbuf] at hok
      rcases hw with hnil | ⟨hnot, line, e, rest, tail, hseen, hline, he, hcs, htail⟩
      · exact absurd hnil hbuf
      · have hsame : r.take.seen = r.seen := if_neg hbuf
        rw [hsame]
        cases tail with
        | nil =>
          rw [List.append_nil] at hcs
          rw [hcs, List.getLast?_concat] at hok
          rcases (ends_iff _ e).1 he with rfl | rfl
          · exact absurd rfl hok
          · exact absurd (hcs ▸ List.mem_append_right _ List.mem_cons_self) hnot
        | cons x tail =>
          obtain ⟨hnext, hrest⟩ := next_of_head hwf htail
          refine ⟨line, e, rest, tail, hseen, hline, he, ?_, hrest⟩
          rw [hnext, List.append_assoc]
          exact hcs

theorem Tidy.take (h : Tidy k r) (hcanon : k.termios.L_CANON = true) (hpc : r.pc = .take) : Tidy k r.take := by
  have hgot : r.got = r.buf := Reader.got_of_pc (by simp [hpc])
  have hw := h.within
  have hready := h.ready
  rw [Ready, hpc] at hready
  rw [hpc, hgot] at hw
  have hterm : r.take.termios = k.termios := h.termios
  by_cases heof : r.secondary.next = r.termios.EOF_CHAR
  · obtain ⟨hret, hbuf⟩ := Reader.take_eof ⟨heof, by rw [h.termios]; exact hcanon⟩
    refine ⟨hterm, Reader.take_wf h.wf, ?_, ?_⟩
    · rw [Ready, hret]
      trivial
    rw [hret, hbuf]
    rcases hw with hnil | ⟨hnot, line, e, rest, tail, hseen, hline, he, hcs, -⟩
    · exact .inl hnil
    · by_cases hbuf : r.buf = []
      · exact .inl hbuf
      · have hsame : r.take.seen = r.seen := if_neg hbuf
        exact .inr ⟨line, e, rest, hsame.trans hseen, hline, he, tail, hcs⟩
  · obtain ⟨hstore, hgot'⟩ := Reader.take_store fun h => heof h.1
    refine ⟨hterm, Reader.take_wf h.wf, ?_, ?_⟩
    · rw [Ready, hstore]
      trivial
    rw [hstore, hgot']
    exact within_take hw h.wf heof (hready.resolve_left fun hnext => heof (next_of_head h.wf hnext).1)

/-- **A step other than a `GETCH`** comes to one only when that is fine. -/
theorem Ready.run (h : Ready r) (hcanon : r.termios.L_CANON = true) (hwf : r.secondary.Wf) (hpc : r.pc ≠ .take)
    (hok : stopsAtNewline r .run = true) (hstep : r.run = some r') : Ready r' := by
  rw [Ready] at h
  rw [Reader.run] at hstep
  cases hr : r.pc with
  | take => exact absurd hr hpc
  | loop =>
    rw [hr] at h hstep
    cases hstep
    obtain ⟨hbuf, hleft, hdata⟩ := h
    rw [Reader.loop]
    split_ifs with h1 h2 h3 hwaits
    · trivial
    · trivial
    · trivial
    · exact ⟨hbuf, hleft, hdata⟩
    · -- a line has ended
      refine .inr ?_
      dsimp only
      rw [if_pos hbuf, List.any_eq_true]
      rw [Reader.waits, decide_eq_true_iff, not_or] at hwaits
      have hsome : r.secondary.data ≠ 0 := fun h0 => hwaits.2 ⟨hcanon, h0, hleft⟩
      have hpos : 0 < r.secondary.chars.countP r.termios.ends := by omega
      exact List.countP_pos_iff.1 hpos
  | asleep =>
    rw [hr] at h hstep
    dsimp only at hstep
    split_ifs at hstep
    cases hstep
    exact h
  | store c =>
    rw [hr] at hstep
    cases hstep
    rw [stopsAtNewline, hr] at hok
    replace hok : c = 10 → r.nr ≤ 1 ∨ r.secondary.EMPTY = true ∨ r.secondary.next = r.termios.EOF_CHAR :=
      of_decide_eq_true hok
    rw [Reader.store]
    split_ifs with hmore
    · dsimp only [Ready]
      by_cases hc : c = 10
      · -- behind a newline
        have hnext : r.secondary.next = r.termios.EOF_CHAR := by
          rcases hok hc with hnr | hempty | hnext
          · omega
          · exact absurd hempty hmore.2
          · exact hnext
        refine .inl ?_
        have hpos : 0 < r.secondary.CHARS :=
          Nat.pos_of_ne_zero fun h0 => hmore.2 ((Queue.empty_iff hwf).2 h0)
        rw [Queue.getch_chars hwf hpos, hnext]
        exact ⟨_, rfl⟩
      · refine .inr ?_
        rw [if_neg (List.concat_ne_nil _ _), List.getLast?_concat]
        simpa using hc
    · exact List.concat_ne_nil _ _
  | after =>
    rw [hr] at h hstep
    cases hstep
    rw [Reader.after, Ready]
    dsimp only
    rw [if_pos hcanon, if_pos h]
    trivial
  | finish =>
    rw [hr] at hstep
    cases hstep
    trivial
  | returned value at_eof =>
    rw [hr] at hstep
    cases hstep

/-- A finished line stays at the head of the queue. -/
theorem head_stays {cs' line : List ℤ} {ends : ℤ → Bool} {x : ℤ} (hx : ends x = true) (h : line ++ [x] <+: cs)
    (hq : finished ends cs <+: cs') : line ++ [x] <+: cs' :=
  (finished_of_ends hx h).trans hq

theorem Ready.typed (h : Ready r) (hterm : r'.termios = r.termios) (hpc : r'.pc = r.pc) (hbuf : r'.buf = r.buf)
    (hcount : Counted r.termios r.secondary → Counted r.termios r'.secondary)
    (hq : finished r.termios.ends r.secondary.chars <+: r'.secondary.chars) : Ready r' := by
  rw [Ready] at h ⊢
  rw [hpc, hterm, hbuf]
  cases hr : r.pc with
  | take =>
    rw [hr] at h
    refine h.imp (fun hnext => ?_) fun hany => ?_
    · have hhead : [] ++ [r.termios.EOF_CHAR] <+: r.secondary.chars := hnext
      exact head_stays ((ends_iff _ _).2 (.inr rfl)) hhead hq
    · split_ifs at hany ⊢ with hnil
      · obtain ⟨line, e, rest, hchars, -, he⟩ := exists_first hany
        have hhead := head_stays he ⟨rest, by rw [hchars, List.append_assoc]; rfl⟩ hq
        exact List.any_eq_true.2 ⟨e, hhead.subset (List.mem_append_right _ List.mem_cons_self), he⟩
      · exact hany
  | loop =>
    rw [hr] at h
    exact ⟨h.1, hcount h.2⟩
  | asleep =>
    rw [hr] at h
    exact ⟨h.1, hcount h.2⟩
  | after =>
    rw [hr] at h
    exact h
  | _ => trivial

theorem Tidy.step (h : Tidy k r) (hcanon : k.termios.L_CANON = true) (htyped : TypedOnly r e)
    (hok : stopsAtNewline r e = true) (hstep : r.step e = some r') : Tidy k r' := by
  by_cases he : e = .run
  · subst he
    by_cases hpc : r.pc = .take
    · have hrun : r.run = some r' := hstep
      rw [Reader.run, hpc] at hrun
      cases hrun
      exact h.take hcanon hpc
    · obtain ⟨hterm, hq, hseen, hgot⟩ := Reader.run_same hpc hstep
      have hw : Within r r.got := by
        have hw := h.within
        split at hw
        · rename_i hret
          have hrun : r.run = some r' := hstep
          rw [Reader.run, hret] at hrun
          cases hrun
        · exact hw
      refine ⟨hterm.trans h.termios, hq ▸ h.wf, h.ready.run (h.termios ▸ hcanon) h.wf hpc hok hstep, ?_⟩
      rw [hgot]
      have hw' := hw.same hterm hseen hq
      split
      · exact hw'.fromOneLine
      · exact hw'
  · obtain ⟨hterm, hseen, hgot, hpc, hbuf, hq⟩ := Reader.step_same he hstep
    have hchars : r'.secondary.Wf ∧ (Counted r.termios r.secondary → Counted r.termios r'.secondary) ∧
        finished r.termios.ends r.secondary.chars <+: r'.secondary.chars := by
      rcases hq with hq | hq
      · rw [hq]
        exact ⟨h.wf, id, finished_start _⟩
      · rw [hq] at htyped
        exact ⟨htyped.1, fun _ => htyped.2.1, htyped.2.2⟩
    refine ⟨hterm.trans h.termios, hchars.1, h.ready.typed hterm hpc hbuf hchars.2.1 hchars.2.2, ?_⟩
    have hw := h.within
    rw [hpc, hgot]
    split at hw
    · rcases hw with hnil | ⟨line, e, rest, hs, hline, he, hcs⟩
      · exact .inl hnil
      · rw [FromOneLine, hterm, hseen]
        exact .inr ⟨line, e, rest, hs, hline, he, hcs⟩
    · exact hw.typed hterm hseen hchars.2.2

theorem Tidy.exec (h : Tidy k r) (hcanon : k.termios.L_CANON = true) (htyped : Along Reader.step TypedOnly r es)
    (hok : Along Reader.step (fun r e => stopsAtNewline r e = true) r es)
    (hexec : exec Reader.step r es = some t) :
    Tidy k t := by
  induction es generalizing r with
  | nil =>
    cases hexec
    exact h
  | cons e es ih =>
    obtain ⟨s, hs, hrest⟩ := Option.bind_eq_some_iff.1 hexec
    exact ih (h.step hcanon htyped.1 hok.1 hs) (htyped.2 s hs) (hok.2 s hs) hrest

/-! ### Once it is broken -/

/-- Something has been taken that is of a line behind a newline. -/
def Spoiled (r : Reader) : Prop := ∃ b c, b ++ [10, c] <+: r.got

/-- The inner loop goes on behind a newline. -/
def Beyond (r : Reader) : Prop :=
  r.pc = .take ∧ (∃ b, r.buf = b ++ [10]) ∧ r.secondary.next ≠ r.termios.EOF_CHAR

theorem Spoiled.got (h : Spoiled r) : r.got ≠ [] := by
  obtain ⟨b, c, hb⟩ := h
  intro hnil
  rw [hnil, List.prefix_nil] at hb
  exact absurd hb (by simp)

theorem Spoiled.not_fromOneLine (h : Spoiled r) : ¬FromOneLine r r.got := by
  rintro (hnil | ⟨line, e, rest, hseen, hline, he, hcs⟩)
  · exact h.got hnil
  · obtain ⟨b, c, hb⟩ := h
    have hall := hb.trans hcs
    have hlen := hall.length_le
    have hstart : b ++ [10] <+: line ++ [e] :=
      List.IsPrefix.trans ⟨[c], by simp⟩ hall
    have hshort : b ++ [10] <+: line := by
      refine List.prefix_of_prefix_length_le hstart (List.prefix_append _ _) ?_
      simp only [List.length_append, List.length_cons, List.length_nil] at hlen ⊢
      omega
    have hten := hline 10 (hshort.subset (List.mem_append_right _ List.mem_cons_self))
    rw [(ends_iff r.termios 10).2 (.inl rfl)] at hten
    cases hten

/-- Characters are only added. -/
theorem step_adds (hstep : r.step e = some r') : r.got <+: r'.got := by
  by_cases he : e = .run
  · subst he
    have hrun : r.run = some r' := hstep
    by_cases hpc : r.pc = .take
    · rw [Reader.got_of_pc (by simp [hpc])]
      rw [Reader.run, hpc] at hrun
      cases hrun
      by_cases heof : r.secondary.next = r.termios.EOF_CHAR ∧ r.termios.L_CANON = true
      · rw [(Reader.take_eof heof).2]
      · rw [(Reader.take_store heof).2]
        exact List.prefix_append _ _
    · obtain ⟨-, -, -, hsame⟩ := Reader.run_same hpc hrun
      rw [hsame]
  · obtain ⟨-, -, hsame, -⟩ := Reader.step_same he hstep
    rw [hsame]

theorem Spoiled.exec (h : Spoiled r) (hexec : exec Reader.step r es = some t) : Spoiled t := by
  induction es generalizing r with
  | nil =>
    cases hexec
    exact h
  | cons e es ih =>
    obtain ⟨s, hs, hrest⟩ := Option.bind_eq_some_iff.1 hexec
    obtain ⟨b, c, hb⟩ := h
    exact ih ⟨b, c, hb.trans (step_adds hs)⟩ hrest

/-- **A step that breaks the rule.** -/
theorem beyond_of_step (hok : stopsAtNewline r e = false) (hstep : r.step e = some r') : Beyond r' := by
  obtain rfl : e = .run := by
    cases e with
    | run => rfl
    | _ => cases hok
  have hrun : r.run = some r' := hstep
  rw [Reader.run] at hrun
  rw [stopsAtNewline] at hok
  cases hpc : r.pc with
  | store c =>
    rw [hpc] at hok hrun
    cases hrun
    have hbad := of_decide_eq_false hok
    push Not at hbad
    obtain ⟨rfl, hnr, hempty, hnext⟩ := hbad
    have hmore : 0 < r.nr - 1 ∧ ¬r.secondary.EMPTY = true := ⟨by omega, hempty⟩
    exact ⟨if_pos hmore, ⟨r.buf, rfl⟩, hnext⟩
  | _ =>
    rw [hpc] at hok
    cases hok

/-- Unless something is typed just then, the next step of `tty_read` takes a character too many. -/
theorem Beyond.step (h : Beyond r) (hstill : Undisturbed r e) (hstep : r.step e = some r') :
    Beyond r' ∨ Spoiled r' := by
  obtain ⟨hpc, ⟨b, hb⟩, hnext⟩ := h
  by_cases he : e = .run
  · subst he
    have hrun : r.run = some r' := hstep
    rw [Reader.run, hpc] at hrun
    cases hrun
    refine .inr ⟨b, r.secondary.next, ?_⟩
    rw [(Reader.take_store fun h => hnext h.1).2, hb, List.append_assoc]
    exact List.prefix_rfl
  · obtain ⟨hterm, -, -, hpc', hbuf, hq⟩ := Reader.step_same he hstep
    have hq' : r'.secondary = r.secondary := by
      refine hq.resolve_right fun hin => ?_
      rw [hin] at hstill
      exact hstill hpc
    exact .inl ⟨hpc'.trans hpc, ⟨b, hbuf.trans hb⟩, by rw [hq', hterm]; exact hnext⟩

theorem Beyond.exec (h : Beyond r) (hstill : Along Reader.step Undisturbed r es)
    (hexec : exec Reader.step r es = some t) (hret : t.pc ≠ .take) : Spoiled t := by
  induction es generalizing r with
  | nil =>
    cases hexec
    exact absurd h.1 hret
  | cons e es ih =>
    obtain ⟨s, hs, hrest⟩ := Option.bind_eq_some_iff.1 hexec
    rcases h.step hstill.1 hs with hbeyond | hspoiled
    · exact ih hbeyond (hstill.2 s hs) hrest
    · exact hspoiled.exec hrest

theorem stops_of_fromOneLine (hstill : Along Reader.step Undisturbed r es)
    (hexec : exec Reader.step r es = some t)
    (hret : t.pc ≠ .take) (hone : FromOneLine t t.got) :
    Along Reader.step (fun r e => stopsAtNewline r e = true) r es := by
  induction es generalizing r with
  | nil => trivial
  | cons e es ih =>
    obtain ⟨s, hs, hrest⟩ := Option.bind_eq_some_iff.1 hexec
    refine ⟨?_, fun s' hs' => ?_⟩
    · by_contra hno
      have hbeyond := beyond_of_step (by simpa using hno) hs
      exact (hbeyond.exec (hstill.2 s hs) hrest hret).not_fromOneLine hone
    · obtain rfl : s = s' := Option.some.inj (hs.symm.trans hs')
      exact ih (hstill.2 s hs) hrest

/-! ### Every read -/

/-- **Finished lines only.**  In canonical mode, with more than 20 free places and the lines counted
right, the characters that `tty_read` returns belong to one line that had ended when the first of them
was taken, if the inner loop ends with each newline or an end-of-file character comes next; and only
then, if nothing is typed just when it has decided to go on. -/
theorem read_one_line {value : ℤ} {at_eof : Bool} (hcanon : k.termios.L_CANON = true) (hwf : k.secondary.Wf)
    (hcount : Counted k.termios k.secondary) (htyped : Along Reader.step TypedOnly (k.tty_read channel nr) es)
    (hexec : exec Reader.step (k.tty_read channel nr) es = some t) (hret : t.pc = .returned value at_eof) :
    (Along Reader.step (fun r e => stopsAtNewline r e = true) (k.tty_read channel nr) es →
      FromOneLine t t.buf) ∧
    (Along Reader.step Undisturbed (k.tty_read channel nr) es → FromOneLine t t.buf →
      Along Reader.step (fun r e => stopsAtNewline r e = true) (k.tty_read channel nr) es) := by
  have hgot : t.got = t.buf := Reader.got_of_pc (by simp [hret])
  rw [← hgot]
  refine ⟨fun hok => ?_, fun hstill => stops_of_fromOneLine hstill hexec (by simp [hret])⟩
  exact ((tidy_start hwf hcount channel nr).exec hcanon htyped hok hexec).fromOneLine

/-- A terminal in canonical mode in whose queue there are these characters. -/
def typedAhead (cs : List ℤ) (data : ℤ) : Setting :=
  { alarm := 0
    signal := 0
    jiffies := 0
    termios := { c_iflag := 0, c_oflag := 0, c_lflag := 0o2, c_cc := fun i => if i = 4 then 4 else 0 }
    secondary := { cs.foldl (fun q c => q.PUTCH c) Queue.initial with data := data } }

theorem typedAhead_wf (cs : List ℤ) (data : ℤ) : (typedAhead cs data).secondary.Wf := by
  have hwf : Queue.initial.Wf := ⟨by decide, by decide⟩
  exact foldl_putch_wf hwf cs

/-- **A line that is still being typed** is returned: `ab`, a newline and `cd` have been typed. -/
theorem unfinished_line_read :
      ¬∀ (k : Setting) (channel : ℕ) (nr : ℤ) (es : List ReadEvent) (t : Reader) (value : ℤ)
      (at_eof : Bool), k.termios.L_CANON = true → k.secondary.Wf → Counted k.termios k.secondary →
        Along Reader.step TypedOnly (k.tty_read channel nr) es →
        exec Reader.step (k.tty_read channel nr) es = some t → t.pc = .returned value at_eof →
        FromOneLine t t.buf := by
  intro hall
  have hrun : (exec Reader.step ((typedAhead [97, 98, 10, 99, 100] 1).tty_read 0 100)
      (List.replicate 13 .run)).map (fun t => (t.seen, t.buf, t.termios.ends 100,
        match t.pc with | .returned value at_eof => some (value, at_eof) | _ => none))
      = some ([97, 98, 10, 99, 100], [97, 98, 10, 99, 100], false, some (5, false)) := by decide
  obtain ⟨t, ht, hres⟩ := Option.map_eq_some_iff.1 hrun
  obtain ⟨hseen, hres⟩ := Prod.mk.inj hres
  obtain ⟨hbuf, hres⟩ := Prod.mk.inj hres
  obtain ⟨hends, hpc⟩ := Prod.mk.inj hres
  cases h : t.pc with
  | returned value at_eof =>
    have htyped : Along Reader.step TypedOnly ((typedAhead [97, 98, 10, 99, 100] 1).tty_read 0 100)
        (List.replicate 13 .run) :=
      along_of_forall (fun e he s => by rw [List.eq_of_mem_replicate he]; trivial) _
    have hone := hall (typedAhead [97, 98, 10, 99, 100] 1) 0 100 (List.replicate 13 .run) t value at_eof
      (by decide) (typedAhead_wf _ _) ⟨by decide, by decide⟩ htyped ht h
    rw [FromOneLine, hbuf, hseen] at hone
    rcases hone with hnil | ⟨line, e, rest, hsplit, -, he, hpre⟩
    · cases hnil
    · have hlen := hpre.length_le
      have hlen' := congrArg List.length hsplit
      simp only [List.length_append, List.length_cons, List.length_nil] at hlen hlen'
      obtain rfl : rest = [] := List.length_eq_zero_iff.1 (by omega)
      have hlast := congrArg List.getLast? hsplit
      rw [List.getLast?_concat] at hlast
      obtain rfl : 100 = e := by simpa using hlast
      rw [hends] at he
      cases he
  | _ => simp [h] at hpc

/-- Two lines are typed, and one is read: the count is used up with its newline. -/
theorem read_one_line_a : ∃ t, exec Reader.step ((typedAhead [97, 10, 98, 10] 2).tty_read 0 2)
    (List.replicate 7 .run) = some t ∧ FromOneLine t t.buf := by
  have hrun : (exec Reader.step ((typedAhead [97, 10, 98, 10] 2).tty_read 0 2) (List.replicate 7 .run)).map
      (fun t => match t.pc with | .returned value at_eof => some (value, at_eof) | _ => none)
      = some (some (2, false)) := by decide
  obtain ⟨t, ht, hpc⟩ := Option.map_eq_some_iff.1 hrun
  have htyped : Along Reader.step TypedOnly ((typedAhead [97, 10, 98, 10] 2).tty_read 0 2)
    (List.replicate 7 .run) :=
    along_of_forall (fun e he s => by rw [List.eq_of_mem_replicate he]; trivial) _
  cases h : t.pc with
  | returned value at_eof =>
    exact ⟨t, ht, (read_one_line (by decide) (typedAhead_wf _ _) ⟨by decide, by decide⟩ htyped ht h).1
      (along_of_checks (by decide))⟩
  | _ => simp [h] at hpc

end OldLinux.Tty.Reading
