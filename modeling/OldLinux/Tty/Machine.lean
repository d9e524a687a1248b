import OldLinux.Console.Machine
import OldLinux.Tty.Queue
import OldLinux.Lib.Trace
import Mathlib.Data.Fintype.Basic

/-!
# Terminals

The three terminals of `tty_table`: `copy_to_cooked`, `tty_read`, `tty_write`, the console's
`con_write` with its answer to `ESC Z`, the settings, and the interrupts of the keyboard and of the
serial lines.

The functions call each other (`copy_to_cooked` echoes through `con_write`, and that may answer
through `copy_to_cooked`), and they are interrupted.  An activation is a stack of frames, one for
each call; a step is one of the pieces of the frame on top between two operations on a queue.

* `Frame.step`: what a call does next.
* `run`, `single`: one activation on its own, and calls that are made one after the other.
* `System.step`: any number of activations, and the events from outside.

Left out: the process groups that `tty_intr` signals, the alarms and the minimum of `tty_read`, which
decide how often it comes back to its inner loop, and the speed of the lines.
-/

namespace OldLinux.Tty

open Function Lib Console

/-! ### Settings -/

/-- `struct termios`, without the control modes. -/
structure Termios where
  c_iflag : ℕ
  c_oflag : ℕ
  c_lflag : ℕ
  c_cc : ℕ → Fin 256

/-- `struct termio`. -/
structure Termio where
  c_iflag : ℕ
  c_oflag : ℕ
  c_lflag : ℕ
  c_cc : ℕ → Fin 256

namespace Termios

variable (t : Termios)

def L_CANON : Bool := t.c_lflag &&& 0o2 ≠ 0
def L_ISIG : Bool := t.c_lflag &&& 0o1 ≠ 0
def L_ECHO : Bool := t.c_lflag &&& 0o10 ≠ 0
def L_ECHOCTL : Bool := t.c_lflag &&& 0o1000 ≠ 0
def I_UCLC : Bool := t.c_iflag &&& 0o1000 ≠ 0
def I_NLCR : Bool := t.c_iflag &&& 0o100 ≠ 0
def I_CRNL : Bool := t.c_iflag &&& 0o400 ≠ 0
def I_NOCR : Bool := t.c_iflag &&& 0o200 ≠ 0
def O_POST : Bool := t.c_oflag &&& 0o1 ≠ 0
def O_NLCR : Bool := t.c_oflag &&& 0o4 ≠ 0
def O_CRNL : Bool := t.c_oflag &&& 0o10 ≠ 0
def O_NLRET : Bool := t.c_oflag &&& 0o40 ≠ 0
def O_LCUC : Bool := t.c_oflag &&& 0o2 ≠ 0
def INTR_CHAR : ℤ := t.c_cc 0
def QUIT_CHAR : ℤ := t.c_cc 1
def ERASE_CHAR : ℤ := t.c_cc 2
def KILL_CHAR : ℤ := t.c_cc 3
def EOF_CHAR : ℤ := t.c_cc 4
def START_CHAR : ℤ := t.c_cc 8
def STOP_CHAR : ℤ := t.c_cc 9

/-- The low halves of the flags and the first `NCC` characters are replaced. -/
def set_termio (t : Termios) (new : Termio) : Termios :=
  { c_iflag := t.c_iflag / 65536 * 65536 + new.c_iflag % 65536
    c_oflag := t.c_oflag / 65536 * 65536 + new.c_oflag % 65536
    c_lflag := t.c_lflag / 65536 * 65536 + new.c_lflag % 65536
    c_cc := fun i => if i < 8 then new.c_cc i else t.c_cc i }

/-- The characters that end a line: a newline or the end-of-file character. -/
def ends (c : ℤ) : Bool := c = 10 ∨ c = t.EOF_CHAR

end Termios

/-! ### Characters -/

/-- An integer stored in a `char`. -/
def toChar (z : ℤ) : ℤ := (z + 128) % 256 - 128

/-- `isupper`: the table of `ctype.c` is indexed with a signed character, so for most negative ones
it is what lies `below` the table that counts. -/
def isupper (below : ℤ → ℕ) (c : ℤ) : Bool :=
  if c < -1 then below c &&& 1 ≠ 0 else 65 ≤ c ∧ c ≤ 90

def islower (below : ℤ → ℕ) (c : ℤ) : Bool :=
  if c < -1 then below c &&& 2 ≠ 0 else 97 ≤ c ∧ c ≤ 122

def tolower (below : ℤ → ℕ) (c : ℤ) : ℤ := if isupper below c then toChar (c + 32) else c

def toupper (below : ℤ → ℕ) (c : ℤ) : ℤ := if islower below c then toChar (c - 32) else c

/-- What becomes of a character that has been read; `none` for one that is ignored. -/
def received (below : ℤ → ℕ) (t : Termios) (c : ℤ) : Option ℤ :=
  let lower := fun c => if t.I_UCLC then tolower below c else c
  if c = 13 then
    if t.I_CRNL then some (lower 10) else if t.I_NOCR then none else some (lower 13)
  else if c = 10 ∧ t.I_NLCR then some (lower 13)
  else some (lower c)

/-- What is echoed for a character. -/
def echoed (t : Termios) (c : ℤ) : List ℤ :=
  if c = 10 then [10, 13]
  else if c < 32 then (if t.L_ECHOCTL then [94, c + 64] else [])
  else [c]

/-- What is echoed when a character is erased. -/
def rubout (c : ℤ) : List ℤ := if c < 32 then [127, 127] else [127]

/-- The answer to `ESC Z`. -/
def RESPONSE : List ℤ := [27, 91, 63, 49, 59, 50, 99]

/-- The `O_` flags but for the expansion of newlines. -/
def posted (t : Termios) (c : ℤ) : ℤ :=
  if c = 13 ∧ t.O_CRNL then 10 else if c = 10 ∧ t.O_NLRET then 13 else c

def raised (below : ℤ → ℕ) (t : Termios) (c : ℤ) : ℤ := if t.O_LCUC then toupper below c else c

/-- The loop of `respond`. -/
def answer (q : Queue) : Queue := RESPONSE.foldl (fun q c => q.PUTCH c) q

/-! ### The terminals -/

/-- The three queues of a terminal. -/
inductive Kind
  | read | write | secondary
  deriving DecidableEq

structure Qid where
  ch : Fin 3
  kind : Kind
  deriving DecidableEq

abbrev read_q (ch : Fin 3) : Qid := ⟨ch, .read⟩
abbrev write_q (ch : Fin 3) : Qid := ⟨ch, .write⟩
abbrev secondary (ch : Fin 3) : Qid := ⟨ch, .secondary⟩

/-- The console is terminal 0, the others are serial lines.  History: the bytes that calls of
`tty_write` have put and accepted, and the terminal for which `cr_flag` has been set. -/
structure World where
  queue : Qid → Queue
  termios : Fin 3 → Termios
  stopped : Fin 3 → Bool
  screen : Screen
  cr_flag : Bool
  below : ℤ → ℕ
  sent : Fin 3 → List ℤ
  accepted : Fin 3 → List ℤ
  cr_by : Fin 3

/-- What is left to do for a character after its echo: it is put into the secondary queue, or the
last character of that queue is taken off (`again` while the line is killed). -/
inductive After
  | store (c : ℤ)
  | del (again : Bool)

/-- Where `copy_to_cooked` is: at the head of its loop, at the head of the loop that kills a line,
in an echo, or after it. -/
inductive CookPc
  | top
  | kill
  | echo (cs : List ℤ) (a : After)
  | after (a : After)

/-- Where `tty_write` is: at the head of its loop, in `sleep_if_full`, at the head of the inner loop,
after the test for a full queue and before the byte is put, or before the call of `schedule`. -/
inductive WritePc
  | outer
  | asleep
  | inner
  | byte
  | sched

/-- A call: of `copy_to_cooked`; of `con_write` with `nr` characters left; of `respond`; of `tty_write`
with the bytes that are left; of `tty_read` with `nr` characters to go, in its inner loop (`take`:
after the test for an empty queue). -/
inductive Frame
  | cook (ch : Fin 3) (pc : CookPc)
  | con_write (nr : ℕ)
  | respond
  | tty_write (ch : Fin 3) (bytes : List ℤ) (pc : WritePc)
  | tty_read (ch : Fin 3) (nr : ℕ) (take : Bool)

/-! ### `tty_table` -/

def INIT_C_CC (i : ℕ) : Fin 256 :=
  [3, 28, 127, 21, 4, 0, 1, 0, 17, 19, 26, 0, 18, 15, 23, 22].getD i 0

def Queue.initial : Queue :=
  { data := 0, head := 0, tail := 0, buf := fun _ => 0
    put := [], taken := [], erased := 0, overrun := false, underrun := false }

/-- The terminals as they are defined, with a screen. -/
def World.boot (screen : Screen) : World :=
  { queue := fun _ => Queue.initial
    termios := fun ch =>
      if ch = 0 then
        { c_iflag := 0o400, c_oflag := 0o1 + 0o4, c_lflag := 0o1 + 0o2 + 0o10 + 0o1000 + 0o4000
          c_cc := INIT_C_CC }
      else { c_iflag := 0, c_oflag := 0, c_lflag := 0, c_cc := INIT_C_CC }
    stopped := fun _ => false
    screen := screen
    cr_flag := false
    below := fun _ => 0
    sent := fun _ => []
    accepted := fun _ => []
    cr_by := 0 }

namespace World

/-- An operation on one queue. -/
def upd (w : World) (i : Qid) (f : Queue → Queue) : World :=
  { w with queue := update w.queue i (f (w.queue i)) }

/-- `tty->write(tty)`: the calls it makes. -/
def write (w : World) (ch : Fin 3) : List Frame :=
  if ch = 0 then [.con_write (w.queue (write_q 0)).CHARS] else []

/-- No character of the current line is left: the secondary queue is empty, or its last character
ends a line. -/
def lineEnd (w : World) (ch : Fin 3) : Bool :=
  (w.queue (secondary ch)).EMPTY ∨ (w.termios ch).ends (w.queue (secondary ch)).LAST

/-- The last character of the line is echoed and taken off. -/
def takeOff (w : World) (ch : Fin 3) (again : Bool) : Frame :=
  if (w.termios ch).L_ECHO then
    .cook ch (.echo (rubout (w.queue (secondary ch)).LAST) (.del again))
  else .cook ch (.after (.del again))

/-- `secondary.data` goes up or down with a character that ends a line. -/
def count (w : World) (ch : Fin 3) (c n : ℤ) : World :=
  if (w.termios ch).ends c then
    w.upd (secondary ch) fun q => { q with data := q.data + n }
  else w

/-- The character goes into the secondary queue, with its echo. -/
def keep (w : World) (ch : Fin 3) (c : ℤ) : World × List Frame :=
  (w.count ch c 1, if (w.termios ch).L_ECHO then [.cook ch (.echo (echoed (w.termios ch) c) (.store c))]
    else [.cook ch (.after (.store c))])

/-- The body of the loop of `copy_to_cooked`, for a character that is not ignored. -/
def cookChar (w : World) (ch : Fin 3) (c : ℤ) : World × List Frame :=
  let t := w.termios ch
  let top := [Frame.cook ch .top]
  if t.L_CANON ∧ c = t.KILL_CHAR then (w, [.cook ch .kill])
  else if t.L_CANON ∧ c = t.ERASE_CHAR then
    (w, if w.lineEnd ch then top else [w.takeOff ch false])
  else if t.L_CANON ∧ c = t.STOP_CHAR then
    ({ w with stopped := update w.stopped ch true }, top)
  else if t.L_CANON ∧ c = t.START_CHAR then
    ({ w with stopped := update w.stopped ch false }, top)
  else if t.L_ISIG ∧ (c = t.INTR_CHAR ∨ c = t.QUIT_CHAR) then (w, top)
  else w.keep ch c

/-- `copy_to_cooked`. -/
def cook (w : World) (ch : Fin 3) : CookPc → World × List Frame
  | .top =>
    if (w.queue (read_q ch)).EMPTY ∨ (w.queue (secondary ch)).FULL then (w, [])
    else
      match received w.below (w.termios ch) (w.queue (read_q ch)).next with
      | none => (w.upd (read_q ch) Queue.GETCH, [.cook ch .top])
      | some c => (w.upd (read_q ch) Queue.GETCH).cookChar ch c
  | .kill => (w, [if w.lineEnd ch then .cook ch .top else w.takeOff ch true])
  | .echo (c :: cs) a => (w.upd (write_q ch) (Queue.PUTCH c), [.cook ch (.echo cs a)])
  | .echo [] a => (w, w.write ch ++ [Frame.cook ch (.after a)])
  | .after (.store c) => (w.upd (secondary ch) (Queue.PUTCH c), [.cook ch .top])
  | .after (.del again) =>
    (w.upd (secondary ch) Queue.DEC, [.cook ch (if again then .kill else .top)])

/-- One character of `con_write`. -/
def con_write (w : World) : ℕ → World × List Frame
  | 0 => (w, [])
  | nr + 1 =>
    let c := (w.queue (write_q 0)).next
    ({ w.upd (write_q 0) Queue.GETCH with
        screen := w.screen.con_char ((w.termios 0).c_cc 2) c },
      if w.screen.asks c then [.respond, .con_write nr] else [.con_write nr])

/-- `respond`; interrupts are off while it puts the answer. -/
def respond (w : World) : World × List Frame :=
  (w.upd (read_q 0) answer, [.cook 0 .top])

/-- The test and the body of the inner loop of `tty_write`, for the byte `b`. -/
def putByte (w : World) (ch : Fin 3) (b : ℤ) (rest : List ℤ) : World × List Frame :=
  let t := w.termios ch
  let c := if t.O_POST then posted t b else b
  if t.O_POST ∧ c = 10 ∧ ¬w.cr_flag ∧ t.O_NLCR then
    ({ w.upd (write_q ch) (Queue.PUTCH 13) with
        cr_flag := true
        cr_by := ch
        sent := update w.sent ch (w.sent ch ++ [13]) }, [.tty_write ch (b :: rest) .inner])
  else
    let c := if t.O_POST then raised w.below t c else c
    ({ w.upd (write_q ch) (Queue.PUTCH c) with
        cr_flag := false
        sent := update w.sent ch (w.sent ch ++ [c])
        accepted := update w.accepted ch (w.accepted ch ++ [b]) },
      [.tty_write ch rest .inner])

/-- `tty_write`; `none` while it sleeps.  A call that is done has no frame any more. -/
def tty_write (w : World) (signal : Bool) (ch : Fin 3) (bytes : List ℤ) : WritePc → Option (World × List Frame)
  | .outer =>
    if bytes = [] then some (w, [])
    else if (w.queue (write_q ch)).FULL then some (w, [.tty_write ch bytes .asleep])
    else some (w, if signal then [] else [.tty_write ch bytes .inner])
  | .asleep =>
    if signal then some (w, [])
    else if (w.queue (write_q ch)).LEFT < 128 then none
    else some (w, [.tty_write ch bytes .inner])
  | .inner =>
    if bytes ≠ [] ∧ ¬(w.queue (write_q ch)).FULL then some (w, [.tty_write ch bytes .byte])
    else some (w, w.write ch ++ [Frame.tty_write ch bytes .sched])
  | .byte =>
    match bytes with
    | [] => none
    | b :: rest => some (w.putByte ch b rest)
  | .sched => some (w, [.tty_write ch bytes .outer])

/-- The inner loop of `tty_read`. -/
def tty_read (w : World) (ch : Fin 3) (nr : ℕ) : Bool → World × List Frame
  | false =>
    if 0 < nr ∧ ¬(w.queue (secondary ch)).EMPTY then (w, [.tty_read ch nr true]) else (w, [])
  | true =>
    let c := (w.queue (secondary ch)).next
    ((w.upd (secondary ch) Queue.GETCH).count ch c (-1),
      if c = (w.termios ch).EOF_CHAR ∧ (w.termios ch).L_CANON then []
      else [.tty_read ch (nr - 1) false])

end World

/-- The next step of a call, and the calls that take its place; `signal`: the task has a signal. -/
def Frame.step (w : World) (signal : Bool) : Frame → Option (World × List Frame)
  | .cook ch pc => some (w.cook ch pc)
  | .con_write nr => some (w.con_write nr)
  | .respond => some w.respond
  | .tty_write ch bytes pc => w.tty_write signal ch bytes pc
  | .tty_read ch nr take => some (w.tty_read ch nr take)

/-- The next step of an activation. -/
def run (w : World) (signal : Bool) : List Frame → Option (World × List Frame)
  | [] => none
  | f :: fs => (f.step w signal).map fun r => (r.1, r.2 ++ fs)

/-! ### Any number of activations -/

structure System where
  world : World
  tasks : List (List Frame)

/-- What can happen.  The first three are interrupts: characters arrive, `do_tty_interrupt`, a serial
line sends a character.  Then calls that tasks make: `tty_read` enters its inner loop, `tty_write`,
`TCSETS` and `TCSETA` with and without `flush`.  The last is a step of an activation. -/
inductive Event
  | input (ch : Fin 3) (cs : List ℤ)
  | interrupt (ch : Fin 3)
  | transmit (ch : Fin 3)
  | read (ch : Fin 3) (nr : ℕ)
  | write (ch : Fin 3) (bytes : List ℤ)
  | set_termios (ch : Fin 3) (t : Termios) (flush : Bool)
  | set_termio (ch : Fin 3) (t : Termio) (flush : Bool)
  | run (i : ℕ) (signal : Bool)

/-- `read_char` and `put_queue`: characters that do not all fit are discarded. -/
def arrive (cs : List ℤ) (q : Queue) : Queue :=
  if cs.length ≤ q.LEFT then cs.foldl (fun q c => q.PUTCH c) q
  else { q with buf := ((cs.take (q.LEFT + 1)).foldl (fun q c => q.PUTCH c) q).buf }

/-- New settings, after the input queue has been flushed if that is asked for. -/
def World.settings (w : World) (ch : Fin 3) (t : Termios) (flush : Bool) : World :=
  let w := if flush then w.upd (read_q ch) Queue.flush else w
  { w with termios := update w.termios ch t }

/-- `tty_read` does not sleep but takes characters. -/
def World.readable (w : World) (ch : Fin 3) : Bool :=
  ¬((w.queue (secondary ch)).EMPTY ∨ ((w.termios ch).L_CANON ∧ (w.queue (secondary ch)).data = 0 ∧
      20 < (w.queue (secondary ch)).LEFT))

/-- An event that is not a step of an activation: the world after it, and the activation it starts. -/
def World.event (w : World) : Event → Option (World × List Frame)
  | .input ch cs => some (w.upd (read_q ch) (arrive cs), [])
  | .interrupt ch => some (w, [.cook ch .top])
  | .transmit ch =>
    if ch = 0 ∨ (w.queue (write_q ch)).EMPTY then none
    else some (w.upd (write_q ch) Queue.GETCH, [])
  | .read ch nr => if w.readable ch then some (w, [.tty_read ch nr false]) else none
  | .write ch bytes => some (w, [.tty_write ch bytes .outer])
  | .set_termios ch t flush => some (w.settings ch t flush, [])
  | .set_termio ch t flush => some (w.settings ch ((w.termios ch).set_termio t) flush, [])
  | .run _ _ => none

/-- Calls that are made one after the other: a new one begins when no call is in progress.  Characters
may arrive and be sent at any time. -/
def single (s : World × List Frame) : Event → Option (World × List Frame)
  | .run _ signal => run s.1 signal s.2
  | .input ch cs => some (s.1.upd (read_q ch) (arrive cs), s.2)
  | .transmit ch =>
    if ch = 0 ∨ (s.1.queue (write_q ch)).EMPTY then none
    else some (s.1.upd (write_q ch) Queue.GETCH, s.2)
  | e => if s.2.isEmpty then s.1.event e else none

/-- Any activation may take the next step. -/
def System.step (s : System) : Event → Option System
  | .run i signal => do
      let fs ← s.tasks[i]?
      let r ← Tty.run s.world signal fs
      some { world := r.1, tasks := s.tasks.set i r.2 }
  | e => do
      let r ← s.world.event e
      some { world := r.1, tasks := s.tasks ++ [r.2] }

/-! ### The queues -/

variable {w : World} {i : Qid} {q : Queue}

theorem upd_self (w : World) (i : Qid) (f : Queue → Queue) :
    (w.upd i f).queue i = f (w.queue i) := update_self ..

theorem upd_other {j : Qid} (h : j ≠ i) (f : Queue → Queue) : (w.upd i f).queue j = w.queue j :=
  update_of_ne h ..

theorem upd_wf {f : Queue → Queue} (h : ∀ i, (w.queue i).Wf) (hf : (f (w.queue i)).Wf) (j : Qid) :
    ((w.upd i f).queue j).Wf := by
  by_cases hj : j = i
  · rw [hj, upd_self]
    exact hf
  · rw [upd_other hj]
    exact h j

theorem foldl_putch_wf (h : q.Wf) (cs : List ℤ) : (cs.foldl (fun q c => q.PUTCH c) q).Wf := by
  induction cs generalizing q with
  | nil => exact h
  | cons c cs ih => exact ih (Queue.putch_wf h)

theorem answer_wf (h : q.Wf) : (answer q).Wf := foldl_putch_wf h RESPONSE

theorem arrive_wf (h : q.Wf) (cs : List ℤ) : (arrive cs q).Wf := by
  rw [arrive]
  split_ifs
  · exact foldl_putch_wf h cs
  · exact h

end OldLinux.Tty
