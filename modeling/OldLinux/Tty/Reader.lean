import OldLinux.Sched.Scheduler
import OldLinux.Tty.Machine

/-!
# `tty_read`

The whole of `tty_read`, with the alarm it borrows: with `VTIME` set and `VMIN` zero it puts a timeout
in the place of the alarm, and in raw mode it does so again after each batch of characters.  While it
waits, characters and signals arrive, the clock ticks, and `schedule` takes an alarm away that has
expired.

`Reader.step` is what `tty_read` does next, or what happens meanwhile.  The settings of the terminal are
those at the call.  Two reads of `jiffies` in one line give the same.
-/

namespace OldLinux.Tty.Reading

open Sched

def VTIME : ℕ := 5

def VMIN : ℕ := 6

def EINTR : ℤ := 4

/-- The bit of `SIGALRM`. -/
def ALRMMASK : BitVec 32 := 1#32 <<< 13

/-! ### `tty_read` -/

/-- What `tty_read` uses: the alarm and the signals of its task, the clock, the settings of the
terminal and the secondary queue. -/
structure Setting where
  alarm : ℤ
  signal : BitVec 32
  jiffies : ℤ
  termios : Termios
  secondary : Queue

namespace Setting

variable (k : Setting)

def time : ℤ := 10 * ((k.termios.c_cc VTIME : ℕ) : ℤ)

/-- The alarm is to be borrowed: there is none, or it is later than the timeout. -/
def later (time oldalarm : ℤ) : Bool := oldalarm = 0 ∨ long (time + k.jiffies) < oldalarm

/-- `tty_read` borrows the alarm when it begins. -/
def lent : Bool := k.time ≠ 0 ∧ k.termios.c_cc VMIN = 0 ∧ k.later k.time k.alarm

end Setting

/-- Where `tty_read` is: at the head of its loop, in `sleep_if_empty`, before a `GETCH`, in
`put_fs_byte`, after the inner loop, after the outer one, or at the end with the value it returns;
`at_eof`: at the `return` for an end-of-file character. -/
inductive ReadPc
  | loop
  | asleep
  | take
  | store (c : ℤ)
  | after
  | finish
  | returned (value : ℤ) (at_eof : Bool)

/-- A call, with its local variables and the characters that are in `buf`.  History: the characters of
the queue when the first of them was taken, and whether `schedule` has taken an alarm away. -/
structure Reader extends Setting where
  pc : ReadPc
  nr : ℤ
  buf : List ℤ
  oldalarm : ℤ
  time : ℤ
  minimum : ℤ
  flag : Bool
  seen : List ℤ
  expired : Bool

/-- `tty_read` up to its loop. -/
def Setting.tty_read (k : Setting) (channel : ℕ) (nr : ℤ) : Reader :=
  if 2 < channel ∨ nr < 0 then
    { k with pc := .returned (-1) false, nr := nr, buf := [], oldalarm := 0, time := 0, minimum := 0
             flag := false, seen := [], expired := false }
  else
    let minimum : ℤ :=
      if k.time ≠ 0 ∧ k.termios.c_cc VMIN = 0 then 1 else ((k.termios.c_cc VMIN : ℕ) : ℤ)
    { k with pc := .loop
             nr := nr
             buf := []
             oldalarm := k.alarm
             time := k.time
             minimum := if nr < minimum then nr else minimum
             flag := k.lent
             seen := []
             expired := false
             alarm := if k.lent then long (k.time + k.jiffies) else k.alarm }

namespace Reader

variable (r : Reader)

/-- Nothing may be taken: the queue is empty, or no line in it has ended yet. -/
def waits : Bool :=
  r.secondary.EMPTY ∨ (r.termios.L_CANON ∧ r.secondary.data = 0 ∧ 20 < r.secondary.LEFT)

/-- The tests at the head of the loop. -/
def loop : Reader :=
  if r.nr ≤ 0 then { r with pc := .finish }
  else if r.flag ∧ r.signal &&& ALRMMASK ≠ 0 then
    { r with signal := r.signal &&& ~~~ALRMMASK, pc := .finish }
  else if r.signal ≠ 0 then { r with pc := .finish }
  else { r with pc := if r.waits then .asleep else .take }

/-- `GETCH`, and the tests of the character. -/
def take : Reader :=
  let c := r.secondary.next
  let q := r.secondary.GETCH
  { r with secondary := if r.termios.ends c then { q with data := q.data - 1 } else q
           pc := if c = r.termios.EOF_CHAR ∧ r.termios.L_CANON then .returned r.buf.length true
             else .store c
           seen := if r.buf = [] then r.secondary.chars else r.seen }

/-- `put_fs_byte` is done: the tests at the end of the inner loop. -/
def store (c : ℤ) : Reader :=
  { r with buf := r.buf ++ [c]
           nr := r.nr - 1
           pc := if 0 < r.nr - 1 ∧ ¬r.secondary.EMPTY then .take else .after }

/-- After the inner loop: the timeout starts again, and it is decided whether there is enough. -/
def after : Reader :=
  let again := r.time ≠ 0 ∧ ¬r.termios.L_CANON
  let later := r.later r.time r.oldalarm
  { r with flag := if again then later else r.flag
           alarm := if again then (if later then long (r.time + r.jiffies) else r.oldalarm) else r.alarm
           pc := if r.termios.L_CANON then (if r.buf ≠ [] then .finish else .loop)
             else if r.minimum ≤ r.buf.length then .finish else .loop }

/-- After the outer loop. -/
def finish : Reader :=
  { r with alarm := r.oldalarm
           pc := .returned (if r.signal ≠ 0 ∧ r.buf = [] then -EINTR else r.buf.length) false }

/-- What `tty_read` does next; `none` while it sleeps and when it has returned. -/
def run : Option Reader :=
  match r.pc with
  | .loop => some r.loop
  | .asleep => if r.signal = 0 ∧ r.secondary.EMPTY then none else some { r with pc := .loop }
  | .take => some r.take
  | .store c => some (r.store c)
  | .after => some r.after
  | .finish => some r.finish
  | .returned _ _ => none

/-- Other tasks may run: in `sleep_if_empty`, and in a page fault of `put_fs_byte`. -/
def sleeps : Bool :=
  match r.pc with
  | .asleep => true
  | .store _ => true
  | _ => false

end Reader

/-- A step of `tty_read`, or what happens meanwhile: the secondary queue is another, a tick, signals,
and `schedule` finds that the alarm has expired. -/
inductive ReadEvent
  | run
  | input (secondary : Queue)
  | tick
  | kill (mask : BitVec 32)
  | expire

def Reader.step (r : Reader) : ReadEvent → Option Reader
  | .run => r.run
  | .input q => some { r with secondary := q }
  | .tick => some { r with jiffies := long (r.jiffies + 1) }
  | .kill mask => some { r with signal := r.signal ||| mask }
  | .expire =>
    if r.sleeps ∧ r.alarm ≠ 0 ∧ r.alarm < r.jiffies then
      some { r with signal := r.signal ||| ALRMMASK, alarm := 0, expired := true }
    else none

end OldLinux.Tty.Reading
