import OldLinux.Sched.WaitQueue

/-!
# Pipes

`read_pipe` and `write_pipe` on one pipe, for any number of readers and writers.  The two functions
are the same loop with the two ends exchanged.  A task gives up the processor in user mode, in
`sleep_on`, and where an access to its own buffer faults and `do_no_page` waits for the disk; nowhere
else does another task run.
-/

namespace OldLinux.Pipe

open Function Lib Sched

abbrev Byte := BitVec 8

/-- The two ends: `read_pipe` works at the tail, `write_pipe` at the head. -/
inductive Side where
  | read
  | write
deriving DecidableEq

def Side.other : Side → Side
  | .read => .write
  | .write => .read

/-- The variables of a call in progress. -/
structure Call where
  side : Side
  /-- the argument `count` -/
  asked : ℤ
  buf : ℕ
  count : ℤ
  /-- `read` or `written` -/
  done : ℤ
  /-- history: the place of the next byte in the stream -/
  pos : ℕ

/-- Where a call is. -/
inductive Pc where
  /-- `while (count>0)` -/
  | loop
  /-- `while (!(size=..))` -/
  | check
  | asleep
  /-- `while (chars-->0)` at the index `size` of the page -/
  | copy (size chars : ℕ)
  /-- in the copy loop, waiting for the page of the buffer to be loaded -/
  | fault (size chars : ℕ)

structure Task where
  call : Option (Call × Pc)
  /-- the memory of the process -/
  mem : ℕ → Byte
  /-- the pages of the process that have to be loaded from disk -/
  absent : ℕ → Bool
  /-- the ends the process has a descriptor of -/
  opened : Side → Bool
  /-- `SIGPIPE` is pending -/
  signal : Bool
  eax : ℤ

structure Machine where
  /-- `PIPE_HEAD`, an unsigned short -/
  head : ℕ
  /-- `PIPE_TAIL` -/
  tail : ℕ
  /-- the page at `i_size` -/
  page : ℕ → Byte
  iCount : ℕ
  /-- `i_wait` -/
  wait : WaitQueue
  current : ℕ
  task : ℕ → Task
  /-- history: by how much the head and the tail have gone on -/
  announced : ℕ
  released : ℕ
  /-- history: the bytes put into the page, in this order -/
  accepted : List Byte
  /-- history: the bytes put into the buffers of readers, in this order -/
  delivered : List Byte

namespace Machine

/-- `PIPE_SIZE`: `(PIPE_HEAD-PIPE_TAIL)&(PAGE_SIZE-1)`. -/
def size (σ : Machine) : ℕ := (((σ.head : ℤ) - σ.tail) % 4096).toNat

/-- The variable `size`: the bytes there are, or the bytes there is room for. -/
def room (σ : Machine) : Side → ℕ
  | .read => σ.size
  | .write => 4096 - 1 - σ.size

/-- `PIPE_TAIL` or `PIPE_HEAD`. -/
def index (σ : Machine) : Side → ℕ
  | .read => σ.tail
  | .write => σ.head

def total (σ : Machine) : Side → ℕ
  | .read => σ.released
  | .write => σ.announced

/-- The index of the side becomes `i`, `n` bytes further on. -/
def move (σ : Machine) (side : Side) (i n : ℕ) : Machine :=
  match side with
  | .read => { σ with tail := i, released := σ.released + n }
  | .write => { σ with head := i, announced := σ.announced + n }

def set (σ : Machine) (P : ℕ) (t : Task) : Machine := { σ with task := update σ.task P t }

def setCall (σ : Machine) (P : ℕ) (c : Call) (pc : Pc) : Machine :=
  σ.set P { σ.task P with call := some (c, pc) }

def ret (σ : Machine) (P : ℕ) (r : ℤ) : Machine :=
  σ.set P { σ.task P with call := none, eax := r }

def wakeUp (σ : Machine) : Machine := { σ with wait := σ.wait.wakeUp }

/-- `chars`, for a call in its loop. -/
def chars (σ : Machine) (c : Call) : ℤ :=
  let chars : ℤ := 4096 - σ.index c.side
  let chars := if chars > c.count then c.count else chars
  if chars > σ.room c.side then σ.room c.side else chars

/-- The index goes on by `chars`, before anything is copied. -/
def advance (σ : Machine) (P : ℕ) (c : Call) : Machine :=
  let chars := σ.chars c
  (σ.move c.side (((σ.index c.side : ℤ) + chars) % 2 ^ 16 % 4096).toNat chars.toNat).setCall P
    { c with count := c.count - chars, done := c.done + chars, pos := σ.total c.side }
    (.copy (σ.index c.side) chars.toNat)

/-- The other end is closed. -/
def broken (σ : Machine) (P : ℕ) (c : Call) : Machine :=
  match c.side with
  | .read => σ.ret P c.done
  | .write =>
    (σ.set P { σ.task P with signal := true }).ret P (if c.done ≠ 0 then c.done else -1)

/-- One byte between the page and the buffer. -/
def transfer (σ : Machine) (P : ℕ) (c : Call) (size : ℕ) : Machine :=
  match c.side with
  | .read =>
    { σ.set P { σ.task P with mem := update (σ.task P).mem c.buf (σ.page size) } with
      delivered := σ.delivered ++ [σ.page size] }
  | .write =>
    { σ with
      page := update σ.page size ((σ.task P).mem c.buf)
      accepted := σ.accepted ++ [(σ.task P).mem c.buf] }

/-- The next thing a call does. -/
def micro (σ : Machine) (P : ℕ) (c : Call) : Pc → Machine
  | .loop => if 0 < c.count then σ.setCall P c .check else σ.wakeUp.ret P c.done
  | .check =>
    if σ.room c.side = 0 then
      if σ.iCount ≠ 2 then σ.wakeUp.broken P c
      else { σ.wakeUp with wait := σ.wakeUp.wait.sleepOn P }.setCall P c .asleep
    else σ.advance P c
  | .asleep => { σ with wait := σ.wait.slept P }.setCall P c .check
  | .copy _ 0 => σ.setCall P c .loop
  | .copy size (chars + 1) =>
    if (σ.task P).absent (c.buf / 4096) then σ.setCall P c (.fault size (chars + 1))
    else (σ.transfer P c size).setCall P { c with buf := c.buf + 1, pos := c.pos + 1 } (.copy (size + 1) chars)
  | .fault size chars =>
    (σ.set P { σ.task P with
      absent := update (σ.task P).absent (c.buf / 4096) false }).setCall P c
      (.copy size chars)

/-- The process that runs is where `schedule` is called. -/
def yields (σ : Machine) : Bool :=
  match (σ.task σ.current).call with
  | none => true
  | some (_, .asleep) => true
  | some (_, .fault _ _) => true
  | some _ => false

/-- Somebody has the end open. -/
def Held (σ : Machine) (side : Side) : Prop := ∃ P < 64, (σ.task P).opened side = true

instance (σ : Machine) (side : Side) : Decidable (σ.Held side) := 
  inferInstanceAs (Decidable (∃ P, P < 64 ∧ (σ.task P).opened side = true))

/-- The descriptor goes; with the last one of this end goes the file, and `iput` of the inode. -/
def close (σ : Machine) (side : Side) : Machine :=
  let σ' := σ.set σ.current { σ.task σ.current with
    opened := update (σ.task σ.current).opened side false }
  if σ'.Held side then σ' else { σ'.wakeUp with iCount := σ'.iCount - 1 }

end Machine

inductive Event where
  /-- the process that runs goes on in the kernel -/
  | run
  /-- `schedule` picks another process -/
  | switch (P : ℕ)
  /-- `sys_read` or `sys_write` of a descriptor of the pipe -/
  | call (side : Side) (buf : ℕ) (count : ℤ)
  /-- the process runs in user mode -/
  | user (mem : ℕ → Byte) (absent : ℕ → Bool)
  | fork (nr : ℕ)
  | close (side : Side)

open Machine in
/-- One step: the process that runs is in user mode, or does the next thing of its call. -/
def step (σ : Machine) : Event → Option Machine
  | .run =>
    match (σ.task σ.current).call with
    | none => none
    | some (c, pc) =>
      if σ.wait.state σ.current = .running then some (σ.micro σ.current c pc) else none
  | .switch P =>
    if σ.yields = true ∧ P < 64 ∧ σ.wait.state P = .running then some { σ with current := P } else none
  | .call side buf count =>
    if (σ.task σ.current).call.isNone ∧ σ.current ≠ 0 ∧ (σ.task σ.current).opened side = true then
      some (σ.setCall σ.current ⟨side, count, buf, count, 0, 0⟩ .loop)
    else none
  | .user mem absent =>
    if (σ.task σ.current).call.isNone then
      some (σ.set σ.current { σ.task σ.current with mem := mem, absent := absent })
    else none
  | .fork nr =>
    if (σ.task σ.current).call.isNone ∧ nr < 64 ∧ nr ≠ σ.current ∧ (σ.task nr).call.isNone ∧
        (σ.task nr).opened .read = false ∧ (σ.task nr).opened .write = false then
      some (σ.set nr { σ.task σ.current with signal := false, eax := 0 })
    else none
  | .close side =>
    if (σ.task σ.current).call.isNone ∧ (σ.task σ.current).opened side = true then
      some (σ.close side)
    else none

/-- `sys_pipe` has made the pipe: nobody is in a call, both ends are open. -/
structure Start (σ : Machine) : Prop where
  head : σ.head = 0
  tail : σ.tail = 0
  iCount : σ.iCount = 2
  announced : σ.announced = 0
  released : σ.released = 0
  accepted : σ.accepted = []
  delivered : σ.delivered = []
  current : σ.current < 64
  idle : ∀ P, (σ.task P).call = none
  held : ∀ side, σ.Held side
  wait : σ.wait.Start
  running : ∀ P, σ.wait.state P = .running

/-- Task 1 has the end to write, and none of its pages but the first; task 2 has the end to read. -/
def writerAndReader : Machine where
  head := 0
  tail := 0
  page := fun _ => 0
  iCount := 2
  wait := ⟨none, fun _ => .running, fun _ => none⟩
  current := 1
  task := fun P => ⟨none, fun _ => 7, fun a => decide (0 < a),
    fun side => match side with
      | .read => decide (P = 2)
      | .write => decide (P = 1), false, 0⟩
  announced := 0
  released := 0
  accepted := []
  delivered := []

theorem writerAndReader_start : Start writerAndReader := by
  refine ⟨rfl, rfl, rfl, rfl, rfl, rfl, rfl, by decide, fun _ => rfl, ?_, ⟨rfl, fun _ => rfl⟩,
    fun _ => rfl⟩
  intro side
  cases side with
  | read => exact ⟨2, by decide, rfl⟩
  | write => exact ⟨1, by decide, rfl⟩

end OldLinux.Pipe
