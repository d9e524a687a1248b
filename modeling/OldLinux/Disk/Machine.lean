import OldLinux.Disk.Requests

/-!
# The hard disk driver

`hd.c` as a machine: a request comes to the queue, or the controller interrupts.  Between these the driver
waits, and `do_hd` says for what.

What the controller answers is arbitrary: the status that a handler finds, how each wait for the controller
to become ready ends, and how each wait for it to take data.  Left out are what goes to the ports besides
the command, the delays, and what is printed.
-/

namespace OldLinux.Disk

open Lib

inductive Handler
  | read_intr
  | write_intr
  | recal_intr
deriving DecidableEq

/-- `hd_i_struct`, as far as commands are computed from it. -/
structure Drive where
  head : BitVec 32
  sect : BitVec 32
  cyl : BitVec 32

/-- `hd_struct` -/
structure Partition where
  start_sect : BitVec 32
  nr_sects : BitVec 32

/-- What the controller answers in the course of an event. -/
structure Answers where
  /-- `HD_STATUS` at the beginning of a handler -/
  status : BitVec 8
  /-- whether it is ready, each time that `controller_ready` waits for it -/
  ready : ℕ → Bool
  /-- whether it asks for data, each time that it should -/
  drq : ℕ → Bool

/-- What `sys_setup` has found. -/
structure Disks where
  NR_HD : ℕ
  hd_info : ℕ → Drive
  hd : ℕ → Partition

structure Hd extends Requests where
  recalibrate : Bool
  reset : Bool
  do_hd : Option Handler
  disks : Disks
  answers : Answers

abbrev HdM := EStateM Trap Hd

def MAX_ERRORS : ℤ := 7

def MINOR (dev : ℤ) : ℕ := (dev % 256).toNat

def queue {α : Type} (c : QueueM α) : HdM α := within Hd.toRequests (fun q k => { k with toRequests := q }) c

theorem wp_queue {α : Type} (c : QueueM α) (Q : α → Hd → Prop) (E : Trap → Hd → Prop) (k : Hd) :
    wp (queue c) Q E k ↔ wp c (fun a q => Q a { k with toRequests := q })
      (fun e q => E e { k with toRequests := q }) k.toRequests := wp_within _ _ c Q E k

/-- True if there was an error. -/
def win_result : HdM Bool := do
  let k ← get
  pure (k.answers.status &&& 0xf1 ≠ 0x50)

def controller_ready : HdM Bool := do
  let k ← get
  modify fun k => { k with answers := { k.answers with ready := fun n => k.answers.ready (n + 1) } }
  pure (k.answers.ready 0)

/-- The loop that waits for `DRQ_STAT`. -/
def wait_drq : HdM Bool := do
  let k ← get
  modify fun k => { k with answers := { k.answers with drq := fun n => k.answers.drq (n + 1) } }
  pure (k.answers.drq 0)

def hd_out (x : Command) (intr_addr : Handler) : HdM Unit :=
  if 1 < x.drive ∨ 15 < x.head then throw (.panic "Trying to write bad sector")
  else do
    if ← controller_ready then do
      modify fun k => { k with do_hd := some intr_addr }
      let k ← get
      queue (note fun c => .command c k.CURRENT x)
    else throw (.panic "HD controller not ready")

def reset_hd (nr : ℕ) : HdM Unit := do
  let k ← get
  let d := k.disks.hd_info nr
  hd_out ⟨nr, d.sect, d.sect, d.head - 1, d.cyl, .specify⟩ .recal_intr

def bad_rw_intr : HdM Unit := do
  let errors ← queue count_error
  (if MAX_ERRORS ≤ errors then queue (end_request false) else pure ())
  let r ← queue read_current
  if MAX_ERRORS / 2 < r.errors then modify fun k => { k with reset := true } else pure ()

/-- Whether `do_hd_request` does not go on with the request. -/
def Disks.outside (d : Disks) (r : Request) : Bool :=
  5 * d.NR_HD ≤ MINOR r.dev ∨ (d.hd (MINOR r.dev)).nr_sects.toInt < (r.sector + 2).toInt

/-- The two divisions: where a block is. -/
def Drive.locate (d : Drive) (block : BitVec 32) : HdM (BitVec 32 × BitVec 32 × BitVec 32) :=
  if d.sect = 0 ∨ d.head = 0 then throw .divide
  else pure (block % d.sect + 1, block / d.sect % d.head, block / d.sect / d.head)

/-- `do_hd_request` with `goto repeat`, for a number of rounds. -/
def request_loop : ℕ → HdM Unit
  | 0 => throw .rounds
  | n + 1 => do
      let k ← get
      match k.current with
      | [] => pure ()
      | _ :: _ => do
          let r ← queue read_current
          if Buffers.Kernel.major r.dev ≠ 3 then throw (.panic "harddisk: request list destroyed")
          else if r.bh.any fun b => !(k.bh b).b_lock then throw (.panic "harddisk: block not locked")
          else if k.disks.outside r then do
            queue (end_request false)
            request_loop n
          else do
            let dev := MINOR r.dev / 5
            let (sec, head, cyl) ←
              (k.disks.hd_info dev).locate (r.sector + (k.disks.hd (MINOR r.dev)).start_sect)
            let nsect := r.nr_sectors
            if k.reset then do
              modify fun k => { k with reset := false, recalibrate := true }
              reset_hd dev
            else if k.recalibrate then do
              modify fun k => { k with recalibrate := false }
              hd_out ⟨dev, (k.disks.hd_info dev).sect, 0, 0, 0, .restore⟩ .recal_intr
            else match r.cmd with
              | .write => do
                  hd_out ⟨dev, nsect, sec, head, cyl, .write⟩ .write_intr
                  if ← wait_drq then queue (note fun c => .data c r.buffer)
                  else do
                    bad_rw_intr
                    request_loop n
              | .read => hd_out ⟨dev, nsect, sec, head, cyl, .read⟩ .read_intr
              | _ => throw (.panic "unknown hd-command")

/-- Each round ends a request or counts one of its errors. -/
def do_hd_request : HdM Unit := do
  let k ← get
  request_loop (7 * k.current.length + 1)

def read_intr : HdM Unit := do
  if ← win_result then do
    bad_rw_intr
    do_hd_request
  else do
    let r ← queue read_current
    queue (note fun c => .data c r.buffer)
    queue (note .sector)
    queue (write_current fun r => { r with
      errors := 0, buffer := r.buffer + 512, sector := r.sector + 1, nr_sectors := r.nr_sectors - 1 })
    if r.nr_sectors - 1 ≠ 0 then modify fun k => { k with do_hd := some .read_intr }
    else do
      queue (end_request true)
      do_hd_request

def write_intr : HdM Unit := do
  if ← win_result then do
    bad_rw_intr
    do_hd_request
  else do
    let r ← queue read_current
    queue (note .sector)
    queue (write_current fun r => { r with nr_sectors := r.nr_sectors - 1 })
    if r.nr_sectors - 1 ≠ 0 then do
      queue (write_current fun r => { r with sector := r.sector + 1, buffer := r.buffer + 512 })
      modify fun k => { k with do_hd := some .write_intr }
      queue (note fun c => .data c (r.buffer + 512))
    else do
      queue (end_request true)
      do_hd_request

def recal_intr : HdM Unit := do
  let bad ← win_result
  (if bad then bad_rw_intr else pure ())
  do_hd_request

/-- An interrupt that nobody waits for is only reported. -/
def hd_interrupt : HdM Unit := do
  let k ← get
  modify fun k => { k with do_hd := none }
  match k.do_hd with
  | none => pure ()
  | some .read_intr => read_intr
  | some .write_intr => write_intr
  | some .recal_intr => recal_intr

/-- The end of `make_request`, with `add_request`. -/
def add_request (c : ℕ) (r : Request) : HdM Unit := do
  let k ← get
  queue (modify fun q => q.filled c r)
  match k.current with
  | [] => do
      queue (modify fun q => { q with current := [c] })
      do_hd_request
  | _ :: _ => queue (modify fun q => q.queued c)

inductive Event
  | request (c : ℕ) (r : Request)
  | interrupt

def Event.run : Event → HdM Unit
  | .request c r => add_request c r
  | .interrupt => hd_interrupt

/-- An event, with what the controller answers in its course.  A driver that stops has no next state. -/
def step (k : Hd) (e : Event × Answers) : Option Hd :=
  match e.1.run { k with answers := e.2 } with
  | .ok _ k' => some k'
  | .error _ _ => none

/-- What `make_request` asks for: a free slot, a buffer that it has locked, and two sectors. -/
structure Made (k : Hd) (c : ℕ) (r : Request) : Prop where
  slot : c ∉ k.current
  major : Buffers.Kernel.major r.dev = 3
  cmd : r.cmd = .read ∨ r.cmd = .write
  errors : r.errors = 0
  nr_sectors : r.nr_sectors = 2
  bh : ∃ b, r.bh = some b ∧ (k.bh b).b_lock = false

def CanHappen (k : Hd) (e : Event × Answers) : Prop :=
  match e.1 with
  | .request c r => Made k c r
  | .interrupt => True

end OldLinux.Disk
