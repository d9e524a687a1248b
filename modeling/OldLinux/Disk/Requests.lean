import OldLinux.Lib.Command
import OldLinux.Lib.TwoSweeps
import OldLinux.Buffers.Machine
import Mathlib.Data.Prod.Lex

/-!
# The request queue of a driver

What `blk.h` gives to every driver: `CURRENT`, and `end_request`.  A request is named by its slot, and
`current` are `current_request` and those that are linked behind it.

`CURRENT` may be NULL.  What the driver then reads as a request is what lies at address 0, the page
directory; `null` is its contents.  `touched` and `log` are for the proofs: where `CURRENT` has been followed
to, and what has happened to the requests, the latest first.
-/

namespace OldLinux.Disk

open Function Lib

inductive Trap
  | panic (message : String)
  /-- a division by zero -/
  | divide
  /-- the queue goes on at what is linked at address 0 -/
  | null
  /-- more rounds of `do_hd_request` than there can be -/
  | rounds

structure BufferHead where
  b_uptodate : Bool
  b_lock : Bool

structure Request where
  dev : ℤ
  cmd : Buffers.Rw
  errors : ℤ
  sector : BitVec 32
  nr_sectors : BitVec 32
  buffer : BitVec 32
  bh : Option ℕ

/-- The commands for the controller of the hard disks. -/
inductive Order
  | specify
  | restore
  | read
  | write
deriving DecidableEq

/-- What `hd_out` puts into the registers. -/
structure Command where
  drive : BitVec 32
  nsect : BitVec 32
  sect : BitVec 32
  head : BitVec 32
  cyl : BitVec 32
  cmd : Order

/-- What happens to the request in a slot. -/
inductive Note
  /-- it is made -/
  | made (c : ℕ) (r : Request)
  /-- a command is given while it is the current one; `r` is what it is then -/
  | command (c : ℕ) (r : Request) (x : Command)
  /-- 512 bytes go from or to the controller, at this address -/
  | data (c : ℕ) (buffer : BitVec 32)
  /-- a sector is transferred -/
  | sector (c : ℕ)
  | error (c : ℕ)
  | ended (c : ℕ) (uptodate : Bool)

/-- `CURRENT` is followed to a slot, or to NULL; or it goes on behind a slot. -/
inductive Access
  | to (c : Option ℕ)
  | removed (c : ℕ)
deriving DecidableEq

structure Requests where
  request : ℕ → Request
  current : List ℕ
  bh : ℕ → BufferHead
  null : Request
  touched : List Access
  log : List Note

namespace Requests

/-- What `*CURRENT` is. -/
def CURRENT (q : Requests) : Request :=
  match q.current with
  | [] => q.null
  | c :: _ => q.request c

/-- `CURRENT` is followed. -/
def touch (q : Requests) : Requests := { q with touched := .to q.current.head? :: q.touched }

def store (q : Requests) (f : Request → Request) : Requests :=
  match q.current with
  | [] => { q with null := f q.null }
  | c :: _ => { q with request := update q.request c (f (q.request c)) }

def note (q : Requests) (f : ℕ → Note) : Requests :=
  match q.current with
  | [] => q
  | c :: _ => { q with log := f c :: q.log }

/-- The request is taken from the queue, and its buffer unlocked. -/
def ended (q : Requests) (c : ℕ) (rest : List ℕ) (uptodate : Bool) : Requests :=
  { q with
    bh := match (q.request c).bh with
      | none => q.bh
      | some b => update q.bh b ⟨uptodate, false⟩
    request := update q.request c { q.request c with dev := -1 }
    current := rest
    touched := .removed c :: q.touched
    log := .ended c uptodate :: q.log }

/-- What `IN_ORDER` compares. -/
def key (q : Requests) (c : ℕ) : ℕ ×ₗ ℤ ×ₗ ℕ :=
  toLex ((q.request c).cmd.code, toLex ((q.request c).dev, (q.request c).sector.toNat))

/-- `make_request` has locked the buffer and fills the slot. -/
def filled (q : Requests) (c : ℕ) (r : Request) : Requests :=
  { q with
    bh := match r.bh with
      | none => q.bh
      | some b => update q.bh b { q.bh b with b_lock := true }
    request := update q.request c r
    log := .made c r :: q.log }

/-- The loop of `add_request` over a queue that is not empty. -/
def queued (q : Requests) (c : ℕ) : Requests := { q with current := place q.key c q.current }

end Requests

abbrev QueueM := EStateM Trap Requests

/-- `CURRENT->..` -/
def read_current : QueueM Request := do
  let q ← get
  modify .touch
  pure q.CURRENT

/-- `CURRENT->.. = ..` -/
def write_current (f : Request → Request) : QueueM Unit :=
  modify fun q => (q.store f).touch

def note (f : ℕ → Note) : QueueM Unit := modify fun q => q.note f

/-- `++CURRENT->errors` -/
def count_error : QueueM ℤ := do
  write_current fun r => { r with errors := r.errors + 1 }
  note .error
  let q ← get
  pure q.CURRENT.errors

def end_request (uptodate : Bool) : QueueM Unit := do
  let _ ← read_current
  let q ← get
  match q.current with
  | [] => throw .null
  | c :: rest => modify fun q => q.ended c rest uptodate

theorem store_CURRENT (q : Requests) (f : Request → Request) : (q.store f).CURRENT = f q.CURRENT := by
  obtain ⟨request, current, bh, null, touched, log⟩ := q
  cases current with
  | nil => rfl
  | cons c rest => exact update_self c _ _

theorem store_current (q : Requests) (f : Request → Request) : (q.store f).current = q.current := by
  rw [Requests.store]
  split <;> rfl

theorem note_CURRENT (q : Requests) (f : ℕ → Note) : (q.note f).CURRENT = q.CURRENT := by
  rw [Requests.note]
  split <;> rfl

/-! ### With a request in service -/

section Current

variable {q : Requests} {c : ℕ} {rest : List ℕ} {Q : Request → Requests → Prop} {P : Unit → Requests → Prop}
  {R : ℤ → Requests → Prop} {E : Trap → Requests → Prop} {f : Request → Request} {g : ℕ → Note}

theorem CURRENT_cons (h : q.current = c :: rest) : q.CURRENT = q.request c := by
  rw [Requests.CURRENT, h]

theorem wp_read_current (h : q.current = c :: rest) : wp read_current Q E q ↔ Q (q.request c) q.touch := by
  rw [← CURRENT_cons h]
  exact Iff.rfl

/-- The request in slot `c` is changed through `CURRENT`. -/
def Requests.put (q : Requests) (c : ℕ) (f : Request → Request) : Requests :=
  { q with
    request := update q.request c (f (q.request c))
    touched := .to (some c) :: q.touched }

theorem store_touch (h : q.current = c :: rest) : (q.store f).touch = q.put c f := by
  obtain ⟨request, current, bh, null, touched, log⟩ := q
  cases h
  rfl

theorem wp_write_current (h : q.current = c :: rest) : wp (write_current f) P E q ↔ P () (q.put c f) := by
  rw [write_current, wp_modify, store_touch h]

theorem wp_note (h : q.current = c :: rest) : wp (note g) P E q ↔ P () { q with log := g c :: q.log } := by
  rw [note, wp_modify, Requests.note, h]

/-- An error of the request in slot `c` is counted. -/
def Requests.counted (q : Requests) (c : ℕ) : Requests :=
  { q with
    request := update q.request c { q.request c with errors := (q.request c).errors + 1 }
    touched := .to (some c) :: q.touched
    log := .error c :: q.log }

theorem Requests.counted_self (q : Requests) (c : ℕ) :
    (q.counted c).request c = { q.request c with errors := (q.request c).errors + 1 } :=
  update_self c _ _

theorem Requests.counted_of_ne (q : Requests) {c s : ℕ} (h : s ≠ c) :
    (q.counted c).request s = q.request s := update_of_ne h _ _

theorem wp_count_error (h : q.current = c :: rest) :
    wp count_error R E q ↔ R ((q.request c).errors + 1) (q.counted c) := by
  rw [count_error, wp_bind, wp_write_current h]
  have hput : (q.put c fun r => { r with errors := r.errors + 1 }).current = c :: rest := h
  have hcounted : { q.put c fun r => { r with errors := r.errors + 1 } with
      log := .error c :: (q.put c fun r => { r with errors := r.errors + 1 }).log } = q.counted c := rfl
  have hcurrent : (q.counted c).current = c :: rest := h
  have hself : ((q.counted c).request c).errors = (q.request c).errors + 1 := by
    rw [Requests.counted_self]
  rw [wp_bind, wp_note hput, wp_bind, wp_get, wp_pure, hcounted, CURRENT_cons hcurrent, hself]

theorem wp_end_request {uptodate : Bool} (h : q.current = c :: rest) :
    wp (end_request uptodate) P E q ↔ P () (q.touch.ended c rest uptodate) := by
  rw [end_request, wp_bind, wp_read_current h, wp_bind, wp_get]
  have htouch : q.touch.current = c :: rest := h
  rw [htouch]
  exact Iff.rfl

theorem wp_end_request_nil {uptodate : Bool} (h : q.current = []) :
    wp (end_request uptodate) P E q ↔ E .null q.touch := by
  rw [end_request, wp_bind, read_current, wp_bind, wp_get, wp_bind, wp_modify, wp_pure, wp_bind, wp_get]
  have htouch : q.touch.current = [] := h
  rw [htouch]
  exact Iff.rfl

end Current

end OldLinux.Disk
