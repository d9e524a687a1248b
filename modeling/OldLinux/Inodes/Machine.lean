import Mathlib.Data.Fin.Basic
import OldLinux.Lib.Trace

/-!
# The inode table

`iget`, `iput`, `get_empty_inode`, `new_inode` and `free_inode` on the 32 entries of `inode_table`, for
any number of processes.  A call is cut where it may sleep: in `wait_on_inode`, in the disk reads and
writes of `read_inode` and `write_inode`, in `sync_dev` and in `truncate`.  A search through the table
does not sleep and is one step.
-/

namespace OldLinux.Inodes

open Function Lib

/-- What an inode has on the disk, as far as it matters here. -/
structure DInode where
  nlinks : ℕ
  /-- `S_ISBLK(i_mode)` -/
  blk : Bool

structure Inode where
  dev : ℕ
  num : ℕ
  count : ℕ
  disk : DInode
  dirt : Bool
  lock : Bool
  mount : Bool

/-- `memset(inode,0,sizeof(*inode))`. -/
def Inode.zero : Inode := ⟨0, 0, 0, ⟨0, false⟩, false, false, false⟩

/-- The entry has this inode. -/
def Inode.is (t : Inode) (dev nr : ℕ) : Prop := t.dev = dev ∧ t.num = nr

instance (t : Inode) (dev nr : ℕ) : Decidable (t.is dev nr) :=
  inferInstanceAs (Decidable (_ ∧ _))

/-- Who has called `get_empty_inode`. -/
inductive Caller where
  | iget (dev nr : ℕ)
  | newInode (dev : ℕ)
  /-- a pipe -/
  | other

/-- Where `iput` goes back to. -/
inductive After where
  | done
  /-- `iget` goes on with the root of the device that is mounted there, with its empty entry -/
  | cross (empty : Fin 32) (dev : ℕ)

/-- Where a process is. -/
inductive Pc where
  | user
  /-- `get_empty_inode` in `wait_on_inode` -/
  | emptyWait (k : Caller) (i : Fin 32)
  /-- `get_empty_inode` in `write_inode` -/
  | emptyWrite (k : Caller) (i : Fin 32)
  /-- `iget` with its empty entry, at the start of the table -/
  | look (empty : Fin 32) (dev nr : ℕ)
  /-- `iget` in `wait_on_inode` -/
  | lookWait (empty : Fin 32) (dev nr : ℕ) (i : Fin 32)
  /-- `iget` in `read_inode` -/
  | read (i : Fin 32)
  /-- `new_inode` with its empty entry -/
  | newInode (i : Fin 32) (dev : ℕ)
  /-- `iput` in the first `wait_on_inode` -/
  | put (i : Fin 32) (k : After)
  /-- `iput` in the `wait_on_inode` before `repeat`: after `sync_dev` or `write_inode` -/
  | putAgain (i : Fin 32) (k : After)
  /-- `iput` in `write_inode` -/
  | putWrite (i : Fin 32) (k : After)
  /-- `iput` in `truncate` -/
  | putTrunc (i : Fin 32) (k : After)

structure Proc where
  pc : Pc
  /-- the references it has got and not given back -/
  held : List (Fin 32)

structure Table (n : ℕ) where
  inode : Fin 32 → Inode
  /-- `last_inode` -/
  last : Fin 32
  /-- the device of the super block with this `s_imount` -/
  sb : Fin 32 → Option ℕ
  disk : ℕ → ℕ → DInode
  /-- the inode bitmaps -/
  bit : ℕ → ℕ → Bool
  proc : Fin n → Proc
  panicked : Bool
  /-- history: how often the number was freed -/
  freed : ℕ → ℕ → ℕ

namespace Table

variable {n : ℕ}

def setInode (σ : Table n) (i : Fin 32) (t : Inode) : Table n :=
  { σ with inode := update σ.inode i t }

def setCount (σ : Table n) (i : Fin 32) (c : ℕ) : Table n :=
  σ.setInode i { σ.inode i with count := c }

def setProc (σ : Table n) (P : Fin n) (p : Proc) : Table n :=
  { σ with proc := update σ.proc P p }

def setPc (σ : Table n) (P : Fin n) (pc : Pc) : Table n := σ.setProc P { σ.proc P with pc := pc }

/-- The process has one more reference. -/
def hold (σ : Table n) (P : Fin n) (i : Fin 32) : Table n :=
  σ.setProc P { σ.proc P with held := i :: (σ.proc P).held }

def panic (σ : Table n) : Table n := { σ with panicked := true }

/-! ### `get_empty_inode` -/

/-- The entries in the order of the search. -/
def order (σ : Table n) : List (Fin 32) := (List.finRange 32).map fun d => σ.last + 1 + d

/-- The first entry that is free, clean and not locked. -/
def pickClean (σ : Table n) : Option (Fin 32) :=
  σ.order.find? fun i => decide ((σ.inode i).count = 0) && !(σ.inode i).dirt && !(σ.inode i).lock

/-- The last entry that is free. -/
def pickFree (σ : Table n) : Option (Fin 32) :=
  (σ.order.filter fun i => decide ((σ.inode i).count = 0)).getLast?

/-- The search of `get_empty_inode`, up to `wait_on_inode`. -/
def getEmpty (σ : Table n) (P : Fin n) (k : Caller) : Table n :=
  match σ.pickClean with
  | some i => { σ with last := i }.setPc P (.emptyWait k i)
  | none =>
    match σ.pickFree with
    | some i => σ.setPc P (.emptyWait k i)
    | none => σ.panic

/-- The entry is cleared and given to the caller. -/
def take (σ : Table n) (P : Fin n) (k : Caller) (i : Fin 32) : Table n :=
  let σ := σ.setInode i { Inode.zero with count := 1 }
  match k with
  | .iget dev nr => σ.setPc P (.look i dev nr)
  | .newInode dev => σ.setPc P (.newInode i dev)
  | .other => σ.setProc P ⟨.user, i :: (σ.proc P).held⟩

/-! ### Disk -/

/-- The end of `write_inode`. -/
def written (σ : Table n) (i : Fin 32) : Table n :=
  let t := σ.inode i
  { σ with
    inode := update σ.inode i { t with dirt := false, lock := false }
    disk := update σ.disk t.dev (update (σ.disk t.dev) t.num t.disk) }

def setLock (σ : Table n) (i : Fin 32) : Table n := σ.setInode i { σ.inode i with lock := true }

/-! ### `iget` -/

/-- The first entry with this inode. -/
def lookup (σ : Table n) (dev nr : ℕ) : Option (Fin 32) :=
  (List.finRange 32).find? fun i => decide ((σ.inode i).is dev nr)

/-- The entry is found and not locked. -/
def hit (σ : Table n) (P : Fin n) (empty i : Fin 32) : Table n :=
  let σ := σ.setCount i ((σ.inode i).count + 1)
  match if (σ.inode i).mount then σ.sb i else none with
  | none => σ.setProc P ⟨.put empty .done, i :: (σ.proc P).held⟩
  | some dev => σ.setPc P (.put i (.cross empty dev))

/-- The inode is not in the table, and `read_inode` begins. -/
def install (σ : Table n) (P : Fin n) (empty : Fin 32) (dev nr : ℕ) : Table n :=
  (σ.setInode empty { σ.inode empty with dev := dev, num := nr, lock := true }).setPc P (.read empty)

/-- The loop of `iget` from the start of the table. -/
def look (σ : Table n) (P : Fin n) (empty : Fin 32) (dev nr : ℕ) : Table n :=
  match σ.lookup dev nr with
  | some i => if (σ.inode i).lock then σ.setPc P (.lookWait empty dev nr i) else σ.hit P empty i
  | none => σ.install P empty dev nr

/-- The end of `read_inode`, and of `iget`. -/
def loaded (σ : Table n) (P : Fin n) (i : Fin 32) : Table n :=
  let t := σ.inode i
  (σ.setInode i { t with disk := σ.disk t.dev t.num, lock := false }).setProc P ⟨.user, i :: (σ.proc P).held⟩

/-! ### `new_inode` -/

/-- The rest of `new_inode`, with the number of a bit that was clear. -/
def allocated (σ : Table n) (P : Fin n) (i : Fin 32) (dev nr : ℕ) : Table n :=
  let t : Inode :=
    { σ.inode i with
      dev := dev, num := nr, count := 1, dirt := true
      disk := { (σ.inode i).disk with nlinks := 1 } }
  { (σ.setInode i t).setProc P ⟨.user, i :: (σ.proc P).held⟩ with
    bit := update σ.bit dev (update (σ.bit dev) nr true) }

/-! ### `iput` -/

/-- Where the caller of `iput` goes on. -/
def After.pc : After → Pc
  | .done => .user
  | .cross empty dev => .look empty dev 1

/-- `inode->i_count--; return`. -/
def drop (σ : Table n) (P : Fin n) (i : Fin 32) (k : After) : Table n :=
  (σ.setCount i ((σ.inode i).count - 1)).setPc P (After.pc k)

/-- `iput` from `repeat` on. -/
def putRepeat (σ : Table n) (P : Fin n) (i : Fin 32) (k : After) : Table n :=
  if 1 < (σ.inode i).count then σ.drop P i k
  else if (σ.inode i).disk.nlinks = 0 then σ.setPc P (.putTrunc i k)
  else if (σ.inode i).dirt then (σ.setLock i).setPc P (.putWrite i k)
  else σ.drop P i k

/-- `iput` after the first `wait_on_inode`. -/
def put (σ : Table n) (P : Fin n) (i : Fin 32) (k : After) : Table n :=
  if (σ.inode i).count = 0 then σ.panic
  else if (σ.inode i).dev = 0 then σ.drop P i k
  else if (σ.inode i).disk.blk then σ.setPc P (.putAgain i k)
  else σ.putRepeat P i k

/-- `free_inode`.  `iput` has seen that `i_dev` is not zero, and the reference keeps it. -/
def freeInode (σ : Table n) (P : Fin n) (i : Fin 32) (k : After) : Table n :=
  let t := σ.inode i
  if 1 < t.count ∨ t.disk.nlinks ≠ 0 then σ.panic
  else
    { (σ.setInode i Inode.zero).setPc P (After.pc k) with
      bit := update σ.bit t.dev (update (σ.bit t.dev) t.num false)
      freed := update σ.freed t.dev
        (update (σ.freed t.dev) t.num (σ.freed t.dev t.num + 1)) }

end Table

/-! ### Runs -/

inductive Event (n : ℕ) where
  | iget (dev nr : ℕ)
  | newInode (dev : ℕ)
  | getEmpty
  | iput (i : Fin 32)
  /-- `i_count++`: another reference to an inode that the process has, for process `Q` -/
  | share (i : Fin 32) (Q : Fin n)
  /-- the reference is handed over -/
  | give (i : Fin 32) (Q : Fin n)
  /-- the process changes an inode that it has -/
  | modify (i : Fin 32) (disk : DInode)
  /-- `sys_mount` and `sys_umount` -/
  | mount (i : Fin 32) (dev : Option ℕ)
  /-- the first clear bit of the bitmap, if there is one -/
  | bit (nr : Option ℕ)
  /-- the process goes on -/
  | run

namespace Table

variable {n : ℕ}

/-- A process that goes on in the kernel; nothing when it sleeps for a lock. -/
def run (σ : Table n) (P : Fin n) : Option (Table n) :=
  match (σ.proc P).pc with
  | .emptyWait k i =>
    if (σ.inode i).lock then none
    else if (σ.inode i).dirt then
      if (σ.inode i).dev = 0 then none else some ((σ.setLock i).setPc P (.emptyWrite k i))
    else if (σ.inode i).count = 0 then some (σ.take P k i)
    else some (σ.getEmpty P k)
  | .emptyWrite k i => some ((σ.written i).setPc P (.emptyWait k i))
  | .look empty dev nr => some (σ.look P empty dev nr)
  | .lookWait empty dev nr i =>
    if (σ.inode i).lock then none
    else if (σ.inode i).is dev nr then some (σ.hit P empty i)
    else some (σ.setPc P (.look empty dev nr))
  | .read i => some (σ.loaded P i)
  | .put i k => if (σ.inode i).lock then none else some (σ.put P i k)
  | .putAgain i k => if (σ.inode i).lock then none else some (σ.putRepeat P i k)
  | .putWrite i k => some ((σ.written i).setPc P (.putAgain i k))
  | .putTrunc i k => some (σ.freeInode P i k)
  | _ => none

/-- A step of process `P`. -/
def step (σ : Table n) (e : Fin n × Event n) : Option (Table n) :=
  if σ.panicked then none
  else match e.2, (σ.proc e.1).pc with
    | .iget dev nr, .user => if dev ≠ 0 then some (σ.getEmpty e.1 (.iget dev nr)) else none
    | .newInode dev, .user => if dev ≠ 0 then some (σ.getEmpty e.1 (.newInode dev)) else none
    | .getEmpty, .user => some (σ.getEmpty e.1 .other)
    | .iput i, .user =>
      if i ∈ (σ.proc e.1).held then
        some (σ.setProc e.1 ⟨.put i .done, (σ.proc e.1).held.erase i⟩)
      else none
    | .share i Q, .user =>
      if i ∈ (σ.proc e.1).held then some ((σ.setCount i ((σ.inode i).count + 1)).hold Q i) else none
    | .give i Q, .user =>
      if i ∈ (σ.proc e.1).held then
        some ((σ.setProc e.1 ⟨.user, (σ.proc e.1).held.erase i⟩).hold Q i)
      else none
    | .modify i disk, .user =>
      if i ∈ (σ.proc e.1).held then
        some (σ.setInode i { σ.inode i with disk := disk, dirt := true })
      else none
    | .mount i dev, .user =>
      if i ∈ (σ.proc e.1).held ∧ dev ≠ some 0 then
        some { σ.setInode i { σ.inode i with mount := dev.isSome } with
          sb := update σ.sb i dev }
      else none
    | .bit none, .newInode i _ => some (σ.setPc e.1 (.put i .done))
    | .bit (some nr), .newInode i dev =>
      if σ.bit dev nr = false then some (σ.allocated e.1 i dev nr) else none
    | .run, _ => σ.run e.1
    | _, _ => none

/-- The table is empty, and nobody has a reference. -/
structure Start (σ : Table n) : Prop where
  inode : ∀ i, σ.inode i = Inode.zero
  proc : ∀ P, σ.proc P = ⟨.user, []⟩
  sb : ∀ i, σ.sb i = none
  calm : σ.panicked = false

end Table

end OldLinux.Inodes
