import Mathlib.Data.Fintype.Pi
import OldLinux.Lib.Trace

/-!
# A directory that many processes change

`find_entry` and `add_entry` over the blocks of one directory, and the system calls that create and
remove its entries: `open_namei` with `O_CREAT`, `sys_mknod`, `sys_mkdir`, `sys_link`, `sys_unlink` and
`sys_rmdir`.  A call may be interrupted before each block it reads, in `new_block` inside
`create_block`, in `new_inode`, and between `find_entry` and the end of an entry.  Any read of a block or
an indirect block may fail.  `..`, which every directory has, is no name to create or remove.
-/

namespace OldLinux.Directory

open Function Lib

/-! ### Names -/

/-- The fourteen bytes of a name on the disk. -/
abbrev Name := Fin 14 → BitVec 8

/-- The last component of a path. -/
structure Component where
  bytes : List (BitVec 8)
  nonempty : 0 < bytes.length
  noNul : ∀ c ∈ bytes, c ≠ 0

/-- `namelen`, cut off at `NAME_LEN`. -/
def Component.len (c : Component) : ℕ := min c.bytes.length 14

/-- The name as `add_entry` writes it. -/
def Component.padded (c : Component) : Name := fun i =>
  if i.val < c.len then c.bytes.getD i.val 0 else 0

structure Entry where
  inode : ℕ
  name : Name

/-- `match`. -/
def matches? (c : Component) (e : Entry) : Bool :=
  decide (e.inode ≠ 0 ∧ ∀ i : Fin 14, (i.val = c.len → e.name i = 0) ∧
    (i.val < c.len → e.name i = c.bytes.getD i.val 0))

/-! ### Blocks -/

/-- A place that holds the number of a block: `i_zone[k]`, or the `k`-th of an indirect block. -/
inductive Ref where
  | zone (k : ℕ)
  | indirect (block k : ℕ)
deriving DecidableEq

/-- The `i_zone` that `_bmap` starts from. -/
def firstRef (b : ℕ) : Ref := .zone (if b < 7 then b else if b < 519 then 7 else 8)

/-- The indices into the indirect blocks. -/
def restPath (b : ℕ) : List ℕ :=
  if b < 7 then [] else if b < 519 then [b - 7] else [(b - 519) / 512, (b - 519) % 512]

/-! ### Processes -/

inductive Call where
  /-- `open_namei`, `sys_mknod` or `sys_mkdir` -/
  | create (c : Component)
  /-- `sys_link` to this inode -/
  | link (c : Component) (inode : ℕ)
  /-- `sys_unlink` or `sys_rmdir` -/
  | remove (c : Component)

def Call.name : Call → Component
  | .create c => c
  | .link c _ => c
  | .remove c => c

/-- An inode has a number. -/
def Call.real : Call → Bool
  | .link _ inode => decide (inode ≠ 0)
  | _ => true

/-- Where a process is. -/
inductive Pc where
  | idle
  /-- `find_entry` on the way to block `b`, with `entries` as it was at the start -/
  | find (call : Call) (entries b : ℕ) (r : Ref) (rest : List ℕ)
  /-- `find_entry` when `bread` has come back with the block -/
  | findIn (call : Call) (entries b block : ℕ)
  /-- `new_inode`, and in `sys_mkdir` all that is done before `add_entry` -/
  | create (c : Component)
  /-- `add_entry` on the way to block `b` -/
  | add (c : Component) (inode b : ℕ) (r : Ref) (rest : List ℕ)
  /-- `new_block` inside `create_block`, when it has got a block -/
  | store (c : Component) (inode b : ℕ) (r : Ref) (rest : List ℕ) (block : ℕ)
  /-- `add_entry` when `bread` has come back with the block -/
  | addIn (c : Component) (inode b block : ℕ)
  /-- after `find_entry` in `sys_unlink` or `sys_rmdir`: `iget`, the checks, `empty_dir` -/
  | remove (c : Component) (block : ℕ) (k : Fin 64)

structure Dir where
  /-- `i_size`, in entries -/
  size : ℕ
  ptr : Ref → ℕ
  data : ℕ → Fin 64 → Entry
  /-- the blocks whose bit in the bitmap is set -/
  used : Finset ℕ
  proc : ℕ → Pc
  /-- history: the names created and not removed since -/
  owed : Name → Bool

namespace Dir

def setProc (σ : Dir) (P : ℕ) (pc : Pc) : Dir := { σ with proc := update σ.proc P pc }

/-- `bmap` from a reference on. -/
def bmapFrom (ptr : Ref → ℕ) : Ref → List ℕ → ℕ
  | r, [] => ptr r
  | r, k :: ks => if ptr r = 0 then 0 else bmapFrom ptr (.indirect (ptr r) k) ks

/-- The block of the directory with the index `b`, 0 when there is none. -/
def bmap (σ : Dir) (b : ℕ) : ℕ := bmapFrom σ.ptr (firstRef b) (restPath b)

/-! ### `find_entry` -/

/-- `add_entry` starts from `i_zone[0]`. -/
def addFrom (c : Component) (inode b : ℕ) : Pc := .add c inode b (firstRef b) (restPath b)

/-- `find_entry` has returned no entry. -/
def notFound : Call → Pc
  | .create c => .create c
  | .link c inode => addFrom c inode 0
  | .remove _ => .idle

/-- `find_entry` has returned an entry. -/
def found (call : Call) (block : ℕ) (k : Fin 64) : Pc :=
  match call with
  | .remove c => .remove c block k
  | _ => .idle

/-- `while (i < entries)`, at the start of a block. -/
def findFrom (call : Call) (entries b : ℕ) : Pc :=
  if 64 * b < entries then .find call entries b (firstRef b) (restPath b) else notFound call

/-- `find_entry` without the block `b`: it goes on behind it, but ends without the first one. -/
def findSkip (call : Call) (entries b : ℕ) : Pc :=
  if b = 0 then notFound call else findFrom call entries (b + 1)

/-- `find_entry` reads the number of a block. -/
def findPtr (σ : Dir) (call : Call) (entries b : ℕ) (r : Ref) (rest : List ℕ) : Pc :=
  if σ.ptr r = 0 then findSkip call entries b
  else match rest with
    | [] => .findIn call entries b (σ.ptr r)
    | k :: rest => .find call entries b (.indirect (σ.ptr r) k) rest

/-- `find_entry` looks through a block. -/
def findBlock (σ : Dir) (call : Call) (entries b block : ℕ) : Pc :=
  match (List.finRange 64).find? fun k =>
    decide (64 * b + k.val < entries) && matches? call.name (σ.data block k) with
  | some k => found call block k
  | none => findFrom call entries (b + 1)

/-! ### `add_entry` -/

/-- `add_entry` has the number of a block. -/
def addVia (c : Component) (inode b block : ℕ) : List ℕ → Pc
  | [] => .addIn c inode b block
  | k :: rest => .add c inode b (.indirect block k) rest

/-- `add_entry` reads the number of a block; for all but the first one `create_block` asks `new_block`
for one when there is none. -/
def addPtr (σ : Dir) (P : ℕ) (c : Component) (inode b : ℕ) (r : Ref) (rest : List ℕ) (new : Option ℕ) :
    Option Dir :=
  if σ.ptr r = 0 then
    if b = 0 then some (σ.setProc P .idle)
    else match new with
      | none => some (σ.setProc P .idle)
      | some block =>
        if block ≠ 0 ∧ block ∉ σ.used then
          some { σ.setProc P (.store c inode b r rest block) with used := insert block σ.used }
        else none
  else some (σ.setProc P (addVia c inode b (σ.ptr r) rest))

/-- The new block is cleared and its number stored. -/
def storePtr (σ : Dir) (P : ℕ) (c : Component) (inode b : ℕ) (r : Ref) (rest : List ℕ) (block : ℕ) : Dir :=
  { σ.setProc P (addVia c inode b block rest) with
    ptr := fun s => if s = r then block else match s with
      | .indirect blk _ => if blk = block then 0 else σ.ptr s
      | .zone _ => σ.ptr s
    data := update σ.data block fun _ => ⟨0, fun _ => 0⟩ }

/-- The first entry of the block that is free or behind the end. -/
def freeSlot (σ : Dir) (b block : ℕ) : Option (Fin 64) :=
  (List.finRange 64).find? fun k =>
    decide (σ.size ≤ 64 * b + k.val ∨ (σ.data block k).inode = 0)

def setEntry (σ : Dir) (block : ℕ) (k : Fin 64) (e : Entry) : Dir :=
  { σ with data := update σ.data block (update (σ.data block) k e) }

/-- `add_entry` writes the name, and the caller the inode. -/
def fill (σ : Dir) (P : ℕ) (c : Component) (inode b block : ℕ) (k : Fin 64) : Dir :=
  { (σ.setEntry block k ⟨inode, c.padded⟩).setProc P .idle with
    size := if σ.size ≤ 64 * b + k.val then 64 * b + k.val + 1 else σ.size
    owed := update σ.owed c.padded true }

/-- `add_entry` goes on behind a block that cannot be read, but ends without the first one. -/
def addSkip (c : Component) (inode b : ℕ) : Pc := if b = 0 then .idle else addFrom c inode (b + 1)

/-- `add_entry` looks through a block. -/
def addBlock (σ : Dir) (P : ℕ) (c : Component) (inode b block : ℕ) : Dir :=
  match σ.freeSlot b block with
  | some k => σ.fill P c inode b block k
  | none => σ.setProc P (addFrom c inode (b + 1))

/-! ### Removal -/

/-- `de->inode = 0`. -/
def clear (σ : Dir) (P : ℕ) (c : Component) (block : ℕ) (k : Fin 64) : Dir :=
  { (σ.setEntry block k ⟨0, (σ.data block k).name⟩).setProc P .idle with
    owed := update σ.owed c.padded false }

end Dir

/-! ### Runs -/

inductive Event where
  | call (call : Call)
  /-- the process goes on; `new` is what `new_block` has to offer -/
  | run (new : Option ℕ)
  /-- `bread` of the block, or of an indirect block on the way to it, fails -/
  | unread
  /-- the inode for the new entry, or none -/
  | inode (n : Option ℕ)
  /-- the call ends with an error -/
  | fail

namespace Dir

/-- A step of process `P`. -/
def step (σ : Dir) (e : ℕ × Event) : Option Dir :=
  match e.2, σ.proc e.1 with
  | .call call, .idle =>
    if call.real then some (σ.setProc e.1 (findFrom call σ.size 0)) else none
  | .run _, .find call entries b r rest => some (σ.setProc e.1 (σ.findPtr call entries b r rest))
  | .run _, .findIn call entries b block => some (σ.setProc e.1 (σ.findBlock call entries b block))
  | .unread, .find call entries b (.indirect _ _) _ => some (σ.setProc e.1 (findSkip call entries b))
  | .unread, .findIn call entries b _ => some (σ.setProc e.1 (findSkip call entries b))
  | .inode none, .create _ => some (σ.setProc e.1 .idle)
  | .inode (some n), .create c => if n ≠ 0 then some (σ.setProc e.1 (addFrom c n 0)) else none
  | .run new, .add c inode b r rest => σ.addPtr e.1 c inode b r rest new
  | .run _, .store c inode b r rest block => some (σ.storePtr e.1 c inode b r rest block)
  | .run _, .addIn c inode b block => some (σ.addBlock e.1 c inode b block)
  | .unread, .add _ _ _ (.indirect _ _) _ => some (σ.setProc e.1 .idle)
  | .unread, .addIn c inode b _ => some (σ.setProc e.1 (addSkip c inode b))
  | .run _, .remove c block k => some (σ.clear e.1 c block k)
  | .fail, .remove _ _ _ => some (σ.setProc e.1 .idle)
  | _, _ => none

/-- A live entry: the `k`-th of the block with the index `b`. -/
structure Live (σ : Dir) (b : ℕ) (k : Fin 64) : Prop where
  mapped : σ.bmap b ≠ 0
  inside : 64 * b + k.val < σ.size
  inode : (σ.data (σ.bmap b) k).inode ≠ 0

def nameAt (σ : Dir) (b : ℕ) (k : Fin 64) : Name := (σ.data (σ.bmap b) k).name

end Dir

end OldLinux.Directory
