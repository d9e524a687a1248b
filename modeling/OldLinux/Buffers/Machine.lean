import OldLinux.Lib.Processes
import Mathlib.Data.List.Perm.Basic

/-!
# The buffer cache and the block requests

The state that `buffer.c`, `ll_rw_blk.c` and the inode part of the cache work on: the buffer heads
with their hash queues and free list, the request slots with the queue of each device, the inodes
and super blocks as far as `sync_inodes` reads them, and the contents of the disks.

A buffer head, a request slot and an inode are named by their index in the table they are in.  The
queues that the source links through the entries are lists.  What a disk block holds is a parameter;
how inodes lie in it is said by `Format`.
-/

namespace OldLinux.Buffers

open Function Lib.Processes

/-- `b_dev` and `b_blocknr`: what block a buffer is for. -/
structure Tag where
  dev : BitVec 16
  blocknr : BitVec 32
deriving DecidableEq

structure BufferHead (D : Type) where
  data : D
  tag : Tag
  uptodate : Bool
  dirt : Bool
  count : BitVec 8
  lock : Bool

inductive Rw where
  | read
  | write
  | reada
  | writea
deriving DecidableEq

/-- The numbers in `fs.h`. -/
def Rw.code : Rw → ℕ
  | .read => 0
  | .write => 1
  | .reada => 2
  | .writea => 3

/-- A request slot; `dev` is -1 if there is no request.  `tag` and `id` are for the proofs: the block
the request was made for, and its place in the order in which requests are made. -/
structure Request where
  dev : ℤ
  cmd : Rw
  sector : BitVec 32
  bh : ℕ
  tag : Tag
  id : ℕ

/-- What is on the disk of an inode. -/
structure DInode where
  mode : BitVec 16
  size : BitVec 32
  nlinks : BitVec 8
  zone : ℕ → BitVec 16

structure Inode where
  disk : DInode
  dev : BitVec 16
  num : BitVec 16
  count : BitVec 16
  lock : Bool
  dirt : Bool
  pipe : Bool
  mount : Bool

structure Super where
  dev : BitVec 16
  imapBlocks : BitVec 16
  zmapBlocks : BitVec 16
  lock : Bool

/-- How the inodes lie in a block. -/
class Format (D : Type) where
  inode : D → ℕ → DInode
  putInode : D → ℕ → DInode → D

/-- A reference to a buffer, with the block the buffer was for when the reference was taken. -/
structure Ref where
  bh : ℕ
  tag : Tag
deriving DecidableEq

/-- `bufferWait` and `waitForRequest` count the calls of `wake_up` for those who sleep there.
`mounted` are the bitmap buffers that mounted super blocks hold.  The last three fields are for the
proofs: the references of processes that are dead, how many requests were made and which of them
were completed. -/
structure Kernel (D : Type) where
  buffers : ℕ
  bh : ℕ → BufferHead D
  hash : ℕ → List ℕ
  freeList : List ℕ
  bufferWait : ℕ
  request : ℕ → Request
  queue : ℕ → List ℕ
  driver : ℕ → Bool
  waitForRequest : ℕ
  inode : ℕ → Inode
  super : ℕ → Super
  mounted : List Ref
  disk : Tag → D
  lost : List Ref
  made : ℕ
  completed : List ℕ

/-- What a process has: the references it holds, the buffer it waits for in `lock_buffer` if it
holds one, the buffer it has locked for a request that it has not queued yet, and the inodes it has
locked. -/
structure Own where
  held : List Ref
  wants : Option Ref
  locked : Option Ref
  inodes : List ℕ

/-- A process that does nothing. -/
def Own.none : Own := ⟨[], .none, .none, []⟩

def Own.get (x : Own) (r : Ref) : Own := { x with held := r :: x.held }

def Own.Holds (x : Own) (b : ℕ) : Prop := ∃ r ∈ x.held, r.bh = b

instance (x : Own) (b : ℕ) : Decidable (x.Holds b) := inferInstanceAs (Decidable (∃ r ∈ x.held, _))

/-- Give back a reference to the buffer. -/
def Own.put (x : Own) (b : ℕ) : Own := { x with held := x.held.eraseP (·.bh = b) }

namespace Kernel

variable {D : Type}

def setBh (k : Kernel D) (b : ℕ) (f : BufferHead D → BufferHead D) : Kernel D :=
  { k with bh := update k.bh b (f (k.bh b)) }

def setInode (k : Kernel D) (i : ℕ) (f : Inode → Inode) : Kernel D :=
  { k with inode := update k.inode i (f (k.inode i)) }

/-! ### The cache -/

def hashfn (t : Tag) : ℕ := (t.dev.zeroExtend 32 ^^^ t.blocknr).toNat % 307

def findBuffer (k : Kernel D) (t : Tag) : Option ℕ :=
  (k.hash (hashfn t)).find? fun b => (k.bh b).tag = t

def removeFromQueues (k : Kernel D) (b : ℕ) : Kernel D :=
  let h := hashfn (k.bh b).tag
  { k with
    hash := update k.hash h ((k.hash h).erase b)
    freeList := k.freeList.erase b }

/-- At the end of the free list, and in the hash queue if the buffer has a device. -/
def insertIntoQueues (k : Kernel D) (b : ℕ) : Kernel D :=
  let h := hashfn (k.bh b).tag
  { k with
    freeList := k.freeList ++ [b]
    hash := if (k.bh b).tag.dev = 0 then k.hash else update k.hash h (b :: k.hash h) }

def badness (k : Kernel D) (b : ℕ) : ℕ := 2 * (k.bh b).dirt.toNat + (k.bh b).lock.toNat

/-- The loop of `getblk` along the free list: the first of the least bad unused buffers. -/
def leastBad (k : Kernel D) : List ℕ → Option ℕ → Option ℕ
  | [], bh => bh
  | tmp :: rest, bh =>
    if (k.bh tmp).count ≠ 0 then k.leastBad rest bh
    else if bh.all fun b => k.badness tmp < k.badness b then
      if k.badness tmp = 0 then some tmp else k.leastBad rest (some tmp)
    else k.leastBad rest bh

/-- The end of `getblk`: the buffer is used for another block. -/
def assign (k : Kernel D) (b : ℕ) (t : Tag) : Kernel D :=
  let k := k.setBh b fun h => { h with count := 1, dirt := false, uptodate := false }
  ((k.removeFromQueues b).setBh b fun h => { h with tag := t }).insertIntoQueues b

/-! ### Requests -/

def major (dev : ℤ) : ℕ := (dev % 2 ^ 32).toNat / 256

/-- `IN_ORDER` -/
def inOrder (k : Kernel D) (s1 s2 : ℕ) : Prop :=
  let r1 := k.request s1
  let r2 := k.request s2
  r1.cmd.code < r2.cmd.code ∨ r1.cmd.code = r2.cmd.code ∧
  (r1.dev < r2.dev ∨ r1.dev = r2.dev ∧ r1.sector < r2.sector)

instance (k : Kernel D) (s1 s2 : ℕ) : Decidable (k.inOrder s1 s2) := by
  unfold inOrder
  infer_instance

/-- The loop of `add_request` from `tmp` on: the request goes behind the first one where it is in
order, or to the end. -/
def elevator (k : Kernel D) (req : ℕ) : List ℕ → List ℕ
  | [] => [req]
  | [tmp] => [tmp, req]
  | tmp :: next :: rest =>
    if (k.inOrder tmp req ∨ ¬k.inOrder tmp next) ∧ k.inOrder req next then
      tmp :: req :: next :: rest
    else tmp :: k.elevator req (next :: rest)

def addRequest (k : Kernel D) (m req : ℕ) : Kernel D :=
  let k := k.setBh (k.request req).bh fun h => { h with dirt := false }
  { k with queue := update k.queue m (k.elevator req (k.queue m)) }

/-- The slots of requests: writes may use the lower two thirds only. -/
def slots (rw : Rw) : ℕ := if rw = .read then 32 else 32 * 2 / 3

/-- The search for an empty request, from above. -/
def emptyRequest (k : Kernel D) (rw : Rw) : Option ℕ :=
  (List.range (slots rw)).reverse.find? fun req => (k.request req).dev < 0

def fillRequest (k : Kernel D) (req : ℕ) (rw : Rw) (b : ℕ) : Kernel D :=
  let t := (k.bh b).tag
  { k with
    request := update k.request req ⟨t.dev.toNat, rw, t.blocknr <<< 1, b, t, k.made⟩
    made := k.made + 1 }

/-- The driver has moved the data of the current request. -/
def transfer (k : Kernel D) (req : ℕ) : Kernel D :=
  let r := k.request req
  if r.cmd = .read then k.setBh r.bh fun h => { h with data := k.disk r.tag }
  else { k with disk := update k.disk r.tag (k.bh r.bh).data }

/-- `end_request` for the current request of a device, if there is one. -/
def endRequest (k : Kernel D) (m : ℕ) (uptodate : Bool) : Option (Kernel D) :=
  match k.queue m with
  | [] => none
  | req :: rest =>
    let r := k.request req
    let k := k.setBh r.bh fun h => { h with uptodate := uptodate, lock := false }
    some { k with
      waitForRequest := k.waitForRequest + 1
      request := update k.request req { r with dev := -1 }
      queue := update k.queue m rest
      completed := r.id :: k.completed }

/-- The device completes its current request. -/
def complete (k : Kernel D) (m : ℕ) (uptodate : Bool) : Option (Kernel D) :=
  match k.queue m with
  | [] => none
  | req :: _ => (if uptodate then k.transfer req else k).endRequest m uptodate

/-- The driver counts the sectors of its current request. -/
def progress (k : Kernel D) (m : ℕ) (sector : BitVec 32) : Option (Kernel D) :=
  match k.queue m with
  | [] => none
  | req :: _ => some { k with
      request := update k.request req { k.request req with sector := sector } }

/-- The panics of `INIT_REQUEST`. -/
def initRequest (k : Kernel D) (m : ℕ) : Option String :=
  match k.queue m with
  | [] => none
  | req :: _ =>
    if major (k.request req).dev ≠ m then some "request list destroyed"
    else if !(k.bh (k.request req).bh).lock then some "block not locked"
    else none

/-- The super block of a device. -/
def findSuper (k : Kernel D) (dev : BitVec 16) : Option ℕ :=
  (List.range 8).find? fun s => (k.super s).dev = dev

end Kernel

end OldLinux.Buffers
