import OldLinux.Lib.LinkedList
import OldLinux.Memory.Paging

/-!
# `lib/malloc.cc`: the kernel's allocator

The allocator over the pages of `mm/memory.cc`.  Objects are words of memory, so the chain of free
objects goes through the objects themselves; the bucket descriptors are the cells of the lists that
start at `bucket_dir[i].chain` and at `free_bucket_desc`.  The search of `free_s`, which runs with
interrupts enabled, is a machine of its own that makes one access at a time; `free_s` without
interruption is that machine run to its end.

`malloc` and `free_s` stop with an error when they panic, and when a loop of theirs along a list goes
on for longer than there are descriptors.
-/

namespace OldLinux.Malloc

open Lib Memory

/-- `struct bucket_desc`. -/
structure BucketDesc where
  page : ℕ
  next : ℕ
  freeptr : ℕ
  refcnt : BitVec 16
  bucketSize : BitVec 16
deriving DecidableEq

/-- What `get_free_page` leaves where a descriptor is. -/
def BucketDesc.zero : BucketDesc := ⟨0, 0, 0, 0, 0⟩

/-- The descriptors are indexed by address.  `descPages` records the pages that `init_bucket_desc` has
made into descriptors; no function looks at it. -/
structure Allocator where
  mm : Mm
  desc : ℕ → BucketDesc
  chain : ℕ → ℕ
  freeBucketDesc : ℕ
  descPages : List ℕ

inductive Stop where
  | trap (t : Trap)
  | loops

abbrev MallocM := EStateM Stop Allocator

/-- A function of `mm/memory.cc`. -/
def mmCall {α : Type} (c : MmM α) : MallocM α := fun A =>
  match c A.mm with
  | .ok a s => .ok a { A with mm := s }
  | .error e s => .error (.trap e) { A with mm := s }

/-! ### Stores -/

/-- The word at an address, read as a pointer. -/
def Allocator.word (A : Allocator) (a : ℕ) : ℕ := (A.mm.mem (a / 4096) (a % 4096 / 4)).toNat

/-- `*((void **) a) = v`. -/
def Allocator.store (A : Allocator) (a v : ℕ) : Allocator :=
  { A with mm := A.mm.store (a / 4096) (a % 4096 / 4) (BitVec.ofNat 32 v) }

def Allocator.next (A : Allocator) (d : ℕ) : ℕ := (A.desc d).next

def Allocator.setDesc (A : Allocator) (d : ℕ) (b : BucketDesc) : Allocator :=
  { A with desc := Function.update A.desc d b }

def Allocator.setNext (A : Allocator) (d b : ℕ) : Allocator :=
  A.setDesc d { A.desc d with next := b }

def Allocator.setChain (A : Allocator) (i b : ℕ) : Allocator :=
  { A with chain := Function.update A.chain i b }

/-! ### `malloc` -/

/-- The sizes of `bucket_dir`, with the end marker. -/
def bucketDir : List ℕ := [16, 32, 64, 128, 256, 512, 1024, 2048, 4096, 0]

def bucketSize (i : ℕ) : ℕ := bucketDir.getD i 0

/-- `for (bdir = bucket_dir; bdir->size; bdir++) if (bdir->size >= (int)len) break;`. -/
def findBucket (len : Word) : ℕ :=
  bucketDir.findIdx fun (size : ℕ) => size = 0 ∨ len.toInt ≤ (size : ℤ)

/-- `bdesc->next = bdesc+1; bdesc++;`, `n` times. -/
def linkDescs : ℕ → ℕ → MallocM ℕ
  | bdesc, 0 => return bdesc
  | bdesc, n + 1 => do
      modify fun A => A.setNext bdesc (bdesc + 16)
      linkDescs (bdesc + 16) n

def initBucketDesc : MallocM Unit := do
  let first ← mmCall getFreePage
  if first = 0 then
    throw (.trap (.panic "Out of memory in init_bucket_desc()"))
  else
    modify fun A => { A with
      desc := fun d => if d / 4096 = first / 4096 then BucketDesc.zero else A.desc d
      descPages := first :: A.descPages }
    let bdesc ← linkDescs first 255
    modify fun A => { A.setNext bdesc A.freeBucketDesc with freeBucketDesc := first }

/-- `*((char **) cp) = cp + size; cp += size;`, `n` times, and the end of the chain. -/
def setUpChain (size : ℕ) : ℕ → ℕ → MallocM Unit
  | cp, 0 => modify fun A => A.store cp 0
  | cp, n + 1 => do
      modify fun A => A.store cp (cp + size)
      setUpChain size (cp + size) n

/-- The descriptor at the head of `free_bucket_desc` gets a new page and goes to the chain of
bucket `i`. -/
def fillBucket (i : ℕ) : MallocM ℕ := do
  let A ← get
  let bdesc := A.freeBucketDesc
  modify fun A => { A.setDesc bdesc { A.desc bdesc with
      refcnt := 0
      bucketSize := BitVec.ofNat 16 (bucketSize i) } with freeBucketDesc := A.next bdesc }
  let cp ← mmCall getFreePage
  modify fun A => A.setDesc bdesc { A.desc bdesc with page := cp, freeptr := cp }
  if cp = 0 then
    throw (.trap (.panic "Out of memory in kernel malloc()"))
  else
    setUpChain (bucketSize i) cp (4096 / bucketSize i - 1)
    modify fun A => (A.setNext bdesc (A.chain i)).setChain i bdesc
    return bdesc

/-- What `malloc` does when no descriptor of bucket `i` has a free object. -/
def newBucket (i : ℕ) : MallocM ℕ := do
  let A ← get
  if A.freeBucketDesc = 0 then
    initBucketDesc
    fillBucket i
  else
    fillBucket i

/-- `retval = bdesc->freeptr; bdesc->freeptr = *((void **) retval); bdesc->refcnt++;`. -/
def takeObject (bdesc : ℕ) : MallocM ℕ := do
  let A ← get
  let retval := (A.desc bdesc).freeptr
  modify fun A => A.setDesc bdesc { A.desc bdesc with
    freeptr := A.word retval
    refcnt := (A.desc bdesc).refcnt + 1 }
  return retval

/-- No list of cells at different addresses is that long. -/
def addresses : ℕ := 2 ^ 32

def malloc (len : Word) : MallocM ℕ := do
  let i := findBucket len
  if bucketSize i = 0 then
    throw (.trap (.panic "malloc: bad arg"))
  else
    let A ← get
    match walk A.next (fun d => (A.desc d).freeptr ≠ 0) addresses (A.chain i) with
    | none => throw .loops
    | some b =>
      if b = 0 then do
        let bdesc ← newBucket i
        takeObject bdesc
      else
        takeObject b

/-! ### The search of `free_s` -/

/-- Where the search is.  `look` has just set `bdesc`, `advance` has seen that `bdesc` is another
page's, and is about to set `prev` and go on to `bdesc->next`. -/
inductive Search where
  | dir (bdir : ℕ)
  | look (bdir prev bdesc : ℕ)
  | advance (bdir bdesc : ℕ)
  | found (bdir prev bdesc : ℕ)
  | lost
deriving DecidableEq

def Search.Done : Search → Prop
  | .found _ _ _ => True
  | .lost => True
  | _ => False

instance : DecidablePred Search.Done := fun s => by
  cases s <;> unfold Search.Done <;> infer_instance

def Allocator.searchStep (A : Allocator) (page : ℕ) (size : ℤ) : Search → Search
  | .dir i =>
    if bucketSize i = 0 then .lost
    else if (bucketSize i : ℤ) < size then .dir (i + 1)
    else .look i 0 (A.chain i)
  | .look i prev b =>
    if b = 0 then .dir (i + 1)
    else if (A.desc b).page = page then .found i prev b
    else .advance i b
  | .advance i b => .look i b (A.next b)
  | s => s

/-- The search without interruption, for at most `n` steps. -/
def Allocator.search (A : Allocator) (page : ℕ) (size : ℤ) : ℕ → Search → Option Search
  | 0, _ => none
  | n + 1, s => if s.Done then some s else A.search page size n (A.searchStep page size s)

/-! ### `free_s` -/

/-- `obj & 0xfffff000`. -/
def pageOf (obj : ℕ) : ℕ := obj / 4096 * 4096

/-- "We need to make sure that prev is still accurate": `prev` as `free_s` uses it. -/
def Allocator.accuratePrev (A : Allocator) (i prev bdesc : ℕ) : Option ℕ :=
  if prev ≠ 0 ∧ A.next prev ≠ bdesc ∨ prev = 0 ∧ A.chain i ≠ bdesc then
    walk A.next (fun d => A.next d = bdesc) addresses (A.chain i)
  else
    some prev

/-- What `free_s` does to take `bdesc` off the chain of bucket `i`. -/
def unlink (i prev bdesc : ℕ) : MallocM Unit := do
  let A ← get
  match A.accuratePrev i prev bdesc with
  | none => throw .loops
  | some prev =>
    if prev ≠ 0 then
      modify fun A => A.setNext prev (A.next bdesc)
    else if A.chain i ≠ bdesc then
      throw (.trap (.panic "malloc bucket chains corrupted"))
    else
      modify fun A => A.setChain i (A.next bdesc)

/-- The part of `free_s` between `cli` and `sti`. -/
def release (obj i prev bdesc : ℕ) : MallocM Unit := do
  modify fun A => A.store obj (A.desc bdesc).freeptr
  modify fun A => A.setDesc bdesc { A.desc bdesc with
    freeptr := obj
    refcnt := (A.desc bdesc).refcnt - 1 }
  let A ← get
  if (A.desc bdesc).refcnt = 0 then
    unlink i prev bdesc
    let A ← get
    mmCall (freePage (A.desc bdesc).page)
    modify fun A => { A.setNext bdesc A.freeBucketDesc with freeBucketDesc := bdesc }
  else
    return ()

/-- More steps than a search along lists of different cells takes. -/
def searchSteps : ℕ := 2 ^ 40

def freeS (obj : ℕ) (size : ℤ) : MallocM Unit := do
  let A ← get
  match A.search (pageOf obj) size searchSteps (.dir 0) with
  | some (.found i prev bdesc) => release obj i prev bdesc
  | some _ => throw (.trap (.panic "Bad address passed to kernel free_s()"))
  | none => throw .loops

/-! ### The allocator and its users -/

/-- The allocator with the objects that are allocated, each with the length that was asked for. -/
structure World where
  alloc : Allocator
  objects : List (ℕ × Word)

/-- An object and what follows it up to the next one. -/
def capacity (len : Word) : ℕ := bucketSize (findBucket len)

inductive Call where
  | malloc (len : Word)
  | free (obj : ℕ) (len : Word) (size : ℤ)
  /-- a user writes into the word at `a` of an object -/
  | write (a : ℕ) (w : Word)
deriving DecidableEq

/-- Lengths up to 4096, objects that are allocated with their length or 0, and words of objects. -/
def World.Allowed (W : World) : Call → Prop
  | .malloc len => len.toNat ≤ 4096
  | .free obj len size => (obj, len) ∈ W.objects ∧ (size = 0 ∨ size = len.toNat)
  | .write a _ => ∃ x ∈ W.objects, x.1 ≤ a ∧ a < x.1 + capacity x.2

def World.call (W : World) : Call → Option World
  | .malloc len =>
    match malloc len W.alloc with
    | .ok obj A => some ⟨A, (obj, len) :: W.objects⟩
    | .error _ _ => none
  | .free obj len size =>
    match freeS obj size W.alloc with
    | .ok _ A => some ⟨A, W.objects.erase (obj, len)⟩
    | .error _ _ => none
  | .write a w => some ⟨W.alloc.store a w.toNat, W.objects⟩

end OldLinux.Malloc
