import OldLinux.Buffers.Machine

/-!
# The functions of the buffer cache as code of a process

Each function of `buffer.c`, `ll_rw_blk.c` and of the inode part of the cache is code that sleeps
where the source sleeps.  A loop that goes on after a sleep, and the recursion from `getblk` through
`sync_dev` and `sync_inodes` back to `getblk`, have a bound on the number of rounds; a process that
comes to the bound sleeps for ever, so what holds for every bound holds of all that the source does
in any finite time.
-/

namespace OldLinux.Buffers

open Lib.Processes

/-- The places that are told apart. -/
inductive Place where
  /-- a step of its own -/
  | plain
  /-- `getblk` returns this buffer -/
  | returns (b : ℕ) (t : Tag)
  /-- the test of `b_dirt` in `getblk` -/
  | dirty (b : ℕ)
  /-- `wait_on_inode` and `lock_inode` -/
  | inode (i : ℕ)
  /-- an access to user memory -/
  | user
deriving DecidableEq

variable {D : Type}

abbrev Prog (D : Type) := Code Place (Kernel D) Own

/-- The state of the kernel. -/
def get : Prog D (Kernel D) := look .plain

/-- A change of the state of the kernel; the result is the state before it. -/
def modify (f : Kernel D → Kernel D) : Prog D (Kernel D) := change .plain fun k x => (f k, x)

/-- A process that has used up its rounds. -/
def stuck {α : Type} : Prog D α := .await .plain (fun _ => false) (.panic "")

/-! ## Buffers and requests -/

def waitOnBuffer (b : ℕ) : Prog D Unit := await .plain fun k => !(k.bh b).lock

/-- `b_count++` -/
def countUp (b : ℕ) : Prog D (Kernel D) :=
  change .plain fun k x =>
    (k.setBh b fun h => { h with count := h.count + 1 }, x.get ⟨b, (k.bh b).tag⟩)

/-- `b_count--` -/
def countDown (b : ℕ) : Prog D (Kernel D) :=
  change .plain fun k x => (k.setBh b fun h => { h with count := h.count - 1 }, x.put b)

/-- A store into a buffer that the process holds. -/
def store (b : ℕ) (f : D → D) : Prog D (Kernel D) :=
  modify fun k => k.setBh b fun h => { h with data := f h.data, dirt := true }

/-- `lock_buffer`: a process that has to sleep wants the buffer to stay what it is. -/
def lockBuffer (b : ℕ) : Prog D Unit := do
  let _ ← change .plain fun k x => (k, { x with
    wants := if (k.bh b).lock ∧ x.Holds b then some ⟨b, (k.bh b).tag⟩ else none })
  waitOnBuffer b
  let _ ← change .plain fun k x => (k.setBh b fun h => { h with lock := true },
    { x with wants := none, locked := some ⟨b, (k.bh b).tag⟩ })

def unlockBuffer (b : ℕ) : Prog D Unit := do
  let _ ← change .plain fun k x =>
    (k.setBh b fun h => { h with lock := false }, { x with locked := none })

/-- The `repeat` loop of `make_request`. -/
def findRequest (rw : Rw) (ahead : Bool) : ℕ → Prog D (Option ℕ)
  | 0 => stuck
  | n + 1 => do
      let k ← get
      match k.emptyRequest rw with
      | some req => pure (some req)
      | none =>
        if ahead then pure none
        else
          let k ← get
          await .plain fun k' => k'.waitForRequest ≠ k.waitForRequest
          findRequest rw ahead n

/-- The `request_fn` of a device begins with `INIT_REQUEST`. -/
def requestFn (m : ℕ) : Prog D Unit := do
  let k ← get
  match k.initRequest m with
  | some msg => .panic msg
  | none => pure ()

/-- `make_request` after the test for read-ahead. -/
def lockedRequest (n m : ℕ) (rw : Rw) (ahead : Bool) (b : ℕ) : Prog D Unit := do
  lockBuffer b
  let k ← get
  if rw = .write ∧ (k.bh b).dirt = false ∨ rw = .read ∧ (k.bh b).uptodate then unlockBuffer b
  else
    match ← findRequest rw ahead n with
    | none => unlockBuffer b
    | some req => do
        let k ← change .plain fun k x =>
          ((k.fillRequest req rw b).addRequest m req, { x with locked := none })
        if k.queue m = [] then requestFn m else pure ()

def makeRequest (n m : ℕ) (rw : Rw) (b : ℕ) : Prog D Unit :=
  match rw with
  | .reada => do
      let k ← get
      if (k.bh b).lock then pure () else lockedRequest n m .read true b
  | .writea => do
      let k ← get
      if (k.bh b).lock then pure () else lockedRequest n m .write true b
  | rw => lockedRequest n m rw false b

def llRwBlock (n : ℕ) (rw : Rw) (b : ℕ) : Prog D Unit := do
  let k ← get
  let m := Kernel.major (k.bh b).tag.dev.toNat
  if 7 ≤ m ∨ k.driver m = false then pure () else makeRequest n m rw b

/-- `get_hash_table` -/
def getHashTable (t : Tag) : ℕ → Prog D (Option ℕ)
  | 0 => stuck
  | n + 1 => do
      let k ← get
      match k.findBuffer t with
      | none => pure none
      | some b => do
          let _ ← countUp b
          waitOnBuffer b
          let k ← get
          if (k.bh b).tag = t then pure (some b)
          else do
            let _ ← countDown b
            getHashTable t n

/-- `while (bh->b_dirt)` in `getblk`; false if it goes back to `repeat`. -/
def clean (sync : BitVec 16 → Prog D Unit) (b : ℕ) : ℕ → Prog D Bool
  | 0 => stuck
  | n + 1 => do
      let k ← look (.dirty b)
      if (k.bh b).dirt then do
        sync (k.bh b).tag.dev
        waitOnBuffer b
        let k ← get
        if (k.bh b).count ≠ 0 then pure false else clean sync b n
      else pure true

/-- The `repeat` loop of `getblk`, with `sync_dev` as it is called there. -/
def getblkLoop (sync : BitVec 16 → Prog D Unit) (t : Tag) : ℕ → Prog D ℕ
  | 0 => stuck
  | n + 1 => do
      match ← getHashTable t n with
      | some b => pure b
      | none => do
          let k ← get
          match k.leastBad k.freeList none with
          | none => do
              let k ← get
              await .plain fun k' => k'.bufferWait ≠ k.bufferWait
              getblkLoop sync t n
          | some b => do
              waitOnBuffer b
              let k ← get
              if (k.bh b).count ≠ 0 then getblkLoop sync t n
              else if ← clean sync b n then do
                let k ← get
                if (k.findBuffer t).isSome then getblkLoop sync t n
                else if b ∉ k.freeList then .panic "Free block list corrupted"
                else do
                  let _ ← change .plain fun k x => (k.assign b t, x.get ⟨b, t⟩)
                  pure b
              else getblkLoop sync t n

def getblkWith (sync : BitVec 16 → Prog D Unit) (n : ℕ) (t : Tag) : Prog D ℕ := do
  let b ← getblkLoop sync t n
  let _ ← look (.returns b t)
  pure b

def brelse (b : ℕ) : Prog D Unit := do
  waitOnBuffer b
  let k ← countDown b
  if (k.bh b).count = 0 then .panic "Trying to free free buffer"
  else do
    let _ ← modify fun k => { k with bufferWait := k.bufferWait + 1 }

/-- `bread`, with `getblk` as it is called there. -/
def breadWith (getblk : Tag → Prog D ℕ) (n : ℕ) (t : Tag) : Prog D (Option ℕ) := do
  let b ← getblk t
  let k ← get
  if (k.bh b).uptodate then pure (some b)
  else do
    llRwBlock n .read b
    waitOnBuffer b
    let k ← get
    if (k.bh b).uptodate then pure (some b)
    else do
      brelse b
      pure none

/-! ## Inodes -/

def waitOnInode (i : ℕ) : Prog D Unit := await (.inode i) fun k => !(k.inode i).lock

def lockInode (i : ℕ) : Prog D Unit := do
  waitOnInode i
  let _ ← change .plain fun k x =>
    (k.setInode i fun v => { v with lock := true }, { x with inodes := i :: x.inodes })

def unlockInode (i : ℕ) : Prog D Unit := do
  let _ ← change .plain fun k x =>
    (k.setInode i fun v => { v with lock := false }, { x with inodes := x.inodes.erase i })

def getSuper (dev : BitVec 16) : ℕ → Prog D (Option ℕ)
  | 0 => stuck
  | n + 1 => do
      let k ← get
      if dev = 0 then pure none
      else
        match k.findSuper dev with
        | none => pure none
        | some s => do
            await .plain fun k => !(k.super s).lock
            let k ← get
            if (k.super s).dev = dev then pure (some s) else getSuper dev n

/-- The block an inode lies in, 32 inodes to a block. -/
def inodeBlock (k : Kernel D) (s i : ℕ) : Tag :=
  ⟨(k.inode i).dev, 2 + (k.super s).imapBlocks.zeroExtend 32 + (k.super s).zmapBlocks.zeroExtend 32 +
    ((k.inode i).num.zeroExtend 32 - 1) / 32⟩

/-- The place of an inode in its block. -/
def inodeSlot (k : Kernel D) (i : ℕ) : ℕ := (((k.inode i).num.zeroExtend 32 - 1) % 32).toNat

variable [Format D]

def writeInodeWith (getblk : Tag → Prog D ℕ) (n i : ℕ) : Prog D Unit := do
  lockInode i
  let k ← get
  if (k.inode i).dirt = false ∨ (k.inode i).dev = 0 then unlockInode i
  else
    match ← getSuper (k.inode i).dev n with
    | none => .panic "trying to write inode without device"
    | some s => do
        let k ← get
        match ← breadWith getblk n (inodeBlock k s i) with
        | none => .panic "unable to read i-node block"
        | some b => do
            let k ← get
            let _ ← store b fun d => Format.putInode d (inodeSlot k i) (k.inode i).disk
            let _ ← modify fun k => k.setInode i fun v => { v with dirt := false }
            brelse b
            unlockInode i

def syncInodesWith (getblk : Tag → Prog D ℕ) (n : ℕ) : Prog D Unit :=
  forEach (List.range 32) fun i => do
    waitOnInode i
    let k ← get
    if (k.inode i).dirt ∧ (k.inode i).pipe = false then writeInodeWith getblk n i else pure ()

/-- The loop body of `sync_dev`. -/
def writeOut (n : ℕ) (dev : BitVec 16) (b : ℕ) : Prog D Unit := do
  let k ← get
  if (k.bh b).tag.dev ≠ dev then pure ()
  else do
    waitOnBuffer b
    let k ← get
    if (k.bh b).tag.dev = dev ∧ (k.bh b).dirt then llRwBlock n .write b else pure ()

def syncDev : ℕ → BitVec 16 → Prog D Unit
  | 0, _ => stuck
  | n + 1, dev => do
      let k ← get
      forEach (List.range k.buffers) (writeOut n dev)
      syncInodesWith (getblkWith (syncDev n) n) n
      forEach (List.range k.buffers) (writeOut n dev)

def getblk (n : ℕ) (t : Tag) : Prog D ℕ := getblkWith (syncDev n) n t

def bread (n : ℕ) (t : Tag) : Prog D (Option ℕ) := breadWith (getblk n) n t

def writeInode (n i : ℕ) : Prog D Unit := writeInodeWith (getblk n) n i

def syncInodes (n : ℕ) : Prog D Unit := syncInodesWith (getblk n) n

def sysSync (n : ℕ) : Prog D Unit := do
  syncInodes n
  let k ← get
  forEach (List.range k.buffers) fun b => do
    waitOnBuffer b
    let k ← get
    if (k.bh b).dirt then llRwBlock n .write b else pure ()

def readInode (n i : ℕ) : Prog D Unit := do
  lockInode i
  let k ← get
  match ← getSuper (k.inode i).dev n with
  | none => .panic "trying to read inode without dev"
  | some s => do
      let k ← get
      match ← bread n (inodeBlock k s i) with
      | none => .panic "unable to read i-node block"
      | some b => do
          let _ ← modify fun k => k.setInode i fun v =>
            { v with disk := Format.inode (k.bh b).data (inodeSlot k i) }
          brelse b
          unlockInode i

/-- `breada`: the blocks after the first are read ahead.  The source asks for the first buffer again
instead of the one it has got. -/
def breada (n : ℕ) (dev : BitVec 16) (first : BitVec 32) (rest : List (BitVec 32)) : Prog D (Option ℕ) := do
  let b ← getblk n ⟨dev, first⟩
  let k ← get
  if (k.bh b).uptodate then pure () else llRwBlock n .read b
  forEach rest fun blocknr => do
    let tmp ← getblk n ⟨dev, blocknr⟩
    let k ← get
    if (k.bh tmp).uptodate then pure () else llRwBlock n .reada b
    let _ ← countDown tmp
  waitOnBuffer b
  let k ← get
  if (k.bh b).uptodate then pure (some b)
  else do
    brelse b
    pure none

/-- The first loop of `bread_page`; a block number 0 is no block. -/
def askPage (n : ℕ) (dev : BitVec 16) : List (BitVec 32) → Prog D (List ℕ)
  | [] => pure []
  | 0 :: rest => askPage n dev rest
  | blocknr :: rest => do
      let b ← getblk n ⟨dev, blocknr⟩
      let k ← get
      if (k.bh b).uptodate then pure () else llRwBlock n .read b
      let bs ← askPage n dev rest
      pure (b :: bs)

/-- `bread_page`; the copy goes to a page that is not part of this state. -/
def breadPage (n : ℕ) (dev : BitVec 16) (blocks : List (BitVec 32)) : Prog D Unit := do
  let bs ← askPage n dev blocks
  forEach bs fun b => do
    waitOnBuffer b
    brelse b

def invalidateBuffers (dev : BitVec 16) : Prog D Unit := do
  let k ← get
  forEach (List.range k.buffers) fun b => do
    let k ← get
    if (k.bh b).tag.dev ≠ dev then pure ()
    else do
      waitOnBuffer b
      let k ← get
      if (k.bh b).tag.dev = dev then do
        let _ ← modify fun k => k.setBh b fun h => { h with uptodate := false, dirt := false }
      else pure ()

end OldLinux.Buffers
