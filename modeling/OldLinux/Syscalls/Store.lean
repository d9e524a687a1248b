import Mathlib.Data.Fin.Basic
import OldLinux.Lib.Command

/-!
# The inode table between two system calls

The inodes in memory and the functions of `fs/inode.cc` and `fs/bitmap.cc` that give out references to
them, for system calls that run one after another: nothing is locked, and nobody comes in between.  What
is read from the disk is any, and a command may stop with a panic, or with the death of the process when
an address that it was given is bad.
-/

namespace OldLinux.Syscalls

open Lib

/-- Why a system call does not return. -/
inductive Stop where
  | panic
  /-- an endless loop -/
  | hang
  /-- user memory cannot be read or written, and `die` calls `do_exit` -/
  | killed

/-- What an inode has on the disk, as far as it matters here. -/
structure DInode where
  mode : ℕ
  uid : ℕ
  gid : ℕ
  nlinks : ℕ
  /-- `i_zone[0]` -/
  zone : ℕ

/-- `i_count` is an `unsigned short`, but there are not that many places for a reference. -/
structure Inode where
  mode : ℕ
  uid : ℕ
  gid : ℕ
  nlinks : ℕ
  zone : ℕ
  dev : ℕ
  num : ℕ
  count : ℕ
  dirt : Bool
  pipe : Bool
  mount : Bool

/-- `memset(inode,0,sizeof(*inode))`. -/
def Inode.zero : Inode := ⟨0, 0, 0, 0, 0, 0, 0, 0, false, false, false⟩

/-- `S_IFMT` of the mode, for `S_ISREG`, `S_ISDIR`, `S_ISCHR` and `S_ISBLK`. -/
def fmt (mode : ℕ) : ℕ := mode &&& 0o170000

def isReg (mode : ℕ) : Bool := fmt mode == 0o100000
def isDir (mode : ℕ) : Bool := fmt mode == 0o40000
def isChr (mode : ℕ) : Bool := fmt mode == 0o20000
def isBlk (mode : ℕ) : Bool := fmt mode == 0o60000

structure Super where
  dev : ℕ
  isup : Option (Fin 32)
  imount : Option (Fin 32)

/-- What a task is allowed to do, and its terminal. -/
structure Cred where
  uid : ℕ
  euid : ℕ
  gid : ℕ
  egid : ℕ
  umask : ℕ
  leader : Bool
  tty : Option ℕ

/-- What a call learns when it asks the disk or the memory. -/
structure Answer where
  /-- the inode number of the entry that `find_entry` finds -/
  entry : Option ℕ
  dinode : DInode
  /-- the first clear bit in the inode bitmap -/
  number : Option ℕ
  /-- it can be done -/
  ok : Bool
  /-- the directory gets longer -/
  grown : Bool
  /-- the interpreter of a script, if there is a name on its first line -/
  script : Option (Option (List Char))
  /-- user memory cannot be accessed, while the call has something in hand -/
  fault : Bool

/-- Where the names are that a call reads. -/
inductive Names where
  | user
  /-- in user memory, and the call has an inode in hand already, or a file without one -/
  | held
  /-- in the kernel, after `set_fs(get_ds())` -/
  | kernel
deriving DecidableEq

/-- What a call reads and does not write. -/
structure View where
  cred : Cred
  pwd : Option (Fin 32)
  root : Option (Fin 32)
  super : Fin 8 → Super
  answers : ℕ → Answer
  names : Names

structure Store where
  inode : Fin 32 → Inode
  /-- `last_inode` -/
  last : Fin 32
  /-- how many answers were given -/
  asked : ℕ

abbrev Fs := EStateM Stop Store

namespace Store

def setInode (s : Store) (i : Fin 32) (t : Inode) : Store :=
  { s with inode := Function.update s.inode i t }

/-- The entries in the order of the search in `get_empty_inode`. -/
def order (s : Store) : List (Fin 32) := (List.finRange 32).map fun d => s.last + 1 + d

/-- The entry that the search comes to and where `last_inode` is then. -/
def pick (s : Store) : Option (Fin 32 × Fin 32) :=
  match s.order.find? fun i => decide ((s.inode i).count = 0) && !(s.inode i).dirt with
  | some i => some (i, i)
  | none =>
    ((s.order.filter fun i => decide ((s.inode i).count = 0)).getLast?).map fun i => (i, s.last)

/-- The first entry with this inode. -/
def lookup (s : Store) (dev nr : ℕ) : Option (Fin 32) :=
  (List.finRange 32).find? fun i => decide ((s.inode i).dev = dev ∧ (s.inode i).num = nr)

end Store

namespace View

def getSuper (v : View) (dev : ℕ) : Option (Fin 8) :=
  if dev = 0 then none else (List.finRange 8).find? fun sb => decide ((v.super sb).dev = dev)

/-- The super block of what is mounted on the inode. -/
def mountedOn (v : View) (i : Fin 32) : Option (Fin 8) :=
  (List.finRange 8).find? fun sb => decide ((v.super sb).imount = some i)

end View

/-! ### Inodes -/

def ask (v : View) : Fs Answer := do
  let s ← get
  modify fun s => { s with asked := s.asked + 1 }
  pure (v.answers s.asked)

/-- User memory is accessed by a call that has something in hand. -/
def access (v : View) : Fs Unit := do
  let a ← ask v
  if a.fault then throw .killed else pure ()

/-- User memory is accessed if an address is given. -/
def accessIf (v : View) (given : Bool) : Fs Unit := if given then access v else pure ()

/-- User memory is accessed by a call that has nothing in hand. -/
def touch (v : View) : Fs Unit := do
  let a ← ask v
  if a.ok then pure () else throw .killed

/-- `get_fs_byte` for the first character of a path. -/
def firstChar (v : View) : Fs Unit :=
  match v.names with
  | .user => touch v
  | .held => access v
  | .kernel => pure ()

/-- The characters of a name are read, with its directory in hand. -/
def readName (v : View) : Fs Unit := accessIf v (v.names != .kernel)

def setInode (i : Fin 32) (t : Inode) : Fs Unit := modify fun s => s.setInode i t

/-- `inode->i_count++`. -/
def up (i : Fin 32) : Fs Unit := do
  let s ← get
  setInode i { s.inode i with count := (s.inode i).count + 1 }

/-- `inode->i_count--`. -/
def down (i : Fin 32) : Fs Unit := do
  let s ← get
  setInode i { s.inode i with count := (s.inode i).count - 1 }

def readInode (v : View) (i : Fin 32) : Fs Unit := do
  let s ← get
  match v.getSuper (s.inode i).dev with
  | none => throw .panic
  | some _ => do
      let a ← ask v
      if a.ok then
        setInode i { s.inode i with
          mode := a.dinode.mode, uid := a.dinode.uid, gid := a.dinode.gid
          nlinks := a.dinode.nlinks, zone := a.dinode.zone }
      else throw .panic

def writeInode (v : View) (i : Fin 32) : Fs Unit := do
  let s ← get
  if (s.inode i).dirt = false ∨ (s.inode i).dev = 0 then pure ()
  else match v.getSuper (s.inode i).dev with
    | none => throw .panic
    | some _ => do
        let a ← ask v
        if a.ok then setInode i { s.inode i with dirt := false } else throw .panic

/-- `sync_dev`, which writes all inodes. -/
def syncDev (v : View) : Fs Unit := do
  let s ← get
  if (List.finRange 32).any fun i => (s.inode i).dirt && !(s.inode i).pipe &&
      decide ((s.inode i).dev ≠ 0) && (v.getSuper (s.inode i).dev).isNone then throw .panic
  else modify fun s => { s with inode := fun i =>
    { s.inode i with dirt := (s.inode i).dirt && ((s.inode i).pipe || decide ((s.inode i).dev = 0)) } }

/-- `truncate`, which panics when a zone is not one of the disk. -/
def truncate (v : View) (i : Fin 32) : Fs Unit := do
  let s ← get
  if isReg (s.inode i).mode || isDir (s.inode i).mode then do
    let a ← ask v
    if a.ok then setInode i { s.inode i with zone := 0, dirt := true } else throw .panic
  else pure ()

def freeInode (v : View) (i : Fin 32) : Fs Unit := do
  let s ← get
  if (s.inode i).dev = 0 then setInode i Inode.zero
  else if 1 < (s.inode i).count then throw .panic
  else if (s.inode i).nlinks ≠ 0 then throw .panic
  else match v.getSuper (s.inode i).dev with
    | none => throw .panic
    | some _ => do
        let a ← ask v
        if (s.inode i).num < 1 ∨ a.ok = false then throw .panic else setInode i Inode.zero

/-- `iput` from `repeat` on. -/
def putRepeat (v : View) (i : Fin 32) : Fs Unit := do
  let s ← get
  if 1 < (s.inode i).count then down i
  else if (s.inode i).nlinks = 0 then do
    truncate v i
    freeInode v i
  else if (s.inode i).dirt then do
    writeInode v i
    down i
  else down i

def iput (v : View) (i : Fin 32) : Fs Unit := do
  let s ← get
  let t := s.inode i
  if t.count = 0 then throw .panic
  else if t.pipe then
    if t.count = 1 then setInode i { t with count := 0, dirt := false, pipe := false } else down i
  else if t.dev = 0 then down i
  else if isBlk t.mode then do
    syncDev v
    putRepeat v i
  else putRepeat v i

/-- `iput` of a pointer that may be `NULL`. -/
def iputOpt (v : View) : Option (Fin 32) → Fs Unit
  | none => pure ()
  | some i => iput v i

def getEmptyInode (v : View) : Fs (Fin 32) := do
  let s ← get
  match s.pick with
  | none => throw .panic
  | some (i, last) =>
    if (s.inode i).dirt ∧ (s.inode i).dev = 0 then throw .hang
    else do
      writeInode v i
      modify fun s => { s.setInode i { Inode.zero with count := 1 } with last := last }
      pure i

/-- `get_pipe_inode`; the answer says whether there is a page. -/
def getPipeInode (v : View) : Fs (Option (Fin 32)) := do
  let i ← getEmptyInode v
  let a ← ask v
  let s ← get
  if a.ok then do
    setInode i { s.inode i with count := 2, pipe := true }
    pure (some i)
  else do
    setInode i { s.inode i with count := 0 }
    pure none

/-- The search of `iget` with its empty entry.  A chain of more mounts than there are super blocks goes
round. -/
def igetLoop (v : View) (empty : Fin 32) : ℕ → ℕ → ℕ → Fs (Fin 32)
  | 0, _, _ => throw .hang
  | fuel + 1, dev, nr => do
      let s ← get
      match s.lookup dev nr with
      | none => do
          setInode empty { s.inode empty with dev := dev, num := nr }
          readInode v empty
          pure empty
      | some i => do
          up i
          if (s.inode i).mount then
            match v.mountedOn i with
            | none => do
                iput v empty
                pure i
            | some sb => do
                iput v i
                igetLoop v empty fuel (v.super sb).dev 1
          else do
            iput v empty
            pure i

def iget (v : View) (dev nr : ℕ) : Fs (Fin 32) := do
  if dev = 0 then throw .panic
  else do
    let empty ← getEmptyInode v
    igetLoop v empty 9 dev nr

def newInode (v : View) (dev : ℕ) : Fs (Option (Fin 32)) := do
  let i ← getEmptyInode v
  match v.getSuper dev with
  | none => throw .panic
  | some _ => do
      let a ← ask v
      match a.number with
      | none => do
          iput v i
          pure none
      | some nr => do
          let s ← get
          setInode i { s.inode i with
            count := 1, nlinks := 1, dev := dev, uid := v.cred.euid, gid := v.cred.egid, dirt := true
            num := nr }
          pure (some i)

end OldLinux.Syscalls
