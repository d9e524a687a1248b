import OldLinux.Syscalls.Store

/-!
# Names

`fs/namei.cc`: from a path to an inode, and the calls that make and remove directory entries.  A path is
the list of its characters.  The search through a directory is any, but `..` at a root and over a mount
point is as in the code, and so is each exit of a call with the inodes that it gives back.
-/

namespace OldLinux.Syscalls

open Lib

/-- `permission` on an inode with a mask. -/
def permission (v : View) (t : Inode) (mask : ℕ) : Bool :=
  if t.dev ≠ 0 ∧ t.nlinks = 0 then false
  else
    let mode :=
      if v.cred.euid = t.uid then t.mode >>> 6
      else if v.cred.egid = t.gid then t.mode >>> 3
      else t.mode
    (mode &&& mask &&& 7) == mask || v.cred.euid == 0

/-- `..` in a root is `.`, and over a mount point it is the `..` of the inode mounted on. -/
def exchange (v : View) (dir : Fin 32) (name : List Char) : Fs (Fin 32) := do
  let s ← get
  if name = ['.', '.'] ∧ v.root ≠ some dir ∧ (s.inode dir).num = 1 then
    match v.getSuper (s.inode dir).dev with
    | none => throw .panic
    | some sb =>
      match (v.super sb).imount with
      | none => pure dir
      | some m => do
          iput v dir
          up m
          pure m
  else pure dir

/-- A name of two characters is compared with `..`. -/
def readDots (v : View) (name : List Char) : Fs Unit := if name.length = 2 then readName v else pure ()

/-- `find_entry`: the directory it has searched and the inode number in the entry. -/
def findEntry (v : View) (dir : Fin 32) (name : List Char) : Fs (Fin 32 × Option ℕ) := do
  if name = [] then pure (dir, none)
  else do
    readDots v name
    let dir ← exchange v dir name
    let s ← get
    if (s.inode dir).zone = 0 then pure (dir, none)
    else do
      let a ← ask v
      -- `match`
      readName v
      pure (dir, a.entry.filter fun nr => decide (nr ≠ 0))

/-- `add_entry`: whether there is room. -/
def addEntry (v : View) (dir : Fin 32) (name : List Char) : Fs Bool := do
  let s ← get
  if name = [] ∨ (s.inode dir).zone = 0 then pure false
  else do
    let a ← ask v
    setInode dir { s.inode dir with dirt := (s.inode dir).dirt || a.grown }
    if a.ok then do
      readName v
      pure true
    else pure false

/-- The check of `get_dir` before each component and at the end. -/
def searchable (v : View) (i : Fin 32) (c : Fs (Option (Fin 32))) : Fs (Option (Fin 32)) := do
  let s ← get
  if isDir (s.inode i).mode && permission v (s.inode i) 1 then c
  else do
    iput v i
    pure none

/-- The loop of `get_dir` over the components that a slash follows. -/
def walk (v : View) : List (List Char) → Fin 32 → Fs (Option (Fin 32))
  | [], i => searchable v i do
      readName v
      pure (some i)
  | name :: names, i => searchable v i do
      readName v
      let (i, entry) ← findEntry v i name
      match entry with
      | none => do
          iput v i
          pure none
      | some nr => do
          let s ← get
          iput v i
          let i ← iget v (s.inode i).dev nr
          walk v names i

def getDir (v : View) (path : List Char) : Fs (Option (Fin 32)) := do
  let s ← get
  match v.root, v.pwd with
  | some root, some pwd =>
    if (s.inode root).count = 0 ∨ (s.inode pwd).count = 0 then throw .panic
    else do
      firstChar v
      match path with
      | [] => pure none
      | c :: rest =>
        if c = '/' then do
          up root
          walk v (rest.splitOn '/').dropLast root
        else do
          up pwd
          walk v (path.splitOn '/').dropLast pwd
  | _, _ => throw .panic

/-- `dir_namei`: the directory and the last component. -/
def dirNamei (v : View) (path : List Char) : Fs (Option (Fin 32 × List Char)) := do
  match ← getDir v path with
  | none => pure none
  | some dir => do
      readName v
      pure (some (dir, ((path.splitOn '/').getLast?).getD []))

def namei (v : View) (path : List Char) : Fs (Option (Fin 32)) := do
  match ← dirNamei v path with
  | none => pure none
  | some (dir, base) =>
    if base = [] then pure (some dir)
    else do
      let (dir, entry) ← findEntry v dir base
      match entry with
      | none => do
          iput v dir
          pure none
      | some nr => do
          let s ← get
          iput v dir
          let i ← iget v (s.inode dir).dev nr
          let s ← get
          setInode i { s.inode i with dirt := true }
          pure (some i)

/-! ### `open_namei` -/

def O_ACCMODE : ℕ := 0o3
def O_CREAT : ℕ := 0o100
def O_EXCL : ℕ := 0o200
def O_TRUNC : ℕ := 0o1000

/-- `ACC_MODE`. -/
def accMode (flag : ℕ) : ℕ :=
  match flag &&& O_ACCMODE with
  | 0 => 0o4
  | 1 => 0o2
  | 2 => 0o6
  | _ => 0o377

/-- Whether the flag is set. -/
def has (flag bits : ℕ) : Bool := flag &&& bits != 0

/-- A regular file for a name that was not found. -/
def create (v : View) (dir : Fin 32) (base : List Char) (mode : ℕ) : Fs (Except ℕ (Fin 32)) := do
  let s ← get
  if permission v (s.inode dir) 2 = false then do
    iput v dir
    pure (.error 13)
  else do
    match ← newInode v (s.inode dir).dev with
    | none => do
        iput v dir
        pure (.error 28)
    | some i => do
        let s ← get
        setInode i { s.inode i with uid := v.cred.euid, mode := mode, dirt := true }
        if ← addEntry v dir base then do
          iput v dir
          pure (.ok i)
        else do
          let s ← get
          setInode i { s.inode i with nlinks := ((s.inode i).nlinks + 255) % 256 }
          iput v i
          iput v dir
          pure (.error 28)

/-- The end of `open_namei`, with the number that was found. -/
def openFound (v : View) (dir : Fin 32) (nr flag : ℕ) : Fs (Except ℕ (Fin 32)) := do
  let s ← get
  iput v dir
  if has flag O_EXCL then pure (.error 17)
  else do
    let i ← iget v (s.inode dir).dev nr
    let s ← get
    if (isDir (s.inode i).mode && has flag O_ACCMODE) || !permission v (s.inode i) (accMode flag) then do
      iput v i
      pure (.error 1)
    else if has flag O_TRUNC then do
      truncate v i
      pure (.ok i)
    else pure (.ok i)

def openNamei (v : View) (path : List Char) (flag mode : ℕ) : Fs (Except ℕ (Fin 32)) := do
  let flag := if has flag O_TRUNC && !has flag O_ACCMODE then flag ||| 1 else flag
  let mode := (mode &&& 0o777 &&& (0o777 - (v.cred.umask &&& 0o777))) ||| 0o100000
  match ← dirNamei v path with
  | none => pure (.error 2)
  | some (dir, base) =>
    if base = [] then
      if has flag (O_ACCMODE ||| O_CREAT ||| O_TRUNC) then do
        iput v dir
        pure (.error 21)
      else pure (.ok dir)
    else do
      let (dir, entry) ← findEntry v dir base
      match entry with
      | none =>
        if has flag O_CREAT then create v dir base mode
        else do
          iput v dir
          pure (.error 2)
      | some nr => openFound v dir nr flag

/-! ### Directory entries -/

/-- How `mknod`, `mkdir`, `rmdir` and `unlink` begin: the directory, with write permission, and what
`find_entry` finds in it. -/
def inDir (v : View) (path : List Char) (c : Fin 32 → List Char → Option ℕ → Fs ℤ) : Fs ℤ := do
  match ← dirNamei v path with
  | none => pure (-2)
  | some (dir, base) =>
    if base = [] then do
      iput v dir
      pure (-2)
    else do
      let s ← get
      if permission v (s.inode dir) 2 then do
        let (dir, entry) ← findEntry v dir base
        c dir base entry
      else do
        iput v dir
        pure (-1)

def setNlinks (i : Fin 32) (nlinks : ℕ) : Fs Unit := do
  let s ← get
  setInode i { s.inode i with nlinks := nlinks, dirt := true }

/-- `free_block`, which panics when the zone is not one of the disk. -/
def freeBlock (v : View) : Fs Unit := do
  let a ← ask v
  if a.ok then pure () else throw .panic

/-- Two inodes are given back, and the call returns. -/
def leave (v : View) (i j : Fin 32) (ret : ℤ) : Fs ℤ := do
  iput v i
  iput v j
  pure ret

def sysMknod (v : View) (path : List Char) (mode dev : ℕ) : Fs ℤ :=
  if v.cred.euid ≠ 0 then pure (-1)
  else inDir v path fun dir base entry =>
    match entry with
    | some _ => do
        iput v dir
        pure (-17)
    | none => do
        let s ← get
        match ← newInode v (s.inode dir).dev with
        | none => do
            iput v dir
            pure (-28)
        | some i => do
            let s ← get
            let t := s.inode i
            setInode i { t with
              mode := mode, dirt := true, zone := if isBlk mode || isChr mode then dev else t.zone }
            if ← addEntry v dir base then leave v dir i 0
            else do
              iput v dir
              setNlinks i 0
              iput v i
              pure (-28)

/-- `sys_mkdir` with its new inode. -/
def mkdirInode (v : View) (dir : Fin 32) (base : List Char) (mode : ℕ) (i : Fin 32) : Fs ℤ := do
  let a ← ask v
  let s ← get
  match a.number with
  | none => do
      iput v dir
      setNlinks i (((s.inode i).nlinks + 255) % 256)
      iput v i
      pure (-28)
  | some zone => do
      setInode i { s.inode i with zone := zone, dirt := true }
      let a ← ask v
      if a.ok = false then do
        iput v dir
        freeBlock v
        setNlinks i (((s.inode i).nlinks + 255) % 256)
        iput v i
        pure (-99)
      else do
        let s ← get
        setInode i { s.inode i with
          nlinks := 2, dirt := true
          mode := 0o40000 ||| (mode &&& 0o777 &&& (0o777 - (v.cred.umask &&& 0o777))) }
        if ← addEntry v dir base then do
          let s ← get
          setNlinks dir (((s.inode dir).nlinks + 1) % 256)
          leave v dir i 0
        else do
          iput v dir
          freeBlock v
          setNlinks i 0
          iput v i
          pure (-28)

def sysMkdir (v : View) (path : List Char) (mode : ℕ) : Fs ℤ :=
  if v.cred.euid ≠ 0 then pure (-1)
  else inDir v path fun dir base entry =>
    match entry with
    | some _ => do
        iput v dir
        pure (-17)
    | none => do
        let s ← get
        match ← newInode v (s.inode dir).dev with
        | none => do
            iput v dir
            pure (-28)
        | some i => mkdirInode v dir base mode i

/-- `sys_rmdir` with the inode of the entry. -/
def rmdirInode (v : View) (dir i : Fin 32) : Fs ℤ := do
  let s ← get
  let t := s.inode i
  if has (s.inode dir).mode 0o1000 && v.cred.euid != 0 && t.uid != v.cred.euid then leave v dir i (-1)
  else if t.dev ≠ (s.inode dir).dev ∨ 1 < t.count then leave v dir i (-1)
  else if i = dir then leave v i dir (-1)
  else if isDir t.mode = false then leave v i dir (-20)
  else do
    -- `empty_dir`
    let a ← ask v
    if a.ok = false then leave v i dir (-39)
    else do
      setNlinks i 0
      setNlinks dir (((s.inode dir).nlinks + 255) % 256)
      leave v dir i 0

def sysRmdir (v : View) (path : List Char) : Fs ℤ :=
  if v.cred.euid ≠ 0 then pure (-1)
  else inDir v path fun dir _ entry =>
    match entry with
    | none => do
        iput v dir
        pure (-2)
    | some nr => do
        let s ← get
        let i ← iget v (s.inode dir).dev nr
        rmdirInode v dir i

/-- `sys_unlink` with the inode of the entry. -/
def unlinkInode (v : View) (dir i : Fin 32) : Fs ℤ := do
  let s ← get
  let t := s.inode i
  if has (s.inode dir).mode 0o1000 && v.cred.euid != 0 && v.cred.euid != t.uid &&
      v.cred.euid != (s.inode dir).uid then leave v dir i (-1)
  else if isDir t.mode then leave v i dir (-1)
  else do
    -- a file without links has one by now
    setNlinks i (((if t.nlinks = 0 then 1 else t.nlinks) + 255) % 256)
    leave v i dir 0

def sysUnlink (v : View) (path : List Char) : Fs ℤ :=
  inDir v path fun dir _ entry =>
    match entry with
    | none => do
        iput v dir
        pure (-2)
    | some nr => do
        let s ← get
        let i ← iget v (s.inode dir).dev nr
        unlinkInode v dir i

/-- `sys_link` in the directory of the new name. -/
def linkIn (v : View) (old dir : Fin 32) (base : List Char) : Fs ℤ := do
  let s ← get
  if base = [] then leave v old dir (-1)
  else if (s.inode dir).dev ≠ (s.inode old).dev then leave v dir old (-18)
  else if permission v (s.inode dir) 2 = false then leave v dir old (-13)
  else do
    let (dir, entry) ← findEntry v dir base
    match entry with
    | some _ => leave v dir old (-17)
    | none => do
        if ← addEntry v dir base then do
          iput v dir
          let s ← get
          setNlinks old (((s.inode old).nlinks + 1) % 256)
          iput v old
          pure 0
        else leave v dir old (-28)

def sysLink (v : View) (oldname newname : List Char) : Fs ℤ := do
  match ← namei v oldname with
  | none => pure (-2)
  | some old => do
      let s ← get
      if isDir (s.inode old).mode then do
        iput v old
        pure (-1)
      else do
        match ← dirNamei { v with names := .held } newname with
        | none => do
            iput v old
            pure (-13)
        | some (dir, base) => linkIn v old dir base

/-! ### Calls on one inode -/

def sysStat (v : View) (path : List Char) : Fs ℤ := do
  match ← namei v path with
  | none => pure (-2)
  | some i => do
      -- `cp_stat`
      access v
      iput v i
      pure 0

/-- `sys_access`, which looks at the owner after `iput`. -/
def sysAccess (v : View) (path : List Char) (mode : ℕ) : Fs ℤ := do
  match ← namei v path with
  | none => pure (-13)
  | some i => do
      let s ← get
      let imode := (s.inode i).mode &&& 0o777
      iput v i
      let s ← get
      let mode := mode &&& 7
      let res := if v.cred.uid = (s.inode i).uid then imode >>> 6
        else if v.cred.gid = (s.inode i).gid then imode >>> 6
        else imode
      if res &&& 7 &&& mode = mode then pure 0
      else if v.cred.uid = 0 ∧ (mode &&& 1 = 0 ∨ imode &&& 0o111 ≠ 0) then pure 0
      else pure (-13)

def sysChmod (v : View) (path : List Char) (mode : ℕ) : Fs ℤ := do
  match ← namei v path with
  | none => pure (-2)
  | some i => do
      let s ← get
      let t := s.inode i
      if v.cred.euid ≠ t.uid ∧ v.cred.euid ≠ 0 then do
        iput v i
        pure (-13)
      else do
        setInode i { t with mode := (mode &&& 0o7777) ||| fmt t.mode, dirt := true }
        iput v i
        pure 0

def sysChown (v : View) (path : List Char) (uid gid : ℕ) : Fs ℤ := do
  match ← namei v path with
  | none => pure (-2)
  | some i => do
      if v.cred.euid ≠ 0 then do
        iput v i
        pure (-13)
      else do
        let s ← get
        setInode i { s.inode i with uid := uid, gid := gid, dirt := true }
        iput v i
        pure 0

/-- `times` says whether the times are given. -/
def sysUtime (v : View) (path : List Char) (times : Bool) : Fs ℤ := do
  match ← namei v path with
  | none => pure (-2)
  | some i => do
      accessIf v times
      let s ← get
      setInode i { s.inode i with dirt := true }
      iput v i
      pure 0

end OldLinux.Syscalls
