import OldLinux.Files.Descriptors
import OldLinux.Syscalls.Namei

/-!
# System calls one after another

The whole of what points to inodes: the file table, the working and root directories and the executables
of the tasks, and the super blocks, with the system calls that change them.  A call runs to its end before
the next one begins, or its process is killed in it, since user memory cannot be accessed.  No disk is
changed.
-/

namespace OldLinux.Syscalls

open Function Lib

/-- The pointers of a task to inodes. -/
inductive Slot where
  | pwd
  | root
  | executable
deriving DecidableEq

instance : Fintype Slot := ⟨{.pwd, .root, .executable}, fun slot => by cases slot <;> decide⟩

structure Kernel where
  store : Store
  files : Files.Table
  ptr : Fin 64 → Slot → Option (Fin 32)
  cred : Fin 64 → Cred
  super : Fin 8 → Super
  /-- `ROOT_DEV` -/
  rootDev : ℕ

abbrev Sys := EStateM Stop Kernel

namespace Kernel

def view (k : Kernel) (P : Fin 64) (answers : ℕ → Answer) : View :=
  ⟨k.cred P, k.ptr P .pwd, k.ptr P .root, k.super, answers, .user⟩

def setPtr (k : Kernel) (P : Fin 64) (slot : Slot) (i : Option (Fin 32)) : Kernel :=
  { k with ptr := update k.ptr P (update (k.ptr P) slot i) }

def setSuper (k : Kernel) (sb : Fin 8) (x : Super) : Kernel :=
  { k with super := update k.super sb x }

def setCred (k : Kernel) (P : Fin 64) (c : Cred) : Kernel :=
  { k with cred := update k.cred P c }

end Kernel

/-- The inode of an entry of the file table. -/
def inodeOf (x : Files.File) : Option (Fin 32) :=
  x.inode.bind fun m => if h : m < 32 then some ⟨m, h⟩ else none

/-- A command on the inodes, for process `P`. -/
def fs {α : Type} (P : Fin 64) (answers : ℕ → Answer) (c : View → Fs α) : Sys α := fun k =>
  match c (k.view P answers) k.store with
  | .ok a s => .ok a { k with store := s }
  | .error e s => .error e { k with store := s }

/-- A change of the descriptors of process `P` and the file table. -/
def onFiles (P : Fin 64) (f : Files.Table → Files.Task → Files.Table) : Sys Unit := do
  let k ← get
  match k.files.task P with
  | none => throw .hang
  | some t => modify fun k => { k with files := f k.files t }

/-- The call returns. -/
def returns (P : Fin 64) (ret : ℤ) : Sys Unit := onFiles P fun σ t => σ.set P (t.returns ret)

/-! ### Files -/

/-- The rest of `sys_open`, with the inode. -/
def opened (P : Fin 64) (answers : ℕ → Answer) (fd : Fin 20) (f : Fin 64) (flag : ℕ) (i : Fin 32) :
    Sys Unit := do
  let k ← get
  let t := k.store.inode i
  let result : Except ℕ (ℕ × ℕ) := .ok (i.val, t.mode)
  if isChr t.mode && t.zone >>> 8 == 5 && (k.cred P).tty.isNone then do
    fs P answers fun v => iput v i
    onFiles P fun σ t => σ.opened P t fd f flag (.error 1)
  else do
    if isChr t.mode && t.zone >>> 8 == 4 && (k.cred P).leader && (k.cred P).tty.isNone then
      modify fun k => k.setCred P { k.cred P with tty := some (t.zone &&& 255) }
    else pure ()
    onFiles P fun σ t => σ.opened P t fd f flag result

def sysOpen (P : Fin 64) (answers : ℕ → Answer) (path : List Char) (flag mode : ℕ) : Sys Unit := do
  onFiles P fun σ t => σ.sysOpen P t flag
  let k ← get
  match (k.files.task P).map Files.Task.pc with
  | some (.opening fd f _) => do
      match ← fs P answers fun v => openNamei { v with names := .held } path flag mode with
      | .error e => onFiles P fun σ t => σ.opened P t fd f flag (.error e)
      | .ok i => opened P answers fd f flag i
  | _ => pure ()

/-- A change that may close descriptor `fd`: the inode is given back with the last reference to the
file. -/
def closing (P : Fin 64) (answers : ℕ → Answer) (fd : ℕ) (f : Files.Table → Files.Task → Files.Table) :
    Sys Unit := do
  let k ← get
  match k.files.task P with
  | none => throw .hang
  | some t => do
      modify fun k => { k with files := f k.files t }
      if (f k.files t).panicked then throw .panic
      else match if h : fd < 20 then t.filp ⟨fd, h⟩ else none with
        | none => pure ()
        | some x =>
          if (k.files.file x).count ≠ 0 ∧ ((f k.files t).file x).count = 0 then
            fs P answers fun v => iputOpt v (inodeOf (k.files.file x))
          else pure ()

def sysClose (P : Fin 64) (answers : ℕ → Answer) (fd : ℕ) : Sys Unit :=
  closing P answers fd fun σ t => σ.sysClose P t fd .user

def sysDup2 (P : Fin 64) (answers : ℕ → Answer) (oldfd newfd : ℕ) : Sys Unit := do
  sysClose P answers newfd
  onFiles P fun σ t => σ.dupfd P t oldfd newfd

def sysPipe (P : Fin 64) (answers : ℕ → Answer) : Sys Unit := do
  onFiles P fun σ t => σ.sysPipe P t
  let k ← get
  match (k.files.task P).map Files.Task.pc with
  | some (.piping fd₀ fd₁ f₀ f₁) => do
      let i ← fs P answers getPipeInode
      onFiles P fun σ t => σ.piped P t fd₀ fd₁ f₀ f₁ (i.map Fin.val)
      if i.isSome then fs P answers touch else pure ()
  | _ => pure ()

/-! ### Tasks -/

/-- `if (p) p->i_count++`. -/
def upOpt : Option (Fin 32) → Fs Unit
  | none => pure ()
  | some i => up i

/-- `sys_fork`; the answer says whether `copy_process` finds enough memory. -/
def sysFork (P : Fin 64) (answers : ℕ → Answer) (pid : ℤ) : Sys Unit := do
  let k ← get
  let a ← fs P answers ask
  onFiles P fun σ t => σ.sysFork P t pid a.ok
  match (List.finRange 64).find? fun i => decide (i ≠ 0 ∧ (k.files.task i).isNone) with
  | none => pure ()
  | some nr =>
    if a.ok then do
      modify fun k => { k with
        ptr := update k.ptr nr (k.ptr P)
        cred := update k.cred nr { k.cred P with leader := false } }
      fs P answers fun _ => upOpt (k.ptr P .pwd)
      fs P answers fun _ => upOpt (k.ptr P .root)
      fs P answers fun _ => upOpt (k.ptr P .executable)
    else pure ()

/-- A pointer of the task is given back and set. -/
def repoint (P : Fin 64) (answers : ℕ → Answer) (slot : Slot) (i : Option (Fin 32)) : Sys Unit := do
  let k ← get
  fs P answers fun v => iputOpt v (k.ptr P slot)
  modify fun k => k.setPtr P slot i

/-- The loop of `do_exit` over the descriptors from `i` on. -/
def exitFiles (P : Fin 64) (answers : ℕ → Answer) : ℕ → ℕ → Sys Unit
  | _, 0 => pure ()
  | i, n + 1 => do
      closing P answers i fun σ t => σ.exiting P t i
      exitFiles P answers (i + 1) n

/-- `do_exit`; without a father the task is released at once. -/
def sysExit (P : Fin 64) (answers : ℕ → Answer) : Sys Unit := do
  onFiles P fun σ t => σ.set P { t with pc := .exiting 0 }
  exitFiles P answers 0 20
  repoint P answers .pwd none
  repoint P answers .root none
  repoint P answers .executable none
  onFiles P fun σ t => σ.exiting P t 20
  let a ← fs P answers ask
  if a.ok then pure () else modify fun k => { k with files := k.files.release P }

/-- `sys_waitpid` releases a zombie; its slot stands for the pid. -/
def sysWaitpid (P : Fin 64) (answers : ℕ → Answer) (i : Fin 64) : Sys Unit := do
  fs P answers touch
  let k ← get
  if (k.files.task i).any fun u => decide (u.pc = .zombie) then do
    modify fun k => { k with files := k.files.release i }
    fs P answers touch
    returns P i.val
  else returns P (-10)

/-- `sys_chdir` and `sys_chroot`. -/
def sysChange (P : Fin 64) (answers : ℕ → Answer) (slot : Slot) (path : List Char) : Sys Unit := do
  match ← fs P answers fun v => namei v path with
  | none => returns P (-2)
  | some i => do
      let k ← get
      if isDir (k.store.inode i).mode then do
        repoint P answers slot (some i)
        returns P 0
      else do
        fs P answers fun v => iput v i
        returns P (-20)

def sysChdir (P : Fin 64) (answers : ℕ → Answer) (path : List Char) : Sys Unit :=
  sysChange P answers .pwd path

def sysChroot (P : Fin 64) (answers : ℕ → Answer) (path : List Char) : Sys Unit :=
  sysChange P answers .root path

/-! ### `execve` -/

/-- What `do_execve` takes from the file: the inode, and the user and the group to run as. -/
structure Exec where
  inode : Fin 32
  euid : ℕ
  egid : ℕ

/-- `exec_error2`. -/
def execError (v : View) (i : Fin 32) (e : ℕ) : Fs (Except ℕ Exec) := do
  iput v i
  pure (.error e)

/-- `do_execve` from `restart_interp` on: with what to do for the interpreter of a script, if the file may
be one. -/
def execFile (v : View) (i : Fin 32) (restart : Option (Fin 32 → Fs (Except ℕ Exec))) : Fs (Except ℕ Exec) := do
  let s ← get
  let t := s.inode i
  let mode := if v.cred.euid = t.uid then t.mode >>> 6
    else if v.cred.egid = t.gid then t.mode >>> 3
    else t.mode
  if isReg t.mode = false then execError v i 13
  else if mode &&& 1 = 0 ∧ ¬(t.mode &&& 0o111 ≠ 0 ∧ v.cred.euid = 0) then execError v i 8
  else do
    let a ← ask v
    -- `bread`
    if a.ok = false then execError v i 13
    else match a.script, restart with
      | some interp, some restart => do
          iput v i
          match interp with
          | none => pure (.error 8)
          | some name => do
              -- `copy_strings`
              touch v
              let a ← ask v
              if a.ok = false then pure (.error 12)
              else do
                match ← namei { v with names := .kernel } name with
                | none => pure (.error 2)
                | some j => restart j
      | _, _ => do
          let header ← ask v
          if header.ok = false then execError v i 8
          else do
            accessIf v restart.isSome
            let a ← ask v
            if restart.isSome ∧ a.ok = false then execError v i 12
            else pure (.ok ⟨i, if has t.mode 0o4000 then t.uid else v.cred.euid,
                if has t.mode 0o2000 then t.gid else v.cred.egid⟩)

def execNamei (v : View) (path : List Char) : Fs (Except ℕ Exec) := do
  match ← namei v path with
  | none => pure (.error 2)
  | some i => do
      -- `count`
      access v
      execFile v i (some fun j => execFile v j none)

/-- The loop of `do_execve` over `close_on_exec` from bit `i` on. -/
def execFiles (P : Fin 64) (answers : ℕ → Answer) : ℕ → ℕ → Sys Unit
  | _, 0 => pure ()
  | i, n + 1 => do
      closing P answers i fun σ t => σ.execing P t i
      execFiles P answers (i + 1) n

def sysExecve (P : Fin 64) (answers : ℕ → Answer) (path : List Char) : Sys Unit := do
  match ← fs P answers fun v => execNamei v path with
  | .error e => returns P (-e)
  | .ok x => do
      repoint P answers .executable (some x.inode)
      onFiles P fun σ t => σ.set P { t with pc := .execing 0 }
      execFiles P answers 0 20
      -- `create_tables`
      fs P answers touch
      modify fun k => k.setCred P { k.cred P with euid := x.euid, egid := x.egid }
      onFiles P fun σ t => σ.execing P t 20

/-! ### `mount` -/

/-- `read_super`; the answer says whether there is a file system. -/
def readSuper (P : Fin 64) (answers : ℕ → Answer) (dev : ℕ) : Sys (Option (Fin 8)) := do
  let k ← get
  if dev = 0 then pure none
  else match (k.view P answers).getSuper dev with
    | some sb => pure (some sb)
    | none =>
      match (List.finRange 8).find? fun sb => decide ((k.super sb).dev = 0) with
      | none => pure none
      | some sb => do
          let a ← fs P answers ask
          if a.ok then do
            modify fun k => k.setSuper sb ⟨dev, none, none⟩
            pure (some sb)
          else do
            modify fun k => k.setSuper sb ⟨0, none, none⟩
            pure none

/-- An inode is given back, and the call returns. -/
def putReturn (P : Fin 64) (answers : ℕ → Answer) (i : Fin 32) (ret : ℤ) : Sys Unit := do
  fs P answers fun v => iput v i
  returns P ret

/-- `sys_mount` with the inode of the directory. -/
def mountOn (P : Fin 64) (answers : ℕ → Answer) (dev : ℕ) (i : Fin 32) : Sys Unit := do
  let k ← get
  let t := k.store.inode i
  if t.count ≠ 1 ∨ t.num = 1 then putReturn P answers i (-16)
  else if isDir t.mode = false then putReturn P answers i (-1)
  else do
    match ← readSuper P answers dev with
    | none => putReturn P answers i (-16)
    | some sb => do
        let k ← get
        if (k.super sb).imount.isSome then putReturn P answers i (-16)
        else if t.mount then putReturn P answers i (-1)
        else do
          modify fun k => k.setSuper sb { k.super sb with imount := some i }
          fs P answers fun _ => setInode i { t with mount := true, dirt := true }
          returns P 0

/-- The device of a special file, for `sys_mount` and `sys_umount`. -/
def deviceOf (v : View) (name : List Char) (notBlk : ℕ) : Fs (Except ℕ ℕ) := do
  match ← namei v name with
  | none => pure (.error 2)
  | some i => do
      let s ← get
      let t := s.inode i
      iput v i
      if isBlk t.mode then pure (.ok t.zone) else pure (.error notBlk)

def sysMount (P : Fin 64) (answers : ℕ → Answer) (devName dirName : List Char) : Sys Unit := do
  match ← fs P answers fun v => deviceOf v devName 1 with
  | .error e => returns P (-e)
  | .ok dev => do
      match ← fs P answers fun v => namei v dirName with
      | none => returns P (-2)
      | some i => mountOn P answers dev i

/-- `put_super`. -/
def putSuper (k : Kernel) (P : Fin 64) (answers : ℕ → Answer) (dev : ℕ) : Kernel :=
  if dev = k.rootDev then k
  else match (k.view P answers).getSuper dev with
    | none => k
    | some sb =>
      if (k.super sb).imount.isSome then k else k.setSuper sb { k.super sb with dev := 0 }

/-- `sys_umount` with the super block and the inode that it is mounted on. -/
def umountSuper (P : Fin 64) (answers : ℕ → Answer) (dev : ℕ) (sb : Fin 8) (i : Fin 32) : Sys Unit := do
  let k ← get
  if (List.finRange 32).any fun j =>
      decide ((k.store.inode j).dev = dev) && decide ((k.store.inode j).count ≠ 0) then
    returns P (-16)
  else do
    fs P answers fun _ => setInode i { k.store.inode i with mount := false }
    fs P answers fun v => iput v i
    modify fun k => k.setSuper sb { k.super sb with imount := none }
    fs P answers fun v => iputOpt v (k.super sb).isup
    modify fun k => k.setSuper sb { k.super sb with isup := none }
    modify fun k => putSuper k P answers dev
    fs P answers syncDev
    returns P 0

def sysUmount (P : Fin 64) (answers : ℕ → Answer) (devName : List Char) : Sys Unit := do
  match ← fs P answers fun v => deviceOf v devName 15 with
  | .error e => returns P (-e)
  | .ok dev => do
      let k ← get
      if dev = k.rootDev then returns P (-16)
      else match (k.view P answers).getSuper dev with
        | none => returns P (-2)
        | some sb =>
          match (k.super sb).imount with
          | none => returns P (-2)
          | some i => umountSuper P answers dev sb i

def mountRoot (P : Fin 64) (answers : ℕ → Answer) : Sys Unit := do
  modify fun k => { k with
    files := { k.files with file := fun f => { k.files.file f with count := 0 } }
    super := fun sb => { k.super sb with dev := 0 } }
  let k ← get
  match ← readSuper P answers k.rootDev with
  | none => throw .panic
  | some sb => do
      let i ← fs P answers fun v => iget v k.rootDev 1
      let k ← get
      let t := k.store.inode i
      fs P answers fun _ => setInode i { t with count := t.count + 3 }
      modify fun k => k.setSuper sb { k.super sb with isup := some i, imount := some i }
      modify fun k => (k.setPtr P .pwd (some i)).setPtr P .root (some i)

/-! ### Runs -/

inductive Call where
  | sysOpen (path : List Char) (flag mode : ℕ)
  | sysCreat (path : List Char) (mode : ℕ)
  | sysClose (fd : ℕ)
  | sysDup (fildes : ℕ)
  | sysDup2 (oldfd newfd : ℕ)
  | sysFcntl (fd cmd arg : ℕ)
  | sysPipe
  | sysFork (pid : ℤ)
  | sysExecve (path : List Char)
  | sysExit
  | sysWaitpid (i : Fin 64)
  | sysChdir (path : List Char)
  | sysChroot (path : List Char)
  | sysMknod (path : List Char) (mode dev : ℕ)
  | sysMkdir (path : List Char) (mode : ℕ)
  | sysRmdir (path : List Char)
  | sysLink (oldname newname : List Char)
  | sysUnlink (path : List Char)
  | sysStat (path : List Char)
  | sysAccess (path : List Char) (mode : ℕ)
  | sysChmod (path : List Char) (mode : ℕ)
  | sysChown (path : List Char) (uid gid : ℕ)
  | sysUtime (path : List Char) (times : Bool)
  | sysMount (devName dirName : List Char)
  | sysUmount (devName : List Char)

/-- A call of `fs/namei.cc`, `fs/stat.cc` or `fs/open.cc` that changes no pointer. -/
def plain (P : Fin 64) (answers : ℕ → Answer) (c : View → Fs ℤ) : Sys Unit := do
  let ret ← fs P answers c
  returns P ret

def Call.run (P : Fin 64) (answers : ℕ → Answer) : Call → Sys Unit
  | .sysOpen path flag mode => Syscalls.sysOpen P answers path flag mode
  | .sysCreat path mode => Syscalls.sysOpen P answers path (O_CREAT ||| O_TRUNC) mode
  | .sysClose fd => Syscalls.sysClose P answers fd
  | .sysDup fildes => onFiles P fun σ t => σ.sysDup P t fildes
  | .sysDup2 oldfd newfd => Syscalls.sysDup2 P answers oldfd newfd
  | .sysFcntl fd cmd arg => onFiles P fun σ t => σ.sysFcntl P t fd cmd arg
  | .sysPipe => Syscalls.sysPipe P answers
  | .sysFork pid => Syscalls.sysFork P answers pid
  | .sysExecve path => Syscalls.sysExecve P answers path
  | .sysExit => Syscalls.sysExit P answers
  | .sysWaitpid i => Syscalls.sysWaitpid P answers i
  | .sysChdir path => Syscalls.sysChdir P answers path
  | .sysChroot path => Syscalls.sysChroot P answers path
  | .sysMknod path mode dev => plain P answers fun v => Syscalls.sysMknod v path mode dev
  | .sysMkdir path mode => plain P answers fun v => Syscalls.sysMkdir v path mode
  | .sysRmdir path => plain P answers fun v => Syscalls.sysRmdir v path
  | .sysLink oldname newname => plain P answers fun v => Syscalls.sysLink v oldname newname
  | .sysUnlink path => plain P answers fun v => Syscalls.sysUnlink v path
  | .sysStat path => plain P answers fun v => Syscalls.sysStat v path
  | .sysAccess path mode => plain P answers fun v => Syscalls.sysAccess v path mode
  | .sysChmod path mode => plain P answers fun v => Syscalls.sysChmod v path mode
  | .sysChown path uid gid => plain P answers fun v => Syscalls.sysChown v path uid gid
  | .sysUtime path times => plain P answers fun v => Syscalls.sysUtime v path times
  | .sysMount devName dirName => Syscalls.sysMount P answers devName dirName
  | .sysUmount devName => Syscalls.sysUmount P answers devName

/-- A system call of process `P`, with what it learns; nothing when it does not end. -/
def Kernel.step (k : Kernel) (e : Fin 64 × Call × (ℕ → Answer)) : Option Kernel :=
  match (k.files.task e.1).map Files.Task.pc with
  | some .user =>
    match e.2.1.run e.1 e.2.2 { k with store := { k.store with asked := 0 } } with
    | .ok _ k' => some k'
    | .error .killed k' =>
      match sysExit e.1 e.2.2 k' with
      | .ok _ k'' => some k''
      | .error _ _ => none
    | .error _ _ => none
  | _ => none

/-- In this call, user memory can be accessed whenever something is in hand. -/
def Safe (answers : ℕ → Answer) : Prop := ∀ n, (answers n).fault = false

/-- Before `mount_root`: no inode is in use, and nothing points to one. -/
structure Boot (k : Kernel) : Prop where
  inode : ∀ i, (k.store.inode i).count = 0
  filp : ∀ P t, k.files.task P = some t → t.pc = .user ∧ t.closeOnExec = 0 ∧ ∀ fd, t.filp fd = none
  ptr : ∀ P slot, k.ptr P slot = none
  super : ∀ sb, (k.super sb).isup = none ∧ (k.super sb).imount = none
  calm : k.files.panicked = false

/-- The system is started with `mount_root`. -/
def Start (k : Kernel) : Prop :=
  ∃ (k₀ : Kernel) (P : Fin 64) (answers : ℕ → Answer), Boot k₀ ∧ (k₀.files.task P).isSome = true ∧
    mountRoot P answers k₀ = .ok () k

end OldLinux.Syscalls
