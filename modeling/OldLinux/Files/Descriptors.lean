import OldLinux.Lib.Counting
import OldLinux.Lib.Trace

/-!
# Descriptors and the file table

The `filp` and `close_on_exec` of every task and the `file_table` they point to, with the system
calls that reserve, share and release its entries.  A call is cut where it may sleep: `sys_open` in
`open_namei`, `sys_pipe` in `get_pipe_inode`, and `sys_close` in `iput`, also when it is called from
`sys_dup2`, `do_execve` or `do_exit`.
-/

namespace OldLinux.Files

open Function Lib

structure File where
  mode : ℕ
  flags : ℕ
  /-- an `unsigned short` -/
  count : ℕ
  inode : Option ℕ
  pos : ℕ

/-- Where a process is. -/
inductive Pc where
  | user
  /-- `sys_open` with its descriptor and its file reserved -/
  | opening (fd : Fin 20) (f : Fin 64) (flag : ℕ)
  /-- `sys_pipe` with both descriptors and both files reserved -/
  | piping (fd₀ fd₁ : Fin 20) (f₀ f₁ : Fin 64)
  /-- the end of `sys_close` -/
  | closing
  /-- `sys_dup2` after `sys_close` -/
  | dupping (oldfd newfd : ℕ)
  /-- `do_execve` past the point of no return, with the descriptors from `i` on to look at -/
  | execing (i : ℕ)
  /-- `do_exit`, with the descriptors from `i` on to close -/
  | exiting (i : ℕ)
  | zombie
deriving DecidableEq

structure Task where
  filp : Fin 20 → Option (Fin 64)
  closeOnExec : BitVec 32
  /-- what the last system call returned -/
  ret : ℤ
  pc : Pc

structure Table where
  task : Fin 64 → Option Task
  file : Fin 64 → File
  panicked : Bool

namespace Task

/-- `filp[fd] = f`. -/
def point (t : Task) (fd : Fin 20) (f : Option (Fin 64)) : Task :=
  { t with filp := update t.filp fd f }

/-- `close_on_exec &= ~(1<<fd)`. -/
def clearBit (t : Task) (fd : Fin 20) : Task :=
  { t with closeOnExec := t.closeOnExec &&& ~~~(1#32 <<< fd.val) }

/-- `close_on_exec |= (1<<fd)`. -/
def setBit (t : Task) (fd : Fin 20) : Task :=
  { t with closeOnExec := t.closeOnExec ||| 1#32 <<< fd.val }

/-- The free descriptors. -/
def freeFds (t : Task) : List (Fin 20) := (List.finRange 20).filter fun fd => t.filp fd = none

/-- The first free descriptor from `arg` on. -/
def freeFrom (t : Task) (arg : ℕ) : Option (Fin 20) := t.freeFds.find? fun fd => arg ≤ fd.val

def returns (t : Task) (ret : ℤ) : Task := { t with ret := ret, pc := .user }

end Task

namespace Table

def set (σ : Table) (P : Fin 64) (t : Task) : Table :=
  { σ with task := update σ.task P (some t) }

def setFile (σ : Table) (f : Fin 64) (x : File) : Table :=
  { σ with file := update σ.file f x }

def setCount (σ : Table) (f : Fin 64) (n : ℕ) : Table := σ.setFile f { σ.file f with count := n }

/-- `f->f_count++`. -/
def up (σ : Table) (f : Fin 64) : Table := σ.setCount f (((σ.file f).count + 1) % 65536)

/-- `--f->f_count`. -/
def down (σ : Table) (f : Fin 64) : Table := σ.setCount f (((σ.file f).count + 65535) % 65536)

/-- The entries of the file table with no `f_count`. -/
def freeFiles (σ : Table) : List (Fin 64) := (List.finRange 64).filter fun f => (σ.file f).count = 0

/-! ### `open` -/

/-- `sys_open` up to `open_namei`. -/
def sysOpen (σ : Table) (P : Fin 64) (t : Task) (flag : ℕ) : Table :=
  match t.freeFds with
  | [] => σ.set P (t.returns (-22))
  | fd :: _ =>
    match σ.freeFiles with
    | [] => σ.set P ((t.clearBit fd).returns (-22))
    | f :: _ => (σ.up f).set P { (t.clearBit fd).point fd (some f) with pc := .opening fd f flag }

/-- The rest of `sys_open`: with an error of `open_namei` or of the check for a tty, or with the inode
and its mode. -/
def opened (σ : Table) (P : Fin 64) (t : Task) (fd : Fin 20) (f : Fin 64) (flag : ℕ) : Except ℕ (ℕ × ℕ) → Table
  | .error e => (σ.setCount f 0).set P ((t.point fd none).returns (-e))
  | .ok (inode, mode) =>
    (σ.setFile f { mode := mode, flags := flag, count := 1, inode := some inode, pos := 0 }).set P
    (t.returns fd.val)

/-! ### `close` -/

/-- `sys_close` up to `iput`, and where the process goes on. -/
def sysClose (σ : Table) (P : Fin 64) (t : Task) (fd : ℕ) (next : Pc) : Table :=
  if h : fd < 20 then
    let t := t.clearBit ⟨fd, h⟩
    match t.filp ⟨fd, h⟩ with
    | none => σ.set P { t with ret := -22, pc := next }
    | some f =>
      let t := { t.point ⟨fd, h⟩ none with ret := 0, pc := next }
      if (σ.file f).count = 0 then { σ.set P t with panicked := true }
      else (σ.down f).set P t
  else σ.set P { t with ret := -22, pc := next }

/-! ### `dup` and `fcntl` -/

def dupfd (σ : Table) (P : Fin 64) (t : Task) (fd arg : ℕ) : Table :=
  if h : fd < 20 then
    match t.filp ⟨fd, h⟩ with
    | none => σ.set P (t.returns (-9))
    | some f =>
      if 20 ≤ arg then σ.set P (t.returns (-22))
      else match t.freeFrom arg with
        | none => σ.set P (t.returns (-24))
        | some i => (σ.up f).set P (((t.clearBit i).point i (some f)).returns i.val)
  else σ.set P (t.returns (-9))

def sysDup (σ : Table) (P : Fin 64) (t : Task) (fildes : ℕ) : Table := σ.dupfd P t fildes 0

/-- `sys_dup2` closes the new descriptor first. -/
def sysDup2 (σ : Table) (P : Fin 64) (t : Task) (oldfd newfd : ℕ) : Table :=
  σ.sysClose P t newfd (.dupping oldfd newfd)

def sysFcntl (σ : Table) (P : Fin 64) (t : Task) (fd cmd arg : ℕ) : Table :=
  if h : fd < 20 then
    match t.filp ⟨fd, h⟩ with
    | none => σ.set P (t.returns (-9))
    | some f =>
      match cmd with
      | 0 => σ.dupfd P t fd arg
      | 1 => σ.set P (t.returns (if t.closeOnExec.getLsbD fd then 1 else 0))
      | 2 =>
        if arg % 2 = 1 then σ.set P ((t.setBit ⟨fd, h⟩).returns 0)
        else σ.set P ((t.clearBit ⟨fd, h⟩).returns 0)
      | 3 => σ.set P (t.returns (σ.file f).flags)
      | 4 =>
        -- O_APPEND | O_NONBLOCK
        (σ.setFile f { σ.file f with
          flags := ((σ.file f).flags &&& (65535 - 0o6000)) ||| (arg &&& 0o6000) }).set P (t.returns 0)
      | _ => σ.set P (t.returns (-1))
  else σ.set P (t.returns (-9))

/-! ### `pipe` -/

/-- `sys_pipe` up to `get_pipe_inode`. -/
def sysPipe (σ : Table) (P : Fin 64) (t : Task) : Table :=
  match σ.freeFiles with
  | f₀ :: f₁ :: _ =>
    let σ := (σ.up f₀).up f₁
    match t.freeFds with
    | fd₀ :: fd₁ :: _ =>
      σ.set P { (t.point fd₀ (some f₀)).point fd₁ (some f₁) with pc := .piping fd₀ fd₁ f₀ f₁ }
    | [fd₀] =>
      ((σ.setCount f₀ 0).setCount f₁ 0).set P (((t.point fd₀ (some f₀)).point fd₀ none).returns (-1))
    | [] => ((σ.setCount f₀ 0).setCount f₁ 0).set P (t.returns (-1))
  | [f₀] => ((σ.up f₀).setCount f₀ 0).set P (t.returns (-1))
  | [] => σ.set P (t.returns (-1))

/-- The rest of `sys_pipe`, with an inode or without. -/
def piped (σ : Table) (P : Fin 64) (t : Task) (fd₀ fd₁ : Fin 20) (f₀ f₁ : Fin 64) : Option ℕ → Table
  | none =>
    ((σ.setCount f₀ 0).setCount f₁ 0).set P (((t.point fd₀ none).point fd₁ none).returns (-1))
  | some inode =>
    let σ := σ.setFile f₀ { σ.file f₀ with inode := some inode, pos := 0, mode := 1 }
    let σ := σ.setFile f₁ { σ.file f₁ with inode := some inode, pos := 0, mode := 2 }
    σ.set P (t.returns 0)

/-! ### `fork` -/

/-- The loop of `copy_process` over the descriptors of the child. -/
def countFiles (σ : Table) (t : Task) (fds : List (Fin 20)) : Table :=
  fds.foldl (fun σ fd => match t.filp fd with
    | none => σ
    | some f => σ.up f) σ

/-- `sys_fork`, which returns the pid; `memory` says whether `copy_process` finds enough of it. -/
def sysFork (σ : Table) (P : Fin 64) (t : Task) (pid : ℤ) (memory : Bool) : Table :=
  match (List.finRange 64).find? fun i => decide (i ≠ 0 ∧ (σ.task i).isNone) with
  | none => σ.set P (t.returns (-11))
  | some nr =>
    if memory then
      ((σ.set nr (t.returns 0)).countFiles t (List.finRange 20)).set P (t.returns pid)
    else σ.set P (t.returns (-11))

/-! ### `execve` and `exit` -/

/-- A round of the loop of `do_execve`. -/
def execing (σ : Table) (P : Fin 64) (t : Task) (i : ℕ) : Table :=
  if i < 20 then
    if t.closeOnExec.getLsbD i then σ.sysClose P t i (.execing (i + 1))
    else σ.set P { t with pc := .execing (i + 1) }
  else σ.set P ({ t with closeOnExec := 0 }.returns 0)

/-- A round of the loop of `do_exit`. -/
def exiting (σ : Table) (P : Fin 64) (t : Task) (i : ℕ) : Table :=
  if h : i < 20 then
    match t.filp ⟨i, h⟩ with
    | none => σ.set P { t with pc := .exiting (i + 1) }
    | some _ => σ.sysClose P t i (.exiting (i + 1))
  else σ.set P { t with pc := .zombie }

/-- The father has the zombie released. -/
def release (σ : Table) (i : Fin 64) : Table := { σ with task := update σ.task i none }

end Table

/-! ### Runs -/

inductive Event where
  | sysOpen (flag : ℕ)
  /-- `open_namei` has come back -/
  | opened (result : Except ℕ (ℕ × ℕ))
  | sysClose (fd : ℕ)
  | sysDup (fildes : ℕ)
  | sysDup2 (oldfd newfd : ℕ)
  | sysFcntl (fd cmd arg : ℕ)
  | sysPipe
  /-- `get_pipe_inode` has come back -/
  | piped (inode : Option ℕ)
  | sysFork (pid : ℤ) (memory : Bool)
  /-- `do_execve`, which fails or comes to the point of no return -/
  | execve (error : Option ℕ)
  /-- `do_exit`, also when a page fault finds no memory -/
  | exit
  | release (i : Fin 64)
  /-- the process goes on in the kernel -/
  | run

namespace Table

/-- A step of the process in slot `P`. -/
def step (σ : Table) (e : Fin 64 × Event) : Option Table :=
  match σ.task e.1 with
  | none => none
  | some t =>
    match e.2, t.pc with
    | .sysOpen flag, .user => some (σ.sysOpen e.1 t flag)
    | .opened result, .opening fd f flag => some (σ.opened e.1 t fd f flag result)
    | .sysClose fd, .user => some (σ.sysClose e.1 t fd .closing)
    | .sysDup fildes, .user => some (σ.sysDup e.1 t fildes)
    | .sysDup2 oldfd newfd, .user => some (σ.sysDup2 e.1 t oldfd newfd)
    | .sysFcntl fd cmd arg, .user => some (σ.sysFcntl e.1 t fd cmd arg)
    | .sysPipe, .user => some (σ.sysPipe e.1 t)
    | .piped inode, .piping fd₀ fd₁ f₀ f₁ => some (σ.piped e.1 t fd₀ fd₁ f₀ f₁ inode)
    | .sysFork pid memory, .user => some (σ.sysFork e.1 t pid memory)
    | .execve (some error), .user => some (σ.set e.1 (t.returns (-error)))
    | .execve none, .user => some (σ.set e.1 { t with pc := .execing 0 })
    | .exit, .user => some (σ.set e.1 { t with pc := .exiting 0 })
    | .exit, .opening _ _ _ => some (σ.set e.1 { t with pc := .exiting 0 })
    | .release i, .user =>
      if (σ.task i).any fun u => decide (u.pc = .zombie) then some (σ.release i) else none
    | .run, .closing => some (σ.set e.1 { t with pc := .user })
    | .run, .dupping oldfd newfd => some (σ.dupfd e.1 t oldfd newfd)
    | .run, .execing i => some (σ.execing e.1 t i)
    | .run, .exiting i => some (σ.exiting e.1 t i)
    | _, _ => none

/-- Task 0 with no file open. -/
def boot : Table where
  task i := if i = 0 then some ⟨fun _ => none, 0, 0, .user⟩ else none
  file _ := ⟨0, 0, 0, none, 0⟩
  panicked := false

end Table

end OldLinux.Files
