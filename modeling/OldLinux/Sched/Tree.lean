import Mathlib.Algebra.BigOperators.Group.List.Basic
import Mathlib.Data.BitVec
import OldLinux.Sched.WaitQueue

/-!
# The process tree

`fork`, `exit` and `waitpid` with the fields of the `task_struct` they work on.  Each of them is cut
where it sleeps or calls `schedule`: `do_exit` while it closes the files, `sys_waitpid` while it waits
and again inside `release`.  Between two such points nobody else runs; at them anybody may.
A process whose `stat_addr` cannot be stored to is killed by the store at the end of `sys_waitpid`.
-/

namespace OldLinux.Sched

open Function Lib

/-- Where a process is. -/
inductive TreePc where
  | user
  /-- `do_exit` after the children were given away, with files to close -/
  | exiting (code : ℤ)
  | zombie
  /-- `sys_waitpid` with nobody to report -/
  | waiting (pid : ℤ) (nohang untraced : Bool)
  /-- `sys_waitpid` after `release`: `flag` and `code`; the serial number of the child is history -/
  | reaped (flag code : ℤ) (child : ℕ)
deriving DecidableEq

structure Proc where
  pid : ℤ
  father : ℤ
  pgrp : ℤ
  state : TaskState
  exitCode : ℤ
  signal : BitVec 32
  utime : BitVec 32
  stime : BitVec 32
  cutime : BitVec 32
  cstime : BitVec 32
  /-- the page of the `task_struct` -/
  page : ℕ
  pc : TreePc
  /-- the `stat_addr` given to `waitpid` can be stored to -/
  stat : Bool
  /-- history: no two processes have the same -/
  serial : ℕ

/-- History: a zombie that was collected. -/
structure Collected where
  child : ℕ
  father : ℕ
  pid : ℤ
  code : ℤ
  utime : BitVec 32
  stime : BitVec 32

structure Tree where
  task : ℕ → Option Proc
  lastPid : ℤ
  /-- the pages in use for a `task_struct` -/
  used : Finset ℕ
  /-- `tell_father` has found no father -/
  complained : Bool
  panicked : Bool
  /-- history: the next serial number -/
  born : ℕ
  /-- history: who has exited, with its pid and its exit code -/
  exits : List (ℕ × ℤ × ℤ)
  collected : List Collected
  /-- history: what `sys_waitpid` has returned and stored, for which child -/
  returned : List (ℕ × ℤ × ℤ)

namespace Tree

def set (σ : Tree) (i : ℕ) (t : Proc) : Tree := { σ with task := update σ.task i (some t) }

def sigChld : BitVec 32 := 1#32 <<< 16

/-! ### `fork` -/

/-- `if ((++last_pid)<0) last_pid=1`. -/
def nextPid (pid : ℤ) : ℤ := if pid + 1 = 2 ^ 31 then 1 else pid + 1

/-- Some task has this pid. -/
def HasPid (σ : Tree) (pid : ℤ) : Prop := ∃ i < 64, (σ.task i).map Proc.pid = some pid

instance (σ : Tree) (pid : ℤ) : Decidable (σ.HasPid pid) :=
  inferInstanceAs (Decidable (∃ i, i < 64 ∧ (σ.task i).map Proc.pid = some pid))

/-- The loop of `find_empty_process` for the pid is left after `k + 1` rounds. -/
def PidAfter (σ : Tree) (k : ℕ) : Prop :=
  (∀ j < k, σ.HasPid (nextPid^[j + 1] σ.lastPid)) ∧ ¬σ.HasPid (nextPid^[k + 1] σ.lastPid)

instance (σ : Tree) (k : ℕ) : Decidable (σ.PidAfter k) :=
  inferInstanceAs (Decidable (_ ∧ _))

/-- The first empty slot. -/
def emptySlot (σ : Tree) : Option ℕ :=
  ((List.range 63).map (· + 1)).find? fun i => (σ.task i).isNone

/-- `copy_process` into the slot `nr` and the page, unless memory runs out. -/
def copyProcess (σ : Tree) (t : Proc) (nr : ℕ) (page : Option ℕ) : Tree :=
  match page with
  | none => σ
  | some p =>
    { σ.set nr { t with
        pid := σ.lastPid, father := t.pid, state := .running, signal := 0, utime := 0, stime := 0,
        cutime := 0, cstime := 0, page := p, pc := .user, serial := σ.born } with
      used := insert p σ.used
      born := σ.born + 1 }

/-- `sys_fork`. -/
def fork (σ : Tree) (t : Proc) (k : ℕ) (page : Option ℕ) : Tree :=
  let σ' := { σ with lastPid := nextPid^[k + 1] σ.lastPid }
  match σ'.emptySlot with
  | none => σ'
  | some nr => σ'.copyProcess t nr page

/-! ### `exit` -/

/-- The children of a process go to init. -/
def giveAway (σ : Tree) (pid : ℤ) : ℕ → Option Proc := fun i =>
  (σ.task i).map fun u => if u.father = pid ∧ i < 64 then { u with father := 1 } else u

/-- One of the children is a zombie. -/
def HasZombie (σ : Tree) (pid : ℤ) : Prop :=
  ∃ i < 64, (σ.task i).map (fun u => decide (u.father = pid ∧ u.state = .zombie)) = some true

instance (σ : Tree) (pid : ℤ) : Decidable (σ.HasZombie pid) :=
  inferInstanceAs (Decidable (∃ i, i < 64 ∧
    (σ.task i).map (fun u => decide (u.father = pid ∧ u.state = .zombie)) = some true))

def addSignal (task : ℕ → Option Proc) (i : ℕ) : ℕ → Option Proc :=
  update task i ((task i).map fun u => { u with signal := u.signal ||| sigChld })

/-- The first part of `do_exit`: the children are given away, and init hears of the zombies. -/
def exit (σ : Tree) (P : ℕ) (t : Proc) (code : ℤ) : Tree :=
  let task := σ.giveAway t.pid
  let task := if σ.HasZombie t.pid then addSignal task 1 else task
  { σ with task := update task P ((task P).map fun u => { u with pc := .exiting code }) }

/-- The first task with this pid. -/
def findPid (σ : Tree) (pid : ℤ) : Option ℕ :=
  (List.range 64).find? fun i => decide ((σ.task i).map Proc.pid = some pid)

/-- `free_page`, which panics when the page is free. -/
def freePage (σ : Tree) (page : ℕ) : Tree :=
  if page ∈ σ.used then { σ with used := σ.used.erase page } else { σ with panicked := true }

/-- `release` of the `task_struct` in this page, up to its call of `schedule`. -/
def release (σ : Tree) (page : ℕ) : Tree :=
  match ((List.range 63).map (· + 1)).find? fun i => decide ((σ.task i).map Proc.page = some page) with
  | none => { σ with panicked := true }
  | some i => { σ with task := update σ.task i none }.freePage page

/-- `tell_father`. -/
def tellFather (σ : Tree) (page : ℕ) (father : ℤ) : Tree :=
  match if father = 0 then none else σ.findPid father with
  | none => { σ with complained := true }.release page
  | some i => { σ with task := addSignal σ.task i }

/-- The rest of `do_exit`, after the files were closed. -/
def exited (σ : Tree) (P : ℕ) (t : Proc) (code : ℤ) : Tree :=
  { σ.set P { t with state := .zombie, exitCode := code, pc := .zombie } with
    exits := σ.exits ++ [(t.serial, t.pid, code)] }.tellFather t.page t.father

/-! ### `waitpid` -/

/-- The argument `pid` of `waitpid` means this child. -/
def wanted (pid : ℤ) (t u : Proc) : Bool :=
  if pid > 0 then u.pid == pid else if pid = 0 then u.pgrp == t.pgrp
  else if pid ≠ -1 then u.pgrp == -pid else true

/-- What the loop of `sys_waitpid` finds. -/
inductive Found where
  | zombie (i : ℕ)
  | stopped (i : ℕ)
  /-- `flag`: there is a child that still runs -/
  | nobody (flag : Bool)

/-- The loop of `sys_waitpid` over the tasks `i`, .., 1. -/
def look (σ : Tree) (P : ℕ) (t : Proc) (pid : ℤ) (untraced : Bool) : ℕ → Bool → Found
  | 0, flag => .nobody flag
  | i + 1, flag =>
    match σ.task (i + 1) with
    | none => σ.look P t pid untraced i flag
    | some u =>
      if i + 1 = P ∨ u.father ≠ t.pid ∨ wanted pid t u = false then σ.look P t pid untraced i flag
      else match u.state with
        | .stopped => if untraced then .stopped (i + 1) else σ.look P t pid untraced i flag
        | .zombie => .zombie (i + 1)
        | _ => σ.look P t pid untraced i true

/-- The process after `current->cutime += (*p)->utime` and so on. -/
def reaping (t u : Proc) : Proc :=
  { t with
    cutime := t.cutime + u.utime, cstime := t.cstime + u.stime, state := .running
    pc := .reaped u.pid u.exitCode u.serial }

/-- The times of the child are added, and it is released. -/
def reap (σ : Tree) (P : ℕ) (t u : Proc) : Tree :=
  let r : Collected := ⟨u.serial, t.serial, u.pid, u.exitCode, u.utime, u.stime⟩
  { σ.set P (reaping t u) with collected := σ.collected ++ [r] }.release u.page

/-- From `repeat` to the next call of `schedule`, or back to user mode.  A store that fails for a stopped
child is an `exit` that follows from there. -/
def waitpid (σ : Tree) (P : ℕ) (t : Proc) (pid : ℤ) (nohang untraced : Bool) : Tree :=
  match σ.look P t pid untraced 63 false with
  | .zombie i =>
    match σ.task i with
    | none => σ
    | some u => σ.reap P t u
  | .stopped _ => σ.set P { t with state := .running, pc := .user }
  | .nobody flag =>
    if flag = true ∧ nohang = false then
      σ.set P { t with state := .interruptible, pc := .waiting pid nohang untraced }
    else σ.set P { t with state := .running, pc := .user }

/-- `schedule` has come back: with no other signal `goto repeat`, else `-EINTR`. -/
def waited (σ : Tree) (P : ℕ) (t : Proc) (pid : ℤ) (nohang untraced : Bool) : Tree :=
  let t := { t with signal := t.signal &&& ~~~sigChld }
  if t.signal = 0 then σ.waitpid P t pid nohang untraced
  else σ.set P { t with state := .running, pc := .user }

/-- The process returns with pid and exit code of the child. -/
def report (σ : Tree) (P : ℕ) (t : Proc) (flag code : ℤ) (child : ℕ) : Tree :=
  { σ.set P { t with pc := .user } with returned := σ.returned ++ [(child, flag, code)] }

/-- `put_fs_long(code,stat_addr); return flag`; a fault in the kernel ends in `do_exit(11)`. -/
def finish (σ : Tree) (P : ℕ) (t : Proc) (flag code : ℤ) (child : ℕ) : Tree :=
  if t.stat then σ.report P t flag code child else σ.exit P t 11

end Tree

/-! ### Runs -/

inductive TreeEvent where
  /-- the rounds for the pid, and the page for the `task_struct` when memory suffices -/
  | fork (k : ℕ) (page : Option ℕ)
  | exit (code : ℤ)
  | waitpid (pid : ℤ) (nohang untraced stat : Bool)
  /-- the process goes on in the kernel -/
  | run
  | setPgrp (pgrp : ℤ)
  | signal (bits : BitVec 32)
  | tick (user : Bool)

namespace Tree

/-- A step of the process in slot `P`.  Task 0 has forked init and does nothing any more. -/
def step (σ : Tree) (e : ℕ × TreeEvent) : Option Tree :=
  match σ.task e.1 with
  | none => none
  | some t =>
    match e.2, t.pc with
    | .fork k page, .user =>
      if e.1 ≠ 0 ∧ σ.PidAfter k ∧ (∀ p ∈ page, p ∉ σ.used) then some (σ.fork t k page) else none
    | .exit code, .user => if e.1 ≠ 0 then some (σ.exit e.1 t code) else none
    | .waitpid pid nohang untraced stat, .user =>
      if e.1 ≠ 0 then some (σ.waitpid e.1 { t with stat := stat } pid nohang untraced) else none
    | .setPgrp pgrp, .user => some (σ.set e.1 { t with pgrp := pgrp })
    | .run, .exiting code => some (σ.exited e.1 t code)
    | .run, .waiting pid nohang untraced => some (σ.waited e.1 t pid nohang untraced)
    | .run, .reaped flag code child => some (σ.finish e.1 t flag code child)
    | .signal bits, _ => some (σ.set e.1 { t with signal := t.signal ||| bits })
    | .tick user, .user => some (σ.set e.1 (if user then { t with utime := t.utime + 1 }
        else { t with stime := t.stime + 1 }))
    | _, _ => none

/-- Task 0 has forked init. -/
structure Start (σ : Tree) : Prop where
  zero : ∃ t, σ.task 0 = some t ∧ t.pid = 0 ∧ t.father = -1 ∧ t.state = .running ∧ t.pc = .user ∧
    t.serial = 0 ∧ t.cutime = 0 ∧ t.cstime = 0
  init : ∃ t, σ.task 1 = some t ∧ t.pid = 1 ∧ t.father = 0 ∧ t.state = .running ∧ t.pc = .user ∧
    t.serial = 1 ∧ t.cutime = 0 ∧ t.cstime = 0 ∧ σ.used = {t.page} ∧ σ.task 0 ≠ some t
  others : ∀ i, 1 < i → σ.task i = none
  lastPid : σ.lastPid = 1
  clean : σ.complained = false ∧ σ.panicked = false
  born : σ.born = 2
  history : σ.exits = [] ∧ σ.collected = [] ∧ σ.returned = []

/-- Init never exits. -/
def InitStays (_ : Tree) (e : ℕ × TreeEvent) : Prop := e.1 = 1 → ∀ code, e.2 ≠ .exit code

/-- A `waitpid` that has collected a child can store the exit code. -/
def StatusStored (σ : Tree) (e : ℕ × TreeEvent) : Prop :=
  ∀ t f c s, σ.task e.1 = some t → t.pc = .reaped f c s → t.stat = true

/-- Init never exits, and every exit code can be stored. -/
def Careful (σ : Tree) (e : ℕ × TreeEvent) : Prop := InitStays σ e ∧ StatusStored σ e

end Tree

end OldLinux.Sched
