import OldLinux.Memory.Runs

/-!
# Processes: page faults, system calls, `fork`, `execve` and `exit`

The machine is memory with the frames the kernel holds, the tasks in their slots, and the files.  A
task has a list of things still to do; each of them runs without sleeping, and between any two of
them another task may run, which covers every place where the code of the kernel can sleep.  User
mode is the choice of what to do next when the list is empty.

The CPU is a 386: a store in user mode respects the write bit of the page table entry, a store in
supervisor mode does not, and every store sets the dirty bit of the entry it goes through.  A fault
restarts the access, so an access to an absent page puts the rest of `do_no_page`, if it sleeps, in
front of itself.  Task 0 runs the code of `main`: it forks and pauses.
-/

namespace OldLinux.Process

open Function Lib Memory

abbrev Byte := BitVec 8
abbrev Page := ℕ → Word

/-! ### Bytes of a page -/

def byteAt (page : Page) (k : ℕ) : Byte := (page (k / 4)).extractLsb' (8 * (k % 4)) 8

def setByte (page : Page) (k : ℕ) (b : Byte) : Page :=
  update page (k / 4) ((page (k / 4) &&& ~~~(0xff#32 <<< (8 * (k % 4)))) ||| (b.setWidth 32 <<< (8 * (k % 4))))

/-- The four bytes of a long, in the order they are stored. -/
def longBytes (w : Word) : List Byte :=
  [w.extractLsb' 0 8, w.extractLsb' 8 8, w.extractLsb' 16 8, w.extractLsb' 24 8]

/-! ### Files -/

/-- What `bmap`, `bread` and `i_size` give for the inodes in use.  A file is read block by block;
zone 0 stands for a hole, which `bread_page` leaves zero. -/
structure Files where
  bmap : ℕ → ℕ → ℕ
  block : ℕ → Page
  size : ℕ → ℕ

def Files.words (F : Files) (inode b : ℕ) : Page :=
  if F.bmap inode b = 0 then fun _ => 0 else F.block (F.bmap inode b)

/-- The words of `struct exec`: `a_magic`, `a_text`, `a_data`, `a_bss`, `a_syms`, `a_entry`,
`a_trsize` and `a_drsize`. -/
def Files.ex (F : Files) (inode k : ℕ) : Word := F.block (F.bmap inode 0) k

/-- The checks `do_execve` makes on the header. -/
def Files.Runnable (F : Files) (inode : ℕ) : Prop :=
  F.ex inode 0 = 0x10b#32 ∧ F.ex inode 6 = 0 ∧ F.ex inode 7 = 0 ∧
    (F.ex inode 1 + F.ex inode 2 + F.ex inode 3).toNat ≤ 0x3000000 ∧
    (F.ex inode 1 + F.ex inode 2 + F.ex inode 4 + 1024#32).toNat ≤ F.size inode

instance (F : Files) (inode : ℕ) : Decidable (F.Runnable inode) :=
  inferInstanceAs (Decidable (_ ∧ _))

def Files.text (F : Files) (inode : ℕ) : ℕ := (F.ex inode 1).toNat

/-- `ex.a_data + ex.a_text`. -/
def Files.endData (F : Files) (inode : ℕ) : ℕ := (F.ex inode 2 + F.ex inode 1).toNat

/-- `bread_page` of the four blocks from `1 + tmp/BLOCK_SIZE` on. -/
def Files.breadPage (F : Files) (inode tmp : ℕ) : Page := fun j =>
  F.words inode (1 + tmp / 1024 + j / 256) (j % 256)

/-- `while (i-- > 0) { tmp--; *(char *)tmp = 0; }`. -/
def zeroTail : Page → ℕ → ℕ → Page
  | page, _, 0 => page
  | page, tmp, i + 1 => zeroTail (setByte page (tmp - 1) 0) (tmp - 1) i

/-- What the slow branch of `do_no_page` puts into the page at `tmp`. -/
def Files.load (F : Files) (inode endData tmp : ℕ) : Page :=
  zeroTail (F.breadPage inode tmp) 4096 (tmp + 4096 - endData)

/-! ### Tasks -/

inductive Action where
  /-- a load, by user mode or with `get_fs_byte` -/
  | load (a : ℕ)
  /-- a store in user mode -/
  | store (a : ℕ) (b : Byte)
  /-- `put_fs_byte` -/
  | put (a : ℕ) (b : Byte)
  | verify (a : ℕ) (size : ℤ)
  /-- the rest of `do_no_page` once `bread_page` has the blocks -/
  | finishLoad (page tmp : ℕ)
  | fork (nr : ℕ)
  /-- `do_execve` up to the point of no return; the lengths of the argument and environment strings,
  and what the pages with the strings hold -/
  | exec (inode : ℕ) (args envs : List ℕ) (strings : ℕ → Page)
  /-- `current->executable = inode`, after `iput` of the old one -/
  | execSwitch (inode : ℕ) (args envs : List ℕ) (text endData : ℕ) (page : List ℕ)
  /-- the rest of `do_execve`, after the files were closed -/
  | execFree (args envs : List ℕ) (text endData : ℕ) (page : List ℕ)
  | exit
  /-- the rest of `do_exit`, after the files were closed -/
  | exited
  | release (nr : ℕ)

structure Task where
  executable : Option ℕ
  endData : ℕ
  /-- `get_limit(0x0f)` -/
  codeLimit : ℕ
  /-- `get_limit(0x17)` -/
  dataLimit : ℕ
  zombie : Bool
  /-- the frame of the `task_struct` -/
  frame : ℕ
  todo : List Action

structure Machine where
  kernel : Kernel
  task : ℕ → Option Task
  files : Files
  /-- references to an inode other than as somebody's executable -/
  refs : ℕ → ℕ

/-- The machine at boot: task 0 with its segments of 640 kB. -/
def Machine.boot (M : MainMemory) (m : ℕ → Page) (F : Files) (refs : ℕ → ℕ) : Machine where
  kernel := ⟨M.boot m, 0⟩
  task := fun nr => if nr = 0 then some ⟨none, 0, 0xA0000, 0xA0000, false, 0, []⟩ else none
  files := F
  refs := refs

/-- `current->executable->i_count`. -/
def Machine.iCount (σ : Machine) (inode : ℕ) : ℕ :=
  σ.refs inode + ((List.range 64).filter fun nr =>
    decide ((σ.task nr).bind Task.executable = some inode)).length

/-- The task `P` goes on as `t` with the kernel state `k`. -/
def Machine.set (σ : Machine) (P : ℕ) (t : Task) (k : Kernel) : Machine :=
  { σ with kernel := k, task := update σ.task P (some t) }

def Task.next (t : Task) (todo : List Action) : Task := { t with todo := todo }

/-- Run a command of the memory manager for the task `P`: out of memory means `do_exit`, and a panic
stops the machine. -/
def Machine.call {α : Type} (σ : Machine) (P : ℕ) (t : Task) (c : MmM α) (next : α → Mm → Machine) :
    Option Machine :=
  match c σ.kernel.mm with
  | .ok a s => some (next a s)
  | .error .oom s => some (σ.set P (t.next [.exit]) ⟨s, σ.kernel.held⟩)
  | .error (.panic _) _ => none

/-- `nr * 0x4000000`, the base of the slot. -/
def base (nr : ℕ) : ℕ := nr * 0x4000000

/-! ### Memory accesses -/

/-- A store through a present entry: the CPU marks the entry dirty. -/
def poke (address : ℕ) (b : Byte) : MmM Unit := do
  let dir ← loadWord 0 (dirIndex address)
  let e ← loadWord (frameOf dir) (tableIndex address)
  storeWord (frameOf dir) (tableIndex address) (withDirty e)
  modify fun s => s.storePage (frameOf e) (setByte (s.mem (frameOf e)) (address % 4096) b)

/-- `verify_area`: the loop over `n` pages. -/
def verifyPages : ℕ → ℕ → MmM Unit
  | _, 0 => return ()
  | start, n + 1 => do
      writeVerify start
      verifyPages ((start + 4096) % 2 ^ 32) n

/-- The number of times `while (size>0) size -= 4096` runs, for the `int` that
`size += start & 0xfff` leaves. -/
def verifyCount (addr : ℕ) (size : ℤ) : ℕ :=
  (((size + addr % 4096).bmod (2 ^ 32) + 4095) / 4096).toNat

def verifyArea (nr addr : ℕ) (size : ℤ) : MmM Unit :=
  verifyPages ((addr - addr % 4096 + base nr) % 2 ^ 32) (verifyCount addr size)

/-- The loop of `share_page` over the tasks `n`, .., 1. -/
def Machine.tryTasks (σ : Machine) (P inode tmp : ℕ) : ℕ → MmM Bool
  | 0 => return false
  | n + 1 =>
    if n + 1 ≠ P ∧ (σ.task (n + 1)).bind Task.executable = some inode then do
      let shared ← tryToShare tmp (base (n + 1)) (base P)
      if shared then
        return true
      else
        σ.tryTasks P inode tmp n
    else
      σ.tryTasks P inode tmp n

def Machine.sharePage (σ : Machine) (P inode tmp : ℕ) : MmM Bool := do
  if σ.iCount inode < 2 then
    return false
  else
    σ.tryTasks P inode tmp 63

/-- `do_no_page` up to the point where it sleeps: true when the page is there, and the frame to
load it into when it has to be loaded. -/
def Machine.findPage (σ : Machine) (P : ℕ) (t : Task) (tmp : ℕ) : MmM (Option ℕ) :=
  match t.executable with
  | none => do
      getEmptyPage (base P + tmp)
      return none
  | some inode => do
      if t.endData ≤ tmp then
        getEmptyPage (base P + tmp)
        return none
      else
        let shared ← σ.sharePage P inode tmp
        if shared then
          return none
        else
          let page ← getFreePage
          if page = 0 then
            throw .oom
          else
            return some (page / 4096)

/-- A page fault for an absent page; the access is the first thing to do afterwards. -/
def Machine.doNoPage (σ : Machine) (P : ℕ) (t : Task) (a : ℕ) : Option Machine :=
  σ.call P t (σ.findPage P t (a - a % 4096)) fun page s =>
    match page with
    | none => σ.set P t ⟨s, σ.kernel.held⟩
    | some f =>
      σ.set P (t.next (.finishLoad f (a - a % 4096) :: t.todo)) ⟨s, f ::ₘ σ.kernel.held⟩

/-- `put_page(page,address)`, or back with the page and `oom()`. -/
def finishPage (f address : ℕ) (contents : Page) : MmM Unit := do
  modify fun s => s.storePage f contents
  let r ← putPage (f * 4096) address
  if r = 0 then
    freePage (f * 4096)
    throw .oom
  else
    return ()

def Machine.pte (σ : Machine) (P a : ℕ) : Word := σ.kernel.mm.pte (slotPlace P a)

/-! ### `fork` -/

/-- `copy_process` with `copy_mem`: the frame of the new `task_struct`, unless memory runs out. -/
def copyProcess (P nr : ℕ) (t : Task) : MmM (Option ℕ) := do
  let p ← getFreePage
  if p = 0 then
    return none
  else if t.dataLimit < t.codeLimit then
    throw (.panic "Bad data_limit")
  else
    let r ← copyPageTables (base P) (base nr) t.dataLimit
    if r ≠ 0 then
      freePageTables (base nr) t.dataLimit
      freePage p
      return none
    else
      return some (p / 4096)

def Machine.fork (σ : Machine) (P : ℕ) (t : Task) (nr : ℕ) : Option Machine :=
  if 0 < nr ∧ nr < 64 ∧ σ.task nr = none then
    σ.call P t (copyProcess P nr t) fun child s =>
      match child with
      | none => σ.set P t ⟨s, σ.kernel.held⟩
      | some f => (σ.set P t ⟨s, f ::ₘ σ.kernel.held⟩).set nr
          { t with frame := f, zombie := false, todo := [] } ⟨s, f ::ₘ σ.kernel.held⟩
  else
    some (σ.set P t σ.kernel)

/-! ### `execve` -/

/-- `copy_strings`: the pages `i`, `i - 1`, .., `n` of them, or none when memory runs out. -/
def copyStrings (strings : ℕ → Page) : ℕ → ℕ → List ℕ → MmM (Option (List ℕ))
  | _, 0, page => return some page
  | i, n + 1, page => do
      let p ← getFreePage
      if p = 0 then
        freeAll page
        return none
      else
        modify fun s => s.storePage (p / 4096) (strings i)
        copyStrings strings (i - 1) n (page ++ [p / 4096])
where
  /-- `exec_error1`: `free_page` of every page there is. -/
  freeAll : List ℕ → MmM Unit
    | [] => return ()
    | f :: page => do
        freePage (f * 4096)
        freeAll page

/-- The number of pages that strings of this total length take below 128 kB - 4. -/
def stringPages (total : ℕ) : ℕ := if total = 0 then 0 else 32 - (131068 - total) / 4096

/-- `create_tables`: the pointers to strings of these lengths from `p` on, stored from `at` on. -/
def pointers : ℕ → ℕ → List ℕ → List (ℕ × Word)
  | _, _, [] => []
  | place, p, len :: lens => (place, BitVec.ofNat 32 p) :: pointers (place + 4) (p + len) lens

/-- The longs `create_tables` stores below the strings that begin at `p`. -/
def createTables (p : ℕ) (args envs : List ℕ) : List (ℕ × Word) :=
  let envp := p / 4 * 4 - 4 * (envs.length + 1)
  let argv := envp - 4 * (args.length + 1)
  [(argv - 4, BitVec.ofNat 32 envp), (argv - 8, BitVec.ofNat 32 argv),
    (argv - 12, BitVec.ofNat 32 args.length)] ++
  pointers argv p args ++ [(argv + 4 * args.length, 0)] ++
  pointers envp (p + args.sum) envs ++ [(envp + 4 * envs.length, 0)]

/-- `put_fs_byte` of consecutive bytes. -/
def puts : ℕ → List Byte → List Action
  | _, [] => []
  | a, b :: bs => .put a b :: puts (a + 1) bs

/-- `put_fs_long`. -/
def putLong (a : ℕ) (w : Word) : List Action := puts a (longBytes w)

/-- `while (i&0xfff) put_fs_byte(0,(char *) (i++))`. -/
def zeroFill (i : ℕ) : List Action := puts i (List.replicate ((4096 - i % 4096) % 4096) 0)

/-- The pages of `page` go below the end of the data segment; the ones that could be mapped. -/
def putArgs : ℕ → List ℕ → MmM (List ℕ)
  | _, [] => return []
  | dataBase, f :: page => do
      let r ← putPage (f * 4096) (dataBase - 4096)
      let rest ← putArgs (dataBase - 4096) page
      return if r = 0 then rest else f :: rest

/-- `free_page_tables` of the code and the data segment. -/
def freeSegments (P : ℕ) (t : Task) : MmM Unit := do
  freePageTables (base P) t.codeLimit
  freePageTables (base P) t.dataLimit

/-- `p` after the environment and the arguments; nothing where `p` passes below the area: the test
`p-len < 0` is never true, and the element of `page` that is used then is not one of the 32. -/
def stringsPlace (args envs : List ℕ) : Option ℕ :=
  if 131068 < envs.sum then none
  else if envs.sum = 131068 then some 0
  else if 131068 < args.sum + envs.sum then none
  else some (131068 - (args.sum + envs.sum))

/-- `copy_strings` of the environment and the arguments down to `p`, and `if (!p)`. -/
def copyBoth (strings : ℕ → Page) (p : ℕ) : MmM (Option (List ℕ)) := do
  match ← copyStrings strings 31 (stringPages (131068 - p)) [] with
  | none => return none
  | some page =>
    if p = 0 then
      copyStrings.freeAll page
      return none
    else
      return some page

/-- No state is given for strings that are longer than the area. -/
def Machine.exec (σ : Machine) (P : ℕ) (t : Task) (inode : ℕ) (args envs : List ℕ)
    (strings : ℕ → Page) : Option Machine :=
  if σ.files.Runnable inode then
    (stringsPlace args envs).bind fun p =>
      σ.call P t (copyBoth strings p) fun page s =>
        match page with
        | none => σ.set P t ⟨s, σ.kernel.held⟩
        | some page => σ.set P (t.next [.execSwitch inode args envs (σ.files.text inode)
            (σ.files.endData inode) page]) ⟨s, (page : Multiset ℕ) + σ.kernel.held⟩
  else
    some (σ.set P t σ.kernel)

def Machine.execFree (σ : Machine) (P : ℕ) (t : Task) (args envs : List ℕ) (text endData : ℕ)
    (page : List ℕ) : Option Machine :=
  σ.call P t (do freeSegments P t; putArgs (base P + 0x4000000) page) fun mapped s =>
    σ.set P
      { t with
        codeLimit := (text + 4095) % 2 ^ 32 / 4096 * 4096
        dataLimit := 0x4000000
        endData := endData
        todo := (createTables (0x4000000 - 4 - (args.sum + envs.sum)) args envs).flatMap
            (fun p => putLong p.1 p.2) ++ zeroFill endData }
      ⟨s, σ.kernel.held - (mapped : Multiset ℕ)⟩

/-! ### Running -/

/-- The next thing task `P` has to do; `t` is the task with the rest. -/
def Machine.perform (σ : Machine) (P : ℕ) (t : Task) : Action → Option Machine
  | .load a =>
    if t.dataLimit ≤ a then some (σ.set P (t.next [.exit]) σ.kernel)
    else if present (σ.pte P a) then some (σ.set P t σ.kernel)
    else σ.doNoPage P (t.next (.load a :: t.todo)) a
  | .store a b =>
    if t.dataLimit ≤ a then some (σ.set P (t.next [.exit]) σ.kernel)
    else if present (σ.pte P a) then
      if writable (σ.pte P a) then
        σ.call P t (poke (base P + a) b) fun _ s => σ.set P t ⟨s, σ.kernel.held⟩
      else
        σ.call P t (do doWpPage (base P + a); poke (base P + a) b) fun _ s =>
          σ.set P t ⟨s, σ.kernel.held⟩
    else σ.doNoPage P (t.next (.store a b :: t.todo)) a
  | .put a b =>
    if t.dataLimit ≤ a then some (σ.set P (t.next [.exit]) σ.kernel)
    else if present (σ.pte P a) then
      σ.call P t (poke (base P + a) b) fun _ s => σ.set P t ⟨s, σ.kernel.held⟩
    else σ.doNoPage P (t.next (.put a b :: t.todo)) a
  | .verify a size =>
    σ.call P t (verifyArea P a size) fun _ s => σ.set P t ⟨s, σ.kernel.held⟩
  | .finishLoad f tmp =>
    let σ' := { σ with kernel := ⟨σ.kernel.mm, σ.kernel.held.erase f⟩ }
    σ'.call P t (finishPage f (base P + tmp) (match t.executable with
        | none => fun _ => 0
        | some inode => σ.files.load inode t.endData tmp))
      fun _ s => σ'.set P t ⟨s, σ'.kernel.held⟩
  | .fork nr => σ.fork P t nr
  | .exec inode args envs strings => σ.exec P t inode args envs strings
  | .execSwitch inode args envs text endData page =>
    some (σ.set P { t with executable := some inode, todo := [.execFree args envs text endData page] } σ.kernel)
  | .execFree args envs text endData page => σ.execFree P t args envs text endData page
  | .exit =>
    σ.call P t (freeSegments P t) fun _ s => σ.set P (t.next [.exited]) ⟨s, σ.kernel.held⟩
  | .exited =>
    some (σ.set P { t with executable := none, zombie := true, todo := [] } σ.kernel)
  | .release nr =>
    match σ.task nr with
    | none => some (σ.set P t σ.kernel)
    | some child =>
      if child.zombie ∧ nr ≠ P then
        σ.call P t (freePage (child.frame * 4096)) fun _ s =>
          { σ.set P t ⟨s, σ.kernel.held.erase child.frame⟩ with
            task := update (update σ.task P (some t)) nr none }
      else some (σ.set P t σ.kernel)

def Machine.run (σ : Machine) (P : ℕ) : Option Machine :=
  match σ.task P with
  | none => none
  | some t =>
    match t.todo with
    | [] => none
    | a :: rest => σ.perform P (t.next rest) a

/-! ### What a process may start -/

/-- What a process in user mode may do next: an access to its memory, or a system call with what the
kernel finds to store for it. -/
inductive Activity where
  | load (a : ℕ)
  | store (a : ℕ) (b : Byte)
  | fork (nr : ℕ)
  | execve (inode : ℕ) (args envs : List ℕ) (strings : ℕ → Page)
  | exit
  /-- `count` bytes asked for, `data` is what there was -/
  | read (buf count : ℕ) (data : List Byte)
  | write (buf count : ℕ)
  | pipe (fildes : ℕ) (fd0 fd1 : Word)
  | waitpid (statAddr : ℕ) (child : Option (ℕ × Word))
  | stat (statbuf : ℕ) (tmp : List Byte)
  | times (tbuf : ℕ) (utime stime cutime cstime : Word)
  | uname (name : ℕ) (thisname : List Byte)
  | sigaction (action oldaction : ℕ) (old : List Byte)
  | signal (esp : ℕ) (frame : List Word)
  | time (tloc : ℕ) (now : Word)
  | ioctl (arg : ℕ) (data : List Byte)

/-- `verify_area` of an area and then a store of every byte of it. -/
def verified (a : ℕ) (bytes : List Byte) : List Action :=
  .verify a bytes.length :: puts a bytes

def Activity.actions : Activity → List Action
  | .load a => [.load a]
  | .store a b => [.store a b]
  | .fork nr => [.fork nr]
  | .execve inode args envs strings => [.exec inode args envs strings]
  | .exit => [.exit]
  | .read buf count data => if count = 0 then [] else .verify buf count :: puts buf (data.take count)
  | .write buf count => (List.range count).map fun i => .load (buf + i)
  | .pipe fildes fd0 fd1 => putLong fildes fd0 ++ putLong (fildes + 4) fd1
  | .waitpid statAddr none => [.verify statAddr 4]
  | .waitpid statAddr (some (nr, code)) => .verify statAddr 4 :: .release nr :: putLong statAddr code
  | .stat statbuf tmp => verified statbuf tmp
  | .times tbuf utime stime cutime cstime =>
    if tbuf = 0 then [] else verified tbuf ([utime, stime, cutime, cstime].flatMap longBytes)
  | .uname name thisname => if name = 0 then [] else verified name thisname
  | .sigaction action oldaction old => (List.range 16).map (fun i => .load (action + i)) ++
      if oldaction = 0 then [] else verified oldaction old
  | .signal esp frame => verified esp (frame.flatMap longBytes)
  | .time tloc now => if tloc = 0 then [] else verified tloc (longBytes now)
  | .ioctl arg data => verified arg data

/-- One step of the machine: a task in user mode starts something, a task runs the next thing it has
to do, a file is written, an inode is opened or closed, or the kernel takes or gives back a frame
for its own use. -/
inductive Event where
  | start (what : Activity)
  | run
  | files (F : Files)
  | refs (r : ℕ → ℕ)
  | take
  | give (f : ℕ)

/-- The frames a task has in its hands. -/
def Task.frames (t : Task) : List ℕ :=
  t.frame :: match t.todo with
    | .finishLoad f _ :: _ => [f]
    | .execSwitch _ _ _ _ _ page :: _ => page
    | .execFree _ _ _ _ page :: _ => page
    | _ => []

/-- The events there can be. -/
def Machine.Enabled (σ : Machine) (P : ℕ) : Event → Prop
  | .start what => ∃ t, σ.task P = some t ∧ t.todo = [] ∧ t.zombie = false ∧
      (P = 0 → ∃ nr, what = .fork nr)
  | .give f => f ∈ σ.kernel.held ∧ ∀ nr t, σ.task nr = some t → f ∉ t.frames
  | _ => True

def Machine.step (σ : Machine) (P : ℕ) : Event → Option Machine
  | .start what => (σ.task P).map fun t => σ.set P (t.next what.actions) σ.kernel
  | .run => σ.run P
  | .files F => some { σ with files := F }
  | .refs r => some { σ with refs := r }
  | .take => some { σ with kernel := σ.kernel.call .getFreePage }
  | .give f => some { σ with kernel := σ.kernel.call (.freePage f) }

end OldLinux.Process
