import OldLinux.Lib.Command

/-!
# `execve`

`do_execve` and the functions it is made of, for one call on its own: `count`, `copy_strings`,
`change_ldt` and `create_tables`, over the pages of the calling task.  Pages of user memory are loaded
when they are read; the pages with the strings belong to the call until they are mapped.

What the file system answers (`namei`, `bread`) and what is in the files is any.  A call may end
without returning: a fault that kills the task, a panic, or an access outside of the array `page`.

Left out: the protection bits of the pages, the table of open files, the coprocessor's owner.
-/

namespace OldLinux.Exec

open Function Lib

def PAGE_SIZE : ℕ := 4096
def MAX_ARG_PAGES : ℕ := 32
def NR_OPEN : ℕ := 20

/-- Where `buf` of `do_execve` is, on the kernel's stack: it could be anywhere but at 0. -/
def bufAddress : ℕ := 0x200000

/-- Bytes by address. -/
abbrev Space := ℕ → ℕ

/-- Why a call does not return. -/
inductive Trap
  | panic (message : String)
  /-- `do_exit`: no memory for a page, or an address outside of the segment -/
  | killed
  /-- an element of `page` that does not exist -/
  | outside

/-- What `fs` selects. -/
inductive Segment
  | user | kernel

structure Task where
  executable : Option ℕ
  sa_handler : ℕ → ℕ
  filp : ℕ → Option ℕ
  close_on_exec : ℕ → Bool
  euid : ℕ
  egid : ℕ
  brk : ℕ
  end_data : ℕ
  end_code : ℕ
  start_stack : ℕ
  used_math : Bool
  code_limit : ℕ
  data_limit : ℕ

/-- Frames are numbered by their address; those below 256 are not counted in `mem_map`. -/
structure Kernel where
  mem_map : ℕ → ℕ
  frame : ℕ → Space
  /-- the page tables of the task, for 4 MB each -/
  pg_table : ℕ → Option ℕ
  /-- the pages of the task -/
  pte : ℕ → Option ℕ
  /-- what a fault brings for each page -/
  loaded : ℕ → Space
  /-- the frame of another task with this page, if `share_page` finds one -/
  shared : ℕ → Option ℕ
  task : Task
  eip : ℕ → ℕ
  fs : Segment
  /-- the array `buf` of `do_execve` -/
  buf : Space
  /-- the array `page` of `do_execve` -/
  page : ℕ → Option ℕ
  i_count : ℕ → ℕ
  b_count : ℕ → ℕ

abbrev ExecM := EStateM Trap Kernel

/-! ### Pages -/

/-- The last free frame among `n`. -/
def lastFree (mem_map : ℕ → ℕ) : ℕ → Option ℕ
  | 0 => none
  | n + 1 => if mem_map (256 + n) = 0 then some (256 + n) else lastFree mem_map n

def get_free_page : ExecM (Option ℕ) := do
  let k ← get
  match lastFree k.mem_map 3840 with
  | none => pure none
  | some f => do
      modify fun k => { k with mem_map := update k.mem_map f 1
                               frame := update k.frame f fun _ => 0 }
      pure (some f)

def free_page (f : ℕ) : ExecM Unit := do
  let k ← get
  if f < 256 then pure ()
  else if k.mem_map f = 0 then throw (.panic "trying to free free page")
  else modify fun k => { k with mem_map := update k.mem_map f (k.mem_map f - 1) }

/-- The page table for the page `u`; false without memory for one. -/
def page_table (u : ℕ) : ExecM Bool := do
  let k ← get
  match k.pg_table (u / 1024) with
  | some _ => pure true
  | none => do
      match ← get_free_page with
      | none => pure false
      | some t => do
          modify fun k => { k with pg_table := update k.pg_table (u / 1024) (some t) }
          pure true

def put_page (f u : ℕ) : ExecM Bool := do
  let there ← page_table u
  if there then do
    modify fun k => { k with pte := update k.pte u (some f) }
    pure true
  else pure false

/-- `do_no_page`, with `get_empty_page` and `share_page`. -/
def do_no_page (u : ℕ) : ExecM Unit := do
  let k ← get
  match k.shared u with
  | some f => do
      let there ← page_table u
      if there then
        modify fun k => { k with pte := update k.pte u (some f)
                                 mem_map := update k.mem_map f (k.mem_map f + 1) }
      else throw .killed
  | none => do
      match ← get_free_page with
      | none => throw .killed
      | some f => do
          modify fun k => { k with frame := update k.frame f (k.loaded u) }
          let there ← put_page f u
          if there then pure ()
          else do
            free_page f
            throw .killed

/-- One round of the inner loop of `free_page_tables`. -/
def free_entry (u : ℕ) : ExecM Unit := do
  let k ← get
  match k.pte u with
  | none => pure ()
  | some f => do
      free_page f
      modify fun k => { k with pte := update k.pte u none }

def free_entries (u : ℕ) : ℕ → ExecM Unit
  | 0 => pure ()
  | n + 1 => do
      free_entries u n
      free_entry (u + n)

/-- One round of the outer loop. -/
def free_table (d : ℕ) : ExecM Unit := do
  let k ← get
  match k.pg_table d with
  | none => pure ()
  | some t => do
      free_entries (1024 * d) 1024
      free_page t
      modify fun k => { k with pg_table := update k.pg_table d none }

def free_tables : ℕ → ExecM Unit
  | 0 => pure ()
  | n + 1 => do
      free_tables n
      free_table n

/-- `free_page_tables` of a segment of the task. -/
def free_page_tables (size : ℕ) : ExecM Unit := free_tables ((size + 0x3fffff) / 2 ^ 22)

/-! ### User memory -/

/-- What the task finds in its memory. -/
def Kernel.user (k : Kernel) (a : ℕ) : ℕ :=
  match k.pte (a / PAGE_SIZE) with
  | some f => k.frame f (a % PAGE_SIZE)
  | none => k.loaded (a / PAGE_SIZE) (a % PAGE_SIZE)

def set_fs (s : Segment) : ExecM Unit := modify fun k => { k with fs := s }

/-- The page of an access of the kernel to user memory is there, or is loaded. -/
def touch (a : ℕ) : ExecM Unit := do
  let k ← get
  if k.task.data_limit ≤ a then throw .killed
  else
    match k.pte (a / PAGE_SIZE) with
    | some _ => pure ()
    | none => do_no_page (a / PAGE_SIZE)

def get_fs_byte (a : ℕ) : ExecM ℕ := do
  let k ← get
  match k.fs with
  | .kernel => pure (k.buf (a - bufAddress))
  | .user => do
      touch a
      let k ← get
      pure (k.user a)

def get_fs_long (a : ℕ) : ExecM ℕ := do
  let b0 ← get_fs_byte a
  let b1 ← get_fs_byte (a + 1)
  let b2 ← get_fs_byte (a + 2)
  let b3 ← get_fs_byte (a + 3)
  pure (b0 + 256 * b1 + 65536 * b2 + 16777216 * b3)

/-- A byte of a frame. -/
def Kernel.store (k : Kernel) (f i v : ℕ) : Kernel :=
  { k with frame := update k.frame f (update (k.frame f) i v) }

def put_fs_byte (v a : ℕ) : ExecM Unit := do
  touch a
  let k ← get
  match k.pte (a / PAGE_SIZE) with
  | some f => modify fun k => k.store f (a % PAGE_SIZE) (v % 256)
  | none => pure ()

def put_fs_long (v a : ℕ) : ExecM Unit := do
  put_fs_byte v a
  put_fs_byte (v / 256) (a + 1)
  put_fs_byte (v / 65536) (a + 2)
  put_fs_byte (v / 16777216) (a + 3)

/-- More than there are addresses: a loop over bytes meets the end of the segment before. -/
def addresses : ℕ := 0x4000000

/-- `while (get_fs_byte(tmp++))`: how far `tmp` goes. -/
def string_len : ℕ → ℕ → ExecM ℕ
  | 0, _ => throw .killed
  | n + 1, tmp => do
      let c ← get_fs_byte tmp
      if c = 0 then pure 1
      else do
        let len ← string_len n (tmp + 1)
        pure (len + 1)

/-! ### `count` and `copy_strings` -/

def count_from : ℕ → ℕ → ExecM ℕ
  | 0, _ => throw .killed
  | n + 1, tmp => do
      let v ← get_fs_long tmp
      if v = 0 then pure 0
      else do
        let i ← count_from n (tmp + 4)
        pure (i + 1)

def count (argv : ℕ) : ExecM ℕ := if argv = 0 then pure 0 else count_from addresses argv

/-- The argument `argv` of `copy_strings`: a table in user memory, or the address of a pointer in the
kernel. -/
inductive Argv
  | table (a : ℕ)
  | pointer (v : ℕ)

def Argv.get_pointer (n : ℕ) : Argv → ExecM ℕ
  | .table a => get_fs_long (a + 4 * n)
  | .pointer v => pure v

/-- `page[p/PAGE_SIZE]`, with a new page if there is none. -/
def arg_page (p : ℕ) : ExecM (Option ℕ) := do
  let k ← get
  if MAX_ARG_PAGES ≤ p / PAGE_SIZE then throw .outside
  else
    match k.page (p / PAGE_SIZE) with
    | some f => pure (some f)
    | none => do
        match ← get_free_page with
        | none => pure none
        | some f => do
            modify fun k => { k with page := update k.page (p / PAGE_SIZE) (some f) }
            pure (some f)

/-- The loop over the bytes of a string, from the last to the first, with `p`, `tmp`, `offset` and
`pag`; `none` without memory. -/
def copy_bytes (from_kmem : ℕ) (old_fs : Segment) : ℕ → ℕ → ℕ → ℤ → ℕ → ExecM (Option (ℕ × ℤ × ℕ))
  | 0, p, _, offset, pag => pure (some (p, offset, pag))
  | len + 1, p, tmp, offset, pag => do
      let p := (p + 0xffffffff) % 2 ^ 32
      let tmp := tmp - 1
      if offset - 1 < 0 then do
        if from_kmem = 2 then set_fs old_fs
        match ← arg_page p with
        | none => pure none
        | some pag => do
            if from_kmem = 2 then set_fs .kernel
            let c ← get_fs_byte tmp
            modify fun k => k.store pag (p % PAGE_SIZE) c
            copy_bytes from_kmem old_fs len p tmp (p % PAGE_SIZE : ℕ) pag
      else do
        let c ← get_fs_byte tmp
        modify fun k => k.store pag (offset - 1).toNat c
        copy_bytes from_kmem old_fs len p tmp (offset - 1) pag

/-- `p-len < 0`, a test of an unsigned number. -/
def tooLong (p len : ℕ) : Bool := ((p : ℤ) - len) % 2 ^ 32 < 0

/-- The loop over the strings, from the last to the first. -/
def copy_each (argv : Argv) (from_kmem : ℕ) (old_fs : Segment) : ℕ → ℕ → ℤ → ℕ → ExecM ℕ
  | 0, p, _, _ => do
      if from_kmem = 2 then set_fs old_fs
      pure p
  | n + 1, p, offset, pag => do
      if from_kmem = 1 then set_fs .kernel
      let tmp ← argv.get_pointer n
      if tmp = 0 then throw (.panic "argc is wrong")
      else do
        if from_kmem = 1 then set_fs old_fs
        let len ← string_len addresses tmp
        if tooLong p len then do
          set_fs old_fs
          pure 0
        else do
          match ← copy_bytes from_kmem old_fs len p (tmp + len) offset pag with
          | none => pure 0
          | some (p, offset, pag) => copy_each argv from_kmem old_fs n p offset pag

def copy_strings (argc : ℤ) (argv : Argv) (p from_kmem : ℕ) : ExecM ℕ := do
  if p = 0 then pure 0
  else do
    let k ← get
    if from_kmem = 2 then set_fs .kernel
    copy_each argv from_kmem k.fs argc.toNat p 0 0

/-! ### `change_ldt` and `create_tables` -/

/-- The loop of `change_ldt` over the pages below `i`, from the last to the first. -/
def put_args : ℕ → ExecM Unit
  | 0 => pure ()
  | i + 1 => do
      let k ← get
      match k.page i with
      | none => pure ()
      | some f => do
          let _ ← put_page f (0x4000000 / PAGE_SIZE - MAX_ARG_PAGES + i)
          pure ()
      put_args i

def change_ldt (text_size : ℕ) : ExecM ℕ := do
  modify fun k => { k with
    task := { k.task with
      code_limit := (text_size + PAGE_SIZE - 1) % 2 ^ 32 / PAGE_SIZE * PAGE_SIZE
      data_limit := 0x4000000 }
    fs := .user }
  put_args MAX_ARG_PAGES
  pure 0x4000000

/-- The pointers to `n` strings from `p` on, into the table at `t`; the end of both. -/
def put_pointers : ℕ → ℕ → ℕ → ExecM (ℕ × ℕ)
  | 0, p, t => pure (p, t)
  | n + 1, p, t => do
      put_fs_long p t
      let len ← string_len addresses p
      put_pointers n (p + len) (t + 4)

def create_tables (p argc envc : ℕ) : ExecM ℕ := do
  let envp := p / 4 * 4 - 4 * (envc + 1)
  let argv := envp - 4 * (argc + 1)
  put_fs_long envp (argv - 4)
  put_fs_long argv (argv - 8)
  put_fs_long argc (argv - 12)
  let a ← put_pointers argc p argv
  put_fs_long 0 a.2
  let e ← put_pointers envc a.1 envp
  put_fs_long 0 e.2
  pure (argv - 12)

/-- `while (i&0xfff) put_fs_byte(0,(char *) (i++))`. -/
def clear_rest : ℕ → ℕ → ExecM Unit
  | 0, _ => pure ()
  | n + 1, i =>
    if i % PAGE_SIZE = 0 then pure ()
    else do
      put_fs_byte 0 i
      clear_rest n (i + 1)

/-! ### Files -/

structure Inode where
  num : ℕ
  i_mode : ℕ
  i_uid : ℕ
  i_gid : ℕ
  i_size : ℕ

/-- What the file system says: how many bytes of its name the `n`-th `namei` reads after the first one,
the inode it finds, and the buffer of the first block; and what faults bring for the new program. -/
structure Answers where
  looked : ℕ → ℕ
  inode : ℕ → Option Inode
  block : ℕ → Option (ℕ × Space)
  loaded : ℕ → Space
  shared : ℕ → Option ℕ

def read_name (name : ℕ) : ℕ → ExecM Unit
  | 0 => pure ()
  | n + 1 => do
      read_name name n
      let _ ← get_fs_byte (name + n)
      pure ()

def namei (x : Answers) (n name : ℕ) : ExecM (Option Inode) := do
  read_name name (x.looked n + 1)
  match x.inode n with
  | none => pure none
  | some inode => do
      modify fun k => { k with
        i_count := update k.i_count inode.num (k.i_count inode.num + 1) }
      pure (some inode)

def iput (i : ℕ) : ExecM Unit :=
  modify fun k => { k with i_count := update k.i_count i (k.i_count i - 1) }

def bread (x : Answers) (n : ℕ) : ExecM (Option (ℕ × Space)) := do
  match x.block n with
  | none => pure none
  | some b => do
      modify fun k => { k with b_count := update k.b_count b.1 (k.b_count b.1 + 1) }
      pure (some b)

def brelse (b : ℕ) : ExecM Unit :=
  modify fun k => { k with b_count := update k.b_count b (k.b_count b - 1) }

/-! ### The first line of a script -/

/-- The bytes that `strncpy` stores: zeros after the end of the string. -/
def strncpy (src : Space) : Space := fun i =>
  if (List.range (i + 1)).any fun j => src j = 0 then 0 else src i

/-- `strchr`, from `i` on. -/
def strchr (b : Space) (c : ℕ) : ℕ → ℕ → Option ℕ
  | 0, _ => none
  | n + 1, i => if b i = c then some i else if b i = 0 then none else strchr b c n (i + 1)

def blank (c : ℕ) : Bool := c = 32 ∨ c = 9

/-- `for (cp = buf; (*cp == ' ') || (*cp == '\t'); cp++)`. -/
def skip_blanks (b : Space) : ℕ → ℕ → ℕ
  | 0, cp => cp
  | n + 1, cp => if blank (b cp) then skip_blanks b n (cp + 1) else cp

/-- The loop that looks for the end of the interpreter's name: `cp` and `i_name`. -/
def find_name (b : Space) : ℕ → ℕ → ℕ → ℕ × ℕ
  | 0, cp, i_name => (cp, i_name)
  | n + 1, cp, i_name =>
    if b cp ≠ 0 ∧ blank (b cp) = false then
      find_name b n (cp + 1) (if b cp = 47 then cp + 1 else i_name)
    else (cp, i_name)

structure Line where
  buf : Space
  interp : ℕ
  i_name : ℕ
  i_arg : Option ℕ

/-- The interpreter's name, its last component and its argument. -/
def parse (data : Space) : Option Line :=
  let buf := update (strncpy fun i => data (i + 2)) 1022 0
  match strchr buf 10 1023 0 with
  | none => none
  | some cp =>
    let buf := update buf cp 0
    let interp := skip_blanks buf 1023 0
    if buf interp = 0 then none
    else
      let r := find_name buf 1023 interp interp
      if buf r.1 ≠ 0 then some ⟨update buf r.1 0, interp, r.2, some (r.1 + 1)⟩
      else some ⟨buf, interp, r.2, none⟩

/-! ### `do_execve` -/

/-- `exec_error1`: the pages from `i` on are freed. -/
def free_pages (i : ℕ) : ℕ → ExecM Unit
  | 0 => pure ()
  | n + 1 => do
      let k ← get
      match k.page i with
      | none => pure ()
      | some f => free_page f
      free_pages (i + 1) n

def exec_error1 (retval : ℤ) : ExecM ℤ := do
  free_pages 0 MAX_ARG_PAGES
  pure retval

def exec_error2 (inode : Inode) (retval : ℤ) : ExecM ℤ := do
  iput inode.num
  exec_error1 retval

/-- A long of the header. -/
def headerLong (data : Space) (n : ℕ) : ℕ :=
  data (4 * n) + 256 * data (4 * n + 1) + 65536 * data (4 * n + 2) + 16777216 * data (4 * n + 3)

def a_text (data : Space) : ℕ := headerLong data 1
def a_data (data : Space) : ℕ := headerLong data 2
def a_bss (data : Space) : ℕ := headerLong data 3
def a_syms (data : Space) : ℕ := headerLong data 4
def a_entry (data : Space) : ℕ := headerLong data 5
def a_trsize (data : Space) : ℕ := headerLong data 6
def a_drsize (data : Space) : ℕ := headerLong data 7

/-- The checks of the header; for `ZMAGIC`, `N_TXTOFF` is 1024. -/
def goodHeader (inode : Inode) (data : Space) : Bool :=
  headerLong data 0 = 0o413 ∧ a_trsize data = 0 ∧ a_drsize data = 0 ∧
    (a_text data + a_data data + a_bss data) % 2 ^ 32 ≤ 0x3000000 ∧
    (a_text data + a_data data + a_syms data + 1024) % 2 ^ 32 ≤ inode.i_size

/-- The loop over `close_on_exec`. -/
def close_files : ℕ → ExecM Unit
  | 0 => pure ()
  | i + 1 => do
      close_files i
      let k ← get
      if k.task.close_on_exec i then
        modify fun k => { k with task := { k.task with
          close_on_exec := update k.task.close_on_exec i false
          filp := update k.task.filp i none } }

/-- From `create_tables` on; `clear` zeroes the rest of the last page. -/
def install_tables (data : Space) (argc envc p e_uid e_gid : ℕ) (clear : ExecM Unit) : ExecM ℤ := do
  let p ← create_tables p argc envc
  modify fun k => { k with task := { k.task with
    end_code := a_text data
    end_data := (a_data data + a_text data) % 2 ^ 32
    brk := (a_bss data + a_data data + a_text data) % 2 ^ 32
    start_stack := p / 4096 * 4096
    euid := e_uid
    egid := e_gid } }
  clear
  modify fun k => { k with eip := update (update k.eip 0 (a_entry data)) 3 p }
  pure 0

/-- The new program in place of the old one, with the loop over `close_on_exec` and the new segments. -/
def install_image (x : Answers) (inode : Inode) (data : Space) (argc envc p e_uid e_gid : ℕ)
    (close clear : ExecM Unit)
    (ldt : ExecM ℕ) : ExecM ℤ := do
  modify fun k => { k with task := { k.task with executable := some inode.num, sa_handler := fun _ => 0 } }
  close
  modify fun k => { k with task := { k.task with close_on_exec := fun _ => false } }
  let k ← get
  free_page_tables k.task.code_limit
  free_page_tables k.task.data_limit
  modify fun k => { k with task := { k.task with used_math := false }, loaded := x.loaded, shared := x.shared }
  let limit ← ldt
  install_tables data argc envc (p + (limit - MAX_ARG_PAGES * PAGE_SIZE)) e_uid e_gid clear

/-- From the point of no return on. -/
def install (x : Answers) (inode : Inode) (data : Space) (argc envc p e_uid e_gid : ℕ) : ExecM ℤ := do
  let k ← get
  match k.task.executable with
  | none => pure ()
  | some old => iput old
  install_image x inode data argc envc p e_uid e_gid (close_files NR_OPEN)
    (clear_rest PAGE_SIZE ((a_text data + a_data data) % 2 ^ 32)) (change_ldt (a_text data))

/-- The arguments of `do_execve`. -/
structure Args where
  filename : ℕ
  argv : ℕ
  envp : ℕ

/-- The block of the file, when it is not a script; the strings are copied unless that has been done
for a script. -/
def run_binary (x : Answers) (a : Args) (inode : Inode) (b : ℕ × Space) (argc : ℤ) (envc p : ℕ)
    (sh_bang : Bool) (e_uid e_gid : ℕ) : ExecM ℤ := do
  brelse b.1
  if goodHeader inode b.2 = false then exec_error2 inode (-8)
  else if sh_bang then install x inode b.2 argc.toNat envc p e_uid e_gid
  else do
    let p ← copy_strings envc (.table a.envp) p 0
    let p ← copy_strings argc (.table a.argv) p 0
    if p = 0 then exec_error2 inode (-12)
    else install x inode b.2 argc.toNat envc p e_uid e_gid

/-- The interpretation of `#!`; `interpret` is what comes after `goto restart_interp`. -/
def run_script (x : Answers) (a : Args) (inode : Inode) (b : ℕ × Space) (argc : ℤ) (envc p : ℕ)
    (interpret : Inode → ℤ → ℕ → ExecM ℤ) : ExecM ℤ := do
  brelse b.1
  iput inode.num
  match parse b.2 with
  | none => exec_error1 (-8)
  | some line => do
      modify fun k => { k with buf := line.buf }
      let p ← copy_strings envc (.table a.envp) p 0
      let p ← copy_strings (argc - 1) (.table (a.argv + 4)) p 0
      let p ← copy_strings 1 (.pointer a.filename) p 1
      let p ← match line.i_arg with
        | none => pure p
        | some i_arg => copy_strings 1 (.pointer (bufAddress + i_arg)) p 2
      let p ← copy_strings 1 (.pointer (bufAddress + line.i_name)) p 2
      let argc := argc - 1 + 1 + (if line.i_arg.isSome then 1 else 0) + 1
      if p = 0 then exec_error1 (-12)
      else do
        let k ← get
        set_fs .kernel
        match ← namei x 1 (bufAddress + line.interp) with
        | none => do
            set_fs k.fs
            exec_error1 (-2)
        | some inode => do
            set_fs k.fs
            interpret inode argc p

/-- From `restart_interp` on, for the `n`-th file; there is no `interpret` for the second one. -/
def restart_interp (x : Answers) (a : Args) (n : ℕ) (inode : Inode) (argc : ℤ) (envc p : ℕ)
    (interpret : Option (Inode → ℤ → ℕ → ExecM ℤ)) : ExecM ℤ := do
  let k ← get
  let e_uid := if inode.i_mode &&& 0o4000 ≠ 0 then inode.i_uid else k.task.euid
  let e_gid := if inode.i_mode &&& 0o2000 ≠ 0 then inode.i_gid else k.task.egid
  let i := if k.task.euid = inode.i_uid then inode.i_mode >>> 6
    else if k.task.egid = inode.i_gid then inode.i_mode >>> 3
    else inode.i_mode
  if inode.i_mode &&& 0o170000 ≠ 0o100000 then exec_error2 inode (-13)
  else if i &&& 1 = 0 ∧ ¬(inode.i_mode &&& 0o111 ≠ 0 ∧ k.task.euid = 0) then exec_error2 inode (-8)
  else do
    match ← bread x n with
    | none => exec_error2 inode (-13)
    | some b =>
      match interpret with
      | none => run_binary x a inode b argc envc p true e_uid e_gid
      | some interpret =>
        if b.2 0 = 35 ∧ b.2 1 = 33 then run_script x a inode b argc envc p interpret
        else run_binary x a inode b argc envc p false e_uid e_gid

def do_execve (x : Answers) (a : Args) : ExecM ℤ := do
  let k ← get
  if k.eip 1 % 65536 ≠ 0xf then throw (.panic "execve called from supervisor mode")
  else do
    modify fun k => { k with page := fun _ => none }
    match ← namei x 0 a.filename with
    | none => pure (-2)
    | some inode => do
        let argc ← count a.argv
        let envc ← count a.envp
        restart_interp x a 0 inode argc envc (PAGE_SIZE * MAX_ARG_PAGES - 4)
          (some fun inode argc p => restart_interp x a 1 inode argc envc p none)

end OldLinux.Exec
