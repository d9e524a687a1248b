import OldLinux.Volume.Machine

/-!
# Reading and writing files

`sys_read`, `sys_write` and `sys_lseek` of one process, and `file_read` and `file_write` below them.  An
`int` or a `long` is a number from `-2^31` to `2^31 - 1`, and sums of them wrap.  What the calls do for
pipes, characters and block devices is any.
-/

namespace OldLinux.Volume

open Function Lib

def EIO : ℤ := 5
def EBADF : ℤ := 9
def EINVAL : ℤ := 22
def ESPIPE : ℤ := 29
def ERROR : ℤ := 99
def NR_OPEN : ℤ := 20
def BLOCK_SIZE : ℤ := 1024
def O_APPEND : ℕ := 0o2000

/-- The `int` or `long` with the bits of a number. -/
def int (x : ℤ) : ℤ := x.bmod (2 ^ 32)

structure File where
  f_mode : ℕ
  f_flags : ℕ
  f_inode : ℕ
  f_pos : ℤ

structure Process where
  kernel : Kernel
  filp : ℤ → Option ℕ
  file_table : ℕ → File
  /-- what the process has in its segment -/
  user : ℕ → ℕ
  /-- history: where `put_fs_byte` has stored a byte -/
  put : List ℕ
  /-- history: the blocks that `_bmap` was asked for -/
  mapped : List ℤ

abbrev ProcessM := EStateM Stop Process

def Process.set_kernel (p : Process) (s : Kernel) : Process := { p with kernel := s }

def Process.set_file (p : Process) (f : ℕ) (file : File) : Process :=
  { p with file_table := update p.file_table f file }

def volume {α : Type} (c : VolumeM α) : ProcessM α := within Process.kernel (fun s p => p.set_kernel s) c

/-- A byte of a block. -/
def byte (d : Words) (i : ℕ) : ℕ := if i % 2 = 0 then d (i / 2) % 256 else d (i / 2) / 256 % 256

def set_byte (d : Words) (i v : ℕ) : Words :=
  update d (i / 2) (if i % 2 = 0 then v % 256 + 256 * (d (i / 2) / 256) else d (i / 2) % 256 + 256 * (v % 256))

/-- `while (chars-->0) put_fs_byte(*(p++),buf++)`. -/
def put_bytes (data : ℕ → ℕ) : ℕ → ℕ → ℕ → ProcessM Unit
  | 0, _, _ => pure ()
  | n + 1, i, buf => do
      modify fun p => { p with user := update p.user buf (data i), put := p.put ++ [buf] }
      put_bytes data n (i + 1) (buf + 1)

/-- `while (c-->0) *(p++) = get_fs_byte(buf++)`. -/
def get_bytes (user : ℕ → ℕ) : ℕ → ℕ → ℕ → Words → Words
  | 0, _, _, d => d
  | n + 1, i, buf, d => get_bytes user n (i + 1) (buf + 1) (set_byte d i (user buf))

/-! ### `file_dev.c` -/

/-- `bmap` or `create_block`, with the block in the history. -/
def map_block (inode : ℕ) (block : ℤ) (create : Bool) : ProcessM ℕ := do
  modify fun p => { p with mapped := p.mapped ++ [block] }
  volume (_bmap inode block create)

/-- `while (left)`: what is left.  Each round takes at least one byte, so that `left` rounds are enough. -/
def read_loop (f inode : ℕ) : ℕ → ℕ → ℕ → ProcessM ℕ
  | 0, left, _ => pure left
  | n + 1, left, buf =>
    if left = 0 then pure 0
    else do
      let p ← get
      let pos := (p.file_table f).f_pos
      let dev := (p.kernel.inode_table inode).i_dev
      let block ← map_block inode (pos.tdiv BLOCK_SIZE) false
      let ok ← (if block ≠ 0 then volume (bread (dev, block)) else pure true)
      if ok = false then pure left
      else do
        let nr := pos.tmod BLOCK_SIZE
        let chars := min (BLOCK_SIZE - nr).toNat left
        modify fun p => p.set_file f { p.file_table f with f_pos := int ((p.file_table f).f_pos + chars) }
        (if block ≠ 0 then
          if nr < 0 then throw .outside
          else do
            let b ← volume (the_buffer (dev, block))
            put_bytes (byte b.b_data) chars nr.toNat buf
            volume (brelse (dev, block))
        else put_bytes (fun _ => 0) chars 0 buf)
        read_loop f inode n (left - chars) (buf + chars)

def file_read (inode f buf : ℕ) (count : ℤ) : ProcessM ℤ :=
  if count ≤ 0 then pure 0
  else do
    let left ← read_loop f inode count.toNat count.toNat buf
    modify fun p => p.set_kernel (p.kernel.set_inode inode
      { p.kernel.inode_table inode with i_atime := p.kernel.CURRENT_TIME })
    pure (if count - left ≠ 0 then count - left else -ERROR)

/-- `while (i<count)`: `i` and `pos`. -/
def write_loop (inode : ℕ) (count : ℕ) : ℕ → ℕ → ℤ → ℕ → ProcessM (ℕ × ℤ)
  | 0, i, pos, _ => pure (i, pos)
  | n + 1, i, pos, buf =>
    if count ≤ i then pure (i, pos)
    else do
      let block ← map_block inode (pos.tdiv BLOCK_SIZE) true
      if block = 0 then pure (i, pos)
      else do
        let p ← get
        let dev := (p.kernel.inode_table inode).i_dev
        if ← volume (bread (dev, block)) then do
          let nr := pos.tmod BLOCK_SIZE
          if nr < 0 then throw .outside
          else do
            let b ← volume (the_buffer (dev, block))
            let c := min (BLOCK_SIZE - nr).toNat (count - i)
            let new := int (pos + c)
            modify fun p => p.set_kernel
              (let t := p.kernel.inode_table inode
              if int t.i_size < new then
                p.kernel.set_inode inode { t with i_size := (new % 2 ^ 32).toNat, i_dirt := true }
              else p.kernel)
            modify fun p => p.set_kernel (p.kernel.set_buffer (dev, block)
              { b with b_data := get_bytes p.user c nr.toNat buf b.b_data, b_dirt := true })
            volume (brelse (dev, block))
            write_loop inode count n (i + c) new (buf + c)
        else pure (i, pos)

def file_write (inode f buf : ℕ) (count : ℤ) : ProcessM ℤ := do
  let p ← get
  let file := p.file_table f
  let append := file.f_flags &&& O_APPEND ≠ 0
  let pos := if append then int (p.kernel.inode_table inode).i_size else file.f_pos
  let (i, pos) ← write_loop inode count.toNat count.toNat 0 pos buf
  modify fun p => p.set_kernel (p.kernel.set_inode inode
    { p.kernel.inode_table inode with i_mtime := p.kernel.CURRENT_TIME })
  (if append then pure ()
  else modify fun p => (p.set_file f { p.file_table f with f_pos := pos }).set_kernel
    (p.kernel.set_inode inode { p.kernel.inode_table inode with i_ctime := p.kernel.CURRENT_TIME }))
  pure (if i ≠ 0 then i else -1)

/-! ### `read_write.c` -/

def S_ISCHR (mode : ℕ) : Bool := mode &&& 0o170000 = 0o20000
def S_ISBLK (mode : ℕ) : Bool := mode &&& 0o170000 = 0o60000

def MAJOR (dev : ℕ) : ℕ := dev / 256

def IS_SEEKABLE (major : ℕ) : Prop := 1 ≤ major ∧ major ≤ 3

instance (major : ℕ) : Decidable (IS_SEEKABLE major) := inferInstanceAs (Decidable (_ ∧ _))

def sys_lseek (fd offset origin : ℤ) : ProcessM ℤ := do
  let p ← get
  match (if 0 ≤ fd ∧ fd < NR_OPEN then p.filp fd else none) with
  | none => pure (-EBADF)
  | some f => do
      let file := p.file_table f
      let t := p.kernel.inode_table file.f_inode
      let seek (pos : ℤ) : ProcessM ℤ :=
        if pos < 0 then pure (-EINVAL)
        else do
          modify fun p => p.set_file f { file with f_pos := pos }
          pure pos
      if ¬IS_SEEKABLE (MAJOR t.i_dev) then pure (-EBADF)
      else if t.i_pipe then pure (-ESPIPE)
      else if origin = 0 then seek offset
      else if origin = 1 then seek (int (file.f_pos + offset))
      else if origin = 2 then seek (int (t.i_size + offset))
      else pure (-EINVAL)

section Calls

-- `rw_char`, `block_read` and `read_pipe`, and the same for writing
variable (elsewhere : Bool → ℕ → ℕ → ℤ → ProcessM ℤ)

/-- The `count` that is left up to the end of the file. -/
def clamp (count pos size : ℤ) : ℤ := if int size < int (count + pos) then int (size - pos) else count

def sys_read (fd : ℤ) (buf : ℕ) (count : ℤ) : ProcessM ℤ := do
  let p ← get
  match (if 0 ≤ fd ∧ fd < NR_OPEN ∧ 0 ≤ count then p.filp fd else none) with
  | none => pure (-EINVAL)
  | some f =>
    let file := p.file_table f
    let t := p.kernel.inode_table file.f_inode
    if count = 0 then pure 0
    else if t.i_pipe then if file.f_mode &&& 1 ≠ 0 then elsewhere false f buf count else pure (- EIO)
    else if S_ISCHR t.i_mode ∨ S_ISBLK t.i_mode then elsewhere false f buf count
    else if S_ISDIR t.i_mode ∨ S_ISREG t.i_mode then
      let count := clamp count file.f_pos t.i_size
      if count ≤ 0 then pure 0 else file_read file.f_inode f buf count
    else pure (-EINVAL)

def sys_write (fd : ℤ) (buf : ℕ) (count : ℤ) : ProcessM ℤ := do
  let p ← get
  match (if 0 ≤ fd ∧ fd < NR_OPEN ∧ 0 ≤ count then p.filp fd else none) with
  | none => pure (-EINVAL)
  | some f =>
    let file := p.file_table f
    let t := p.kernel.inode_table file.f_inode
    if count = 0 then pure 0
    else if t.i_pipe then if file.f_mode &&& 2 ≠ 0 then elsewhere true f buf count else pure (- EIO)
    else if S_ISCHR t.i_mode ∨ S_ISBLK t.i_mode then elsewhere true f buf count
    else if S_ISREG t.i_mode then file_write file.f_inode f buf count
    else pure (-EINVAL)

end Calls

end OldLinux.Volume
