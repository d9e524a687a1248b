import OldLinux.Lib.Command

/-!
# The blocks of files and directories

What is used of `inode.c`, `bitmap.c` and `truncate.c`, for one call on its own: the buffers of a device,
its bitmaps, and the inodes with the trees of their blocks.

An inode has one place, whether it is in core or not.  Any `bread` may fail.  Left out: times and owners,
and dirty flags.  `Device` relates the buffers and the bitmap to those of `Volume`.
-/

namespace OldLinux.Creation

open Function Lib

inductive Trap
  | panic (message : String)

structure Inode where
  i_mode : ℕ
  i_nlinks : ℕ
  i_size : ℕ
  i_zone : ℕ → ℕ
  i_count : ℕ

structure SuperBlock where
  s_ninodes : ℕ
  s_nzones : ℕ
  s_imap_blocks : ℕ
  s_zmap_blocks : ℕ
  s_firstdatazone : ℕ

structure Fs where
  sb : SuperBlock
  imap : ℕ → Bool
  zmap : ℕ → Bool
  inode : ℕ → Inode
  /-- the 512 words of a block -/
  b_data : ℕ → ℕ → ℕ
  b_count : ℕ → ℕ
  /-- how many entries of `inode_table` are free -/
  unused : ℕ
  /-- which of the calls of `bread` to come fail -/
  unreadable : ℕ → Bool

abbrev FsM := EStateM Trap Fs

def S_ISDIR (mode : ℕ) : Bool := mode &&& 0o170000 = 0o40000
def S_ISREG (mode : ℕ) : Bool := mode &&& 0o170000 = 0o100000
def I_DIRECTORY : ℕ := 0o40000
def I_REGULAR : ℕ := 0o100000

/-! ### Buffers -/

/-- False if the block cannot be read. -/
def bread (block : ℕ) : FsM Bool := do
  let fs ← get
  modify fun fs => { fs with unreadable := fun n => fs.unreadable (n + 1) }
  if fs.unreadable 0 then pure false
  else do
    modify fun fs => { fs with b_count := update fs.b_count block (fs.b_count block + 1) }
    pure true

def brelse (block : ℕ) : FsM Unit := do
  let fs ← get
  if fs.b_count block = 0 then throw (.panic "Trying to free free buffer")
  else modify fun fs =>
    { fs with b_count := update fs.b_count block (fs.b_count block - 1) }

/-! ### `bitmap.c` -/

/-- The first bit from `j` on, among `n`, that is not set. -/
def find_first_zero (map : ℕ → Bool) : ℕ → ℕ → Option ℕ
  | 0, _ => none
  | n + 1, j => if map j then find_first_zero map n (j + 1) else some j

def free_block (block : ℕ) : FsM Unit := do
  let fs ← get
  if block < fs.sb.s_firstdatazone ∨ fs.sb.s_nzones ≤ block then
    throw (.panic "trying to free block not in datazone")
  else if fs.b_count block ≠ 0 then
    -- `get_hash_table` has counted the buffer, and it is not released
    modify fun fs => { fs with b_count := update fs.b_count block (fs.b_count block + 1) }
  else if fs.zmap (block - (fs.sb.s_firstdatazone - 1)) = false then
    throw (.panic "free_block: bit already cleared")
  else modify fun fs =>
    { fs with zmap := update fs.zmap (block - (fs.sb.s_firstdatazone - 1)) false }

def new_block : FsM ℕ := do
  let fs ← get
  match find_first_zero fs.zmap (8192 * fs.sb.s_zmap_blocks) 0 with
  | none => pure 0
  | some j => do
      modify fun fs => { fs with zmap := update fs.zmap j true }
      let block := j + fs.sb.s_firstdatazone - 1
      if fs.sb.s_nzones ≤ block then pure 0
      else if fs.b_count block + 1 ≠ 1 then throw (.panic "new block: count is != 1")
      else do
        modify fun fs => { fs with b_data := update fs.b_data block fun _ => 0 }
        pure block

/-- `memset(inode,0,sizeof(*inode))`. -/
def noInode : Inode := ⟨0, 0, 0, fun _ => 0, 0⟩

def free_inode (nr : ℕ) : FsM Unit := do
  let fs ← get
  if 1 < (fs.inode nr).i_count then throw (.panic "free_inode")
  else if (fs.inode nr).i_nlinks ≠ 0 then throw (.panic "trying to free inode with links")
  else if nr < 1 ∨ fs.sb.s_ninodes < nr then
    throw (.panic "trying to free inode 0 or nonexistant inode")
  else if fs.sb.s_imap_blocks ≤ nr / 8192 then throw (.panic "nonexistent imap in superblock")
  else modify fun fs => { fs with
    imap := update fs.imap nr false
    inode := update fs.inode nr noInode
    unused := fs.unused + 1 }

/-! ### `truncate.c` -/

/-- `if (*p) free(dev,*p)`. -/
def free_word (block i : ℕ) (free : ℕ → FsM Unit) : FsM Unit := do
  let fs ← get
  if fs.b_data block i = 0 then pure () else free (fs.b_data block i)

def free_words (block i : ℕ) (free : ℕ → FsM Unit) : ℕ → FsM Unit
  | 0 => pure ()
  | n + 1 => do
      free_word block i free
      free_words block (i + 1) free n

/-- What an indirect block points to, if it can be read, and the block. -/
def free_tree (block : ℕ) (free : ℕ → FsM Unit) : FsM Unit :=
  if block = 0 then pure ()
  else do
    if ← bread block then do
      free_words block 0 free 512
      brelse block
      free_block block
    else free_block block

def free_ind (block : ℕ) : FsM Unit := free_tree block free_block

def free_dind (block : ℕ) : FsM Unit := free_tree block free_ind

def Inode.set_zone (i : Inode) (k z : ℕ) : Inode := { i with i_zone := update i.i_zone k z }

def Fs.set_inode (fs : Fs) (nr : ℕ) (i : Inode) : Fs :=
  { fs with inode := update fs.inode nr i }

def free_zone (nr k : ℕ) : FsM Unit := do
  let fs ← get
  if (fs.inode nr).i_zone k = 0 then pure ()
  else do
    free_block ((fs.inode nr).i_zone k)
    modify fun fs => fs.set_inode nr ((fs.inode nr).set_zone k 0)

/-- The loop over the first seven zones. -/
def free_zones (nr k : ℕ) : ℕ → FsM Unit
  | 0 => pure ()
  | n + 1 => do
      free_zone nr k
      free_zones nr (k + 1) n

def truncate (nr : ℕ) : FsM Unit := do
  let fs ← get
  if S_ISREG (fs.inode nr).i_mode = false ∧ S_ISDIR (fs.inode nr).i_mode = false then pure ()
  else do
    free_zones nr 0 7
    free_ind ((fs.inode nr).i_zone 7)
    free_dind ((fs.inode nr).i_zone 8)
    modify fun fs => fs.set_inode nr
      { ((fs.inode nr).set_zone 7 0).set_zone 8 0 with i_size := 0 }

/-! ### `inode.c` -/

def iput (nr : ℕ) : FsM Unit := do
  let fs ← get
  if (fs.inode nr).i_count = 0 then throw (.panic "iput: trying to free free inode")
  else if 1 < (fs.inode nr).i_count then
    modify fun fs => fs.set_inode nr { fs.inode nr with i_count := (fs.inode nr).i_count - 1 }
  else if (fs.inode nr).i_nlinks = 0 then do
    truncate nr
    free_inode nr
  else modify fun fs =>
    { fs.set_inode nr { fs.inode nr with i_count := 0 } with unused := fs.unused + 1 }

def get_empty_inode : FsM Unit := do
  let fs ← get
  if fs.unused = 0 then throw (.panic "No free inodes in mem")
  else modify fun fs => { fs with unused := fs.unused - 1 }

/-- `iget` of an inode that is not mounted on; the empty inode is given back if it is not needed. -/
def iget (nr : ℕ) : FsM Unit := do
  get_empty_inode
  modify fun fs =>
    { fs.set_inode nr { fs.inode nr with i_count := (fs.inode nr).i_count + 1 } with
      unused := if (fs.inode nr).i_count = 0 then fs.unused else fs.unused + 1 }

/-- `i_zone[k]`, with a new block if there is none. -/
def create_zone (nr k : ℕ) : FsM ℕ := do
  let fs ← get
  if (fs.inode nr).i_zone k = 0 then do
    let block ← new_block
    modify fun fs => fs.set_inode nr ((fs.inode nr).set_zone k block)
    pure block
  else pure ((fs.inode nr).i_zone k)

def Fs.set_word (fs : Fs) (block i v : ℕ) : Fs :=
  { fs with b_data := update fs.b_data block (update (fs.b_data block) i v) }

/-- The `i`-th word of a block that has been read, with a new block if it is 0. -/
def word_block (ind i : ℕ) : FsM ℕ := do
  let fs ← get
  if fs.b_data ind i = 0 then do
    let block ← new_block
    if block = 0 then pure 0
    else do
      modify fun fs => fs.set_word ind i block
      pure block
  else pure (fs.b_data ind i)

/-- The same, with the indirect block still to be read. -/
def create_word (ind i : ℕ) : FsM ℕ := do
  if ← bread ind then do
    let block ← word_block ind i
    brelse ind
    pure block
  else pure 0

def MAX_BLOCKS : ℕ := 7 + 512 + 512 * 512

def create_block (nr block : ℕ) : FsM ℕ :=
  if MAX_BLOCKS ≤ block then throw (.panic "_bmap: block>big")
  else if block < 7 then create_zone nr block
  else if block < 7 + 512 then do
    let ind ← create_zone nr 7
    if ind = 0 then pure 0 else create_word ind (block - 7)
  else do
    let dind ← create_zone nr 8
    if dind = 0 then pure 0
    else do
      let ind ← create_word dind ((block - 519) / 512)
      if ind = 0 then pure 0 else create_word ind ((block - 519) % 512)

end OldLinux.Creation
