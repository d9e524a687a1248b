import OldLinux.Lib.Command

/-!
# Block devices through the buffer cache

What `bitmap.c`, `truncate.c`, `inode.c` and `super.c` do with the blocks of a device, for one caller at a
time: nothing is locked, and `getblk` always finds a buffer that nobody uses.  A buffer is known by its
device and block number; which buffers `getblk` takes for other blocks is any, and what is dirty in them
is written first.  Writes do not fail.
-/

namespace OldLinux.Volume

open Function Lib

inductive Stop
  | panic (message : String)
  /-- a null pointer is followed, or one to a buffer that is not there -/
  | fault
  /-- an access outside of an array -/
  | outside
  /-- a loop does not come to an end -/
  | forever
deriving DecidableEq

/-- The 512 words of a block. -/
abbrev Words := ℕ → ℕ

/-- A device and a block number. -/
abbrev Key := ℕ × ℕ

structure Buffer where
  b_data : Words
  b_count : ℕ
  b_dirt : Bool
  b_uptodate : Bool

/-- A pointer to a buffer of the device is the number of its block. -/
structure SuperBlock where
  s_ninodes : ℕ
  s_nzones : ℕ
  s_imap_blocks : ℕ
  s_zmap_blocks : ℕ
  s_firstdatazone : ℕ
  s_magic : ℕ
  s_imap : Fin 8 → Option ℕ
  s_zmap : Fin 8 → Option ℕ
  s_dev : ℕ
  s_imount : Option ℕ
  s_lock : Bool

structure Inode where
  i_mode : ℕ
  i_uid : ℕ
  i_size : ℕ
  i_mtime : ℕ
  i_gid : ℕ
  i_nlinks : ℕ
  i_zone : ℕ → ℕ
  i_atime : ℕ
  i_ctime : ℕ
  i_dev : ℕ
  i_num : ℕ
  i_count : ℕ
  i_dirt : Bool
  i_pipe : Bool
  i_mount : Bool

/-- What becomes of the buffers that nobody uses when `getblk` needs one: those that are taken, and the
data that are still in the one it gets. -/
structure Turn where
  taken : Key → Bool
  b_data : Words

structure Kernel where
  super_block : Fin 8 → SuperBlock
  buffer : Key → Option Buffer
  /-- nothing is there if the block cannot be read -/
  disk : Key → Option Words
  inode_table : ℕ → Inode
  /-- where `get_empty_inode` goes on with its search -/
  last_inode : ℕ
  CURRENT_TIME : ℕ
  turn : ℕ → Turn

abbrev VolumeM := EStateM Stop Kernel

def S_ISDIR (mode : ℕ) : Bool := mode &&& 0o170000 = 0o40000
def S_ISREG (mode : ℕ) : Bool := mode &&& 0o170000 = 0o100000

/-! ### `buffer.c` -/

def Kernel.set_buffer (s : Kernel) (k : Key) (b : Buffer) : Kernel :=
  { s with buffer := update s.buffer k (some b) }

/-- The buffer is taken for another block. -/
def Kernel.gone (s : Kernel) (k : Key) (b : Buffer) : Bool := decide (b.b_count = 0) && (s.turn 0).taken k

/-- The buffers that are taken are written back and forgotten. -/
def Kernel.recycle (s : Kernel) : Kernel :=
  { s with
    buffer := fun k => (s.buffer k).filter fun b => !s.gone k b
    disk := fun k => match s.buffer k with
      | none => s.disk k
      | some b => if s.gone k b ∧ b.b_dirt then some b.b_data else s.disk k
    turn := fun n => s.turn (n + 1) }

/-- False if the block has no buffer. -/
def get_hash_table (k : Key) : VolumeM Bool := do
  let s ← get
  match s.buffer k with
  | none => pure false
  | some b => do
      modify fun s => s.set_buffer k { b with b_count := b.b_count + 1 }
      pure true

def getblk (k : Key) : VolumeM Unit := do
  if ← get_hash_table k then pure ()
  else modify fun s => s.recycle.set_buffer k ⟨(s.turn 0).b_data, 1, false, false⟩

/-- A pointer to a buffer is followed. -/
def the_buffer (k : Key) : VolumeM Buffer := do
  let s ← get
  match s.buffer k with
  | none => throw .fault
  | some b => pure b

def brelse (k : Key) : VolumeM Unit := do
  let b ← the_buffer k
  if b.b_count = 0 then throw (.panic "Trying to free free buffer")
  else modify fun s => s.set_buffer k { b with b_count := b.b_count - 1 }

/-- False if the block cannot be read. -/
def bread (k : Key) : VolumeM Bool := do
  getblk k
  let b ← the_buffer k
  if b.b_uptodate then pure true
  else do
    let s ← get
    match s.disk k with
    | some d => do
        modify fun s => s.set_buffer k { b with b_data := d, b_uptodate := true, b_dirt := false }
        pure true
    | none => do
        modify fun s => s.set_buffer k { b with b_dirt := false }
        brelse k
        pure false

/-! ### Bits -/

def bit (d : Words) (nr : ℕ) : Bool := (d (nr / 16)).testBit (nr % 16)

def set_bit (nr : ℕ) (d : Words) : Words :=
  update d (nr / 16) (d (nr / 16) ||| 2 ^ (nr % 16))

def clear_bit (nr : ℕ) (d : Words) : Words :=
  update d (nr / 16) (d (nr / 16) &&& (0xffff ^^^ 2 ^ (nr % 16)))

/-- `bsfl` of the complement of a long word. -/
def first_zero_in (d : Words) (long : ℕ) : Option ℕ :=
  (List.range 32).find? fun i => !bit d (32 * long + i)

def find_zero (d : Words) : ℕ → ℕ → ℕ
  | 0, long => 32 * long
  | n + 1, long =>
    match first_zero_in d long with
    | some i => 32 * long + i
    | none => find_zero d n (long + 1)

/-- 8192 if there is none. -/
def find_first_zero (d : Words) : ℕ := find_zero d 256 0

/-! ### `bitmap.c` -/

def Kernel.get_super (s : Kernel) (dev : ℕ) : Option SuperBlock :=
  if dev = 0 then none
  else ((List.finRange 8).map s.super_block).find? fun sb => decide (sb.s_dev = dev)

/-- `sb->s_zmap[i]`. -/
def SuperBlock.zmap (sb : SuperBlock) (i : ℕ) : Option ℕ := if h : i < 8 then sb.s_zmap ⟨i, h⟩ else none

/-- The number of the bit of a zone: they begin with the zone before the first one. -/
def SuperBlock.bit_nr (sb : SuperBlock) (z : ℕ) : ℕ := z + 1 - sb.s_firstdatazone

/-- The end of `free_block`. -/
def clear_zone (dev : ℕ) (sb : SuperBlock) (block : ℕ) : VolumeM Unit := do
  let nr := sb.bit_nr block
  match sb.zmap (nr / 8192) with
  | none => throw .fault
  | some bh => do
      let b ← the_buffer (dev, bh)
      modify fun s => s.set_buffer (dev, bh) { b with b_data := clear_bit (nr % 8192) b.b_data }
      if bit b.b_data (nr % 8192) = false then throw (.panic "free_block: bit already cleared")
      else do
        let b ← the_buffer (dev, bh)
        modify fun s => s.set_buffer (dev, bh) { b with b_dirt := true }

def free_block (dev block : ℕ) : VolumeM Unit := do
  let s ← get
  match s.get_super dev with
  | none => throw (.panic "trying to free block on nonexistent device")
  | some sb =>
    if block < sb.s_firstdatazone ∨ sb.s_nzones ≤ block then
      throw (.panic "trying to free block not in datazone")
    else do
      if ← get_hash_table (dev, block) then do
        let b ← the_buffer (dev, block)
        -- the reference that `get_hash_table` has taken stays
        if b.b_count ≠ 1 then pure ()
        else do
          modify fun s => s.set_buffer (dev, block) { b with b_dirt := false, b_uptodate := false }
          brelse (dev, block)
          clear_zone dev sb block
      else clear_zone dev sb block

/-- The search of `new_block`: `i`, `bh` and `j`. -/
def search_zmap (dev : ℕ) (sb : SuperBlock) : ℕ → ℕ → VolumeM (Option (ℕ × ℕ × ℕ))
  | 0, _ => pure none
  | n + 1, i =>
    match sb.zmap i with
    | none => search_zmap dev sb n (i + 1)
    | some bh => do
        let b ← the_buffer (dev, bh)
        if find_first_zero b.b_data < 8192 then pure (some (i, bh, find_first_zero b.b_data))
        else search_zmap dev sb n (i + 1)

def new_block (dev : ℕ) : VolumeM ℕ := do
  let s ← get
  match s.get_super dev with
  | none => throw (.panic "trying to get new block from nonexistant device")
  | some sb => do
      match ← search_zmap dev sb 8 0 with
      | none => pure 0
      | some (i, bh, j) => do
          let b ← the_buffer (dev, bh)
          if bit b.b_data j then throw (.panic "new_block: bit already set")
          else do
            modify fun s => s.set_buffer (dev, bh) { b with b_data := set_bit j b.b_data, b_dirt := true }
            -- bit 0 of the first block is always set
            let block := j + i * 8192 + sb.s_firstdatazone - 1
            if sb.s_nzones ≤ block then pure 0
            else do
              getblk (dev, block)
              let b ← the_buffer (dev, block)
              if b.b_count ≠ 1 then throw (.panic "new block: count is != 1")
              else do
                modify fun s => s.set_buffer (dev, block)
                  { b with b_data := fun _ => 0, b_uptodate := true, b_dirt := true }
                brelse (dev, block)
                pure block

/-! ### `truncate.c` -/

/-- `if (*p) free(dev,*p)`, for the words of a buffer from `i` on. -/
def free_words (dev block : ℕ) (free : ℕ → ℕ → VolumeM Unit) : ℕ → ℕ → VolumeM Unit
  | 0, _ => pure ()
  | n + 1, i => do
      let b ← the_buffer (dev, block)
      (if b.b_data i ≠ 0 then free dev (b.b_data i) else pure ())
      free_words dev block free n (i + 1)

/-- What `free_ind` and `free_dind` have in common. -/
def free_tree (free : ℕ → ℕ → VolumeM Unit) (dev block : ℕ) : VolumeM Unit :=
  if block = 0 then pure ()
  else do
    (if ← bread (dev, block) then do
      free_words dev block free 512 0
      brelse (dev, block)
    else pure ())
    free_block dev block

def free_ind (dev block : ℕ) : VolumeM Unit := free_tree free_block dev block

def free_dind (dev block : ℕ) : VolumeM Unit := free_tree free_ind dev block

def Kernel.set_inode (s : Kernel) (inode : ℕ) (t : Inode) : Kernel :=
  { s with inode_table := update s.inode_table inode t }

def Inode.set_zone (t : Inode) (i z : ℕ) : Inode := { t with i_zone := update t.i_zone i z }

/-- `for (i=0;i<7;i++)`. -/
def free_zones (inode : ℕ) : ℕ → ℕ → VolumeM Unit
  | 0, _ => pure ()
  | n + 1, i => do
      let s ← get
      let t := s.inode_table inode
      (if t.i_zone i ≠ 0 then do
        free_block t.i_dev (t.i_zone i)
        modify fun s => s.set_inode inode ((s.inode_table inode).set_zone i 0)
      else pure ())
      free_zones inode n (i + 1)

def truncate (inode : ℕ) : VolumeM Unit := do
  let s ← get
  let t := s.inode_table inode
  if S_ISREG t.i_mode = false ∧ S_ISDIR t.i_mode = false then pure ()
  else do
    free_zones inode 7 0
    free_ind t.i_dev (t.i_zone 7)
    free_dind t.i_dev (t.i_zone 8)
    modify fun s => s.set_inode inode
      { ((s.inode_table inode).set_zone 7 0).set_zone 8 0 with
        i_size := 0, i_dirt := true, i_mtime := s.CURRENT_TIME, i_ctime := s.CURRENT_TIME }

/-! ### `_bmap` -/

def MAX_BLOCKS : ℕ := 7 + 512 + 512 * 512

/-- `inode->i_zone[i]`, with a new block if there is none. -/
def zone_block (inode i : ℕ) (create : Bool) : VolumeM ℕ := do
  let s ← get
  let t := s.inode_table inode
  if create = true ∧ t.i_zone i = 0 then do
    let block ← new_block t.i_dev
    modify fun s =>
      let t := (s.inode_table inode).set_zone i block
      s.set_inode inode (if block = 0 then t else { t with i_dirt := true, i_ctime := s.CURRENT_TIME })
    pure block
  else pure (t.i_zone i)

/-- A word of an indirect block, with a new block if it is 0; 0 also if the indirect block is not there or
cannot be read. -/
def word_block (dev ind i : ℕ) (create : Bool) : VolumeM ℕ :=
  if ind = 0 then pure 0
  else do
    if ← bread (dev, ind) then do
      let b ← the_buffer (dev, ind)
      let block ← (if create = true ∧ b.b_data i = 0 then do
          let block ← new_block dev
          (if block ≠ 0 then do
            let b ← the_buffer (dev, ind)
            modify fun s => s.set_buffer (dev, ind)
              { b with b_data := update b.b_data i block, b_dirt := true }
          else pure ())
          pure block
        else pure (b.b_data i))
      brelse (dev, ind)
      pure block
    else pure 0

/-- The index of the block is an `int`. -/
def _bmap (inode : ℕ) (block : ℤ) (create : Bool) : VolumeM ℕ :=
  if block < 0 then throw (.panic "_bmap: block<0")
  else if MAX_BLOCKS ≤ block then throw (.panic "_bmap: block>big")
  else do
    let s ← get
    let dev := (s.inode_table inode).i_dev
    let block := block.toNat
    if block < 7 then zone_block inode block create
    else if block < 7 + 512 then do
      let ind ← zone_block inode 7 create
      word_block dev ind (block - 7) create
    else do
      let dind ← zone_block inode 8 create
      let ind ← word_block dev dind ((block - 519) / 512) create
      word_block dev ind ((block - 519) % 512) create

def bmap (inode : ℕ) (block : ℤ) : VolumeM ℕ := _bmap inode block false

def create_block (inode : ℕ) (block : ℤ) : VolumeM ℕ := _bmap inode block true

end OldLinux.Volume
