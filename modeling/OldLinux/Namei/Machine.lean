import OldLinux.Creation.Machine

/-!
# Searching a directory

`find_entry`, `add_entry` and `empty_dir` of `namei.c` as they go through the blocks of a directory: `bh`
is the buffer that they look at, `de` the entry in it, and `i` counts the entries.  Any `bread` may fail,
and the directory may be any.

A pointer to a buffer says whether there is a reference behind it.  What needs one and has none, an
access by way of `bh` or a `brelse`, stops with a `Fault`.
-/

namespace OldLinux.Namei

open Lib Creation

inductive Fault
  /-- an access by way of a null pointer -/
  | null
  /-- the use of a buffer that has been released -/
  | released
  | trap (t : Trap)

abbrev NameiM := EStateM Fault Fs

/-- What `bitmap.c`, `inode.c` and `buffer.c` do. -/
def call {α : Type} (c : FsM α) : NameiM α := EStateM.adaptExcept .trap c

/-- `bh`. -/
inductive Bh
  | null
  | held (block : ℕ)
  | released (block : ℕ)
deriving DecidableEq

/-- `bh->b_data`, by the number of the block. -/
def Bh.b_data : Bh → NameiM ℕ
  | .null => throw .null
  | .held block => pure block
  | .released _ => throw .released

/-- `brelse(bh)`, which does nothing about a null pointer. -/
def Bh.brelse : Bh → NameiM Unit
  | .null => pure ()
  | .held block => call (Creation.brelse block)
  | .released _ => throw .released

/-! ### `bmap` -/

/-- A word of an indirect block, 0 if the block is not there or cannot be read. -/
def bmap_word (ind i : ℕ) : FsM ℕ :=
  if ind = 0 then pure 0
  else do
    if ← bread ind then do
      let fs ← get
      let block := fs.b_data ind i
      Creation.brelse ind
      pure block
    else pure 0

def bmap (nr block : ℕ) : FsM ℕ :=
  if MAX_BLOCKS ≤ block then throw (.panic "_bmap: block>big")
  else do
    let fs ← get
    if block < 7 then pure ((fs.inode nr).i_zone block)
    else if block < 7 + 512 then bmap_word ((fs.inode nr).i_zone 7) (block - 7)
    else do
      let ind ← bmap_word ((fs.inode nr).i_zone 8) ((block - 519) / 512)
      bmap_word ind ((block - 519) % 512)

/-! ### Names -/

/-- `de->inode`. -/
def entry_inode (fs : Fs) (block de : ℕ) : ℕ := fs.b_data block (8 * de)

/-- `de->name[k]`. -/
def entry_name (fs : Fs) (block de k : ℕ) : ℕ :=
  fs.b_data block (8 * de + 1 + k / 2) / 256 ^ (k % 2) % 256

def NAME_LEN : ℕ := 14

/-- `match`: `name` has the bytes from the pointer on. -/
def match_entry (fs : Fs) (len : ℕ) (name : ℕ → ℕ) (block de : ℕ) : Bool :=
  if entry_inode fs block de = 0 ∨ NAME_LEN < len then false
  else if len < NAME_LEN ∧ entry_name fs block de len ≠ 0 then false
  else decide (∀ k < len, entry_name fs block de k = name k)

/-! ### Going through the entries -/

/-- What there is where the next entry should be. -/
inductive Next
  /-- no block -/
  | missing
  /-- a block that cannot be read -/
  | unread
  | entry (block de : ℕ)

/-- The block with the entry `i`, and the place of the entry in it: if `de` is behind the end of the
block, the next one is read, and `map` gives its number. -/
def next_entry (map : ℕ → FsM ℕ) (i : ℕ) (bh : Bh) (de : ℕ) : NameiM Next := do
  let data ← bh.b_data
  if de < 64 then pure (.entry data de)
  else do
    bh.brelse
    let block ← call (map (i / 64))
    if block = 0 then pure .missing
    else do
      if ← call (bread block) then pure (.entry block 0) else pure .unread

/-! ### `find_entry` -/

/-- `while (i < entries)`. -/
def find_loop (nr entries namelen : ℕ) (name : ℕ → ℕ) : ℕ → ℕ → Bh → ℕ → NameiM (Option (ℕ × ℕ))
  | 0, _, bh, _ => do
      bh.brelse
      pure none
  | n + 1, i, bh, de =>
    if i < entries then do
      match ← next_entry (bmap nr) i bh de with
      | .entry block de => do
          let fs ← get
          if match_entry fs namelen name block de then pure (some (block, de))
          else find_loop nr entries namelen name n (i + 1) (.held block) (de + 1)
      | .missing | .unread => find_loop nr entries namelen name n (i + 64) .null de
    else do
      bh.brelse
      pure none

/-- `find_entry` from the first block on. -/
def find_in (nr entries namelen : ℕ) (name : ℕ → ℕ) : NameiM (Option (ℕ × ℕ)) := do
  let fs ← get
  let block := (fs.inode nr).i_zone 0
  if block = 0 then pure none
  else do
    if ← call (bread block) then find_loop nr entries namelen name entries 0 (.held block) 0
    else pure none

/-- The process, and where the file system is mounted: `mount_root` mounts the first one on its own
root. -/
structure View where
  root : ℕ
  pwd : ℕ
  euid : ℕ
  egid : ℕ
  i_uid : ℕ → ℕ
  i_gid : ℕ → ℕ
  s_imount : Option ℕ

def ROOT_INO : ℕ := 1

/-- `..` in the root of the process is `.`, and in the root of a file system it is that of the directory
it is mounted on. -/
def dotdot (v : View) (dir namelen : ℕ) (name : ℕ → ℕ) : NameiM (ℕ × ℕ) :=
  if namelen = 2 ∧ name 0 = 46 ∧ name 1 = 46 then
    if dir = v.root then pure (dir, 1)
    else if dir = ROOT_INO then
      match v.s_imount with
      | none => pure (dir, namelen)
      | some imount => do
          call (iput dir)
          modify fun fs => { fs.set_inode imount
              { fs.inode imount with i_count := (fs.inode imount).i_count + 1 } with
            unused := if (fs.inode imount).i_count = 0 then fs.unused - 1 else fs.unused }
          pure (imount, namelen)
    else pure (dir, namelen)
  else pure (dir, namelen)

/-- The directory that has been searched in the end, and the entry. -/
def find_entry (v : View) (dir namelen : ℕ) (name : ℕ → ℕ) : NameiM (ℕ × Option (ℕ × ℕ)) := do
  let namelen := min namelen NAME_LEN
  let fs ← get
  let entries := (fs.inode dir).i_size / 16
  if namelen = 0 then pure (dir, none)
  else do
    let (dir, namelen) ← dotdot v dir namelen name
    let entry ← find_in dir entries namelen name
    pure (dir, entry)

/-! ### `add_entry` and `empty_dir` -/

/-- The entry `i` is behind the end of the directory: the directory grows. -/
def extend (nr i block de : ℕ) (fs : Fs) : Fs :=
  (fs.set_word block (8 * de) 0).set_inode nr { fs.inode nr with i_size := (i + 1) * 16 }

/-- Two bytes of a name, which is filled up with zeros. -/
def name_word (namelen : ℕ) (name : ℕ → ℕ) (j : ℕ) : ℕ :=
  (if 2 * j < namelen then name (2 * j) else 0) + 256 * (if 2 * j + 1 < namelen then name (2 * j + 1) else 0)

def write_name (block de namelen : ℕ) (name : ℕ → ℕ) (fs : Fs) : Fs :=
  { fs with b_data := Function.update fs.b_data block fun w =>
      if 8 * de < w ∧ w < 8 * de + 8 then name_word namelen name (w - (8 * de + 1))
      else fs.b_data block w }

/-- `while (1)`: `_bmap` stops it. -/
def add_loop (nr namelen : ℕ) (name : ℕ → ℕ) : ℕ → ℕ → Bh → ℕ → NameiM (Option (ℕ × ℕ))
  | 0, _, _, _ => throw (.trap (.panic "_bmap: block>big"))
  | n + 1, i, bh, de => do
      match ← next_entry (create_block nr) i bh de with
      | .missing => pure none
      | .unread => add_loop nr namelen name n (i + 64) .null de
      | .entry block de => do
          let fs ← get
          (if (fs.inode nr).i_size ≤ i * 16 then modify (extend nr i block de) else pure ())
          let fs ← get
          if entry_inode fs block de = 0 then do
            modify (write_name block de namelen name)
            pure (some (block, de))
          else add_loop nr namelen name n (i + 1) (.held block) (de + 1)

def add_entry (nr namelen : ℕ) (name : ℕ → ℕ) : NameiM (Option (ℕ × ℕ)) := do
  let namelen := min namelen NAME_LEN
  let fs ← get
  let block := (fs.inode nr).i_zone 0
  if namelen = 0 ∨ block = 0 then pure none
  else do
    if ← call (bread block) then
      add_loop nr namelen name (64 * MAX_BLOCKS + 1) 0 (.held block) 0
    else pure none

/-- `bh` after a `brelse` that has left it as it was. -/
def Bh.stale : Bh → Bh
  | .held block => .released block
  | bh => bh

/-- `while (nr<len)`. -/
def empty_loop (nr len : ℕ) : ℕ → ℕ → Bh → ℕ → NameiM Bool
  | 0, _, bh, _ => do
      bh.brelse
      pure true
  | n + 1, i, bh, de =>
    if i < len then do
      match ← next_entry (bmap nr) i bh de with
      | .missing => empty_loop nr len n (i + 64) bh.stale de
      | .unread => pure false
      | .entry block de => do
          let fs ← get
          if entry_inode fs block de = 0 then empty_loop nr len n (i + 1) (.held block) (de + 1)
          else do
            (Bh.held block).brelse
            pure false
    else do
      bh.brelse
      pure true

/-- `.` and `..` at the beginning of a directory. -/
def dots (fs : Fs) (nr block : ℕ) : Prop :=
  entry_inode fs block 0 = nr ∧ entry_inode fs block 1 ≠ 0 ∧
    (entry_name fs block 0 0 = 46 ∧ entry_name fs block 0 1 = 0) ∧
    entry_name fs block 1 0 = 46 ∧ entry_name fs block 1 1 = 46 ∧ entry_name fs block 1 2 = 0

instance (fs : Fs) (nr block : ℕ) : Decidable (dots fs nr block) :=
  inferInstanceAs (Decidable (_ ∧ _ ∧ (_ ∧ _) ∧ _ ∧ _ ∧ _))

def empty_dir (nr : ℕ) : NameiM Bool := do
  let fs ← get
  let len := (fs.inode nr).i_size / 16
  let block := (fs.inode nr).i_zone 0
  if len < 2 ∨ block = 0 then pure false
  else do
    if ← call (bread block) then do
      let fs ← get
      -- the buffer is not released if these entries are bad
      if dots fs nr block then empty_loop nr len len 2 (.held block) 2 else pure false
    else pure false

end OldLinux.Namei
