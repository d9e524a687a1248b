import OldLinux.Volume.Bitmap

/-!
# Super blocks

`read_super` takes a free slot of the table, copies block 1 of the device into it and reads the bitmaps, as
many blocks as block 1 says.
-/

namespace OldLinux.Volume

open Function Lib

/-! ### The table -/

def SUPER_MAGIC : ℕ := 0x137F

def Kernel.set_super (s : Kernel) (i : Fin 8) (f : SuperBlock → SuperBlock) : Kernel :=
  { s with super_block := update s.super_block i (f (s.super_block i)) }

/-- The slot of a device. -/
def Kernel.find_super (s : Kernel) (dev : ℕ) : Option (Fin 8) :=
  if dev = 0 then none else (List.finRange 8).find? fun i => decide ((s.super_block i).s_dev = dev)

def Kernel.free_slot (s : Kernel) : Option (Fin 8) :=
  (List.finRange 8).find? fun i => decide ((s.super_block i).s_dev = 0)

/-- Nobody waits for the lock: there is one caller. -/
def lock_super (i : Fin 8) : VolumeM Unit := modify fun s => s.set_super i fun sb => { sb with s_lock := true }

def free_super (i : Fin 8) : VolumeM Unit := modify fun s => s.set_super i fun sb => { sb with s_lock := false }

/-- `brelse(s->s_imap[i])` for all `i`; a null pointer is nothing to give back. -/
def brelse_map (dev : ℕ) : List (Option ℕ) → VolumeM Unit
  | [] => pure ()
  | none :: map => brelse_map dev map
  | some bh :: map => do
      brelse (dev, bh)
      brelse_map dev map

def brelse_maps (dev : ℕ) (sb : SuperBlock) : VolumeM Unit := do
  brelse_map dev (List.ofFn sb.s_imap)
  brelse_map dev (List.ofFn sb.s_zmap)

section Disks

variable (ROOT_DEV : ℕ) (floppy_change : ℕ → Bool)

def put_super (dev : ℕ) : VolumeM Unit :=
  if dev = ROOT_DEV then pure ()
  else do
    let s ← get
    match s.find_super dev with
    | none => pure ()
    | some i =>
      if (s.super_block i).s_imount ≠ none then pure ()
      else do
        lock_super i
        modify fun s => s.set_super i fun sb => { sb with s_dev := 0 }
        brelse_maps dev (s.super_block i)
        free_super i

def put_supers (dev : ℕ) : List (Fin 8) → VolumeM Unit
  | [] => pure ()
  | i :: slots => do
      let s ← get
      (if (s.super_block i).s_dev = dev then put_super ROOT_DEV dev else pure ())
      put_supers dev slots

def Kernel.invalidate_inodes (s : Kernel) (dev i : ℕ) : Inode :=
  let t := s.inode_table i
  if i < 32 ∧ t.i_dev = dev then { t with i_dev := 0, i_dirt := false } else t

def Kernel.invalidate_buffers (s : Kernel) (dev : ℕ) (k : Key) : Option Buffer :=
  if k.1 = dev then (s.buffer k).map fun b => { b with b_uptodate := false, b_dirt := false }
  else s.buffer k

def invalidate_inodes (dev : ℕ) : VolumeM Unit :=
  modify fun s => { s with inode_table := s.invalidate_inodes dev }

def invalidate_buffers (dev : ℕ) : VolumeM Unit :=
  modify fun s => { s with buffer := s.invalidate_buffers dev }

/-- Only floppies are looked at. -/
def check_disk_change (dev : ℕ) : VolumeM Unit :=
  if dev / 256 ≠ 2 then pure ()
  else if floppy_change (dev % 4) = false then pure ()
  else do
    put_supers ROOT_DEV dev (List.finRange 8)
    invalidate_inodes dev
    invalidate_buffers dev

/-! ### `read_super` -/

/-- `*((struct d_super_block *) s) = *((struct d_super_block *) bh->b_data)`. -/
def SuperBlock.copy (sb : SuperBlock) (d : Words) : SuperBlock :=
  { sb with
    s_ninodes := d 0, s_nzones := d 1, s_imap_blocks := d 2, s_zmap_blocks := d 3
    s_firstdatazone := d 4, s_magic := d 8 }

/-- `for (i=0 ; i < n ; i++)`, for either bitmap: it returns `block`. -/
def load_map (set : (Fin 8 → Option ℕ) → SuperBlock → SuperBlock) (map : SuperBlock → Fin 8 → Option ℕ)
    (slot : Fin 8) (dev : ℕ) : ℕ → ℕ → ℕ → VolumeM ℕ
  | 0, _, block => pure block
  | n + 1, i, block => do
      let ok ← bread (dev, block)
      (if h : i < 8 then
        modify fun s => s.set_super slot fun sb =>
          set (update (map sb) ⟨i, h⟩ (if ok then some block else none)) sb
      else throw .outside)
      if ok then load_map set map slot dev n (i + 1) (block + 1) else pure block

def load_imap (slot : Fin 8) (dev : ℕ) : ℕ → ℕ → ℕ → VolumeM ℕ :=
  load_map (fun map sb => { sb with s_imap := map }) SuperBlock.s_imap slot dev

def load_zmap (slot : Fin 8) (dev : ℕ) : ℕ → ℕ → ℕ → VolumeM ℕ :=
  load_map (fun map sb => { sb with s_zmap := map }) SuperBlock.s_zmap slot dev

/-- `s->s_imap[0]->b_data[0] |= 1`. -/
def set_first_bit (dev : ℕ) : Option ℕ → VolumeM Unit
  | none => throw .fault
  | some bh => do
      let b ← the_buffer (dev, bh)
      modify fun s => s.set_buffer (dev, bh) { b with b_data := update b.b_data 0 (b.b_data 0 ||| 1) }

/-- The slot is given up. -/
def no_super (slot : Fin 8) : VolumeM (Option (Fin 8)) := do
  modify fun s => s.set_super slot fun sb => { sb with s_dev := 0 }
  free_super slot
  pure none

/-- What `read_super` does when block 1 has been read. -/
def load_super (slot : Fin 8) (dev : ℕ) : VolumeM (Option (Fin 8)) := do
  let b ← the_buffer (dev, 1)
  modify fun s => s.set_super slot fun sb => sb.copy b.b_data
  brelse (dev, 1)
  let s ← get
  let sb := s.super_block slot
  if sb.s_magic ≠ SUPER_MAGIC then no_super slot
  else do
    modify fun s => s.set_super slot fun sb => { sb with s_imap := fun _ => none, s_zmap := fun _ => none }
    let block ← load_imap slot dev sb.s_imap_blocks 0 2
    let block ← load_zmap slot dev sb.s_zmap_blocks 0 block
    let s ← get
    if block ≠ 2 + sb.s_imap_blocks + sb.s_zmap_blocks then do
      brelse_maps dev (s.super_block slot)
      no_super slot
    else do
      set_first_bit dev ((s.super_block slot).s_imap 0)
      set_first_bit dev ((s.super_block slot).s_zmap 0)
      free_super slot
      pure (some slot)

def read_super (dev : ℕ) : VolumeM (Option (Fin 8)) :=
  if dev = 0 then pure none
  else do
    check_disk_change ROOT_DEV floppy_change dev
    let s ← get
    match s.find_super dev with
    | some i => pure (some i)
    | none =>
      match s.free_slot with
      | none => pure none
      | some slot => do
          modify fun s => s.set_super slot fun sb => { sb with s_dev := dev, s_imount := none }
          lock_super slot
          if ← bread (dev, 1) then load_super slot dev
          else no_super slot

end Disks

end OldLinux.Volume
