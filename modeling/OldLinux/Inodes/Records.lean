import OldLinux.Inodes.Runs
import OldLinux.Volume.FileDev
import OldLinux.Volume.InodeBlocks

/-!
# The inode table and the disk

The inode table with all that an inode has on the disk: `read_inode` takes it out of a buffer when the
process has slept, and `write_inode` puts it there.  Whatever else happens to the buffers in between is
one step that leaves the inodes alone.  `sync_inodes` writes the entries one after the other; which one is
next is any.
-/

namespace OldLinux.Inodes

open Function Lib
open OldLinux.Volume (Kernel SuperBlock Coherent S_ISBLK read_inode write_inode)

/-- What `iput` looks at. -/
def kind (r : Volume.DInode) : DInode := ⟨r.i_nlinks.toNat, S_ISBLK r.i_mode.toNat⟩

/-- The disk of the table is not used: what is read comes out of the buffers. -/
structure Store (n : ℕ) where
  table : Table n
  record : Fin 32 → Volume.DInode
  cache : Kernel
  /-- `sync_inodes` is in `write_inode` -/
  syncing : Fin 32 → Bool

inductive StoreEvent (n : ℕ) where
  | table (e : Event n)
  /-- the process changes an inode that it has -/
  | modify (i : Fin 32) (r : Volume.DInode)
  /-- `new_inode` with a number whose bit is clear -/
  | made (nr : ℕ) (i_uid : UInt16) (i_gid : UInt8) (i_time : UInt32)
  /-- `truncate` on its way -/
  | cut (i_zone : Fin 9 → UInt16) (i_size i_time : UInt32) (dirt : Bool)
  | sync (i : Fin 32)
  | synced (i : Fin 32)
  | cache (s : Kernel)

namespace Store

variable {n : ℕ}

def setRecord (σ : Store n) (i : Fin 32) (r : Volume.DInode) : Store n :=
  { σ with record := update σ.record i r }

def setTable (σ : Store n) (τ : Table n) : Store n := { σ with table := τ }

/-- The end of `read_inode`. -/
def read (σ : Store n) (P : Fin n) (i : Fin 32) : Store n :=
  match read_inode (σ.table.inode i).dev (σ.table.inode i).num σ.cache with
  | .ok r s =>
    { σ with
      table := { σ.table with disk := fun _ _ => kind r }.loaded P i
      record := update σ.record i r
      cache := s }
  | .error _ _ => σ.setTable σ.table.panic

/-- The end of `write_inode`; the table goes on to `τ`. -/
def write (σ : Store n) (i : Fin 32) (τ : Table n) : Store n :=
  match write_inode (σ.table.inode i).dev (σ.table.inode i).num (σ.record i) σ.cache with
  | .ok _ s => { σ with table := τ, cache := s }
  | .error _ _ => σ.setTable σ.table.panic

/-- A process that goes on in the kernel. -/
def run (σ : Store n) (P : Fin n) : Option (Store n) :=
  (σ.table.run P).map fun τ =>
    match (σ.table.proc P).pc with
    | .read i => σ.read P i
    | .emptyWrite _ i => σ.write i τ
    | .putWrite i _ => σ.write i τ
    -- `memset` when the entry is taken, and in `free_inode`
    | .emptyWait _ i =>
      if (σ.table.inode i).dirt = false ∧ (σ.table.inode i).count = 0 then (σ.setTable τ).setRecord i .zero
      else σ.setTable τ
    | .putTrunc i _ => if τ.panicked then σ.setTable τ else (σ.setTable τ).setRecord i .zero
    | _ => σ.setTable τ

/-- A step of process `P`. -/
def step (σ : Store n) (a : Fin n × StoreEvent n) : Option (Store n) :=
  if σ.table.panicked then none
  else match a.2, (σ.table.proc a.1).pc with
    | .table .run, _ => σ.run a.1
    | .table (.modify _ _), _ => none
    | .table (.bit (some _)), _ => none
    | .table e, _ => (σ.table.step (a.1, e)).map σ.setTable
    | .modify i r, _ =>
      (σ.table.step (a.1, .modify i (kind r))).map fun τ => (σ.setTable τ).setRecord i r
    | .made nr i_uid i_gid i_time, .newInode i _ =>
      (σ.table.step (a.1, .bit (some nr))).map fun τ =>
        (σ.setTable τ).setRecord i { σ.record i with i_nlinks := 1, i_uid, i_gid, i_time }
    | .cut i_zone i_size i_time dirt, .putTrunc i _ =>
      let t := σ.table.inode i
      some ((σ.setTable (σ.table.setInode i { t with dirt := t.dirt || dirt })).setRecord i
        { σ.record i with i_zone, i_size, i_time })
    | .sync i, _ =>
      let t := σ.table.inode i
      if t.lock = false ∧ t.dirt = true ∧ t.dev ≠ 0 then
        some { σ.setTable (σ.table.setLock i) with syncing := update σ.syncing i true }
      else none
    | .synced i, _ =>
      if σ.syncing i then
        some { σ.write i (σ.table.written i) with syncing := update σ.syncing i false }
      else none
    | .cache s, _ => some { σ with cache := s }
    | _, _ => none

/-! ### Runs -/

-- the super blocks that are on the disks
variable (disks : ℕ → SuperBlock)

/-- A device is mounted with the inodes where its super block on the disk puts them. -/
def Mounted (s : Kernel) : Prop :=
  ∀ dev sb, s.get_super dev = some sb → sb.inode_block = (disks dev).inode_block

/-- Nobody has an inode, and what is in the buffers fits what is on the disk. -/
structure Start (σ : Store n) : Prop where
  table : σ.table.Start
  record : ∀ i, σ.record i = .zero
  coherent : Coherent σ.cache
  mounted : Mounted disks σ.cache
  syncing : ∀ i, σ.syncing i = false

/-- Buffers come and go, and so do mounted devices; the inodes are the same. -/
structure SameInodes (s t : Kernel) : Prop where
  coherent : Coherent t
  mounted : Mounted disks t
  d_inode : ∀ dev nr, 1 ≤ nr → nr ≤ (disks dev).s_ninodes →
    t.d_inode (disks dev) dev nr = s.d_inode (disks dev) dev nr

/-- `iget` is not asked for a number that is free by then, `free_inode` does not clear an entry that is
locked by somebody else, and nothing else writes to the inodes of a device. -/
def Allowed (σ : Store n) (a : Fin n × StoreEvent n) : Prop :=
  match a.2 with
  | .table e => Table.Listed σ.table (a.1, e) ∧
      (e = .run → ∀ i k, (σ.table.proc a.1).pc = .putTrunc i k → (σ.table.inode i).lock = false)
  | .cache s => SameInodes disks σ.cache s
  | _ => True

end Store

end OldLinux.Inodes
