import OldLinux.Process.Machine

/-!
# Demand loading: `do_no_page` with the file behind it

`do_no_page` of `mm/memory.cc`, `bread_page` of `fs/buffer.cc` and `bmap` of `fs/inode.cc` (with
`create` zero, where `_bmap` only reads), over the memory of `mm/memory.cc` and the tasks.  The disk
is what `bread` and `getblk` with a read give for a block: the data, or nothing when the read
failed.  The function sleeps while the blocks are read; what other tasks do meanwhile is the subject
of the process machine, and here the function runs by itself.
-/

namespace OldLinux.Demand

open Lib Memory Process

def BLOCK_SIZE : ℕ := 1024

/-- What `do_execve` and `bmap` read of an inode in memory. -/
structure Inode where
  i_zone : ℕ → ℕ
  i_dev : ℕ
  i_size : ℕ

/-- The inodes in use, and the disks: 256 words a block, unless it cannot be read. -/
structure Volume where
  inode : ℕ → Inode
  bread : ℕ → ℕ → Option Page

/-- `((unsigned short *) bh->b_data)[k]`. -/
def ushort (data : Page) (k : ℕ) : ℕ := ((data (k / 2)).extractLsb' (16 * (k % 2)) 16).toNat

/-! ### The header -/

/-- The fields of `struct exec` that `do_execve` checks or loads by. -/
structure Header where
  a_magic : Word
  a_text : Word
  a_data : Word
  a_bss : Word
  a_syms : Word
  a_trsize : Word
  a_drsize : Word

/-- `*((struct exec *) bh->b_data)`. -/
def Header.of (data : Page) : Header :=
  ⟨data 0, data 1, data 2, data 3, data 4, data 6, data 7⟩

def ZMAGIC : Word := 0x10b#32

/-- `N_TXTOFF(ex)` of a `ZMAGIC` file. -/
def N_TXTOFF : Word := 1024#32

/-- The checks of `do_execve` on the header, for a file of `size` bytes. -/
def Header.Accepted (ex : Header) (size : ℕ) : Prop :=
  ex.a_magic = ZMAGIC ∧ ex.a_trsize = 0 ∧ ex.a_drsize = 0 ∧
  (ex.a_text + ex.a_data + ex.a_bss).toNat ≤ 0x3000000 ∧
    (ex.a_text + ex.a_data + ex.a_syms + N_TXTOFF).toNat ≤ size

instance (ex : Header) (size : ℕ) : Decidable (ex.Accepted size) :=
  inferInstanceAs (Decidable (_ ∧ _))

/-- `current->end_data = ex.a_data + (current->end_code = ex.a_text)`. -/
def Header.endData (ex : Header) : ℕ := (ex.a_data + ex.a_text).toNat

/-- The sums of the sizes that `do_execve` compares do not wrap around. -/
def Header.NoWrap (ex : Header) : Prop :=
  ex.a_text.toNat + ex.a_data.toNat + ex.a_bss.toNat < 2 ^ 32 ∧
    ex.a_text.toNat + ex.a_data.toNat + ex.a_syms.toNat + 1024 < 2 ^ 32

instance (ex : Header) : Decidable ex.NoWrap := inferInstanceAs (Decidable (_ ∧ _))

/-- The header `do_execve` reads, from `inode->i_zone[0]`. -/
def Volume.header (V : Volume) (inode : ℕ) : Option Header :=
  (V.bread (V.inode inode).i_dev ((V.inode inode).i_zone 0)).map Header.of

/-- `do_execve` with a binary: what `do_no_page` will find in the task, if the file is accepted. -/
def Volume.load (V : Volume) (inode : ℕ) (t : Task) : Option Task :=
  match V.header inode with
  | none => none
  | some ex =>
    if ex.Accepted (V.inode inode).i_size then
      some { t with executable := some inode, endData := ex.endData }
    else
      none

/-! ### `bmap` -/

/-- `bread` of a zone and the entry `k` of it; 0 if the read fails. -/
def entryOf (V : Volume) (dev zone k : ℕ) : ℕ :=
  match V.bread dev zone with
  | none => 0
  | some data => ushort data k

/-- `_bmap(inode,block,0)`. -/
def bmap (V : Volume) (inode : Inode) (block : ℤ) : MmM ℕ :=
  if block < 0 then
    throw (.panic "_bmap: block<0")
  else if block ≥ 7 + 512 + 512 * 512 then
    throw (.panic "_bmap: block>big")
  else if block < 7 then
    return inode.i_zone block.toNat
  else if block - 7 < 512 then
    if inode.i_zone 7 = 0 then
      return 0
    else
      return entryOf V inode.i_dev (inode.i_zone 7) (block - 7).toNat
  else if inode.i_zone 8 = 0 then
    return 0
  else
    let i := entryOf V inode.i_dev (inode.i_zone 8) ((block - 7 - 512).toNat / 512)
    if i = 0 then
      return 0
    else
      return entryOf V inode.i_dev i ((block - 7 - 512).toNat % 512)

/-- `for (i=0 ; i<4 ; block++,i++) nr[i] = bmap(current->executable,block)`, for `n` rounds. -/
def bmaps (V : Volume) (inode : Inode) : ℤ → ℕ → MmM (List ℕ)
  | _, 0 => return []
  | block, n + 1 => do
      let b ← bmap V inode block
      let nr ← bmaps V inode (block + 1) n
      return b :: nr

/-! ### `bread_page` -/

/-- `COPYBLK(from,to)` to the word `place` of a page. -/
def copyBlk (data : Page) (place : ℕ) (page : Page) : Page := fun j =>
  if place ≤ j ∧ j < place + 256 then data (j - place) else page j

/-- One block of `bread_page`; a hole or a block that could not be read leaves its part of the page
alone. -/
def readBlock (V : Volume) (dev b place : ℕ) (page : Page) : Page :=
  if b = 0 then page
  else match V.bread dev b with
    | none => page
    | some data => copyBlk data place page

/-- The blocks of `b` one after another into a page. -/
def breadPage (V : Volume) (dev : ℕ) : ℕ → List ℕ → Page → Page
  | _, [], page => page
  | place, b :: bs, page => breadPage V dev (place + 256) bs (readBlock V dev b place page)

/-! ### `do_no_page` -/

/-- `i = tmp + 4096 - current->end_data`, an `int` computed from `unsigned long`s, and the rounds of
`while (i-- > 0)`. -/
def tailLength (tmp endData : ℕ) : ℕ := ((tmp + 4096 - endData : ℤ).bmod (2 ^ 32)).toNat

def doNoPage (σ : Machine) (V : Volume) (P : ℕ) (t : Task) (addr : ℕ) : MmM Unit :=
  let address := addr - addr % 4096
  let tmp := (address + 2 ^ 32 - base P) % 2 ^ 32
  match t.executable with
  | none => getEmptyPage address
  | some inode =>
    if t.endData ≤ tmp then
      getEmptyPage address
    else do
      let shared ← σ.sharePage P inode tmp
      if shared then
        return ()
      else
        let page ← getFreePage
        if page = 0 then
          throw .oom
        else
          let nr ← bmaps V (V.inode inode) (1 + tmp / BLOCK_SIZE : ℕ) 4
          modify fun s => s.storePage (page / 4096)
            (breadPage V (V.inode inode).i_dev 0 nr (s.mem (page / 4096)))
          modify fun s => s.storePage (page / 4096)
            (zeroTail (s.mem (page / 4096)) 4096 (tailLength tmp t.endData))
          let r ← putPage page address
          if r ≠ 0 then
            return ()
          else
            freePage page
            throw .oom

/-! ### What a file holds -/

section Contents

variable (disk : ℕ → Page) (inode : Inode)

/-- The entry `k` of the indirect block `zone`. -/
def indirect (zone k : ℕ) : ℕ := if zone = 0 then 0 else ushort (disk zone) k

/-- The zone of a block of the file: seven direct ones, one indirect and one double indirect; 0 for
a hole. -/
def zone (b : ℕ) : ℕ :=
  if b < 7 then inode.i_zone b
  else if b < 7 + 512 then indirect disk (inode.i_zone 7) (b - 7)
  else indirect disk (indirect disk (inode.i_zone 8) ((b - 519) / 512)) ((b - 519) % 512)

/-- Byte `n` of the file. -/
def fileByte (n : ℕ) : Byte :=
  if zone disk inode (n / 1024) = 0 then 0
  else byteAt (disk (zone disk inode (n / 1024))) (n % 1024)

/-- The blocks of the disk that the file is made of. -/
inductive InFile : ℕ → Prop
  | data (b : ℕ) : b < 7 + 512 + 512 * 512 → zone disk inode b ≠ 0 → InFile (zone disk inode b)
  | single : inode.i_zone 7 ≠ 0 → InFile (inode.i_zone 7)
  | double : inode.i_zone 8 ≠ 0 → InFile (inode.i_zone 8)
  | second (k : ℕ) : k < 512 → indirect disk (inode.i_zone 8) k ≠ 0 → InFile (indirect disk (inode.i_zone 8) k)

end Contents

/-- Reading the file never fails; `disk` is what is on its device. -/
def Volume.Reads (V : Volume) (disk : ℕ → Page) (inode : Inode) : Prop :=
  ∀ b, InFile disk inode b → V.bread inode.i_dev b = some (disk b)

end OldLinux.Demand
