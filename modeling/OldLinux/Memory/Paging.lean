import OldLinux.Lib.Command
import Mathlib.Data.BitVec

/-!
# `mm/memory.cc`: the page allocator and the page tables

The functions of `mm/memory.cc`, one definition each, over the state they share: the byte array
`mem_map`, `HIGH_MEMORY` and physical memory.  Memory is indexed by frame number and word index, so
a pointer to an entry is a pair `(table, index)`; the page directory is frame 0 (`_pg_dir = 0`) and
`head.s` puts the kernel's four page tables in frames 1-4.  Addresses are natural numbers and the
entries are 32-bit words, so that every mask of the source is the mask here.

Bits 12-31 of an entry are the number of a physical frame; of the low bits the source looks at three:
bit 0 (present), bit 1 (user write) and bit 6 (dirty, set by the processor on a store).  It builds
entries as `frame | 7`, clears the write bit with `& ~2` and sets it with `|= 2`.

`panic` stops the kernel and `oom()` ends in `do_exit`, which does not return; both are errors of
the command, and the state they carry is the one `do_exit` goes on with.  `printk` and the TLB flush
`invalidate()` have no effect on this state and are left out.
-/

namespace OldLinux.Memory

open Function Lib

/-! ### Entries -/

/-- An `unsigned long` of a page directory or page table. -/
abbrev Word := BitVec 32

/-- `1 & e`: the entry is present. -/
def present (e : Word) : Prop := e &&& 1#32 ≠ 0#32

/-- `2 & e`: the entry lets user mode store. -/
def writable (e : Word) : Prop := e &&& 2#32 ≠ 0#32

/-- `0x40 & e`: the processor has stored through the entry. -/
def dirty (e : Word) : Prop := e &&& 0x40#32 ≠ 0#32

instance (e : Word) : Decidable (present e) := inferInstanceAs (Decidable (_ ≠ _))
instance (e : Word) : Decidable (writable e) := inferInstanceAs (Decidable (_ ≠ _))
instance (e : Word) : Decidable (dirty e) := inferInstanceAs (Decidable (_ ≠ _))

/-- `0xfffff000 & e`, as the number of the frame it addresses. -/
def frameOf (e : Word) : ℕ := (e &&& 0xfffff000#32).toNat / 4096

/-- `addr | 7`: present, user, writable. -/
def userEntry (addr : ℕ) : Word := BitVec.ofNat 32 addr ||| 7#32

/-- `e & ~2`. -/
def readOnly (e : Word) : Word := e &&& ~~~2#32

/-- `e | 2`. -/
def withWrite (e : Word) : Word := e ||| 2#32

/-- `e | 0x40`, done by the processor when it stores through `e`. -/
def withDirty (e : Word) : Word := e ||| 0x40#32

/-! ### The three bits -/

/-- Masking with a single bit reads that bit. -/
theorem and_twoPow_ne_zero (e : Word) (k : ℕ) (hk : BitVec.twoPow 32 k ≠ 0#32) :
    e &&& BitVec.twoPow 32 k ≠ 0#32 ↔ e.getLsbD k = true := by
  rw [BitVec.and_twoPow]
  split
  · rename_i h
    simp [h, hk]
  · rename_i h
    simp [h]

theorem present_iff (e : Word) : present e ↔ e.getLsbD 0 = true :=
  and_twoPow_ne_zero e 0 (by decide)

theorem writable_iff (e : Word) : writable e ↔ e.getLsbD 1 = true :=
  and_twoPow_ne_zero e 1 (by decide)

theorem dirty_iff (e : Word) : dirty e ↔ e.getLsbD 6 = true :=
  and_twoPow_ne_zero e 6 (by decide)

@[simp]
theorem present_zero : ¬present 0#32 := by decide

@[simp]
theorem present_userEntry (a : ℕ) : present (userEntry a) := by
  simp [present_iff, userEntry]

@[simp]
theorem writable_userEntry (a : ℕ) : writable (userEntry a) := by
  simp [writable_iff, userEntry]

@[simp]
theorem present_readOnly (e : Word) : present (readOnly e) ↔ present e := by
  simp [present_iff, readOnly]

@[simp]
theorem not_writable_readOnly (e : Word) : ¬writable (readOnly e) := by
  simp [writable_iff, readOnly]

@[simp]
theorem dirty_readOnly (e : Word) : dirty (readOnly e) ↔ dirty e := by
  simp [dirty_iff, readOnly]

@[simp]
theorem present_withWrite (e : Word) : present (withWrite e) ↔ present e := by
  simp [present_iff, withWrite]

@[simp]
theorem writable_withWrite (e : Word) : writable (withWrite e) := by
  simp [writable_iff, withWrite]

@[simp]
theorem dirty_withWrite (e : Word) : dirty (withWrite e) ↔ dirty e := by
  simp [dirty_iff, withWrite]

@[simp]
theorem present_withDirty (e : Word) : present (withDirty e) ↔ present e := by
  simp [present_iff, withDirty]

@[simp]
theorem writable_withDirty (e : Word) : writable (withDirty e) ↔ writable e := by
  simp [writable_iff, withDirty]

@[simp]
theorem dirty_withDirty (e : Word) : dirty (withDirty e) := by
  simp [dirty_iff, withDirty]

/-! ### The frame number -/

theorem frameOf_eq (e : Word) : frameOf e = e.toNat / 4096 := by
  unfold frameOf
  rw [BitVec.toNat_and, show (4096 : ℕ) = 2 ^ 12 from rfl, ← Nat.shiftRight_eq_div_pow,
    ← Nat.shiftRight_eq_div_pow, Nat.shiftRight_and_distrib]
  rw [show (0xfffff000#32).toNat >>> 12 = 2 ^ 20 - 1 from by decide,
    Nat.and_two_pow_sub_one_eq_mod, Nat.shiftRight_eq_div_pow]
  have := e.isLt
  omega

/-- Setting low bits leaves the frame alone. -/
theorem frameOf_or (e k : Word) (h : k &&& 0xfffff000#32 = 0#32) : frameOf (e ||| k) = frameOf e := by
  unfold frameOf
  rw [BitVec.and_comm, BitVec.and_or_distrib_left, BitVec.and_comm _ k, h]
  simp [BitVec.and_comm]

@[simp]
theorem frameOf_readOnly (e : Word) : frameOf (readOnly e) = frameOf e := by
  unfold frameOf readOnly
  rw [BitVec.and_assoc]
  rfl

@[simp]
theorem frameOf_withWrite (e : Word) : frameOf (withWrite e) = frameOf e :=
  frameOf_or e _ (by decide)

@[simp]
theorem frameOf_withDirty (e : Word) : frameOf (withDirty e) = frameOf e :=
  frameOf_or e _ (by decide)

theorem frameOf_userEntry {a : ℕ} (ha : a < 2 ^ 32) : frameOf (userEntry a) = a / 4096 := by
  rw [userEntry, frameOf_or _ _ (by decide), frameOf_eq, BitVec.toNat_ofNat, Nat.mod_eq_of_lt ha]

/-- The words of the kernel's own tables: `frame f` with the flags 7. -/
@[simp]
theorem frameOf_userEntry_frame {f : ℕ} (hf : f < 2 ^ 20) : frameOf (userEntry (f * 4096)) = f := by
  rw [frameOf_userEntry (by omega)]
  omega

/-- A present word that is numerically above `LOW_MEM` names a frame at or above it: the flag bits
decide the comparison only for the frame at `LOW_MEM` itself. -/
theorem lowMem_lt_iff {e : Word} (he : present e) : 0x100000 < e.toNat ↔ 256 ≤ frameOf e := by
  rw [frameOf_eq]
  have hodd : e.toNat % 2 = 1 := by
    have h := (present_iff e).1 he
    rw [BitVec.getLsbD, Nat.testBit_zero] at h
    simpa using h
  omega

/-! ### The state -/

def LOW_MEM : ℕ := 0x100000
def PAGING_MEMORY : ℕ := 15 * 1024 * 1024
def PAGING_PAGES : ℕ := PAGING_MEMORY / 2 ^ 12
def USED : BitVec 8 := 100

/-- `MAP_NR(addr)`. -/
def mapNr (addr : ℕ) : ℕ := (addr - LOW_MEM) / 2 ^ 12

/-- How a kernel function fails to return. -/
inductive Trap where
  | panic (message : String)
  | oom
deriving DecidableEq, Repr

structure Mm where
  memMap : ℕ → BitVec 8
  highMemory : ℕ
  mem : ℕ → ℕ → Word

abbrev MmM := EStateM Trap Mm

/-! ### Memory accesses -/

/-- Store one word. -/
def Mm.store (s : Mm) (t i : ℕ) (e : Word) : Mm :=
  { s with mem := update s.mem t (update (s.mem t) i e) }

/-- Overwrite a whole frame. -/
def Mm.storePage (s : Mm) (t : ℕ) (page : ℕ → Word) : Mm :=
  { s with mem := update s.mem t page }

def Mm.setCount (s : Mm) (k : ℕ) (c : BitVec 8) : Mm :=
  { s with memMap := update s.memMap k c }

@[simp]
theorem store_memMap (s : Mm) (t i : ℕ) (e : Word) : (s.store t i e).memMap = s.memMap := rfl

@[simp]
theorem store_highMemory (s : Mm) (t i : ℕ) (e : Word) : (s.store t i e).highMemory = s.highMemory := rfl

theorem store_mem (s : Mm) (t i : ℕ) (e : Word) (f j : ℕ) :
    (s.store t i e).mem f j = if f = t ∧ j = i then e else s.mem f j := by
  unfold Mm.store
  by_cases hf : f = t
  · subst hf
    by_cases hj : j = i <;> simp [hj]
  · simp [hf]

theorem store_mem_of_ne (s : Mm) {t f : ℕ} (h : f ≠ t) (i : ℕ) (e : Word) :
    (s.store t i e).mem f = s.mem f := by
  funext j
  simp [store_mem, h]

/-- Stores into different frames commute. -/
theorem store_comm (s : Mm) {t u : ℕ} (h : t ≠ u) (i j : ℕ) (e e' : Word) :
    (s.store t i e).store u j e' = (s.store u j e').store t i e := by
  rw [Mm.store, Mm.store, Mm.store, Mm.store]
  congr 1
  simp only [update_of_ne h, update_of_ne (Ne.symm h)]
  exact update_comm h _ _ _

@[simp]
theorem storePage_memMap (s : Mm) (t : ℕ) (page : ℕ → Word) : (s.storePage t page).memMap = s.memMap := rfl

@[simp]
theorem storePage_mem_self (s : Mm) (t : ℕ) (page : ℕ → Word) : (s.storePage t page).mem t = page := by
  simp [Mm.storePage]

theorem storePage_mem_of_ne (s : Mm) {t f : ℕ} (h : f ≠ t) (page : ℕ → Word) :
    (s.storePage t page).mem f = s.mem f := by
  simp [Mm.storePage, h]

theorem setCount_memMap (s : Mm) (k : ℕ) (c : BitVec 8) (i : ℕ) :
    (s.setCount k c).memMap i = if i = k then c else s.memMap i := by
  simp [Mm.setCount, update_apply]

def loadWord (t i : ℕ) : MmM Word := do
  let s ← get
  return s.mem t i

def storeWord (t i : ℕ) (e : Word) : MmM Unit := modify fun s => s.store t i e

/-- `(address>>20) & 0xffc`, as a word index into the page directory. -/
def dirIndex (address : ℕ) : ℕ := address / 2 ^ 22 % 1024

/-- `(address>>12) & 0x3ff`. -/
def tableIndex (address : ℕ) : ℕ := address / 2 ^ 12 % 1024

/-! ### Frames -/

/-- `repne ; scasb` downwards: the last zero among the first `n` bytes. -/
def scanFree (m : ℕ → BitVec 8) : ℕ → Option ℕ
  | 0 => none
  | n + 1 => if m n = 0 then some n else scanFree m n

/-- The address of the last free page, zeroed and marked used; 0 if none is left. -/
def getFreePage : MmM ℕ := do
  let s ← get
  match scanFree s.memMap PAGING_PAGES with
  | none => return 0
  | some k =>
    let page := k * 2 ^ 12 + LOW_MEM
    modify fun s => (s.setCount k 1).storePage (page / 4096) (fun _ => 0)
    return page

def freePage (addr : ℕ) : MmM Unit := do
  if addr < LOW_MEM then
    return ()
  else
    let s ← get
    if addr ≥ s.highMemory then
      throw (.panic "trying to free nonexistent page")
    else
      let nr := (addr - LOW_MEM) / 2 ^ 12
      let c := s.memMap nr
      modify fun s => s.setCount nr (c - 1)
      if c ≠ 0 then
        return ()
      else
        modify fun s => s.setCount nr 0
        throw (.panic "trying to free free page")

/-! ### Page tables -/

/-- One round of the inner loop of `free_page_tables`. -/
def freeEntry (pgTable nr : ℕ) : MmM Unit := do
  let e ← loadWord pgTable nr
  if present e then
    freePage (frameOf e * 4096)
    storeWord pgTable nr 0
  else
    storeWord pgTable nr 0

def freeEntries (pgTable : ℕ) : ℕ → ℕ → MmM Unit
  | _, 0 => return ()
  | nr, n + 1 => do
      freeEntry pgTable nr
      freeEntries pgTable (nr + 1) n

/-- One round of the outer loop of `free_page_tables`. -/
def freeDirEntry (dir : ℕ) : MmM Unit := do
  let e ← loadWord 0 dir
  if present e then
    freeEntries (frameOf e) 0 1024
    let e ← loadWord 0 dir
    freePage (frameOf e * 4096)
    storeWord 0 dir 0
  else
    return ()

def freeDirEntries : ℕ → ℕ → MmM Unit
  | _, 0 => return ()
  | dir, n + 1 => do
      freeDirEntry dir
      freeDirEntries (dir + 1) n

/-- `(size + 0x3fffff) >> 22`: the number of directory entries a size takes. -/
def dirCount (size : ℕ) : ℕ := (size + 0x3fffff) % 2 ^ 32 / 2 ^ 22

def freePageTables (fromAddr size : ℕ) : MmM Unit := do
  if fromAddr % 2 ^ 22 ≠ 0 then
    throw (.panic "free_page_tables called with wrong alignment")
  else if fromAddr = 0 then
    throw (.panic "Trying to free up swapper memory space")
  else
    freeDirEntries (dirIndex fromAddr) (dirCount size)

/-- One round of the inner loop of `copy_page_tables`. -/
def copyEntry (fromPageTable toPageTable i : ℕ) : MmM Unit := do
  let e ← loadWord fromPageTable i
  if present e then
    let thisPage := readOnly e
    storeWord toPageTable i thisPage
    if LOW_MEM < thisPage.toNat then
      storeWord fromPageTable i thisPage
      let nr := (thisPage.toNat - LOW_MEM) / 2 ^ 12
      modify fun s => s.setCount nr (s.memMap nr + 1)
    else
      return ()
  else
    return ()

def copyEntries (fromPageTable toPageTable : ℕ) : ℕ → ℕ → MmM Unit
  | _, 0 => return ()
  | i, n + 1 => do
      copyEntry fromPageTable toPageTable i
      copyEntries fromPageTable toPageTable (i + 1) n

/-- The outer loop of `copy_page_tables`; `nr` is the number of entries copied from each table. -/
def copyDirEntries (nr : ℕ) : ℕ → ℕ → ℕ → MmM Int
  | _, _, 0 => return 0
  | fromDir, toDir, n + 1 => do
      let toEntry ← loadWord 0 toDir
      if present toEntry then
        throw (.panic "copy_page_tables: already exist")
      else
        let fromEntry ← loadWord 0 fromDir
        if present fromEntry then
          let toPageTable ← getFreePage
          if toPageTable = 0 then
            return -1
          else
            storeWord 0 toDir (userEntry toPageTable)
            copyEntries (frameOf fromEntry) (toPageTable / 4096) 0 nr
            copyDirEntries nr (fromDir + 1) (toDir + 1) n
        else
          copyDirEntries nr (fromDir + 1) (toDir + 1) n

/-- 0, or -1 when memory runs out half way: the caller frees what was copied. -/
def copyPageTables (fromAddr toAddr size : ℕ) : MmM Int := do
  if fromAddr % 2 ^ 22 ≠ 0 ∨ toAddr % 2 ^ 22 ≠ 0 then
    throw (.panic "copy_page_tables called with wrong alignment")
  else
    let nr := if fromAddr = 0 then 0xA0 else 1024
    copyDirEntries nr (dirIndex fromAddr) (dirIndex toAddr) (dirCount size)

/-- The page mapped, or 0 when there is no memory for the page table. -/
def putPage (page address : ℕ) : MmM ℕ := do
  let e ← loadWord 0 (dirIndex address)
  if present e then
    storeWord (frameOf e) (tableIndex address) (userEntry page)
    return page
  else
    let tmp ← getFreePage
    if tmp = 0 then
      return 0
    else
      storeWord 0 (dirIndex address) (userEntry tmp)
      storeWord (tmp / 4096) (tableIndex address) (userEntry page)
      return page

/-! ### Faults -/

/-- `un_wp_page` on the entry `(table, i)`. -/
def unWpPage (table i : ℕ) : MmM Unit := do
  let e ← loadWord table i
  let oldPage := frameOf e * 4096
  let s ← get
  if LOW_MEM ≤ oldPage ∧ s.memMap (mapNr oldPage) = 1 then
    storeWord table i (withWrite e)
  else
    let newPage ← getFreePage
    if newPage = 0 then
      throw .oom
    else
      if LOW_MEM ≤ oldPage then
        modify fun s => s.setCount (mapNr oldPage) (s.memMap (mapNr oldPage) - 1)
      else
        pure ()
      storeWord table i (userEntry newPage)
      modify fun s => s.storePage (newPage / 4096) (s.mem (oldPage / 4096))

def doWpPage (address : ℕ) : MmM Unit := do
  let e ← loadWord 0 (dirIndex address)
  unWpPage (frameOf e) (tableIndex address)

def writeVerify (address : ℕ) : MmM Unit := do
  let page ← loadWord 0 (dirIndex address)
  if present page then
    let e ← loadWord (frameOf page) (tableIndex address)
    if present e ∧ ¬writable e then
      unWpPage (frameOf page) (tableIndex address)
    else
      return ()
  else
    return ()

def getEmptyPage (address : ℕ) : MmM Unit := do
  let tmp ← getFreePage
  if tmp = 0 then
    freePage tmp
    throw .oom
  else
    let r ← putPage tmp address
    if r = 0 then
      freePage tmp
      throw .oom
    else
      return ()

/-- `address` is relative to the data space; `pStart` and `start` are the `start_code` of the task
shared with and of the current one. -/
def tryToShare (address pStart start : ℕ) : MmM Bool := do
  let fromDir := dirIndex address + dirIndex pStart
  let toDir := dirIndex address + dirIndex start
  let i := tableIndex address
  let fromEntry ← loadWord 0 fromDir
  if ¬present fromEntry then
    return false
  else
    let e ← loadWord (frameOf fromEntry) i
    if ¬(present e ∧ ¬dirty e) then
      return false
    else
      let physAddr := frameOf e * 4096
      let s ← get
      if physAddr ≥ s.highMemory ∨ physAddr < LOW_MEM then
        return false
      else
        let toEntry ← loadWord 0 toDir
        let toTable ←
          if present toEntry then
            pure (frameOf toEntry)
          else do
            let tmp ← getFreePage
            if tmp = 0 then
              throw .oom
            else
              storeWord 0 toDir (userEntry tmp)
              pure (tmp / 4096)
        let old ← loadWord toTable i
        if present old then
          throw (.panic "try_to_share: to_page already exists")
        else
          storeWord (frameOf fromEntry) i (readOnly e)
          storeWord toTable i (readOnly e)
          modify fun s => s.setCount ((physAddr - LOW_MEM) / 2 ^ 12)
            (s.memMap ((physAddr - LOW_MEM) / 2 ^ 12) + 1)
          return true

/-! ### Start-up -/

/-- `mem_map[i++] = c`, `n` times. -/
def fillCounts (c : BitVec 8) : ℕ → ℕ → MmM Unit
  | _, 0 => return ()
  | i, n + 1 => do
      modify fun s => s.setCount i c
      fillCounts c (i + 1) n

def memInit (startMem endMem : ℕ) : MmM Unit := do
  modify fun s => { s with highMemory := endMem }
  fillCounts USED 0 PAGING_PAGES
  fillCounts 0 (mapNr startMem) ((endMem - startMem) / 2 ^ 12)

/-- Memory as `setup_paging` in `head.s` leaves it: four entries in the page directory, and four
page tables that map the first 16 MB onto themselves. -/
def setupPaging (m : ℕ → ℕ → Word) : ℕ → ℕ → Word := fun f i =>
  if f = 0 then
    if i < 4 then userEntry ((i + 1) * 4096) else 0
  else if f ≤ 4 then userEntry (((f - 1) * 1024 + i) * 4096)
  else m f i

/-- The state `mem_init` leaves at boot, whatever the rest of memory holds. -/
def bootState (m : ℕ → ℕ → Word) (startMem endMem : ℕ) : Mm :=
  after (memInit startMem endMem) ⟨fun _ => 0, 0, setupPaging m⟩

end OldLinux.Memory
