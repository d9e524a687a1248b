import OldLinux.Buffers.Getblk

/-!
# Inodes over the buffer cache

`iget` and `iput` with all they call: `get_empty_inode`, `read_inode`, `truncate`, `free_block` and
`free_inode`.  They sleep for inodes as well as for buffers, and come to `getblk` with and without a locked
inode.
-/

namespace OldLinux.Buffers

open Lib.Processes Kernel

variable {D : Type}

/-- The words and bits of a block, and what the super blocks say; nothing is mounted here, so they stay. -/
class Layout (D : Type) extends Format D where
  word : D → ℕ → BitVec 16
  bit : D → ℕ → Bool
  clearBit : D → ℕ → D
  firstdatazone : ℕ → BitVec 16
  nzones : ℕ → BitVec 16
  ninodes : ℕ → BitVec 16
  zmap : ℕ → ℕ → ℕ
  imap : ℕ → ℕ → Option ℕ
  imount : ℕ → Option ℕ

/-! ### Blocks -/

section
variable [Layout D]

/-- The end of `free_block`: the bit of the block. -/
def clearZone (s : ℕ) (block : BitVec 16) : Prog D Unit := do
  let nr := (block.toNat - (Layout.firstdatazone D s).toNat + 1)
  let k ← get
  if Layout.bit (k.bh (Layout.zmap D s (nr / 8192))).data (nr % 8192) = false then
    .panic "free_block: bit already cleared"
  else do
    let _ ← store (Layout.zmap D s (nr / 8192)) fun d => Layout.clearBit d (nr % 8192)

/-- `free_block`; a block that is in use keeps the reference that `get_hash_table` has taken. -/
def freeBlock (n : ℕ) (dev block : BitVec 16) : Prog D Unit := do
  match ← getSuper dev n with
  | none => .panic "trying to free block on nonexistent device"
  | some s =>
    if block < Layout.firstdatazone D s ∨ Layout.nzones D s ≤ block then
      .panic "trying to free block not in datazone"
    else do
      match ← getHashTable ⟨dev, block.zeroExtend 32⟩ n with
      | none => clearZone s block
      | some b => do
          let k ← get
          if (k.bh b).count ≠ 1 then pure ()
          else do
            let _ ← modify fun k => k.setBh b fun h => { h with dirt := false, uptodate := false }
            brelse b
            clearZone s block

/-- The words of a block. -/
@[irreducible] def words : List ℕ := List.range 512

/-- `free_ind` with `free_block`, and `free_dind` with `free_ind`, for the blocks that are named in the
block. -/
def freeTree (n : ℕ) (leaf : BitVec 16 → BitVec 16 → Prog D Unit) (dev block : BitVec 16) : Prog D Unit :=
  if block = 0 then pure ()
  else do
    match ← bread n ⟨dev, block.zeroExtend 32⟩ with
    | none => freeBlock n dev block
    | some b => do
        forEach words fun j => do
          let k ← get
          if Layout.word (k.bh b).data j = 0 then pure () else leaf dev (Layout.word (k.bh b).data j)
        brelse b
        freeBlock n dev block

def freeInd (n : ℕ) : BitVec 16 → BitVec 16 → Prog D Unit := freeTree n (freeBlock n)

def freeDind (n : ℕ) : BitVec 16 → BitVec 16 → Prog D Unit := freeTree n (freeInd n)

/-! ### Inodes -/

def S_ISREG (mode : BitVec 16) : Bool := mode &&& 0o170000 = 0o100000
def S_ISDIR (mode : BitVec 16) : Bool := mode &&& 0o170000 = 0o40000
def S_ISBLK (mode : BitVec 16) : Bool := mode &&& 0o170000 = 0o60000

/-- An entry of the inode table is changed. -/
def setInode (i : ℕ) (f : Inode → Inode) : Prog D Unit := do
  let _ ← modify fun k => k.setInode i f

def setZone (i j : ℕ) (z : BitVec 16) : Prog D Unit :=
  setInode i fun v => { v with disk := { v.disk with zone := Function.update v.disk.zone j z } }

def truncate (n i : ℕ) : Prog D Unit := do
  let k ← get
  if !S_ISREG (k.inode i).disk.mode && !S_ISDIR (k.inode i).disk.mode then pure ()
  else do
    forEach (List.range 7) fun j => do
      let k ← get
      if (k.inode i).disk.zone j = 0 then pure ()
      else do
        freeBlock n (k.inode i).dev ((k.inode i).disk.zone j)
        setZone i j 0
    let k ← get
    freeInd n (k.inode i).dev ((k.inode i).disk.zone 7)
    let k ← get
    freeDind n (k.inode i).dev ((k.inode i).disk.zone 8)
    setZone i 7 0
    setZone i 8 0
    setInode i fun v => { v with disk := { v.disk with size := 0 }, dirt := true }

/-- `memset(inode,0,sizeof(*inode))` -/
def Inode.zero : Inode := ⟨⟨0, 0, 0, fun _ => 0⟩, 0, 0, 0, false, false, false, false⟩

def freeInode (n i : ℕ) : Prog D Unit := do
  let k ← get
  if (k.inode i).dev = 0 then setInode i fun _ => Inode.zero
  else if 1 < (k.inode i).count then .panic "free_inode"
  else if (k.inode i).disk.nlinks ≠ 0 then .panic "trying to free inode with links"
  else do
    match ← getSuper (k.inode i).dev n with
    | none => .panic "trying to free inode on nonexistent device"
    | some s => do
        let k ← get
        if (k.inode i).num < 1 ∨ Layout.ninodes D s < (k.inode i).num then
          .panic "trying to free inode 0 or nonexistant inode"
        else
          match Layout.imap D s ((k.inode i).num.toNat / 8192) with
          | none => .panic "nonexistent imap in superblock"
          | some b => do
              let _ ← store b fun d => Layout.clearBit d ((k.inode i).num.toNat % 8192)
              setInode i fun _ => Inode.zero

/-- The end of `iput`, from `repeat` on. -/
def iputLoop (n i : ℕ) : ℕ → Prog D Unit
  | 0 => stuck
  | r + 1 => do
      let k ← get
      if 1 < (k.inode i).count then setInode i fun v => { v with count := v.count - 1 }
      else if (k.inode i).disk.nlinks = 0 then do
        truncate n i
        freeInode n i
      else if (k.inode i).dirt then do
        writeInode n i
        waitOnInode i
        iputLoop n i r
      else setInode i fun v => { v with count := v.count - 1 }

/-- The last user of a pipe frees it. -/
def putPipe (v : Inode) : Inode :=
  if v.count - 1 ≠ 0 then { v with count := v.count - 1 }
  else { v with count := 0, dirt := false, pipe := false }

def iput (n i : ℕ) : Prog D Unit := do
  waitOnInode i
  let k ← get
  if (k.inode i).count = 0 then .panic "iput: trying to free free inode"
  else if (k.inode i).pipe then setInode i putPipe
  else if (k.inode i).dev = 0 then setInode i fun v => { v with count := v.count - 1 }
  else if S_ISBLK (k.inode i).disk.mode then do
    syncDev n ((k.inode i).disk.zone 0)
    waitOnInode i
    iputLoop n i n
  else iputLoop n i n

/-- The search of `get_empty_inode` after `last_inode`: the first unused entry that is clean and not locked, or
else the last unused one. -/
def emptyInode (k : Kernel D) (last : ℕ) : Option ℕ :=
  let order := (List.range 32).map fun j => (last + 1 + j) % 32
  let unused := order.filter fun i => (k.inode i).count = 0
  (unused.find? fun i => !(k.inode i).dirt && !(k.inode i).lock).or unused.getLast?

/-- `while (inode->i_dirt)` in `get_empty_inode`. -/
def writeClean (n i : ℕ) : ℕ → Prog D Unit
  | 0 => stuck
  | r + 1 => do
      let k ← get
      if (k.inode i).dirt then do
        writeInode n i
        waitOnInode i
        writeClean n i r
      else pure ()

/-- `get_empty_inode`; `last` is where `last_inode` is in each round. -/
def getEmptyInode (n : ℕ) (last : ℕ → ℕ) : ℕ → Prog D ℕ
  | 0 => stuck
  | r + 1 => do
      let k ← get
      match emptyInode k (last r) with
      | none => .panic "No free inodes in mem"
      | some i => do
          waitOnInode i
          writeClean n i n
          let k ← get
          if (k.inode i).count ≠ 0 then getEmptyInode n last r
          else do
            setInode i fun _ => { Inode.zero with count := 1 }
            pure i

/-- The super block that is mounted on the inode. -/
def findMount (D : Type) [Layout D] (i : ℕ) : Option ℕ :=
  (List.range 8).find? fun s => Layout.imount D s = some i

/-- The loop of `iget` from entry `i` of the table on. -/
def igetLoop (n empty : ℕ) : ℕ → BitVec 16 → BitVec 16 → ℕ → Prog D (Option ℕ)
  | 0, _, _, _ => stuck
  | r + 1, dev, nr, i =>
    if i < 32 then do
      let k ← get
      if (k.inode i).dev ≠ dev ∨ (k.inode i).num ≠ nr then igetLoop n empty r dev nr (i + 1)
      else do
        waitOnInode i
        let k ← get
        if (k.inode i).dev ≠ dev ∨ (k.inode i).num ≠ nr then igetLoop n empty r dev nr 0
        else do
          setInode i fun v => { v with count := v.count + 1 }
          if (k.inode i).mount then
            match findMount D i with
            | none => do
                iput n empty
                pure (some i)
            | some s => do
                iput n i
                let k ← get
                igetLoop n empty r (k.super s).dev 1 0
          else do
            iput n empty
            pure (some i)
    else do
      setInode empty fun v => { v with dev := dev, num := nr }
      readInode n empty
      pure (some empty)

def iget (n : ℕ) (last : ℕ → ℕ) (dev nr : BitVec 16) : Prog D (Option ℕ) :=
  if dev = 0 then .panic "iget with dev==0"
  else do
    let empty ← getEmptyInode n last n
    igetLoop n empty n dev nr 0

end

/-! ## What a process has afterwards -/

variable {ι : Type*} [Fintype ι] [DecidableEq ι] {m : Mode} {p : ι} {b i n : ℕ} {t : Tag} {x y z : Own}

/-- `free_block` may leave references behind. -/
structure Own.More (x y : Own) : Prop where
  held : x.held <:+ y.held
  wants : y.wants = x.wants
  locked : y.locked = x.locked
  inodes : y.inodes = x.inodes

theorem Own.More.refl (x : Own) : x.More x := ⟨List.suffix_rfl, rfl, rfl, rfl⟩

theorem Own.More.trans (h : x.More y) (h' : y.More z) : x.More z :=
  ⟨h.held.trans h'.held, h'.wants.trans h.wants, h'.locked.trans h.locked, h'.inodes.trans h.inodes⟩

theorem Own.More.idle (h : x.More y) (hx : x.Idle) : y.Idle := ⟨h.wants.trans hx.1, h.locked.trans hx.2⟩

theorem Own.More.holds (h : x.More y) (hb : x.Holds b) : y.Holds b := by
  obtain ⟨r, hr, hrb⟩ := hb
  exact ⟨r, h.held.subset hr, hrb⟩

theorem Own.more_get (x : Own) (r : Ref) : x.More (x.get r) := ⟨List.suffix_cons r x.held, rfl, rfl, rfl⟩

/-- The reference that is given back may be one that was left behind. -/
theorem Own.More.put {r : Ref} (h : (x.get r).More y) : x.More (y.put r.bh) := by
  obtain ⟨rs, hrs⟩ := h.held
  refine ⟨?_, h.wants, h.locked, h.inodes⟩
  show x.held <:+ y.held.eraseP (·.bh = r.bh)
  rw [← hrs]
  show x.held <:+ (rs ++ r :: x.held).eraseP (·.bh = r.bh)
  by_cases hleft : ∃ r' ∈ rs, r'.bh = r.bh
  · obtain ⟨r', hr', hbh⟩ := hleft
    rw [List.eraseP_append_left (a := r') (by simpa using hbh) _ hr']
    exact (List.suffix_cons r x.held).trans (List.suffix_append _ _)
  · rw [List.eraseP_append_right _ (fun r' hr' => by simpa using fun hbh => hleft ⟨r', hr', hbh⟩),
      List.eraseP_cons_of_pos (by simp)]
    exact List.suffix_append _ _

theorem does_unitPost {α : Type} {c : Prog D α} {post : α → Own → Prop} {post' : Own → Prop}
    (h : Does (discipline D ι m) p x c post) (hpost : ∀ a y, post a y → post' y) :
    Does (discipline D ι m) p x (do let _ ← c) fun _ y => post' y := by
  refine Does.bind h ?_
  intro a y hy
  exact Does.pure (hpost a y hy)

/-- A call that leaves the process as it was, as part of one that may not. -/
theorem does_more {α : Type} {c : Prog D α} (h : Does (discipline D ι m) p y c fun _ z => z = y)
    (hxy : x.More y) :
    Does (discipline D ι m) p y c fun _ z => x.More z := h.mono fun _ _ hz => hz ▸ hxy

theorem does_panics {α : Type} {post : α → Own → Prop} {msg : String} (h : msg ∈ inodePanics) :
    Does (discipline D ι m) p x (.panic msg) post := does_panic (.inl h)

section
variable [Format D]

theorem does_bread (hx : x.Idle) : Does (discipline D ι m) p x (bread n t : Prog D _)
    fun r y => y = match r with | none => x | some b => x.get ⟨b, t⟩ :=
  does_breadWith gets_getblk hx

theorem does_readInode (hx : x.Idle) (hi : m.careful → i ∉ x.inodes) :
    Does (discipline D ι m) p x (readInode n i : Prog D _) fun _ y => y = x := by
  refine Does.bind (does_lockInode hi) ?_
  rintro _ _ rfl
  refine Does.then does_get fun k => ?_
  refine Does.then does_getSuper fun s => ?_
  split
  · exact does_panic (.inl (by simp [inodePanics]))
  · refine Does.then does_get fun k₁ => ?_
    refine Does.bind (does_bread (x := { x with inodes := i :: x.inodes }) hx) ?_
    rintro r _ rfl
    cases r with
    | none => exact does_panic (.inl (by simp [inodePanics]))
    | some b =>
      dsimp only
      refine Does.then (does_modify fun k => ⟨rfl, rfl, rfl, fun _ => rfl, fun _ => rfl, fun _ => rfl, rfl, rfl,
        rfl, rfl, rfl, rfl⟩) fun _ => ?_
      refine Does.bind (does_brelse hx (Own.holds_get _ ⟨b, _⟩)) ?_
      rintro _ _ rfl
      rw [Own.put_get _ ⟨b, _⟩]
      exact does_unlockInode

end

section
variable [Layout D] {s : ℕ} {dev block nr : BitVec 16}

theorem does_clearZone : Does (discipline D ι m) p x (clearZone s block : Prog D _) fun _ y => y = x := by
  refine Does.then does_get fun k => ?_
  split
  · exact does_panics (by simp [inodePanics])
  · exact does_unitPost does_store fun _ _ hy => hy

/-- **`free_block`**: the reference to a buffer that others use too is not given back. -/
theorem does_freeBlock (hx : x.Idle) :
    Does (discipline D ι m) p x (freeBlock n dev block : Prog D _) fun _ y => x.More y := by
  refine Does.then does_getSuper fun r => ?_
  cases r with
  | none => exact does_panics (by simp [inodePanics])
  | some s =>
    dsimp only
    split
    · exact does_panics (by simp [inodePanics])
    · refine Does.bind (does_getHashTable hx) ?_
      intro r y hy
      cases r with
      | none =>
        rw [hy]
        exact does_more does_clearZone (Own.More.refl x)
      | some b =>
        dsimp only at hy ⊢
        rw [hy]
        refine Does.bind does_get ?_
        intro k y hy
        rw [hy]
        split
        · exact Does.pure (x.more_get _)
        · refine Does.then (does_modify fun k => Same.setBh k b _ fun _ => ⟨rfl, rfl, rfl⟩) fun _ => ?_
          refine Does.bind (does_brelse hx (x.holds_get ⟨b, _⟩)) ?_
          intro _ y hy
          rw [hy, x.put_get ⟨b, _⟩]
          exact does_more does_clearZone (Own.More.refl x)

/-- The blocks that are named in a block that is held. -/
theorem does_freeWords {leaf : BitVec 16 → BitVec 16 → Prog D Unit} (dev : BitVec 16) (hx : x.Idle)
    (hleaf : ∀ y : Own, y.Idle → ∀ dev block,
      Does (discipline D ι m) p y (leaf dev block) fun _ z => y.More z) :
    Does (discipline D ι m) p x (forEach words fun j => do
      let k ← get
      if Layout.word (k.bh b).data j = 0 then pure () else leaf dev (Layout.word (k.bh b).data j))
      fun _ y => x.More y := by
  apply Does.forEach_of (Own.More.refl x)
  intro j _ y hy
  refine Does.bind does_get ?_
  intro k z hz
  rw [hz]
  split
  · exact Does.pure hy
  · exact (hleaf y (hy.idle hx) _ _).mono fun _ w hw => hy.trans hw

theorem does_freeTree {leaf : BitVec 16 → BitVec 16 → Prog D Unit} (hx : x.Idle)
    (hleaf : ∀ y : Own, y.Idle → ∀ dev block,
      Does (discipline D ι m) p y (leaf dev block) fun _ z => y.More z) :
    Does (discipline D ι m) p x (freeTree n leaf dev block) fun _ y => x.More y := by
  rw [freeTree]
  split
  · exact Does.pure (Own.More.refl x)
  · refine Does.bind (does_bread hx) ?_
    intro r y hy
    rw [hy]
    cases r with
    | none => exact does_freeBlock hx
    | some b =>
      dsimp only
      have hloop := does_freeWords (b := b) (x := x.get ⟨b, ⟨dev, block.zeroExtend 32⟩⟩) dev hx hleaf
      refine Does.bind hloop ?_
      intro _ y hy
      refine Does.bind (does_brelse (hy.idle hx) (hy.holds (x.holds_get ⟨b, _⟩))) ?_
      intro _ z hz
      rw [hz]
      exact (does_freeBlock (hy.put.idle hx)).mono fun _ w hw => hy.put.trans hw

theorem does_freeInd (hx : x.Idle) :
    Does (discipline D ι m) p x (freeInd n dev block : Prog D _) fun _ y => x.More y :=
  does_freeTree hx fun _ hy _ _ => does_freeBlock hy

theorem does_freeDind (hx : x.Idle) :
    Does (discipline D ι m) p x (freeDind n dev block : Prog D _) fun _ y => x.More y :=
  does_freeTree hx fun _ hy _ _ => does_freeInd hy

omit [Layout D] in
theorem does_changeInode {f : Inode → Inode} :
    Does (discipline D ι m) p x (setInode i f : Prog D _) fun _ y => y = x :=
  does_unitPost (does_modify fun _ => ⟨rfl, rfl, rfl, fun _ => rfl, fun _ => rfl, fun _ => rfl, rfl, rfl,
    rfl, rfl, rfl, rfl⟩) fun _ _ hy => hy

theorem does_truncate (hx : x.Idle) :
    Does (discipline D ι m) p x (truncate n i : Prog D _) fun _ y => x.More y := by
  refine Does.then does_get fun k => ?_
  split
  · exact Does.pure (Own.More.refl x)
  · refine Does.bind (Does.forEach_of (I := fun y => x.More y) (Own.More.refl x) fun j _ y hy => ?_) ?_
    · refine Does.bind does_get ?_
      intro k z hz
      rw [hz]
      split
      · exact Does.pure hy
      · refine Does.bind (does_freeBlock (hy.idle hx)) ?_
        intro _ w hw
        exact does_more does_changeInode (hy.trans hw)
    · intro _ y hy
      refine Does.bind (does_more does_get hy) ?_
      intro k y hy
      refine Does.bind (does_freeInd (hy.idle hx)) ?_
      intro _ z hz
      refine Does.bind (does_more does_get (hy.trans hz)) ?_
      intro k z hz
      refine Does.bind (does_freeDind (hz.idle hx)) ?_
      intro _ w hw
      have hw := hz.trans hw
      refine Does.bind (does_more does_changeInode hw) ?_
      intro _ w hw
      refine Does.bind (does_more does_changeInode hw) ?_
      intro _ w hw
      exact does_more does_changeInode hw

theorem does_freeInode : Does (discipline D ι m) p x (freeInode n i : Prog D _) fun _ y => y = x := by
  refine Does.then does_get fun k => ?_
  split
  · exact does_changeInode
  · split
    · exact does_panics (by simp [inodePanics])
    · split
      · exact does_panics (by simp [inodePanics])
      · refine Does.then does_getSuper fun r => ?_
        split
        · exact does_panics (by simp [inodePanics])
        · refine Does.then does_get fun k => ?_
          split
          · exact does_panics (by simp [inodePanics])
          · split
            · exact does_panics (by simp [inodePanics])
            · refine Does.then does_store fun _ => ?_
              exact does_changeInode

theorem does_writeInode (hx : x.Idle) (hi : m.careful → x.inodes = []) :
    Does (discipline D ι m) p x (writeInode n i : Prog D _) fun _ y => y = x :=
  does_writeInodeWith gets_getblk hx fun hm => hi hm ▸ List.not_mem_nil

omit [Layout D] in
/-- A wait for an inode by a process without a locked one. -/
theorem does_waitFree (hi : m.careful → x.inodes = []) :
    Does (discipline D ι m) p x (waitOnInode i : Prog D _) fun _ y => y = x :=
  does_waitOnInode fun hm => hi hm ▸ List.not_mem_nil

/-- `write_inode` and `wait_on_inode`, before a loop goes on. -/
theorem does_writeAndWait {α : Type} {c : Prog D α} {post : α → Own → Prop} (hx : x.Idle)
    (hi : m.careful → x.inodes = []) (hc : Does (discipline D ι m) p x c post) :
    Does (discipline D ι m) p x (do
      writeInode n i
      waitOnInode i
      c : Prog D _) post := by
  refine Does.then (does_writeInode hx hi) fun _ => ?_
  refine Does.then (does_waitFree hi) fun _ => ?_
  exact hc

theorem does_iputLoop {r : ℕ} (hx : x.Idle) (hi : m.careful → x.inodes = []) :
    Does (discipline D ι m) p x (iputLoop n i r : Prog D _) fun _ y => x.More y := by
  induction r with
  | zero => exact fun _ _ _ => wp_stuck
  | succ r ih =>
    refine Does.then does_get fun k => ?_
    split
    · exact does_more does_changeInode (Own.More.refl x)
    · split
      · refine Does.bind (does_truncate hx) ?_
        intro _ y hy
        exact does_more does_freeInode hy
      · split
        · exact does_writeAndWait hx hi ih
        · exact does_more does_changeInode (Own.More.refl x)

/-- **`iput`** waits for inodes only while it has none locked. -/
theorem does_iput (hx : x.Idle) (hi : m.careful → x.inodes = []) :
    Does (discipline D ι m) p x (iput n i : Prog D _) fun _ y => x.More y := by
  refine Does.then (does_waitFree hi) fun _ => ?_
  refine Does.then does_get fun k => ?_
  split
  · exact does_panics (by simp [inodePanics])
  · split
    · exact does_more does_changeInode (Own.More.refl x)
    · split
      · exact does_more does_changeInode (Own.More.refl x)
      · split
        · refine Does.then (syncs_syncDev x hx hi _) fun _ => ?_
          refine Does.then (does_waitFree hi) fun _ => ?_
          exact does_iputLoop hx hi
        · exact does_iputLoop hx hi

theorem does_writeClean {r : ℕ} (hx : x.Idle) (hi : m.careful → x.inodes = []) :
    Does (discipline D ι m) p x (writeClean n i r : Prog D _) fun _ y => y = x := by
  induction r with
  | zero => exact fun _ _ _ => wp_stuck
  | succ r ih =>
    refine Does.then does_get fun k => ?_
    split
    · exact does_writeAndWait hx hi ih
    · exact Does.pure rfl

theorem does_getEmptyInode {r : ℕ} {last : ℕ → ℕ} (hx : x.Idle) (hi : m.careful → x.inodes = []) :
    Does (discipline D ι m) p x (getEmptyInode n last r : Prog D _) fun _ y => y = x := by
  induction r with
  | zero => exact fun _ _ _ => wp_stuck
  | succ r ih =>
    refine Does.then does_get fun k => ?_
    split
    · exact does_panics (by simp [inodePanics])
    · refine Does.then (does_waitFree hi) fun _ => ?_
      refine Does.then (does_writeClean hx hi) fun _ => ?_
      refine Does.then does_get fun k => ?_
      split
      · exact ih
      · refine Does.bind does_changeInode ?_
        intro _ y hy
        exact Does.pure hy

theorem does_igetLoop {empty r : ℕ} (hx : x.Idle) (hi : m.careful → x.inodes = []) :
    Does (discipline D ι m) p x (igetLoop n empty r dev nr i : Prog D _) fun _ y => x.More y := by
  induction r generalizing x dev nr i with
  | zero => exact fun _ _ _ => wp_stuck
  | succ r ih =>
    have hput : ∀ {x : Own} {a : ℕ}, x.Idle → (m.careful → x.inodes = []) → Does (discipline D ι m) p x (do
        iput n empty
        pure (some a) : Prog D _) fun _ y => x.More y := by
      intro x a hx hi
      refine Does.bind (does_iput hx hi) ?_
      intro _ y hy
      exact Does.pure hy
    rw [igetLoop]
    split
    · refine Does.bind does_get ?_
      intro k y hy
      rw [hy]
      split
      · exact ih hx hi
      · refine Does.bind (does_waitFree hi) ?_
        intro _ y hy
        rw [hy]
        refine Does.then does_get fun k => ?_
        split
        · exact ih hx hi
        · refine Does.then does_changeInode fun _ => ?_
          split
          · split
            · exact hput hx hi
            · refine Does.bind (does_iput hx hi) ?_
              intro _ y hy
              refine Does.bind does_get ?_
              intro k z hz
              rw [hz]
              have hi' : m.careful → y.inodes = [] := fun hm => hy.inodes.trans (hi hm)
              exact (ih (hy.idle hx) hi').mono fun _ w hw => hy.trans hw
          · exact hput hx hi
    · refine Does.bind does_changeInode ?_
      intro _ y hy
      rw [hy]
      refine Does.bind (does_readInode hx fun hm => hi hm ▸ List.not_mem_nil) ?_
      intro _ y hy
      rw [hy]
      exact Does.pure (Own.More.refl x)

/-- **`iget`** waits for inodes only while it has none locked. -/
theorem does_iget {last : ℕ → ℕ} (hx : x.Idle) (hi : m.careful → x.inodes = []) :
    Does (discipline D ι m) p x (iget n last dev nr : Prog D _) fun _ y => x.More y := by
  rw [iget]
  split
  · exact does_panics (by simp [inodePanics])
  · refine Does.then (does_getEmptyInode hx hi) fun empty => ?_
    exact does_igetLoop hx hi

end

end OldLinux.Buffers
