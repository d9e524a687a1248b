import OldLinux.Buffers.Inodes
import OldLinux.Lib.Trace

/-!
# Runs of the buffer cache

Any number of processes call the functions of the cache, one call after the other, and sleep where the
functions sleep; the devices complete their requests at any time.  A block has one buffer, and a buffer
stays what it is while it is held, as long as no buffer has 256 references.
-/

namespace OldLinux.Buffers

open Function Lib.Processes Kernel
open Lib (Reach exec Along checks along_of_checks along_of_forall)

variable {D : Type} {ι : Type*} [Fintype ι] [DecidableEq ι] {m : Mode} {k k' : Kernel D} {l l' : ι → Own}
variable {p : ι} {b i n : ℕ} {t : Tag} {x : Own}

/-! ### The calls -/

/-- What a process can do with the cache. -/
inductive Call (D : Type) where
  | getblk (t : Tag)
  | getHashTable (t : Tag)
  | bread (t : Tag)
  | breada (dev : BitVec 16) (first : BitVec 32) (rest : List (BitVec 32))
  | breadPage (dev : BitVec 16) (blocks : List (BitVec 32))
  | brelse (b : ℕ)
  | store (b : ℕ) (f : D → D)
  | llRwBlock (rw : Rw) (b : ℕ)
  | syncDev (dev : BitVec 16)
  | sysSync
  | syncInodes
  | readInode (i : ℕ)
  | writeInode (i : ℕ)
  | iget (last : ℕ → ℕ) (dev nr : BitVec 16)
  | iput (i : ℕ)
  | invalidateBuffers (dev : BitVec 16)

/-- The code of a call, with the number of rounds that it may take. -/
def callCode [Layout D] (n : ℕ) : Call D → Prog D Unit
  | .getblk t => do let _ ← getblk n t
  | .getHashTable t => do let _ ← getHashTable t n
  | .bread t => do let _ ← bread n t
  | .breada dev first rest => do let _ ← breada n dev first rest
  | .breadPage dev blocks => breadPage n dev blocks
  | .brelse b => brelse b
  | .store b f => do let _ ← store b f
  | .llRwBlock rw b => llRwBlock n rw b
  | .syncDev dev => syncDev n dev
  | .sysSync => sysSync n
  | .syncInodes => syncInodes n
  | .readInode i => readInode n i
  | .writeInode i => writeInode n i
  | .iget last dev nr => do let _ ← iget n last dev nr
  | .iput i => iput n i
  | .invalidateBuffers dev => invalidateBuffers dev

/-- A process gives back, changes and transfers only buffers that it holds. -/
def Call.Promised (x : Own) : Call D → Prop
  | .brelse b => x.Holds b
  | .store b _ => x.Holds b
  | .llRwBlock _ b => x.Holds b
  | _ => True

/-! ### Reading ahead and whole pages -/

section
variable [Layout D]

/-- **`breada`** gives back the reference to every block but the first one. -/
theorem does_breada (hx : x.Idle) {dev : BitVec 16} {first : BitVec 32} {rest : List (BitVec 32)} :
    Does (discipline D ι m) p x (breada n dev first rest : Prog D _)
      fun r y => y = match r with | none => x | some b => x.get ⟨b, ⟨dev, first⟩⟩ := by
  refine Does.bind (gets_getblk x hx ⟨dev, first⟩) ?_
  rintro b _ rfl
  have hholds : (x.get ⟨b, ⟨dev, first⟩⟩).Holds b := x.holds_get ⟨b, _⟩
  have hend : Does (discipline D ι m) p (x.get ⟨b, ⟨dev, first⟩⟩) (do
      forEach rest fun blocknr => do
        let tmp ← getblk n ⟨dev, blocknr⟩
        let k ← get
        if (k.bh tmp).uptodate then pure () else llRwBlock n .reada b
        let _ ← countDown tmp
      waitOnBuffer b
      let k ← get
      if (k.bh b).uptodate then pure (some b)
      else do
        brelse b
        pure none : Prog D _)
      fun r y => y = match r with | none => x | some b => x.get ⟨b, ⟨dev, first⟩⟩ := by
    refine Does.bind (Does.forEach fun blocknr _ => ?_) ?_
    · refine Does.bind (gets_getblk (x.get _) hx ⟨dev, blocknr⟩) ?_
      rintro tmp _ rfl
      have hdrop : Does (discipline D ι m) p ((x.get ⟨b, ⟨dev, first⟩⟩).get ⟨tmp, ⟨dev, blocknr⟩⟩)
          (do let _ ← countDown tmp : Prog D _) fun _ y => y = x.get ⟨b, ⟨dev, first⟩⟩ := by
        refine does_unitPost (does_countDown hx (Own.holds_get _ ⟨tmp, _⟩)) ?_
        rintro _ _ rfl
        exact Own.put_get _ ⟨tmp, _⟩
      refine Does.bind does_get ?_
      intro k y hy
      rw [hy]
      split
      · exact hdrop
      · refine Does.bind (does_llRwBlock hx (Own.get_holds hholds)) ?_
        intro _ y hy
        rw [hy]
        exact hdrop
    · intro _ y hy
      rw [hy]
      refine Does.then does_waitOnBuffer fun _ => ?_
      refine Does.then does_get fun k => ?_
      split
      · exact Does.pure rfl
      · refine Does.bind (does_brelse hx hholds) ?_
        rintro _ _ rfl
        exact Does.pure (x.put_get ⟨b, _⟩)
  refine Does.then does_get fun k => ?_
  split
  · exact hend
  · refine Does.then (does_llRwBlock hx hholds) fun _ => ?_
    exact hend

/-- The references that the first loop of `bread_page` has taken. -/
def Own.gets (x : Own) (rs : List Ref) : Own := { x with held := rs ++ x.held }

theorem does_askPage {dev : BitVec 16} {blocks : List (BitVec 32)} (hx : x.Idle) :
    Does (discipline D ι m) p x (askPage n dev blocks : Prog D _)
      fun bs y => ∃ rs, y = x.gets rs ∧ (rs.map (·.bh)).Perm bs := by
  induction blocks generalizing x with
  | nil => exact Does.pure ⟨[], rfl, List.Perm.nil⟩
  | cons blocknr blocks ih =>
    by_cases hzero : blocknr = 0
    · rw [hzero]
      show Does _ _ _ (askPage n dev (0#32 :: blocks)) _
      rw [askPage]
      exact ih hx
    · have hrest : ∀ b, Does (discipline D ι m) p (x.get ⟨b, ⟨dev, blocknr⟩⟩) (do
          let bs ← askPage n dev blocks
          pure (b :: bs) : Prog D _) fun bs y => ∃ rs, y = x.gets rs ∧ (rs.map (·.bh)).Perm bs := by
        intro b
        refine Does.bind (ih hx) ?_
        rintro bs _ ⟨rs, rfl, hrs⟩
        refine Does.pure ⟨rs ++ [⟨b, ⟨dev, blocknr⟩⟩], ?_, ?_⟩
        · simp [Own.gets, Own.get]
        · rw [List.map_append]
          exact List.perm_append_comm.trans (hrs.cons b)
      rw [askPage]
      · refine Does.bind (gets_getblk x hx ⟨dev, blocknr⟩) ?_
        rintro b _ rfl
        refine Does.bind does_get ?_
        intro k y hy
        rw [hy]
        split
        · exact hrest b
        · refine Does.then (does_llRwBlock hx (x.holds_get ⟨b, _⟩)) fun _ => ?_
          exact hrest b
      · exact hzero

omit [Layout D] in
/-- The second loop gives the references back, in whatever order they were taken. -/
theorem does_releasePage (hx : x.Idle) {bs : List ℕ} {rs : List Ref} (h : (rs.map (·.bh)).Perm bs) :
    Does (discipline D ι m) p (x.gets rs) (forEach bs fun b => do
      waitOnBuffer b
      brelse b : Prog D _) fun _ y => y = x := by
  induction bs generalizing rs with
  | nil =>
    have hrs : rs = [] := List.map_eq_nil_iff.1 h.eq_nil
    rw [hrs]
    exact Does.pure rfl
  | cons b bs ih =>
    have hmem : ∃ r ∈ rs, r.bh = b := List.mem_map.1 (h.mem_iff.2 List.mem_cons_self)
    have hput : (x.gets rs).put b = x.gets (rs.eraseP (·.bh = b)) := by
      obtain ⟨r, hr, hrb⟩ := hmem
      simp only [Own.put, Own.gets]
      rw [List.eraseP_append_left (a := r) (by simpa using hrb) _ hr]
    have hrest : ((rs.eraseP (·.bh = b)).map (·.bh)).Perm bs := by
      have herase : (rs.eraseP (·.bh = b)).map (·.bh) = (rs.map (·.bh)).erase b := by
        rw [List.erase_eq_eraseP, List.eraseP_map]
        congr 1
        exact congrArg (fun f => List.eraseP f rs) (funext fun r => decide_eq_decide.2 eq_comm)
      rw [herase]
      exact List.cons_perm_iff_perm_erase.1 h.symm |>.2.symm
    have hholds : (x.gets rs).Holds b := by
      obtain ⟨r, hr, hrb⟩ := hmem
      exact ⟨r, List.mem_append_left _ hr, hrb⟩
    have hfirst : Does (discipline D ι m) p (x.gets rs) (do
        waitOnBuffer b
        brelse b : Prog D _) fun _ y => y = x.gets (rs.eraseP (·.bh = b)) := by
      refine Does.bind does_waitOnBuffer ?_
      intro _ y hy
      rw [hy, ← hput]
      exact does_brelse hx hholds
    refine Does.bind hfirst ?_
    intro _ y hy
    rw [hy]
    exact ih hrest

theorem does_breadPage (hx : x.Idle) {dev : BitVec 16} {blocks : List (BitVec 32)} :
    Does (discipline D ι m) p x (breadPage n dev blocks : Prog D _) fun _ y => y = x := by
  refine Does.bind (does_askPage hx) ?_
  rintro bs _ ⟨rs, rfl, hrs⟩
  exact does_releasePage hx hrs

/-! ### The other calls -/

theorem does_syncInodes (hx : x.Idle) (hi : x.inodes = []) :
    Does (discipline D ι m) p x (syncInodes n : Prog D _) fun _ y => y = x :=
  does_syncInodesWith gets_getblk hx fun _ => hi

theorem does_sysSync (hx : x.Idle) (hi : x.inodes = []) :
    Does (discipline D ι m) p x (sysSync n : Prog D _) fun _ y => y = x := by
  refine Does.then (does_syncInodes hx hi) fun _ => ?_
  refine Does.then does_get fun k => ?_
  exact Does.forEach fun b _ => does_writeUnlocked hx fun k => (k.bh b).dirt

omit [Layout D] in
theorem does_invalidateBuffers {dev : BitVec 16} :
    Does (discipline D ι m) p x (invalidateBuffers dev : Prog D _) fun _ y => y = x := by
  refine Does.then does_get fun k => ?_
  refine Does.forEach fun b _ => ?_
  refine Does.then does_get fun k₁ => ?_
  split
  · exact Does.pure rfl
  · refine Does.then does_waitOnBuffer fun _ => ?_
    refine Does.then does_get fun k₂ => ?_
    split
    · exact does_unitPost (does_modify fun k => Same.setBh k b _ fun _ => ⟨rfl, rfl, rfl⟩) fun _ _ hy => hy
    · exact Does.pure rfl

/-- **Every call** of a process that keeps its promise keeps the books. -/
theorem does_call {c : Call D} (hx : x.Idle ∧ x.inodes = []) (hc : c.Promised x) :
    Does (discipline D ι m) p x (callCode n c) fun _ y => y.Idle ∧ y.inodes = [] := by
  have same : ∀ y, y = x → y.Idle ∧ y.inodes = [] := fun y hy => hy ▸ hx
  have more : ∀ (r : Option ℕ) (t : Tag) (y : Own), (y = match r with | none => x | some b => x.get ⟨b, t⟩) →
      y.Idle ∧ y.inodes = [] := by
    intro r t y hy
    rw [hy]
    cases r <;> exact hx
  have leaves : ∀ y, x.More y → y.Idle ∧ y.inodes = [] := fun y hy => ⟨hy.idle hx.1, hy.inodes.trans hx.2⟩
  have hi : ∀ i, m.careful → i ∉ x.inodes := fun i _ => hx.2 ▸ List.not_mem_nil
  have unit : ∀ {c : Prog D Unit}, Does (discipline D ι m) p x c (fun _ y => y = x) →
      Does (discipline D ι m) p x c fun _ y => y.Idle ∧ y.inodes = [] := fun h => h.mono fun _ => same
  cases c with
  | getblk t => exact does_unitPost (gets_getblk x hx.1 t) fun b y hy => more (some b) t y hy
  | getHashTable t => exact does_unitPost (does_getHashTable hx.1) fun r => more r t
  | bread t => exact does_unitPost (does_bread hx.1) fun r => more r t
  | breada dev first rest => exact does_unitPost (does_breada hx.1) fun r => more r ⟨dev, first⟩
  | breadPage dev blocks => exact unit (does_breadPage hx.1)
  | brelse b => exact (does_brelse hx.1 hc).mono fun _ y hy => hy ▸ hx
  | store b f => exact does_unitPost does_store fun _ => same
  | llRwBlock rw b => exact unit (does_llRwBlock hx.1 hc)
  | syncDev dev => exact unit (syncs_syncDev x hx.1 (fun _ => hx.2) dev)
  | sysSync => exact unit (does_sysSync hx.1 hx.2)
  | syncInodes => exact unit (does_syncInodes hx.1 hx.2)
  | readInode i => exact unit (does_readInode hx.1 (hi i))
  | writeInode i => exact unit (does_writeInodeWith gets_getblk hx.1 (hi i))
  | iget last dev nr => exact does_unitPost (does_iget hx.1 fun _ => hx.2) fun _ => leaves
  | iput i => exact (does_iput hx.1 fun _ => hx.2).mono fun _ => leaves
  | invalidateBuffers dev => exact unit does_invalidateBuffers

end

/-! ### Runs -/

/-- The processes with the kernel. -/
abbrev World (D : Type) (ι : Type*) := System Place (Kernel D) Own ι

/-- A cache of `n` buffers without locks and requests, in which only mounted super blocks have references. -/
structure Quiet (n : ℕ) (k : Kernel D) : Prop where
  size : k.buffers = n
  cached : Cached k
  count : ∀ b, (k.bh b).count = BitVec.ofNat 8 (refs b k.mounted)
  unlocked : ∀ b, (k.bh b).lock = false
  queue : ∀ d, k.queue d = []
  free : ∀ s < 32, (k.request s).dev = -1
  made : k.made = 0
  completed : k.completed = []
  lost : k.lost = []

omit [DecidableEq ι] in
theorem Quiet.books (h : Quiet n k) (hn : m.buffers = n) : Books m k (fun _ : ι => Own.none) := by
  have hreq : requests k = [] := by
    rw [requests, List.flatMap_eq_nil_iff]
    exact fun d _ => h.queue d
  refine ⟨h.cached, ⟨fun b => ?_, fun _ p r hr => absurd hr List.not_mem_nil⟩, ?_, h.size.trans hn.symm⟩
  · rw [h.count, outstanding, h.lost]
    simp [Own.none, refs]
  · refine ⟨fun _ p r hr => (by cases hr), fun p r hr => (by cases hr), fun p q r r' hr => (by cases hr),
      fun d _ => h.queue d, ?_, ?_, ?_, ?_, ?_, ?_, ?_⟩
    · rw [hreq]
      exact List.nodup_nil
    · intro s
      rw [hreq]
      constructor
      · exact fun hs => absurd hs List.not_mem_nil
      · rintro ⟨hs, hdev⟩
        exact absurd (h.free s hs) hdev
    · rw [hreq]
      exact fun s hs => absurd hs List.not_mem_nil
    · rw [hreq]
      exact fun s hs => absurd hs List.not_mem_nil
    · rw [hreq]
      exact fun s hs => absurd hs List.not_mem_nil
    · intro _ d s hs
      rw [h.queue] at hs
      exact absurd hs List.not_mem_nil
    · rw [hreq, h.completed, h.made]
      exact List.Perm.nil

namespace World

/-- A process goes on, begins a call or gives the processor away at the end of one; a device completes its
request, or has moved a sector of it. -/
inductive Event (D : Type) (ι : Type*) where
  | turn (p : ι)
  | start (p : ι) (n : ℕ) (c : Call D)
  | rest (p : ι)
  | complete (d : ℕ) (uptodate : Bool)
  | progress (d : ℕ) (sector : BitVec 32)

def step [Layout D] (s : World D ι) : Event D ι → Option (World D ι)
  | .turn p => s.turn p
  | .start p n c => s.start p (callCode n c)
  | .rest p => s.rest p
  | .complete d uptodate => (s.shared.complete d uptodate).map s.interrupt
  | .progress d sector => (s.shared.progress d sector).map s.interrupt

/-- No process has begun a call. -/
structure Start (n : ℕ) (s : World D ι) : Prop where
  quiet : Quiet n s.shared
  own : s.own = fun _ => Own.none
  code : ∀ p, s.code p = .ret ()
  idle : s.running = none

/-- What the callers promise. -/
def Promised (s : World D ι) : Event D ι → Prop
  | .start p _ c => c.Promised (s.own p)
  | _ => True

variable [Layout D] {s s' : World D ι} {e : Event D ι}

/-- The step of a process is one that is considered. -/
def Considered (m : Mode) (s : World D ι) : Event D ι → Prop
  | .turn p => ∀ e, (s.code p).place = some e → may m p e s.shared s.own
  | _ => True

omit [Layout D] in
theorem complete_interrupt (h : Sound (discipline D ι m) s) {d : ℕ} {ok : Bool}
    (hs : s.shared.complete d ok = some k') : Sound (discipline D ι m) (s.interrupt k') := by
  obtain ⟨req, rest, C⟩ := complete_completed hs
  exact h.interrupt Later.trans (C.later h.inv.queued) (h.inv.complete C)

/-- **One step** of a process or a device keeps the books. -/
theorem sound_step (h : Sound (discipline D ι m) s) (hpromised : Promised s e) (hmay : Considered m s e)
    (hs : step s e = some s') : Sound (discipline D ι m) s' := by
  cases e with
  | turn p => exact h.turn Later.refl hmay hs
  | start p n c =>
    have hret : s.code p = .ret () := by
      simp only [step, System.start] at hs
      split at hs
      · assumption
      · cases hs
    exact h.start (does_call (h.idle hret) hpromised s.shared s.own rfl) hs
  | rest p => exact h.rest hs
  | complete d ok =>
    obtain ⟨k', hk', rfl⟩ := Option.map_eq_some_iff.1 hs
    exact complete_interrupt h hk'
  | progress d sector =>
    obtain ⟨k', hk', rfl⟩ := Option.map_eq_some_iff.1 hs
    obtain ⟨hbooks, hlater⟩ := h.inv.progress hk'
    exact h.interrupt Later.trans hlater hbooks

omit [Layout D] in
theorem sound_start (h : Start n s) (hn : m.buffers = n) : Sound (discipline D ι m) s := by
  have hidle : ∀ k l p, l p = s.own p →
      wp (discipline D ι m) p (s.code p) (fun _ _ l => (discipline D ι m).idle (l p)) k l := by
    intro k l p hl
    rw [h.code, show Code.ret () = (pure () : Prog D Unit) from rfl, wp_pure, hl, h.own]
    exact ⟨⟨rfl, rfl⟩, rfl⟩
  refine ⟨?_, fun p _ => hidle _ _ p rfl, fun p _ k l _ hl => hidle k l p hl⟩
  rw [h.own]
  exact h.quiet.books hn

/-- **Every state that runs reach** keeps the books. -/
theorem reach_sound {allowed : World D ι → Event D ι → Prop} (hn : m.buffers = n)
    (hallowed : ∀ s e, allowed s e → Promised s e ∧ Considered m s e)
    (h : Reach (Start n) step allowed s) : Sound (discipline D ι m) s :=
  h.invariant (fun _ hs => sound_start hs hn) fun _ _ _ hsound ha hs =>
    sound_step hsound (hallowed _ _ ha).1 (hallowed _ _ ha).2 hs

/-! ### A block has one buffer -/

/-- Fewer than 256 references to each buffer. -/
def Few (s : World D ι) : Prop := ∀ b, outstanding s.shared s.own b < 256

/-- **A block has one buffer and keeps it.**  A buffer is for the same block from when a process gets a
reference to it until the process gives it back, and `getblk` returns the buffer of the block, in use. -/
theorem one_buffer_for_a_block
    (h : Reach (Start n) step (fun (s : World D ι) e => Promised s e ∧ Few s) s) (hfew : Few s) :
    (∀ b b', b < n → b' < n → (s.shared.bh b).tag.dev ≠ 0 →
      (s.shared.bh b).tag = (s.shared.bh b').tag → b = b') ∧
      (∀ p, ∀ r ∈ (s.own p).held, (s.shared.bh r.bh).tag = r.tag) ∧
      ∀ p b t, (s.code p).place = some (.returns b t) →
        (s.shared.bh b).tag = t ∧ 1 ≤ (s.shared.bh b).count.toNat := by
  have hsound : Sound (discipline D ι ⟨n, False, True, False⟩) s := by
    refine reach_sound rfl ?_ h
    rintro s e ⟨hpromised, hfew⟩
    refine ⟨hpromised, ?_⟩
    cases e with
    | turn p => exact fun _ _ => ⟨fun h => h.elim, fun _ => hfew, fun h => h.elim⟩
    | _ => trivial
  have hsize : s.shared.buffers = n := hsound.inv.size
  refine ⟨?_, fun p r hr => hsound.inv.counted.held trivial p r hr, ?_⟩
  · rw [← hsize]
    exact hsound.inv.cached.unique
  · intro p b t hplace
    obtain ⟨htag, hcount⟩ := hsound.must Later.refl hplace trivial (hfew b)
    refine ⟨htag, Nat.one_le_iff_ne_zero.2 fun h0 => hcount ?_⟩
    exact BitVec.eq_of_toNat_eq h0

end World

/-! ### A small machine -/

/-- What `buffer_init` and `blk_dev_init` leave for `n` buffers, with a floppy and a hard disk. -/
def Kernel.boot (n : ℕ) (inode : ℕ → Inode) (super : ℕ → Super) : Kernel Unit where
  buffers := n
  bh _ := ⟨(), ⟨0, 0⟩, false, false, 0, false⟩
  hash _ := []
  freeList := List.range n
  bufferWait := 0
  request _ := ⟨-1, .read, 0, 0, ⟨0, 0⟩, 0⟩
  queue _ := []
  driver d := d = 2 || d = 3
  waitForRequest := 0
  inode := inode
  super := super
  mounted := []
  disk _ := ()
  lost := []
  made := 0
  completed := []

/-- Entries of the inode table that are not in use. -/
def noInode : ℕ → Inode := fun _ => ⟨⟨0, 0, 0, fun _ => 0⟩, 0, 0, 0, false, false, false, false⟩

/-- Entries of the super block table that are not in use. -/
def noSuper : ℕ → Super := fun _ => ⟨0, 0, 0, false⟩

instance : Layout Unit where
  inode _ _ := ⟨0, 0, 0, fun _ => 0⟩
  putInode _ _ _ := ()
  word _ _ := 0
  bit _ _ := true
  clearBit _ _ := ()
  firstdatazone _ := 0
  nzones _ := 0
  ninodes _ := 0
  zmap _ _ := 0
  imap _ _ := none
  imount _ := none

theorem boot_quiet (n : ℕ) (inode : ℕ → Inode) (super : ℕ → Super) : Quiet n (Kernel.boot n inode super) := by
  refine ⟨rfl, ⟨List.nodup_range, fun b => List.mem_range, fun _ => List.nodup_nil, fun h b => ?_, ?_⟩,
    fun _ => rfl, fun _ => rfl, fun _ => rfl, fun _ _ => rfl, rfl, rfl, rfl⟩
  · constructor
    · exact fun hb => absurd hb List.not_mem_nil
    · exact fun hb => absurd rfl hb.2.1
  · intro b b' _ _ hdev
    exact absurd rfl hdev

/-- A cache of one buffer, which is in its hash queue. -/
def Kernel.oneBuffer (h : BufferHead Unit) (inode : ℕ → Inode) (super : ℕ → Super) : Kernel Unit :=
  { Kernel.boot 1 inode super with
    bh := update (Kernel.boot 1 inode super).bh 0 h
    hash := update (fun _ => []) (hashfn h.tag) [0] }

theorem oneBuffer_quiet {h : BufferHead Unit} {inode : ℕ → Inode} {super : ℕ → Super} (hdev : h.tag.dev ≠ 0)
    (hcount : h.count = 0) (hlock : h.lock = false) : Quiet 1 (Kernel.oneBuffer h inode super) := by
  have hbh : ∀ b < 1, (Kernel.oneBuffer h inode super).bh b = h := by
    intro b hb
    rw [Nat.lt_one_iff.1 hb]
    exact update_self 0 h (Kernel.boot 1 inode super).bh
  have hunused : ∀ b, ((Kernel.oneBuffer h inode super).bh b).count = 0 ∧
      ((Kernel.oneBuffer h inode super).bh b).lock = false := by
    intro b
    by_cases hb : b < 1
    · rw [hbh b hb]
      exact ⟨hcount, hlock⟩
    · have hother : (Kernel.oneBuffer h inode super).bh b = (Kernel.boot 1 inode super).bh b :=
        update_of_ne (by omega) _ _
      rw [hother]
      exact ⟨rfl, rfl⟩
  refine ⟨rfl, ⟨List.nodup_range, fun b => List.mem_range, fun i => ?_, fun i b => ?_,
    fun b b' hb hb' _ _ => ?_⟩,
    fun b => (hunused b).1, fun b => (hunused b).2, fun _ => rfl, fun _ _ => rfl, rfl, rfl, rfl⟩
  · show (update (fun _ => []) (hashfn h.tag) [0] i).Nodup
    rw [update_apply]
    split
    · exact List.nodup_singleton 0
    · exact List.nodup_nil
  · show b ∈ update (fun _ => []) (hashfn h.tag) [0] i ↔ b < 1 ∧ _
    rw [update_apply]
    split
    · rename_i hi
      rw [List.mem_singleton, hi]
      constructor
      · intro hb
        rw [hb, hbh 0 Nat.one_pos]
        exact ⟨Nat.one_pos, hdev, rfl⟩
      · exact fun hb => Nat.lt_one_iff.1 hb.1
    · rename_i hi
      constructor
      · exact fun hb => absurd hb List.not_mem_nil
      · rintro ⟨hb, -, hhash⟩
        rw [hbh b hb] at hhash
        exact absurd hhash.symm hi
  · rw [Nat.lt_one_iff.1 hb, Nat.lt_one_iff.1 hb']

/-- The processes begin with this kernel. -/
def World.begin (ι : Type) (k : Kernel D) : World D ι := ⟨k, fun _ => Own.none, fun _ => .ret (), none⟩

theorem World.begin_start {ι : Type} {k : Kernel D} (h : Quiet n k) : World.Start n (World.begin ι k) :=
  ⟨h, rfl, fun _ => rfl, rfl⟩

namespace World

/-- All references. -/
def total (s : World D (Fin n)) : ℕ :=
  ∑ p, (s.own p).held.length + s.shared.mounted.length + s.shared.lost.length

theorem outstanding_le_total (s : World D (Fin n)) (b : ℕ) : outstanding s.shared s.own b ≤ s.total := by
  have hsum : ∑ p, refs b (s.own p).held ≤ ∑ p, (s.own p).held.length :=
    Finset.sum_le_sum fun p _ => List.countP_le_length
  have hmounted : refs b s.shared.mounted ≤ s.shared.mounted.length := List.countP_le_length
  have hlost : refs b s.shared.lost ≤ s.shared.lost.length := List.countP_le_length
  rw [outstanding, total]
  omega

instance (x : Own) (c : Call D) : Decidable (c.Promised x) := by
  cases c <;> unfold Call.Promised <;> infer_instance

instance (s : World D ι) (e : Event D ι) : Decidable (Promised s e) := by
  cases e <;> unfold Promised <;> infer_instance

/-- Promises and counts that can be evaluated. -/
def fair (s : World D (Fin n)) (e : Event D (Fin n)) : Bool := decide (Promised s e) && decide (s.total < 256)

theorem few_of_total {s : World D (Fin n)} (h : s.total < 256) : Few s :=
  fun b => lt_of_le_of_lt (outstanding_le_total s b) h

theorem along_of_fair [Layout D] {s : World D (Fin n)} {es : List (Event D (Fin n))}
    (h : checks step fair s es = true) : Along step (fun s e => Promised s e ∧ Few s) s es := by
  refine (along_of_checks h).mono fun s e hfair => ?_
  obtain ⟨h1, h2⟩ := Bool.and_eq_true_iff.1 hfair
  exact ⟨of_decide_eq_true h1, few_of_total (of_decide_eq_true h2)⟩

/-- One process gets a block, and then the other asks for another one, up to the return of `getblk`. -/
def asking : List (Event Unit (Fin 2)) :=
  .start 1 3 (.getblk ⟨0x301, 2⟩) :: List.replicate 8 (.turn 1) ++
    .rest 1 :: .start 0 3 (.getblk ⟨0x301, 1⟩) :: List.replicate 7 (.turn 0)

theorem one_buffer_for_a_block_getblk : ∃ s : World Unit (Fin 2),
    exec step (begin (Fin 2) (Kernel.boot 2 noInode noSuper)) asking = some s ∧
      (s.code 0).place = some (.returns 1 ⟨0x301, 1⟩) ∧ (s.shared.bh 1).tag = ⟨0x301, 1⟩ ∧
      1 ≤ (s.shared.bh 1).count.toNat ∧ (s.shared.bh 0).tag ≠ (s.shared.bh 1).tag ∧
      (s.own 1).held = [⟨0, ⟨0x301, 2⟩⟩] ∧ (s.shared.bh 0).tag = ⟨0x301, 2⟩ := by
  have hend : (exec step (begin (Fin 2) (Kernel.boot 2 noInode noSuper)) asking).map
      (fun s => ((s.code 0).place, s.total, (s.own 1).held)) =
        some (some (.returns 1 ⟨0x301, 1⟩), 2, [⟨0, ⟨0x301, 2⟩⟩]) := by rfl
  obtain ⟨s, hs, hplace⟩ := Option.map_eq_some_iff.1 hend
  obtain ⟨hplace, hrest⟩ := Prod.mk.inj hplace
  obtain ⟨htotal, hheld⟩ := Prod.mk.inj hrest
  have hreach : Reach (Start 2) step (fun (s : World Unit (Fin 2)) e => Promised s e ∧ Few s) s :=
    (Reach.start (begin_start (boot_quiet 2 noInode noSuper))).exec (along_of_fair (by decide)) hs
  obtain ⟨hunique, hkept, hreturns⟩ := one_buffer_for_a_block hreach (few_of_total (by omega))
  obtain ⟨htag, hcount⟩ := hreturns 0 1 _ hplace
  have hother := hkept 1 ⟨0, ⟨0x301, 2⟩⟩ (by rw [hheld]; exact List.mem_cons_self)
  refine ⟨s, hs, hplace, htag, hcount, fun heq => ?_, hheld, hother⟩
  have hzero := hunique 0 1 (by decide) (by decide) (by rw [hother]; decide) heq
  omega

end World

end OldLinux.Buffers
