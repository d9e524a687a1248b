import OldLinux.Buffers.Calls
import Mathlib.Algebra.Order.BigOperators.Group.Finset

/-!
# The books of the buffer cache

What holds of the cache, the reference counts and the request queues between any two steps, whoever
takes them, and the discipline of the processes that keep it.

What a process may rely on while it sleeps depends on `b_count`, a byte: a buffer with 256 references
looks like one without.  `Mode` says where a run has fewer: nowhere, for the buffers that processes
wait for in `lock_buffer` (`queue`), or for all of them (`shield`).
-/

namespace OldLinux.Buffers

open Function Lib.Processes Kernel

variable {D : Type} {ι : Type*} [Fintype ι]

/-- What is assumed of a run: the number of buffers, and what its steps are known not to do. -/
structure Mode where
  buffers : ℕ
  /-- fewer than 256 references to a buffer that a process waits for in `lock_buffer` -/
  queue : Prop
  /-- fewer than 256 references to every buffer -/
  shield : Prop
  /-- `getblk` comes to `sync_dev` without a locked inode -/
  careful : Prop

/-! ### References -/

/-- The references in the list to the buffer. -/
def refs (b : ℕ) (rs : List Ref) : ℕ := rs.countP (·.bh = b)

/-- All references to the buffer: those of the processes, of the mounted super blocks, and those that
dead processes did not give back. -/
def outstanding (k : Kernel D) (l : ι → Own) (b : ℕ) : ℕ :=
  ∑ p, refs b (l p).held + refs b k.mounted + refs b k.lost

theorem refs_cons (b : ℕ) (r : Ref) (rs : List Ref) :
    refs b (r :: rs) = refs b rs + if r.bh = b then 1 else 0 := by
  simp [refs, List.countP_cons]

theorem refs_eraseP {rs : List Ref} {b : ℕ} (h : ∃ r ∈ rs, r.bh = b) (c : ℕ) :
    refs c (rs.eraseP (·.bh = b)) + (if b = c then 1 else 0) = refs c rs := by
  obtain ⟨r, hr, hrb⟩ := h
  obtain ⟨a, l₁, l₂, -, ha, hl, herase⟩ :=
    List.exists_of_eraseP (p := fun r : Ref => decide (r.bh = b)) hr (decide_eq_true hrb)
  have hab : a.bh = b := of_decide_eq_true ha
  rw [herase, hl]
  simp only [refs, List.countP_append, List.countP_cons, hab, decide_eq_true_eq]
  omega

theorem refs_pos {rs : List Ref} {r : Ref} (h : r ∈ rs) : 0 < refs r.bh rs :=
  List.countP_pos_iff.2 ⟨r, h, by simp⟩

/-- A process changes what it holds. -/
theorem outstanding_update [DecidableEq ι] (k : Kernel D) (l : ι → Own) (p : ι) (x : Own) (b : ℕ) :
    outstanding k (update l p x) b + refs b (l p).held = outstanding k l b + refs b x.held := by
  have hrest : ∑ q ∈ Finset.univ.erase p, refs b (update l p x q).held =
      ∑ q ∈ Finset.univ.erase p, refs b (l q).held := by
    apply Finset.sum_congr rfl
    intro q hq
    rw [update_of_ne (Finset.ne_of_mem_erase hq)]
  have hnew := Finset.add_sum_erase Finset.univ (fun q => refs b (update l p x q).held)
    (Finset.mem_univ p)
  have hold := Finset.add_sum_erase Finset.univ (fun q => refs b (l q).held) (Finset.mem_univ p)
  simp only [update_self] at hnew
  rw [outstanding, outstanding]
  omega

theorem refs_le_outstanding (k : Kernel D) (l : ι → Own) (p : ι) (b : ℕ) :
    refs b (l p).held ≤ outstanding k l b := by
  have h := Finset.single_le_sum (f := fun q => refs b (l q).held) (fun _ _ => Nat.zero_le _)
    (Finset.mem_univ p)
  rw [outstanding]
  exact le_trans h (by omega)

/-- A buffer that a process holds has a reference. -/
theorem outstanding_pos (k : Kernel D) {l : ι → Own} {p : ι} {b : ℕ} (h : (l p).Holds b) :
    0 < outstanding k l b := by
  obtain ⟨r, hr, hrb⟩ := h
  rw [← hrb]
  exact lt_of_lt_of_le (refs_pos hr) (refs_le_outstanding k l p r.bh)

/-! ### The invariant -/

/-- The hash queues and the free list; a block has one buffer. -/
structure Cached (k : Kernel D) : Prop where
  freeNodup : k.freeList.Nodup
  free : ∀ b, b ∈ k.freeList ↔ b < k.buffers
  hashNodup : ∀ h, (k.hash h).Nodup
  hashed : ∀ h b, b ∈ k.hash h ↔ b < k.buffers ∧ (k.bh b).tag.dev ≠ 0 ∧ hashfn (k.bh b).tag = h
  unique : ∀ b b', b < k.buffers → b' < k.buffers → (k.bh b).tag.dev ≠ 0 → (k.bh b).tag = (k.bh b').tag → b = b'

/-- `b_count` counts the references, and what is referred to stays. -/
structure Counted (m : Mode) (k : Kernel D) (l : ι → Own) : Prop where
  count : ∀ b, (k.bh b).count = BitVec.ofNat 8 (outstanding k l b)
  held : m.shield → ∀ p, ∀ r ∈ (l p).held, (k.bh r.bh).tag = r.tag

/-- The requests in the queues of all devices. -/
def requests (k : Kernel D) : List ℕ := (List.range 7).flatMap k.queue

/-- The requests, and the buffers that are locked or waited for on the way to a request. -/
structure Queued (m : Mode) (k : Kernel D) (l : ι → Own) : Prop where
  wants : m.queue → ∀ p r, (l p).wants = some r → (l p).Holds r.bh ∧ (k.bh r.bh).tag = r.tag
  locked : ∀ p r, (l p).locked = some r → (k.bh r.bh).lock = true ∧ (k.bh r.bh).tag = r.tag ∧
    ∀ s ∈ requests k, (k.request s).bh ≠ r.bh
  lockedOnce : ∀ p q r r', (l p).locked = some r → (l q).locked = some r' → r.bh = r'.bh → p = q
  none : ∀ d, 7 ≤ d → k.queue d = []
  nodup : (requests k).Nodup
  used : ∀ s, s ∈ requests k ↔ s < 32 ∧ (k.request s).dev ≠ -1
  request : ∀ s ∈ requests k, (k.bh (k.request s).bh).lock = true ∧
    (k.bh (k.request s).bh).tag = (k.request s).tag ∧ (k.request s).dev = (k.request s).tag.dev.toNat
  cmd : ∀ s ∈ requests k, (k.request s).cmd = .read ∨ (k.request s).cmd = .write ∧ s < 32 * 2 / 3
  once : ∀ s ∈ requests k, ∀ s' ∈ requests k, (k.request s).bh = (k.request s').bh → s = s'
  device : m.queue → ∀ d, ∀ s ∈ k.queue d, major (k.request s).dev = d
  ids : (((requests k).map fun s => (k.request s).id) ++ k.completed).Perm (List.range k.made)

structure Books (m : Mode) (k : Kernel D) (l : ι → Own) : Prop where
  cached : Cached k
  counted : Counted m k l
  queued : Queued m k l
  size : k.buffers = m.buffers

/-! ### The discipline -/

/-- What the devices leave as it is, whatever they complete. -/
structure Later (k k' : Kernel D) : Prop where
  buffers : k'.buffers = k.buffers
  hash : k'.hash = k.hash
  freeList : k'.freeList = k.freeList
  driver : k'.driver = k.driver
  inode : k'.inode = k.inode
  super : k'.super = k.super
  tag : ∀ b, (k'.bh b).tag = (k.bh b).tag
  count : ∀ b, (k'.bh b).count = (k.bh b).count
  dirt : ∀ b, (k'.bh b).dirt = (k.bh b).dirt
  lock : ∀ b, (k.bh b).lock = false → (k'.bh b).lock = false
  slot : ∀ s, (k.request s).dev < 0 → k'.request s = k.request s

theorem Later.refl (k : Kernel D) : Later k k :=
  ⟨rfl, rfl, rfl, rfl, rfl, rfl, fun _ => rfl, fun _ => rfl, fun _ => rfl, fun _ h => h,
    fun _ _ => rfl⟩

theorem Later.trans (k₁ k₂ k₃ : Kernel D) (h : Later k₁ k₂) (h' : Later k₂ k₃) : Later k₁ k₃ :=
  ⟨h'.buffers.trans h.buffers, h'.hash.trans h.hash, h'.freeList.trans h.freeList,
    h'.driver.trans h.driver, h'.inode.trans h.inode, h'.super.trans h.super,
    fun b => (h'.tag b).trans (h.tag b), fun b => (h'.count b).trans (h.count b),
    fun b => (h'.dirt b).trans (h.dirt b), fun b hb => h'.lock b (h.lock b hb), by
      intro s hs
      have hslot := h.slot s hs
      rw [← hslot] at hs
      exact (h'.slot s hs).trans hslot⟩

/-- The states in which steps are considered. -/
def may (m : Mode) (p : ι) (e : Place) (k : Kernel D) (l : ι → Own) : Prop :=
  (m.queue → ∀ q r, (l q).wants = some r → outstanding k l r.bh < 256) ∧
  (m.shield → ∀ b, outstanding k l b < 256) ∧
  (m.careful → ∀ b, e = .dirty b → (k.bh b).dirt = true → (l p).inodes = [])

/-- What holds where a process is. -/
def must (m : Mode) (p : ι) (e : Place) (k : Kernel D) (l : ι → Own) : Prop :=
  match e with
  | .returns b t => m.shield → outstanding k l b < 256 → (k.bh b).tag = t ∧ (k.bh b).count ≠ 0
  | .inode i => m.careful → i ∉ (l p).inodes
  | _ => True

/-- The panics of the functions for inodes and bitmaps. -/
def inodePanics : List String :=
  ["trying to write inode without device", "trying to read inode without dev", "unable to read i-node block",
    "trying to free block on nonexistent device", "trying to free block not in datazone",
    "free_block: bit already cleared", "free_inode", "trying to free inode with links",
    "trying to free inode on nonexistent device", "trying to free inode 0 or nonexistant inode",
    "nonexistent imap in superblock", "iput: trying to free free inode", "No free inodes in mem",
    "iget with dev==0"]

/-- Of the other panics none is reached. -/
def mayPanic (m : Mode) (msg : String) : Prop :=
  msg ∈ inodePanics ∨ ¬m.shield ∧ msg = "Trying to free free buffer" ∨
    ¬m.queue ∧ msg = "request list destroyed"

/-- The processes leave the requests that have been made to the devices. -/
def LeavesRequests (k k' : Kernel D) : Prop :=
  k'.completed = k.completed ∧ ∀ d, ∀ s ∈ k.queue d, s ∈ k'.queue d ∧ k'.request s = k.request s

/-- The process is not in `lock_buffer` and has no lock on a buffer. -/
def Own.Idle (x : Own) : Prop := x.wants = .none ∧ x.locked = .none

def discipline (D : Type) (ι : Type*) [Fintype ι] (m : Mode) : Discipline Place (Kernel D) Own ι :=
  ⟨Books m, Later, must m, may m, LeavesRequests, mayPanic m, fun x => x.Idle ∧ x.inodes = []⟩

end OldLinux.Buffers
