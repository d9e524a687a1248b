import OldLinux.Cache.Carve
import OldLinux.Lib.Trace
import Mathlib.Data.List.Perm.Subperm

/-!
# The lists of the cache

The hash queues and the free list as the source links them through the buffer heads, with every store.
`insert_into_queues` stores through `b_next` of the new head without a test, and this is a null pointer when the
queue was empty.
-/

namespace OldLinux.Cache

open Function Lib

/-- `_hashfn` -/
def hashfn (dev block : BitVec 32) : ℕ := (dev ^^^ block).toNat % 307

namespace Mem

/-- The queue of a head, with its 16-bit device. -/
def hash (c : Mem) (bh : ℕ) : ℕ := hashfn ((c.b_dev bh).setWidth 32) (c.b_blocknr bh)

def deref (c : Mem) (p : ℕ) : Mem := { c with derefs := p :: c.derefs }

def set_prev (c : Mem) (p v : ℕ) : Mem := { c.deref p with b_prev := update c.b_prev p v }

def set_next (c : Mem) (p v : ℕ) : Mem := { c.deref p with b_next := update c.b_next p v }

def set_prev_free (c : Mem) (p v : ℕ) : Mem := { c.deref p with b_prev_free := update c.b_prev_free p v }

def set_next_free (c : Mem) (p v : ℕ) : Mem := { c.deref p with b_next_free := update c.b_next_free p v }

/-- "remove from hash-queue" -/
def from_hash_queue (c : Mem) (bh : ℕ) : Mem :=
  let c := c.deref bh
  let c := if c.b_next bh ≠ 0 then c.set_prev (c.b_next bh) (c.b_prev bh) else c
  let c := if c.b_prev bh ≠ 0 then c.set_next (c.b_prev bh) (c.b_next bh) else c
  if c.hash_table (c.hash bh) = bh then
    { c with hash_table := update c.hash_table (c.hash bh) (c.b_next bh) }
  else c

/-- "remove from free list"; there is no result if the kernel panics. -/
def from_free_list (c : Mem) (bh : ℕ) : Option Mem :=
  if c.b_prev_free bh = 0 ∨ c.b_next_free bh = 0 then none
  else
    let c := c.set_next_free (c.b_prev_free bh) (c.b_next_free bh)
    let c := c.set_prev_free (c.b_next_free bh) (c.b_prev_free bh)
    some (if c.free_list = bh then { c with free_list := c.b_next_free bh } else c)

def remove_from_queues (c : Mem) (bh : ℕ) : Option Mem := (c.from_hash_queue bh).from_free_list bh

/-- "put at end of free list" -/
def to_free_list (c : Mem) (bh : ℕ) : Mem :=
  let c := c.set_next_free bh c.free_list
  let c := c.set_prev_free bh (c.b_prev_free c.free_list)
  let c := c.set_next_free (c.b_prev_free c.free_list) bh
  c.set_prev_free c.free_list bh

/-- "put the buffer in new hash-queue if it has a device" -/
def to_hash_queue (c : Mem) (bh : ℕ) : Mem :=
  let c := c.set_prev bh 0
  let c := c.set_next bh 0
  if c.b_dev bh = 0 then c
  else
    let c := c.set_next bh (c.hash_table (c.hash bh))
    let c := { c with hash_table := update c.hash_table (c.hash bh) bh }
    c.set_prev (c.b_next bh) bh

def insert_into_queues (c : Mem) (bh : ℕ) : Mem := (c.to_free_list bh).to_hash_queue bh

def find_from (c : Mem) (dev block : BitVec 32) : ℕ → ℕ → Option ℕ
  | 0, _ => none
  | fuel + 1, tmp =>
    if tmp = 0 then some 0
    else if (c.b_dev tmp).setWidth 32 = dev ∧ c.b_blocknr tmp = block then some tmp
    else c.find_from dev block fuel (c.b_next tmp)

/-- There is no result if the loop has not ended after one round for each buffer and one more. -/
def find_buffer (c : Mem) (dev block : BitVec 32) : Option ℕ :=
  c.find_from dev block (c.NR_BUFFERS + 1) (c.hash_table (hashfn dev block))

/-- `BADNESS` -/
def badness (c : Mem) (bh : ℕ) : ℕ := (c.b_dirt bh).toNat <<< 1 + (c.b_lock bh).toNat

/-- The loop of `getblk` along the free list. -/
def search (c : Mem) : ℕ → ℕ → ℕ → Option ℕ
  | 0, _, _ => none
  | fuel + 1, tmp, bh =>
    let better := c.b_count tmp = 0 ∧ (bh = 0 ∨ c.badness tmp < c.badness bh)
    if better ∧ c.badness tmp = 0 then some tmp
    else
      let bh := if better then tmp else bh
      if c.b_next_free tmp = c.free_list then some bh else c.search fuel (c.b_next_free tmp) bh

/-- The end of `getblk`. -/
def reassign (c : Mem) (bh : ℕ) (dev block : BitVec 32) : Option Mem :=
  let c := { c with
    b_count := update c.b_count bh 1
    b_dirt := update c.b_dirt bh 0
    b_uptodate := update c.b_uptodate bh 0 }
  (c.remove_from_queues bh).map fun c =>
    insert_into_queues { c with
      b_dev := update c.b_dev bh (dev.setWidth 16)
      b_blocknr := update c.b_blocknr bh block } bh

/-- `getblk` up to where it returns a buffer or has to sleep, with the state as it is then.  As long as it has
not slept, what its loops repeat and test again is as before. -/
def getblk (c : Mem) (dev block : BitVec 32) : Option (Option ℕ × Mem) :=
  (c.find_buffer dev block).bind fun bh =>
    if bh ≠ 0 then
      let c := { c with b_count := update c.b_count bh (c.b_count bh + 1) }
      some (if c.b_lock bh ≠ 0 then none else some bh, c)
    else
      (c.search (c.NR_BUFFERS + 1) c.free_list 0).bind fun bh =>
        if bh = 0 ∨ c.b_lock bh ≠ 0 ∨ c.b_dirt bh ≠ 0 then some (none, c)
        else (c.reassign bh dev block).map fun c => (some bh, c)

/-- There is no result if the kernel panics. -/
def brelse (c : Mem) (buf : ℕ) : Option Mem :=
  if buf = 0 ∨ c.b_lock buf ≠ 0 then some c
  else if c.b_count buf = 0 then none
  else some { c with b_count := update c.b_count buf (c.b_count buf - 1) }

end Mem

inductive Call where
  | getblk (dev block : BitVec 32)
  | brelse (buf : ℕ)

def step (c : Mem) : Call → Option Mem
  | .getblk dev block => (c.getblk dev block).map (·.2)
  | .brelse buf => c.brelse buf

variable {c c' : Mem} {start i b bh p first fuel : ℕ} {dev block : BitVec 32} {hs free l : List ℕ}
  {chain : ℕ → List ℕ}

/-! ### The hash queues -/

/-- The queues hold the heads in `hs` that have a device, and the others are linked nowhere. -/
structure Hashed (c : Mem) (hs : List ℕ) (chain : ℕ → List ℕ) : Prop where
  row : ∀ i < 307, Row c.b_next c.b_prev (c.hash_table i) (chain i)
  mem : ∀ i < 307, ∀ b, b ∈ chain i ↔ b ∈ hs ∧ c.b_dev b ≠ 0 ∧ c.hash b = i
  loose : ∀ b ∈ hs, c.b_dev b = 0 → c.b_next b = 0 ∧ c.b_prev b = 0

theorem hash_lt (c : Mem) (bh : ℕ) : c.hash bh < 307 := Nat.mod_lt _ (by decide)

/-- The stores leave the links of the head itself as they are. -/
theorem from_hash_queue_eq (c : Mem) (bh : ℕ) : c.from_hash_queue bh =
    { c with
      b_prev := if c.b_next bh = 0 then c.b_prev else update c.b_prev (c.b_next bh) (c.b_prev bh)
      b_next := if c.b_prev bh = 0 then c.b_next else update c.b_next (c.b_prev bh) (c.b_next bh)
      hash_table := update c.hash_table (c.hash bh)
        (if c.hash_table (c.hash bh) = bh then c.b_next bh else c.hash_table (c.hash bh))
      derefs := (if c.b_prev bh = 0 then [] else [c.b_prev bh]) ++
        (if c.b_next bh = 0 then [] else [c.b_next bh]) ++
        bh :: c.derefs } := by
  unfold Mem.from_hash_queue
  by_cases hn : c.b_next bh = 0 <;> by_cases hp : c.b_prev bh = 0 <;>
    by_cases hh : c.hash_table (c.hash bh) = bh <;> simp only [Mem.hash] at hh <;>
      simp [Mem.deref, Mem.set_prev, Mem.set_next, Mem.hash, hn, hp, hh, update_apply]

theorem to_free_list_eq (c : Mem) (bh : ℕ) : c.to_free_list bh =
    { c with
      b_next_free := update (update c.b_next_free bh c.free_list) (c.b_prev_free c.free_list) bh
      b_prev_free := update (update c.b_prev_free bh (c.b_prev_free c.free_list)) c.free_list bh
      derefs := c.free_list :: c.b_prev_free c.free_list :: bh :: bh :: c.derefs } := by
  have hprev : update c.b_prev_free bh (c.b_prev_free c.free_list) c.free_list = c.b_prev_free c.free_list := by
    rw [update_apply]
    split_ifs <;> rfl
  simp only [Mem.to_free_list, Mem.set_next_free, Mem.set_prev_free, Mem.deref, hprev]

theorem to_hash_queue_eq (c : Mem) (bh : ℕ) (h : c.b_dev bh ≠ 0) : c.to_hash_queue bh =
    { c with
      b_next := update c.b_next bh (c.hash_table (c.hash bh))
      b_prev := update (update c.b_prev bh 0) (c.hash_table (c.hash bh)) bh
      hash_table := update c.hash_table (c.hash bh) bh
      derefs := c.hash_table (c.hash bh) :: bh :: bh :: bh :: c.derefs } := by
  simp only [Mem.to_hash_queue, Mem.set_next, Mem.set_prev, Mem.deref, Mem.hash, if_neg h,
    update_self, update_idem]

theorem to_hash_queue_none (c : Mem) (bh : ℕ) (h : c.b_dev bh = 0) : c.to_hash_queue bh =
    { c with
      b_next := update c.b_next bh 0
      b_prev := update c.b_prev bh 0
      derefs := bh :: bh :: c.derefs } := by
  simp [Mem.to_hash_queue, Mem.set_next, Mem.set_prev, Mem.deref, h]

/-- What `to_hash_queue` does not touch. -/
theorem to_hash_queue_frame (c : Mem) (bh : ℕ) : ∃ next prev table ds, c.to_hash_queue bh =
    { c with b_next := next, b_prev := prev, hash_table := table, derefs := ds ++ c.derefs } := by
  by_cases h : c.b_dev bh = 0
  · exact ⟨_, _, _, [bh, bh], to_hash_queue_none c bh h⟩
  · exact ⟨_, _, _, [c.hash_table (c.hash bh), bh, bh, bh], to_hash_queue_eq c bh h⟩

namespace Hashed

theorem hash_mem (h : Hashed c hs chain) (hi : i < 307) (hne : c.hash_table i ≠ 0) :
    c.hash_table i ∈ chain i := by
  have hhead := (h.row i hi).head
  cases hc : chain i with
  | nil =>
    rw [hc] at hhead
    exact absurd hhead.symm hne
  | cons b l =>
    rw [hc] at hhead
    exact hhead ▸ List.mem_cons_self

/-- The neighbours of a head are in the same queue as the head. -/
theorem neighbours (h : Hashed c hs chain) (hbh : bh ∈ hs) (hb : b ≠ 0)
    (hlink : b = c.b_next bh ∨ b = c.b_prev bh) :
    b ∈ chain (c.hash bh) ∧ bh ∈ chain (c.hash bh) := by
  by_cases hdev : c.b_dev bh = 0
  · obtain ⟨hnext, hprev⟩ := h.loose bh hbh hdev
    rw [hnext, hprev, or_self] at hlink
    exact absurd hlink hb
  · have hmem := (h.mem _ (hash_lt c bh) bh).2 ⟨hbh, hdev, rfl⟩
    obtain ⟨hnext, hprev⟩ := (h.row _ (hash_lt c bh)).neighbours_mem hmem
    rcases hlink with rfl | rfl
    · exact ⟨hnext hb, hmem⟩
    · exact ⟨hprev hb, hmem⟩

/-- **The head is taken out of its queue**; the other queues do not change. -/
theorem remove (h : Hashed c hs chain) (hnodup : hs.Nodup) (hzero : 0 ∉ hs) (hbh : bh ∈ hs) :
    Hashed (c.from_hash_queue bh) (hs.erase bh) (fun i => (chain i).erase bh) := by
  have hother : ∀ i < 307, bh ∉ chain i → ∀ b ∈ chain i, b ≠ c.b_prev bh ∧ b ≠ c.b_next bh := by
    intro i hi hnot b hb
    obtain ⟨hbhs, -, hhash⟩ := (h.mem i hi b).1 hb
    have hboth : b = c.b_next bh ∨ b = c.b_prev bh → False := by
      intro hlink
      obtain ⟨hb', hbh'⟩ := h.neighbours hbh (fun h0 => hzero (h0 ▸ hbhs)) hlink
      rw [← ((h.mem _ (hash_lt c bh) b).1 hb').2.2, hhash] at hbh'
      exact hnot hbh'
    exact ⟨fun he => hboth (.inr he), fun he => hboth (.inl he)⟩
  have hnexts : ∀ b, b ≠ c.b_prev bh → (c.from_hash_queue bh).b_next b = c.b_next b := by
    intro b hb
    rw [from_hash_queue_eq]
    simp only
    split_ifs
    · rfl
    · exact update_of_ne hb ..
  have hprevs : ∀ b, b ≠ c.b_next bh → (c.from_hash_queue bh).b_prev b = c.b_prev b := by
    intro b hb
    rw [from_hash_queue_eq]
    simp only
    split_ifs
    · rfl
    · exact update_of_ne hb ..
  constructor
  · intro i hi
    by_cases hmem : bh ∈ chain i
    · obtain rfl := ((h.mem i hi bh).1 hmem).2.2
      have htable : (c.from_hash_queue bh).hash_table (c.hash bh) =
          if c.hash_table (c.hash bh) = bh then c.b_next bh else c.hash_table (c.hash bh) := by
        rw [from_hash_queue_eq]
        exact update_self ..
      rw [htable]
      refine (h.row _ hi).remove hmem hnexts hprevs (fun hne => ?_) fun hne => ?_
      · rw [from_hash_queue_eq]
        simp only [if_neg hne, update_self]
      · rw [from_hash_queue_eq]
        simp only [if_neg hne, update_self]
    · have htable : (c.from_hash_queue bh).hash_table i = c.hash_table i := by
        rw [from_hash_queue_eq]
        by_cases hih : i = c.hash bh
        · have hne : c.hash_table (c.hash bh) ≠ bh := by
            intro he
            have hbh' := h.hash_mem (hash_lt c bh) (fun h0 => hzero (h0 ▸ he.symm ▸ hbh))
            rw [he, ← hih] at hbh'
            exact hmem hbh'
          simp only [hih, update_self, if_neg hne]
        · exact update_of_ne hih ..
      rw [htable, List.erase_of_not_mem hmem]
      exact (h.row i hi).congr (fun b hb => hnexts b (hother i hi hmem b hb).1)
        fun b hb => hprevs b (hother i hi hmem b hb).2
  · intro i hi b
    rw [(h.row i hi).nodup.of_cons.mem_erase_iff, hnodup.mem_erase_iff, h.mem i hi b, from_hash_queue_eq]
    simp only [Mem.hash]
    tauto
  · intro b hb hdev
    rw [hnodup.mem_erase_iff] at hb
    have hdev' : c.b_dev b = 0 := by
      rw [from_hash_queue_eq] at hdev
      exact hdev
    have hnot : ¬(b = c.b_next bh ∨ b = c.b_prev bh) := fun hlink =>
      ((h.mem _ (hash_lt c bh) b).1 (h.neighbours hbh (fun h0 => hzero (h0 ▸ hb.2)) hlink).1).2.1 hdev'
    rw [hnexts b (fun he => hnot (.inr he)), hprevs b (fun he => hnot (.inl he))]
    exact h.loose b hb.2 hdev'

/-- The queues with a head in its place. -/
def put (c : Mem) (chain : ℕ → List ℕ) (bh : ℕ) : ℕ → List ℕ :=
  if c.b_dev bh = 0 then chain else update chain (c.hash bh) (bh :: chain (c.hash bh))

/-- **The head comes in front of its queue**. -/
theorem insert (h : Hashed c hs chain) (hzero : 0 ∉ bh :: hs) (hbh : bh ∉ hs) :
    Hashed (c.to_hash_queue bh) (bh :: hs) (put c chain bh) := by
  have hbh0 : bh ≠ 0 := fun h0 => hzero (h0 ▸ List.mem_cons_self)
  have hnot : ∀ i < 307, bh ∉ chain i := fun i hi hmem => hbh ((h.mem i hi bh).1 hmem).1
  have hne : ∀ i < 307, ∀ b ∈ chain i, b ≠ bh := fun i hi b hb he => hnot i hi (he ▸ hb)
  by_cases hdev : c.b_dev bh = 0
  · rw [to_hash_queue_none c bh hdev, put, if_pos hdev]
    refine ⟨fun i hi => ?_, fun i hi b => ?_, fun b hb hb0 => ?_⟩
    · exact (h.row i hi).congr (fun b hb => update_of_ne (hne i hi b hb) ..)
        fun b hb => update_of_ne (hne i hi b hb) ..
    · rw [h.mem i hi b]
      simp only [Mem.hash, List.mem_cons]
      constructor
      · exact fun h => ⟨.inr h.1, h.2⟩
      · rintro ⟨rfl | hb, h⟩
        · exact absurd hdev h.1
        · exact ⟨hb, h⟩
    · rcases List.mem_cons.1 hb with rfl | hb
      · exact ⟨update_self .., update_self ..⟩
      · have hb' : b ≠ bh := fun he => hbh (he ▸ hb)
        exact ⟨(update_of_ne hb' ..).trans (h.loose b hb hb0).1,
          (update_of_ne hb' ..).trans (h.loose b hb hb0).2⟩
  · rw [to_hash_queue_eq c bh hdev, put, if_neg hdev]
    have hlt := hash_lt c bh
    have hfirst := fun hne => h.hash_mem hlt hne
    generalize hf : c.hash_table (c.hash bh) = first at hfirst
    have hfirst' : first ≠ bh := by
      rintro rfl
      exact hnot _ hlt (hfirst hbh0)
    refine ⟨fun i hi => ?_, fun i hi b => ?_, fun b hb hb0 => ?_⟩
    · by_cases hih : i = c.hash bh
      · subst hih
        simp only [update_self]
        refine (hf ▸ h.row _ hi : Row c.b_next c.b_prev first _).push hbh0 (hnot _ hi)
          (fun b hb => update_of_ne hb ..) (fun b hb hb' => ?_) (fun _ => update_self ..) (update_self ..) ?_
        · rw [update_of_ne hb, update_of_ne hb']
        · rw [update_of_ne hfirst'.symm, update_self]
      · simp only [update_of_ne hih]
        refine (h.row i hi).congr (fun b hb => update_of_ne (hne i hi b hb) ..) fun b hb => ?_
        rw [update_of_ne, update_of_ne (hne i hi b hb)]
        rintro rfl
        have hb0 := (h.row i hi).ne_zero hb
        exact hih (((h.mem i hi b).1 hb).2.2.symm.trans ((h.mem _ hlt b).1 (hfirst hb0)).2.2)
    · show b ∈ update chain (c.hash bh) (bh :: chain (c.hash bh)) i ↔ b ∈ bh :: hs ∧
        c.b_dev b ≠ 0 ∧ c.hash b = i
      by_cases hih : i = c.hash bh
      · subst hih
        rw [update_self, List.mem_cons, List.mem_cons, h.mem _ hi b]
        constructor
        · rintro (rfl | h)
          · exact ⟨.inl rfl, hdev, rfl⟩
          · exact ⟨.inr h.1, h.2⟩
        · rintro ⟨rfl | hb, h⟩
          · exact .inl rfl
          · exact .inr ⟨hb, h⟩
      · rw [update_of_ne hih, List.mem_cons, h.mem i hi b]
        constructor
        · exact fun h => ⟨.inr h.1, h.2⟩
        · rintro ⟨rfl | hb, h⟩
          · exact absurd h.2.symm hih
          · exact ⟨hb, h⟩
    · have hb' : b ≠ bh := by
        rintro rfl
        exact hdev hb0
      have hbs : b ∈ hs := (List.mem_cons.1 hb).resolve_left hb'
      have hbf : b ≠ first := by
        rintro rfl
        exact ((h.mem _ hlt b).1 (hfirst fun h0 => hzero (h0 ▸ hb))).2.1 hb0
      simp only [update_of_ne hb', update_of_ne hbf]
      exact h.loose b hbs hb0

/-- The head gets another block when it is in no queue. -/
theorem retag (h : Hashed c hs chain) (hbh : bh ∉ hs) {d : BitVec 16} {n : BitVec 32}
    (hnext : c'.b_next = c.b_next)
    (hprev : c'.b_prev = c.b_prev) (htable : c'.hash_table = c.hash_table)
    (hdev : c'.b_dev = update c.b_dev bh d)
    (hblock : c'.b_blocknr = update c.b_blocknr bh n) : Hashed c' hs chain := by
  have hne : ∀ b ∈ hs, c'.b_dev b = c.b_dev b ∧ c'.hash b = c.hash b := by
    intro b hb
    have hb' : b ≠ bh := fun he => hbh (he ▸ hb)
    rw [Mem.hash, Mem.hash, hdev, hblock, update_of_ne hb', update_of_ne hb']
    exact ⟨rfl, rfl⟩
  refine ⟨fun i hi => ?_, fun i hi b => ?_, fun b hb hb0 => ?_⟩
  · rw [hnext, hprev, htable]
    exact h.row i hi
  · rw [h.mem i hi b]
    constructor
    · rintro ⟨hb, h⟩
      rw [(hne b hb).1, (hne b hb).2]
      exact ⟨hb, h⟩
    · rintro ⟨hb, h⟩
      rw [(hne b hb).1, (hne b hb).2] at h
      exact ⟨hb, h⟩
  · rw [hnext, hprev]
    exact h.loose b hb ((hne b hb).1 ▸ hb0)

theorem congr (h : Hashed c l chain) (hl : ∀ b, b ∈ l ↔ b ∈ hs) : Hashed c hs chain :=
  ⟨h.row, fun i hi b => (h.mem i hi b).trans (and_congr_left' (hl b)), fun b hb => h.loose b ((hl b).2 hb)⟩

/-- The pointers that are followed while a head is taken out. -/
theorem remove_derefs (h : Hashed c hs chain) (hbh : bh ∈ hs) (hp : p ∈ (c.from_hash_queue bh).derefs) :
    p ∈ c.derefs ∨ p ∈ hs := by
  have hlink : p ≠ 0 → p = c.b_next bh ∨ p = c.b_prev bh → p ∈ hs := fun h0 hl =>
    ((h.mem _ (hash_lt c bh) p).1 (h.neighbours hbh h0 hl).1).1
  rw [from_hash_queue_eq] at hp
  simp only [List.mem_append, List.mem_cons, List.mem_ite_nil_left, List.not_mem_nil, or_false] at hp
  rcases hp with (⟨h0, rfl⟩ | ⟨h0, rfl⟩) | rfl | hp
  · exact .inr (hlink h0 (.inr rfl))
  · exact .inr (hlink h0 (.inl rfl))
  · exact .inr hbh
  · exact .inl hp

end Hashed

/-! ### The free list -/

theorem from_free_list_eq (hprev : c.b_prev_free bh ≠ 0) (hnext : c.b_next_free bh ≠ 0) :
    c.from_free_list bh = some
    { c with
      b_next_free := update c.b_next_free (c.b_prev_free bh) (c.b_next_free bh)
      b_prev_free := update c.b_prev_free (c.b_next_free bh) (c.b_prev_free bh)
      free_list := if c.free_list = bh then c.b_next_free bh else c.free_list
      derefs := c.b_next_free bh :: c.b_prev_free bh :: c.derefs } := by
  have hsame : update c.b_next_free (c.b_prev_free bh) (c.b_next_free bh) bh = c.b_next_free bh := by
    rw [update_apply]
    split_ifs <;> rfl
  rw [Mem.from_free_list, if_neg (by simp [hprev, hnext])]
  simp only [Mem.set_next_free, Mem.set_prev_free, Mem.deref, hsame]
  split_ifs <;> rfl

/-- The ring, or what is left when its only cell is taken out: links from the cell to itself. -/
def Free (c : Mem) (bh : ℕ) (free : List ℕ) : Prop :=
  Ring c.b_next_free c.b_prev_free c.free_list free ∨ free = [] ∧ c.free_list = bh ∧ c.b_prev_free bh = bh

theorem free_remove (h : Ring c.b_next_free c.b_prev_free c.free_list free) (hbh : bh ∈ free) :
    ∃ c', c.from_free_list bh = some c' ∧ Free c' bh (free.erase bh) ∧
      ∃ next prev first, c' = { c with
        b_next_free := next
        b_prev_free := prev
        free_list := first
        derefs := c.b_next_free bh :: c.b_prev_free bh :: c.derefs } := by
  obtain ⟨⟨hnext, -⟩, hprev, -⟩ := h.inverse hbh
  refine ⟨_, from_free_list_eq (h.ne_zero_of_mem hprev) (h.ne_zero_of_mem hnext), ?_, _, _, _, rfl⟩
  by_cases hone : free = [bh]
  · subst hone
    rw [List.mem_singleton] at hnext hprev
    have hfirst := List.mem_singleton.1 h.first_mem
    refine Or.inr ⟨List.erase_cons_head .., ?_, ?_⟩
    · simp only [hfirst, hnext, if_pos]
    · simp only [hnext, hprev, update_self]
  · exact Or.inl (h.remove hbh hone (fun b hb => update_of_ne hb ..) (fun b hb => update_of_ne hb ..)
      (update_self ..) (update_self ..))

theorem free_insert (h : Free c bh free) (hbh : bh ≠ 0) (hnot : bh ∉ free) :
    Ring (c.to_free_list bh).b_next_free (c.to_free_list bh).b_prev_free (c.to_free_list bh).free_list
      (free ++ [bh]) := by
  rw [to_free_list_eq]
  rcases h with h | ⟨rfl, hfirst, hprev⟩
  · have hne : bh ≠ c.free_list := fun he => hnot (he ▸ h.first_mem)
    have hne' : bh ≠ c.b_prev_free c.free_list := fun he => hnot (he ▸ (h.inverse h.first_mem).2.1)
    refine h.insert hbh hnot (fun b hb hb' => ?_) (fun b hb hb' => ?_) (update_self ..) (update_self ..) ?_ ?_
    · simp only [update_of_ne hb, update_of_ne hb']
    · simp only [update_of_ne hb, update_of_ne hb']
    · simp only [update_of_ne hne', update_self]
    · simp only [update_of_ne hne, update_self]
  · simp only [hfirst, hprev]
    exact Ring.single hbh (update_self ..) (update_self ..)

/-! ### A buffer is used for another block -/

/-- The free list is a ring of all heads, and the queues hold those with a device. -/
structure Lists (c : Mem) (start : ℕ) (chain : ℕ → List ℕ) (free : List ℕ) : Prop where
  ring : Ring c.b_next_free c.b_prev_free c.free_list free
  perm : free.Perm (heads start c.NR_BUFFERS)
  hashed : Hashed c (heads start c.NR_BUFFERS) chain

/-- The queues after the head has moved. -/
def moved (chain : ℕ → List ℕ) (bh : ℕ) (dev block : BitVec 32) : ℕ → List ℕ :=
  let left := fun i => (chain i).erase bh
  let h := hashfn ((dev.setWidth 16).setWidth 32) block
  if dev.setWidth 16 = (0 : BitVec 16) then left else update left h (bh :: left h)

/-- **`reassign` keeps the lists.**  It follows only pointers to heads if the buffer gets no device, and a null
pointer if the queues hold nothing and the buffer gets one. -/
theorem reassign_lists (h : Lists c start chain free) (hbh : bh ∈ heads start c.NR_BUFFERS)
    (dev block : BitVec 32) :
    ∃ c', c.reassign bh dev block = some c' ∧
    Lists c' start (moved chain bh dev block) (free.erase bh ++ [bh]) ∧
      (c'.NR_BUFFERS = c.NR_BUFFERS ∧ c'.b_dirt = update c.b_dirt bh 0 ∧ c'.b_lock = c.b_lock ∧
        c'.b_dev = update c.b_dev bh (dev.setWidth 16) ∧ c'.b_count = update c.b_count bh 1) ∧
        (∀ p ∈ c.derefs, p ∈ c'.derefs) ∧
      (dev.setWidth 16 = (0 : BitVec 16) → ∀ p ∈ c'.derefs, p ∈ c.derefs ∨ p ∈ heads start c.NR_BUFFERS) ∧
      (dev.setWidth 16 ≠ (0 : BitVec 16) → (∀ i < 307, chain i = []) → 0 ∈ c'.derefs) := by
  have hnodup : (heads start c.NR_BUFFERS).Nodup := h.perm.nodup_iff.1 h.ring.nodup
  have hzero : 0 ∉ heads start c.NR_BUFFERS := fun h0 => h.ring.ne_zero (h.perm.mem_iff.2 h0)
  have hbh0 : bh ≠ 0 := fun h0 => hzero (h0 ▸ hbh)
  have hfree : bh ∈ free := h.perm.mem_iff.2 hbh
  -- out of the hash queue and out of the free list
  generalize hc1 : { c with
    b_count := update c.b_count bh 1
    b_dirt := update c.b_dirt bh 0
    b_uptodate := update c.b_uptodate bh 0 } = c1
  have hhashed1 : Hashed c1 (heads start c.NR_BUFFERS) chain := by
    rw [← hc1]
    exact ⟨h.hashed.row, h.hashed.mem, h.hashed.loose⟩
  have hhashed2 := hhashed1.remove hnodup hzero hbh
  have hderefs2 : ∀ p ∈ (c1.from_hash_queue bh).derefs, p ∈ c1.derefs ∨ p ∈ heads start c.NR_BUFFERS :=
    fun p => hhashed1.remove_derefs hbh
  have heq2 := from_hash_queue_eq c1 bh
  generalize hc2 : c1.from_hash_queue bh = c2 at *
  have hring2 : Ring c2.b_next_free c2.b_prev_free c2.free_list free := by
    rw [heq2, ← hc1]
    exact h.ring
  obtain ⟨c3, hc3, hfree3, next, prev, first, heq3⟩ := free_remove hring2 hfree
  have hfirst3 : c3.free_list ∈ free ∧ c3.b_prev_free c3.free_list ∈ free := by
    rcases hfree3 with hring | ⟨-, hfirst, hprev⟩
    · exact ⟨List.mem_of_mem_erase hring.first_mem, List.mem_of_mem_erase (hring.inverse hring.first_mem).2.1⟩
    · rw [hfirst, hprev]
      exact ⟨hfree, hfree⟩
  -- and in again, with the new block
  generalize hc4 : { c3 with
    b_dev := update c3.b_dev bh (dev.setWidth 16)
    b_blocknr := update c3.b_blocknr bh block } = c4
  have hreassign : c.reassign bh dev block = some ((c4.to_free_list bh).to_hash_queue bh) := by
    simp only [Mem.reassign, Mem.remove_from_queues, Mem.insert_into_queues, hc1, hc2, hc3,
      Option.map_some, hc4]
  have hfree4 : Free c4 bh (free.erase bh) := by
    rw [← hc4]
    exact hfree3
  have hring := free_insert hfree4 hbh0 (h.ring.nodup.not_mem_erase)
  have hhashed4 : Hashed (c4.to_free_list bh) ((heads start c.NR_BUFFERS).erase bh) fun i =>
      (chain i).erase bh := by
    refine hhashed2.retag hnodup.not_mem_erase (d := dev.setWidth 16) (n := block) ?_ ?_ ?_ ?_ ?_ <;>
      rw [to_free_list_eq, ← hc4, heq3]
  have hderefs3 : c3.derefs = c2.b_next_free bh :: c2.b_prev_free bh :: c2.derefs := by
    rw [heq3]
  have hderefs5 : (c4.to_free_list bh).derefs =
      c3.free_list :: c3.b_prev_free c3.free_list :: bh :: bh :: c3.derefs := by
    rw [to_free_list_eq, ← hc4]
  have hbelow : ∀ p ∈ (c4.to_free_list bh).derefs, p ∈ c.derefs ∨ p ∈ heads start c.NR_BUFFERS := by
    have hmem : ∀ p ∈ free, p ∈ heads start c.NR_BUFFERS := fun p => h.perm.mem_iff.1
    obtain ⟨⟨hnext, -⟩, hprev, -⟩ := hring2.inverse hfree
    rw [hderefs5, hderefs3]
    simp only [List.mem_cons]
    rintro p (rfl | rfl | rfl | rfl | rfl | rfl | hp)
    · exact .inr (hmem _ hfirst3.1)
    · exact .inr (hmem _ hfirst3.2)
    · exact .inr hbh
    · exact .inr hbh
    · exact .inr (hmem _ hnext)
    · exact .inr (hmem _ hprev)
    · rw [← hc1] at hderefs2
      exact hderefs2 p hp
  have hdev : (c4.to_free_list bh).b_dev bh = dev.setWidth 16 := by
    rw [to_free_list_eq, ← hc4]
    exact update_self ..
  have hhash : (c4.to_free_list bh).hash bh = hashfn ((dev.setWidth 16).setWidth 32) block := by
    rw [Mem.hash, hdev, to_free_list_eq, ← hc4]
    simp only [update_self]
  have hhashed := hhashed4.insert (fun h0 => (List.mem_cons.1 h0).elim (fun h0 => hbh0 h0.symm)
    fun h0 => hzero (List.mem_of_mem_erase h0)) hnodup.not_mem_erase
  obtain ⟨next', prev', table, ds, heq6⟩ := to_hash_queue_frame (c4.to_free_list bh) bh
  refine ⟨_, hreassign, ⟨?_, ?_, ?_⟩, ?_, ?_, ?_, ?_⟩
  · rw [heq6]
    exact hring
  · have hcount : ((c4.to_free_list bh).to_hash_queue bh).NR_BUFFERS = c.NR_BUFFERS := by
      rw [heq6, to_free_list_eq, ← hc4, heq3, heq2, ← hc1]
    rw [hcount]
    exact (List.perm_append_singleton bh _).trans ((List.perm_cons_erase hfree).symm.trans h.perm)
  · have hcount : ((c4.to_free_list bh).to_hash_queue bh).NR_BUFFERS = c.NR_BUFFERS := by
      rw [heq6, to_free_list_eq, ← hc4, heq3, heq2, ← hc1]
    have hmoved : Hashed.put (c4.to_free_list bh) (fun i => (chain i).erase bh) bh =
        moved chain bh dev block := by
      rw [Hashed.put, moved, hdev, hhash]
    rw [hcount, ← hmoved]
    exact hhashed.congr fun b => (List.perm_cons_erase hbh).mem_iff.symm
  · rw [heq6, to_free_list_eq, ← hc4, heq3, heq2, ← hc1]
    exact ⟨rfl, rfl, rfl, rfl, rfl⟩
  · intro p hp
    rw [heq6, hderefs5, hderefs3, heq2, ← hc1]
    simp only [List.mem_append, List.mem_cons, hp, or_true]
  · intro h0 p hp
    rw [to_hash_queue_none _ _ (hdev.trans h0)] at hp
    simp only [List.mem_cons] at hp
    rcases hp with rfl | rfl | hp
    · exact .inr hbh
    · exact .inr hbh
    · exact hbelow p hp
  · intro hne hempty
    have hrow := (hhashed4.row _ (hash_lt (c4.to_free_list bh) bh)).head
    simp only [hempty _ (hash_lt _ bh)] at hrow
    rw [to_hash_queue_eq _ _ (hdev ▸ hne), ← hrow]
    exact List.mem_cons_self

/-! ### The loops -/

theorem find_from_spec (hl : (l ++ [0]).IsChain (Link c.b_next c.b_prev)) (hzero : 0 ∉ l)
    (hfuel : l.length < fuel) :
    c.find_from dev block fuel (l.headD 0) =
      some ((l.find? fun b => (c.b_dev b).setWidth 32 = dev ∧ c.b_blocknr b = block).getD 0) := by
  induction l generalizing fuel with
  | nil =>
    obtain ⟨fuel, rfl⟩ := Nat.exists_eq_succ_of_ne_zero (Nat.ne_zero_of_lt hfuel)
    rfl
  | cons a l ih =>
    obtain ⟨fuel, rfl⟩ := Nat.exists_eq_succ_of_ne_zero (Nat.ne_zero_of_lt hfuel)
    have ha : a ≠ 0 := fun h => hzero (h ▸ List.mem_cons_self)
    have hnext : c.b_next a = l.headD 0 := by
      cases l with
      | nil => exact (List.isChain_cons_cons.1 hl).1.1 ha
      | cons b l => exact (List.isChain_cons_cons.1 hl).1.1 ha
    rw [List.headD_cons, Mem.find_from, if_neg ha, List.find?_cons, hnext]
    by_cases h : (c.b_dev a).setWidth 32 = dev ∧ c.b_blocknr a = block
    · rw [if_pos h, decide_eq_true h]
      rfl
    · rw [if_neg h, decide_eq_false h]
      exact ih hl.tail (fun h => hzero (List.mem_cons_of_mem a h)) (Nat.lt_of_succ_lt_succ hfuel)

/-- **`find_buffer` ends**, and it finds a block if a head with a device holds it. -/
theorem find_buffer_spec (h : Lists c start chain free) (dev block : BitVec 32) :
    ∃ r, c.find_buffer dev block = some r ∧
    (r ≠ 0 → r ∈ heads start c.NR_BUFFERS ∧ (c.b_dev r).setWidth 32 = dev ∧ c.b_blocknr r = block) ∧
    (r = 0 → ∀ b ∈ heads start c.NR_BUFFERS, c.b_dev b ≠ 0 →
      ¬((c.b_dev b).setWidth 32 = dev ∧ c.b_blocknr b = block)) := by
  have hlt : hashfn dev block < 307 := Nat.mod_lt _ (by decide)
  have hrow := h.hashed.row _ hlt
  have hlength : (chain (hashfn dev block)).length ≤ c.NR_BUFFERS := by
    have hsub := hrow.nodup.of_cons.subperm fun b hb => ((h.hashed.mem _ hlt b).1 hb).1
    simpa only [heads, List.length_map, List.length_range] using hsub.length_le
  refine ⟨_, hrow.head ▸ find_from_spec hrow.links.tail (fun h0 => hrow.ne_zero h0 rfl)
    (Nat.lt_succ_of_le hlength), ?_⟩
  cases hfind : (chain (hashfn dev block)).find? fun b => (c.b_dev b).setWidth 32 = dev ∧
      c.b_blocknr b = block with
  | none =>
    refine ⟨fun hne => absurd rfl hne, fun _ b hb hdev htag => ?_⟩
    have hmem := (h.hashed.mem _ hlt b).2 ⟨hb, hdev, by rw [Mem.hash, htag.1, htag.2]⟩
    exact List.find?_eq_none.1 hfind b hmem (decide_eq_true htag)
  | some r =>
    have hmem := List.mem_of_find?_eq_some hfind
    have htag := List.find?_some hfind
    rw [decide_eq_true_eq] at htag
    exact ⟨fun _ => ⟨((h.hashed.mem _ hlt r).1 hmem).1, htag⟩, fun h0 => absurd h0 (hrow.ne_zero hmem)⟩

/-- Nothing is dirty or locked. -/
def Clean (c : Mem) (l : List ℕ) : Prop := ∀ b ∈ l, c.b_dirt b = 0 ∧ c.b_lock b = 0

theorem search_step (a fuel : ℕ) (hdirt : c.b_dirt a = 0) (hlock : c.b_lock a = 0) : c.search (fuel + 1) a 0 =
    if c.b_count a = 0 then some a
    else if c.b_next_free a = c.free_list then some 0
    else c.search fuel (c.b_next_free a) 0 := by
  have hbad : c.badness a = 0 := by
    rw [Mem.badness, hdirt, hlock]
    rfl
  by_cases hcount : c.b_count a = 0
  · simp only [Mem.search, hbad, hcount, true_or, and_self, if_true]
  · simp only [Mem.search, hcount, false_and, if_false]

/-- The loop takes the first head that is not used. -/
theorem search_spec (hl : (a :: (l ++ [c.free_list])).IsChain (Link c.b_next_free c.b_prev_free))
    (hzero : 0 ∉ a :: l)
    (hfirst : c.free_list ∉ l) (hclean : Clean c (a :: l)) (hfuel : l.length < fuel) :
    c.search fuel a 0 = some (((a :: l).find? fun b => c.b_count b = 0).getD 0) := by
  induction l generalizing a fuel with
  | nil =>
    obtain ⟨fuel, rfl⟩ := Nat.exists_eq_succ_of_ne_zero (Nat.ne_zero_of_lt hfuel)
    obtain ⟨hdirt, hlock⟩ := hclean a List.mem_cons_self
    have hnext : c.b_next_free a = c.free_list :=
      (List.isChain_cons_cons.1 hl).1.1 fun h => hzero (h ▸ List.mem_cons_self)
    rw [search_step a fuel hdirt hlock, if_pos hnext, List.find?_singleton]
    by_cases hcount : c.b_count a = 0
    · simp only [hcount, decide_true, if_true, Option.getD_some]
    · simp only [hcount, decide_false, Bool.false_eq_true, if_false, Option.getD_none]
  | cons b l ih =>
    obtain ⟨fuel, rfl⟩ := Nat.exists_eq_succ_of_ne_zero (Nat.ne_zero_of_lt hfuel)
    obtain ⟨hdirt, hlock⟩ := hclean a List.mem_cons_self
    have hnext : c.b_next_free a = b := (List.isChain_cons_cons.1 hl).1.1 fun h =>
      hzero (h ▸ List.mem_cons_self)
    have hne : b ≠ c.free_list := fun h => hfirst (h ▸ List.mem_cons_self)
    rw [search_step a fuel hdirt hlock, hnext, if_neg hne, List.find?_cons]
    by_cases hcount : c.b_count a = 0
    · rw [if_pos hcount, decide_eq_true hcount]
      rfl
    · rw [if_neg hcount, decide_eq_false hcount]
      exact ih hl.tail (fun h => hzero (List.mem_cons_of_mem a h)) (fun h => hfirst (List.mem_cons_of_mem b h))
        (fun d hd => hclean d (List.mem_cons_of_mem a hd)) (Nat.lt_of_succ_lt_succ hfuel)

/-! ### Calls -/

/-- What every call keeps. -/
structure Inv (start : ℕ) (c : Mem) : Prop where
  lists : ∃ chain free, Lists c start chain free
  clean : Clean c (heads start c.NR_BUFFERS)

/-- **`getblk`** finds the block, or it has to sleep since all buffers are used, or it uses a buffer for the
block. -/
theorem getblk_cases (h : Inv start c) (dev block : BitVec 32) :
    (∃ r ∈ heads start c.NR_BUFFERS, c.find_buffer dev block = some r ∧ r ≠ 0 ∧
      c.getblk dev block = some (some r, { c with b_count := update c.b_count r (c.b_count r + 1) })) ∨
    c.find_buffer dev block = some 0 ∧
      ((∀ b ∈ heads start c.NR_BUFFERS, c.b_count b ≠ 0) ∧ c.getblk dev block = some (none, c) ∨
      ∃ bh ∈ heads start c.NR_BUFFERS, c.b_count bh = 0 ∧
        c.getblk dev block = (c.reassign bh dev block).map fun c => (some bh, c)) := by
  obtain ⟨⟨chain, free, hlists⟩, hclean⟩ := h
  obtain ⟨r, hfind, hfound, -⟩ := find_buffer_spec hlists dev block
  by_cases hr : r = 0
  · subst hr
    refine .inr ⟨hfind, ?_⟩
    obtain ⟨t, rfl, hlinks⟩ := hlists.ring.closes
    have hmem : ∀ b, b ∈ c.free_list :: t ↔ b ∈ heads start c.NR_BUFFERS := fun b => hlists.perm.mem_iff
    have hlength := hlists.perm.length_eq
    rw [heads, List.length_map, List.length_range, List.length_cons] at hlength
    have hsearch := search_spec hlinks hlists.ring.ne_zero (List.nodup_cons.1 hlists.ring.nodup).1
      (fun b hb => hclean b ((hmem b).1 hb)) (show t.length < c.NR_BUFFERS + 1 by omega)
    rw [Mem.getblk, hfind, Option.bind_some, if_neg (by simp), hsearch, Option.bind_some]
    cases hfree : (c.free_list :: t).find? fun b => c.b_count b = 0 with
    | none =>
      refine .inl ⟨fun b hb hcount => List.find?_eq_none.1 hfree b ((hmem b).2 hb) (decide_eq_true hcount), ?_⟩
      exact if_pos (.inl rfl)
    | some bh =>
      have hbh := (hmem bh).1 (List.mem_of_find?_eq_some hfree)
      have hcount := List.find?_some hfree
      rw [decide_eq_true_eq] at hcount
      refine .inr ⟨bh, hbh, hcount, if_neg ?_⟩
      have hbh0 := hlists.ring.ne_zero_of_mem ((hmem bh).2 hbh)
      simp only [Option.getD_some, (hclean bh hbh).1, (hclean bh hbh).2, hbh0, ne_eq, not_true,
        or_self, not_false_iff]
  · obtain ⟨hmem, -⟩ := hfound hr
    refine .inl ⟨r, hmem, hfind, hr, ?_⟩
    rw [Mem.getblk, hfind, Option.bind_some, if_pos hr]
    simp only [(hclean r hmem).2, ne_eq, not_true, if_false]

/-- No buffer is taken for a device whose number ends in 16 zero bits. -/
def Harmless (start : ℕ) (c : Mem) : Call → Prop
  | .getblk dev block => c.find_buffer dev block = some 0 →
      (∃ b ∈ heads start c.NR_BUFFERS, c.b_count b = 0) → dev.setWidth 16 = (0 : BitVec 16)
  | .brelse _ => True

/-- A call changes a count, or it uses a buffer for another block. -/
theorem step_cases {e : Call} (h : Inv start c) (hs : step c e = some c') :
    (∃ n, c' = { c with b_count := n }) ∧ Harmless start c e ∨
    ∃ dev block, e = .getblk dev block ∧ c.find_buffer dev block = some 0 ∧
      ∃ bh ∈ heads start c.NR_BUFFERS, c.b_count bh = 0 ∧ c.reassign bh dev block = some c' := by
  cases e with
  | getblk dev block =>
    rw [step] at hs
    rcases getblk_cases h dev block with ⟨r, -, hfind, hr, heq⟩ | ⟨hfind, ⟨hused, heq⟩ | ⟨bh, hbh, hcount, heq⟩⟩
    · rw [heq] at hs
      cases hs
      exact .inl ⟨⟨_, rfl⟩, fun h0 _ => absurd (Option.some.inj (hfind.symm.trans h0)) hr⟩
    · rw [heq] at hs
      cases hs
      exact .inl ⟨⟨c.b_count, rfl⟩, fun _ ⟨b, hb, hcount⟩ => absurd hcount (hused b hb)⟩
    · rw [heq, Option.map_map] at hs
      obtain ⟨c1, hc1, rfl⟩ := Option.map_eq_some_iff.1 hs
      exact .inr ⟨dev, block, rfl, hfind, bh, hbh, hcount, hc1⟩
  | brelse buf =>
    rw [step, Mem.brelse] at hs
    split_ifs at hs
    · cases hs
      exact .inl ⟨⟨c.b_count, rfl⟩, trivial⟩
    · cases hs
      exact .inl ⟨⟨_, rfl⟩, trivial⟩

theorem step_inv {e : Call} (h : Inv start c) (hs : step c e = some c') :
    Inv start c' ∧ c'.NR_BUFFERS = c.NR_BUFFERS ∧ ∀ p ∈ c.derefs, p ∈ c'.derefs := by
  rcases step_cases h hs with ⟨⟨n, rfl⟩, -⟩ | ⟨dev, block, -, -, bh, hbh, -, hr⟩
  · obtain ⟨⟨chain, free, hlists⟩, hclean⟩ := h
    have hhashed : Hashed { c with b_count := n } (heads start c.NR_BUFFERS) chain :=
      ⟨hlists.hashed.row, hlists.hashed.mem, hlists.hashed.loose⟩
    exact ⟨⟨⟨chain, free, hlists.ring, hlists.perm, hhashed⟩, hclean⟩, rfl, fun p hp => hp⟩
  · obtain ⟨⟨chain, free, hlists⟩, hclean⟩ := h
    obtain ⟨c1, hc1, hlists', ⟨hcount, hdirt, hlock, -⟩, hmono, -⟩ := reassign_lists hlists hbh dev block
    obtain rfl : c1 = c' := Option.some.inj (hc1.symm.trans hr)
    refine ⟨⟨⟨_, _, hlists'⟩, fun b hb => ?_⟩, hcount, hmono⟩
    rw [hcount] at hb
    rw [hdirt, hlock, update_apply]
    split_ifs
    · exact ⟨rfl, (hclean b hb).2⟩
    · exact hclean b hb

/-! ### Runs -/

/-- The state that `buffer_init` leaves behind, for any memory before. -/
def Booted (start : ℕ) (c : Mem) : Prop := start ≠ 0 ∧ ∃ c₀ c₁ buffer_end, Layout start buffer_end ∧
  c₀.NR_BUFFERS = 0 ∧ buffer_init ((buffer_end - 1 <<< 20) / 1024 + 641) c₀ start buffer_end = some c₁ ∧
    c = { c₁ with derefs := [] }

theorem Carved.ring {K N : ℕ} (h : Carved c start K N) (hstart : start ≠ 0) :
    Ring c.b_next_free c.b_prev_free c.free_list (heads start N) := by
  have hpos := h.pos
  have hne : ∀ i, head start i ≠ 0 := fun i => by
    unfold head
    omega
  rw [h.free]
  refine ⟨List.Nodup.map (fun i j hij => by by_contra hne; exact head_ne hne hij) List.nodup_range,
    fun h0 => ?_, ?_⟩
  · obtain ⟨i, -, hi⟩ := List.mem_map.1 h0
    exact hne i hi
  obtain ⟨M, rfl⟩ := Nat.exists_eq_succ_of_ne_zero (Nat.ne_zero_of_lt hpos)
  have hcons : heads start (M + 1) = start :: ((List.range M).map Nat.succ).map (head start) := by
    rw [heads, List.range_succ_eq_map, List.map_cons]
    rfl
  refine ⟨_, hcons, ?_⟩
  have hlength : (heads start (M + 1)).length = M + 1 := by
    rw [heads, List.length_map, List.length_range]
  rw [← List.cons_append, ← hcons, List.isChain_iff_getElem]
  intro i hi
  rw [List.length_append, hlength, List.length_singleton] at hi
  rw [List.getElem_append_left (by omega)]
  have hat : ∀ j (hj : j < (heads start (M + 1)).length),
      (heads start (M + 1))[j] = head start j := fun j hj => by
    simp only [heads, List.getElem_map, List.getElem_range]
  have hafter : ∀ b, b = head start ((i + 1) % (M + 1)) →
      Link c.b_next_free c.b_prev_free (head start i) b := by
    rintro _ rfl
    exact ⟨fun _ => h.next_free i (by omega), fun _ => h.prev_free i (by omega)⟩
  rw [hat i (by omega)]
  apply hafter
  rcases Nat.lt_or_ge (i + 1) (M + 1) with hlt | hge
  · rw [List.getElem_append_left (by omega), Nat.mod_eq_of_lt hlt, hat (i + 1) (by omega)]
  · obtain rfl : i = M := by omega
    rw [List.getElem_append_right (by omega), Nat.mod_self, List.getElem_singleton]
    rfl

theorem booted_inv (h : Booted start c) : Inv start c ∧
    (∀ b ∈ heads start c.NR_BUFFERS, c.b_dev b = 0 ∧ c.b_count b = 0) ∧ c.derefs = [] := by
  obtain ⟨hstart, c₀, c₁, buffer_end, hlayout, hc₀, hinit, rfl⟩ := h
  obtain ⟨N, c', hinit', hN⟩ := buffer_init_carved hlayout hc₀ (Nat.lt_succ_self _)
  obtain rfl : c' = c₁ := Option.some.inj (hinit'.symm.trans hinit)
  generalize (buffer_end - 1 <<< 20) / 1024 = K at hN
  have hfresh : ∀ b ∈ heads start c'.NR_BUFFERS, ∃ i, b = head start i ∧ Fresh c' start K i := by
    intro b hb
    rw [hN.count] at hb
    obtain ⟨i, hi, rfl⟩ := List.mem_map.1 hb
    exact ⟨i, rfl, hN.fresh i (List.mem_range.1 hi)⟩
  have hdev : ∀ b ∈ heads start c'.NR_BUFFERS, c'.b_dev b = 0 ∧ c'.b_count b = 0 := by
    intro b hb
    obtain ⟨i, rfl, hi⟩ := hfresh b hb
    exact ⟨hi.dev, hi.count⟩
  refine ⟨⟨⟨fun _ => [], heads start c'.NR_BUFFERS, ?_, List.Perm.refl _, fun i hi => ?_, fun i hi b => ?_,
    fun b hb _ => ?_⟩, fun b hb => ?_⟩, hdev, rfl⟩
  · rw [hN.count]
    exact hN.ring hstart
  · show Row c'.b_next c'.b_prev (c'.hash_table i) []
    rw [hN.hash i hi]
    exact Row.nil
  · exact ⟨fun h => absurd h List.not_mem_nil, fun h => absurd (hdev b h.1).1 h.2.1⟩
  · obtain ⟨i, rfl, hi⟩ := hfresh b hb
    exact ⟨hi.next, hi.prev⟩
  · obtain ⟨i, rfl, hi⟩ := hfresh b hb
    exact ⟨hi.dirt, hi.lock⟩

/-- **The lists stay well formed** in every run of `getblk` and `brelse`, and `find_buffer` finds a block
exactly if some buffer holds it. -/
theorem lists_well_formed (h : Reach (Booted start) step (fun _ _ => True) c) :
    (∃ free, Ring c.b_next_free c.b_prev_free c.free_list free ∧ free.Perm (heads start c.NR_BUFFERS) ∧
      ∀ b ∈ free, c.b_prev_free (c.b_next_free b) = b ∧ c.b_next_free (c.b_prev_free b) = b) ∧
    (∃ chain : ℕ → List ℕ, ∀ i < 307, Row c.b_next c.b_prev (c.hash_table i) (chain i) ∧
      ∀ b, b ∈ chain i ↔ b ∈ heads start c.NR_BUFFERS ∧ c.b_dev b ≠ 0 ∧ c.hash b = i) ∧
    ∀ (dev : BitVec 16) (block : BitVec 32), dev ≠ 0 → ∃ r, c.find_buffer (dev.setWidth 32) block = some r ∧
      (r ≠ 0 → r ∈ heads start c.NR_BUFFERS ∧ c.b_dev r = dev ∧ c.b_blocknr r = block) ∧
      (r = 0 → ∀ b ∈ heads start c.NR_BUFFERS, ¬(c.b_dev b = dev ∧ c.b_blocknr b = block)) := by
  obtain ⟨chain, free, hlists⟩ := (Reach.invariant (I := Inv start) (fun _ h => (booted_inv h).1)
    (fun _ _ _ h _ hs => (step_inv h hs).1) h).lists
  refine ⟨⟨free, hlists.ring, hlists.perm, fun b hb => ?_⟩, ⟨chain, fun i hi => ⟨hlists.hashed.row i hi,
    hlists.hashed.mem i hi⟩⟩, fun dev block hdev => ?_⟩
  · obtain ⟨⟨-, hnext⟩, -, hprev⟩ := hlists.ring.inverse hb
    exact ⟨hnext, hprev⟩
  · have hsame : ∀ d : BitVec 16, d.setWidth 32 = dev.setWidth 32 → d = dev := by
      intro d hd
      have hwidth := congrArg (BitVec.setWidth 16) hd
      simpa using hwidth
    obtain ⟨r, hfind, hfound, hnone⟩ := find_buffer_spec hlists (dev.setWidth 32) block
    refine ⟨r, hfind, fun hr => ?_, fun hr b hb htag => ?_⟩
    · obtain ⟨hmem, hd, hblock⟩ := hfound hr
      exact ⟨hmem, hsame _ hd, hblock⟩
    · exact hnone hr b hb (htag.1 ▸ hdev) ⟨congrArg _ htag.1, htag.2⟩

theorem exists_booted : ∃ c, Booted 0x20000 c := by
  obtain ⟨N, c', hinit, -⟩ := buffer_init_carved (c := blank) layout_4mb rfl (Nat.lt_succ_self _)
  exact ⟨_, by decide, blank, c', _, layout_4mb, rfl, hinit, rfl⟩

/-- The first `getblk` takes a head that was not used. -/
theorem booted_getblk (hboot : Booted start c) (hdev : dev ≠ 0) (block : BitVec 32) :
    c.find_buffer dev block = some 0 ∧
    ∃ bh ∈ heads start c.NR_BUFFERS, c.b_count bh = 0 ∧
      c.getblk dev block = (c.reassign bh dev block).map fun c => (some bh, c) := by
  obtain ⟨h, hfresh, -⟩ := booted_inv hboot
  rcases getblk_cases h dev block with ⟨r, hr, hfind, hr0, -⟩ | ⟨hfind, ⟨hused, -⟩ | htaken⟩
  · obtain ⟨chain, free, hlists⟩ := h.lists
    obtain ⟨r', hfind', hfound, -⟩ := find_buffer_spec hlists dev block
    obtain rfl : r = r' := Option.some.inj (hfind.symm.trans hfind')
    obtain ⟨-, hd, -⟩ := hfound hr0
    rw [(hfresh r hr).1] at hd
    exact absurd hd.symm hdev
  · obtain ⟨chain, free, hlists⟩ := h.lists
    have hfirst := hlists.perm.mem_iff.1 hlists.ring.first_mem
    exact absurd (hfresh _ hfirst).2 (hused _ hfirst)
  · exact ⟨hfind, htaken⟩

/-- A block is got and given back: its buffer is in the free list and in its queue. -/
theorem lists_well_formed_booted : ∃ c bh c' free row, Booted 0x20000 c ∧
    exec step c [.getblk 0x301 1, .brelse bh] = some c' ∧
    Ring c'.b_next_free c'.b_prev_free c'.free_list free ∧ bh ∈ free ∧
    Row c'.b_next c'.b_prev (c'.hash_table (c'.hash bh)) row ∧ bh ∈ row := by
  obtain ⟨c, hc⟩ := exists_booted
  obtain ⟨⟨⟨chain, free, hlists⟩, hclean⟩, -⟩ := booted_inv hc
  obtain ⟨-, bh, hbh, -, hget⟩ := booted_getblk hc (show (0x301 : BitVec 32) ≠ 0 by decide) 1
  obtain ⟨c1, hc1, -, ⟨hN, -, hlock, hdev, hcount⟩, -⟩ := reassign_lists hlists hbh 0x301 1
  have hbh0 : bh ≠ 0 := hlists.ring.ne_zero_of_mem (hlists.perm.mem_iff.2 hbh)
  have hexec : exec step c [.getblk 0x301 1, .brelse bh] =
      some { c1 with b_count := update c1.b_count bh (c1.b_count bh - 1) } := by
    rw [exec, step, hget, hc1]
    show (c1.brelse bh).bind some = _
    rw [Mem.brelse, hlock, (hclean bh hbh).2, hcount, update_self, if_neg, if_neg (by decide)]
    · rfl
    · simp [hbh0]
  obtain ⟨⟨free', hring, hperm, -⟩, ⟨chain', hrows⟩, -⟩ :=
    lists_well_formed ((Reach.start hc).exec (along_true ..) hexec)
  have hmem : bh ∈ heads 0x20000 c1.NR_BUFFERS := hN ▸ hbh
  have hdev' : c1.b_dev bh ≠ 0 := by
    rw [hdev, update_self]
    decide
  obtain ⟨hrow, hin⟩ := hrows _ (hash_lt _ bh)
  exact ⟨c, bh, _, free', chain' _, hc, hexec, hring, hperm.mem_iff.2 hmem, hrow, (hin bh).2 ⟨hmem, hdev', rfl⟩⟩

/-- A run that follows only pointers to heads up to some state goes on so as long as its calls are harmless; the
first other one stores through null. -/
theorem follows_iff {calls : List Call} (h : Inv start c) (hdev : ∀ b ∈ heads start c.NR_BUFFERS, c.b_dev b = 0)
    (hsafe : ∀ p ∈ c.derefs, p ∈ heads start c.NR_BUFFERS) (hrun : exec step c calls = some c') :
    (∀ p ∈ c'.derefs, p ∈ heads start c'.NR_BUFFERS) ↔ Along step (Harmless start) c calls := by
  have hlater : ∀ {calls c}, Inv start c → exec step c calls = some c' → Inv start c' ∧ ∀ p ∈ c.derefs,
      p ∈ c'.derefs := by
    intro calls
    induction calls with
    | nil =>
      rintro c h hrun
      cases hrun
      exact ⟨h, fun p hp => hp⟩
    | cons e calls ih =>
      intro c h hrun
      obtain ⟨c1, hs, hrest⟩ := Option.bind_eq_some_iff.1 hrun
      obtain ⟨h1, -, hmono⟩ := step_inv h hs
      exact ⟨(ih h1 hrest).1, fun p hp => (ih h1 hrest).2 p (hmono p hp)⟩
  induction calls generalizing c with
  | nil =>
    cases hrun
    exact ⟨fun _ => trivial, fun _ => hsafe⟩
  | cons e calls ih =>
    obtain ⟨c1, hs, hrest⟩ := Option.bind_eq_some_iff.1 hrun
    obtain ⟨h1, hcount, -⟩ := step_inv h hs
    have hgoes : Harmless start c e → (∀ b ∈ heads start c1.NR_BUFFERS, c1.b_dev b = 0) →
        (∀ p ∈ c1.derefs, p ∈ heads start c1.NR_BUFFERS) →
        ((∀ p ∈ c'.derefs, p ∈ heads start c'.NR_BUFFERS) ↔ Along step (Harmless start) c (e :: calls)) := by
      intro hharmless hdev1 hsafe1
      refine (ih h1 hdev1 hsafe1 hrest).trans
        ⟨fun hall => ⟨hharmless, fun s' hs' => ?_⟩, fun hall => hall.2 c1 hs⟩
      exact Option.some.inj (hs.symm.trans hs') ▸ hall
    rcases step_cases h hs with ⟨⟨n, rfl⟩, hharmless⟩ | ⟨dev, block, rfl, hfind, bh, hbh, hused, hr⟩
    · exact hgoes hharmless hdev hsafe
    · obtain ⟨chain, free, hlists⟩ := h.lists
      obtain ⟨c2, hc2, -, ⟨-, -, -, hdevs, -⟩, -, hzero, hnull⟩ := reassign_lists hlists hbh dev block
      obtain rfl : c2 = c1 := Option.some.inj (hc2.symm.trans hr)
      by_cases hd : dev.setWidth 16 = (0 : BitVec 16)
      · refine hgoes (fun _ _ => hd) (fun b hb => ?_) fun p hp => ?_
        · rw [hdevs, hd, update_apply]
          split_ifs
          · rfl
          · exact hdev b (hcount ▸ hb)
        · rw [hcount]
          exact (hzero hd p hp).elim (hsafe p) id
      · -- the queues hold nothing yet
        have hempty : ∀ i < 307, chain i = [] := fun i hi => List.eq_nil_iff_forall_not_mem.2 fun b hb =>
          ((hlists.hashed.mem i hi b).1 hb).2.1 (hdev b ((hlists.hashed.mem i hi b).1 hb).1)
        obtain ⟨⟨⟨chain', free', hlists'⟩, -⟩, hmono⟩ := hlater h1 hrest
        refine ⟨fun hall => ?_, fun hall => absurd (hall.1 hfind ⟨bh, hbh, hused⟩) hd⟩
        have h0 := hall 0 (hmono 0 (hnull hd hempty))
        exact absurd (hlists'.perm.mem_iff.2 h0) hlists'.ring.ne_zero

/-- **Only pointers to heads are followed exactly in the runs that take no buffer for a device**: the first one
that is taken for a device comes into an empty queue. -/
theorem only_heads_followed_iff {calls : List Call} (hboot : Booted start c)
    (hrun : exec step c calls = some c') :
    (∀ p ∈ c'.derefs, p ∈ heads start c'.NR_BUFFERS) ↔ Along step (Harmless start) c calls := by
  obtain ⟨h, hdev, hderefs⟩ := booted_inv hboot
  exact follows_iff h (fun b hb => (hdev b hb).1) (fun p hp => absurd (hderefs ▸ hp) List.not_mem_nil) hrun

/-- `getblk` for the device 0x10000: the buffer gets the number 0 and comes into no queue. -/
theorem only_heads_followed_iff_none : ∃ c bh c', Booted 0x20000 c ∧ c.getblk 0x10000 1 = some (some bh, c') ∧
    ∀ p ∈ c'.derefs, p ∈ heads 0x20000 c'.NR_BUFFERS := by
  obtain ⟨c, hc⟩ := exists_booted
  obtain ⟨⟨⟨chain, free, hlists⟩, -⟩, -⟩ := booted_inv hc
  obtain ⟨-, bh, hbh, -, hget⟩ := booted_getblk hc (show (0x10000 : BitVec 32) ≠ 0 by decide) 1
  obtain ⟨c', hc', -⟩ := reassign_lists hlists hbh 0x10000 1
  rw [hc'] at hget
  have hexec : exec step c [.getblk 0x10000 1] = some c' := by
    rw [exec, step, hget]
    rfl
  exact ⟨c, bh, c', hc, hget,
    (only_heads_followed_iff hc hexec).2 ⟨fun _ _ => by decide, fun _ _ => trivial⟩⟩

/-- The first `getblk` for the disk follows null. -/
theorem first_block_follows_null : ¬∀ start c calls c', Booted start c → exec step c calls = some c' →
    ∀ p ∈ c'.derefs, p ∈ heads start c'.NR_BUFFERS := by
  intro hall
  obtain ⟨c, hc⟩ := exists_booted
  obtain ⟨h, hfresh, hderefs⟩ := booted_inv hc
  obtain ⟨chain, free, hlists⟩ := h.lists
  obtain ⟨hfind, bh, hbh, hcount, hget⟩ := booted_getblk hc (show (0x301 : BitVec 32) ≠ 0 by decide) 1
  obtain ⟨c', hc', -⟩ := reassign_lists hlists hbh 0x301 1
  have hrun : exec step c [.getblk 0x301 1] = some c' := by
    rw [exec, step, hget, hc']
    rfl
  have hsafe := (follows_iff h (fun b hb => (hfresh b hb).1)
    (fun p hp => absurd (hderefs ▸ hp) List.not_mem_nil)
    hrun).1 (hall _ c _ c' hc hrun)
  exact absurd (hsafe.1 hfind ⟨bh, hbh, hcount⟩) (by decide)

end OldLinux.Cache
