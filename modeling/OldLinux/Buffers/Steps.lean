import OldLinux.Buffers.Books

/-!
# What the steps do to the books

Most steps of a process leave everything alone that the books say (`Books.congr`).  The others are a
reference taken or given back, the lock of a buffer, a request that is queued, and a buffer that is
used for another block; the devices complete requests.
-/

namespace OldLinux.Buffers

open Function Lib.Processes Kernel

variable {D : Type} {ι : Type*} {m : Mode} {k k' : Kernel D} {l l' : ι → Own} {p : ι} {b : ℕ}
  {t : Tag} {e : Place}

/-! ### Steps that the books do not see -/

/-- What the books say of the kernel is the same. -/
structure Same (k k' : Kernel D) : Prop where
  buffers : k'.buffers = k.buffers
  hash : k'.hash = k.hash
  freeList : k'.freeList = k.freeList
  tag : ∀ b, (k'.bh b).tag = (k.bh b).tag
  count : ∀ b, (k'.bh b).count = (k.bh b).count
  lock : ∀ b, (k'.bh b).lock = (k.bh b).lock
  request : k'.request = k.request
  queue : k'.queue = k.queue
  mounted : k'.mounted = k.mounted
  lost : k'.lost = k.lost
  made : k'.made = k.made
  completed : k'.completed = k.completed

/-- What the books say of the processes is the same. -/
def SameOwn (l l' : ι → Own) : Prop :=
  ∀ q, (l' q).held = (l q).held ∧ (l' q).wants = (l q).wants ∧ (l' q).locked = (l q).locked

theorem SameOwn.refl (l : ι → Own) : SameOwn l l := fun _ => ⟨rfl, rfl, rfl⟩

theorem SameOwn.holds {q : ι} (h : SameOwn l l') : (l' q).Holds b ↔ (l q).Holds b := by
  rw [Own.Holds, Own.Holds, (h q).1]

theorem requests_congr (h : k'.queue = k.queue) : requests k' = requests k := by
  rw [requests, requests, h]

theorem Cached.congr (h : Cached k) (hbuf : k'.buffers = k.buffers) (hhash : k'.hash = k.hash)
    (hfree : k'.freeList = k.freeList) (htag : ∀ b, (k'.bh b).tag = (k.bh b).tag) : Cached k' := by
  refine ⟨?_, ?_, ?_, ?_, ?_⟩
  · rw [hfree]
    exact h.freeNodup
  · rw [hfree, hbuf]
    exact h.free
  · rw [hhash]
    exact h.hashNodup
  · intro i b
    rw [hhash, hbuf, htag]
    exact h.hashed i b
  · intro b b' hb hb' hdev ht
    rw [htag] at hdev
    rw [htag, htag] at ht
    exact h.unique b b' (hbuf ▸ hb) (hbuf ▸ hb') hdev ht

/-- The requests see the locks and tags of the buffers, the slots and the queues. -/
theorem Queued.congr (h : Queued m k l) (htag : ∀ b, (k'.bh b).tag = (k.bh b).tag)
    (hlock : ∀ b, (k'.bh b).lock = (k.bh b).lock) (hreq : k'.request = k.request)
    (hqueue : k'.queue = k.queue) (hmade : k'.made = k.made) (hcompleted : k'.completed = k.completed)
    (hwants : ∀ q r, (l' q).wants = some r → (l q).wants = some r ∧ ((l q).Holds r.bh → (l' q).Holds r.bh))
    (hlocked : ∀ q, (l' q).locked = (l q).locked) : Queued m k' l' := by
  have hq := requests_congr hqueue
  refine ⟨?_, ?_, ?_, ?_, ?_, ?_, ?_, ?_, ?_, ?_, ?_⟩
  · intro hm q r hr
    obtain ⟨hr', hholds⟩ := hwants q r hr
    rw [htag]
    exact ⟨hholds (h.wants hm q r hr').1, (h.wants hm q r hr').2⟩
  · intro q r hr
    rw [hlocked] at hr
    rw [hlock, htag, hq, hreq]
    exact h.locked q r hr
  · intro q q' r r' hr hr'
    rw [hlocked] at hr hr'
    exact h.lockedOnce q q' r r' hr hr'
  · rw [hqueue]
    exact h.none
  · rw [hq]
    exact h.nodup
  · rw [hq, hreq]
    exact h.used
  · intro s hs
    rw [hq] at hs
    rw [hreq, hlock, htag]
    exact h.request s hs
  · rw [hq, hreq]
    exact h.cmd
  · rw [hq, hreq]
    exact h.once
  · rw [hqueue, hreq]
    exact h.device
  · rw [hq, hreq, hcompleted, hmade]
    exact h.ids

/-- An unlocked buffer has no request. -/
theorem Queued.not_requested (h : Queued m k l) (hb : (k.bh b).lock = false) :
    ∀ s ∈ requests k, (k.request s).bh ≠ b := by
  intro s hs hsb
  have hlock := (h.request s hs).1
  rw [hsb, hb] at hlock
  cases hlock

/-- What is the same of the own state of a process is the same of all. -/
theorem update_same [DecidableEq ι] {α : Type} (f : Own → α) {x : Own} (hx : f x = f (l p)) (q : ι) :
    f (update l p x q) = f (l q) := by
  by_cases hq : q = p
  · rw [hq, update_self, hx]
  · rw [update_of_ne hq]

/-- A process that has nothing locked any more holds and wants what it did. -/
theorem update_unlocked [DecidableEq ι] (l : ι → Own) (p : ι) :
    (∀ q, (update l p { l p with locked := none } q).held = (l q).held) ∧
    (∀ q, (update l p { l p with locked := none } q).wants = (l q).wants) ∧
    ∀ q r, (update l p { l p with locked := none } q).locked = some r → q ≠ p ∧ (l q).locked = some r := by
  refine ⟨update_same Own.held rfl, update_same Own.wants rfl, fun q r hr => ?_⟩
  by_cases hq : q = p
  · rw [hq, update_self] at hr
    cases hr
  · rw [update_of_ne hq] at hr
    exact ⟨hq, hr⟩

variable [Fintype ι]

theorem outstanding_congr (hm : k'.mounted = k.mounted) (hd : k'.lost = k.lost)
    (hl : ∀ q, (l' q).held = (l q).held) : outstanding k' l' b = outstanding k l b := by
  simp only [outstanding, hm, hd, hl]

/-- The references see the counts and tags of the buffers, and what is held. -/
theorem Counted.congr (h : Counted m k l) (htag : ∀ b, (k'.bh b).tag = (k.bh b).tag)
    (hcount : ∀ b, (k'.bh b).count = (k.bh b).count) (hm : k'.mounted = k.mounted) (hd : k'.lost = k.lost)
    (hheld : ∀ q, (l' q).held = (l q).held) : Counted m k' l' := by
  refine ⟨?_, ?_⟩
  · intro b
    rw [hcount, outstanding_congr hm hd hheld]
    exact h.count b
  · intro hs q r hr
    rw [hheld] at hr
    rw [htag]
    exact h.held hs q r hr

theorem Books.congr (h : Books m k l) (hk : Same k k') (hl : SameOwn l l') : Books m k' l' := by
  refine ⟨h.cached.congr hk.buffers hk.hash hk.freeList hk.tag,
    h.counted.congr hk.tag hk.count hk.mounted hk.lost fun q => (hl q).1, ?_, hk.buffers.trans h.size⟩
  apply h.queued.congr hk.tag hk.lock hk.request hk.queue hk.made hk.completed
  · intro q r hr
    rw [(hl q).2.1] at hr
    exact ⟨hr, hl.holds.2⟩
  · exact fun q => (hl q).2.2

theorem setBh_bh (k : Kernel D) (b c : ℕ) (f : BufferHead D → BufferHead D) :
    (k.setBh b f).bh c = if c = b then f (k.bh b) else k.bh c :=
  update_apply _ _ _ _

/-- What a change of one buffer keeps of it is the same of all. -/
theorem setBh_same {α : Type} (g : BufferHead D → α) (k : Kernel D) {f : BufferHead D → BufferHead D}
    (hf : ∀ h, g (f h) = g h) (b c : ℕ) : g ((k.setBh b f).bh c) = g (k.bh c) := by
  rw [setBh_bh]
  split
  · rename_i hc
    rw [hf, hc]
  · rfl

theorem setBh_tag (k : Kernel D) {f : BufferHead D → BufferHead D} (hf : ∀ h, (f h).tag = h.tag)
    (b c : ℕ) : ((k.setBh b f).bh c).tag = (k.bh c).tag :=
  setBh_same BufferHead.tag k hf b c

theorem setBh_lock (k : Kernel D) {f : BufferHead D → BufferHead D} (hf : ∀ h, (f h).lock = h.lock)
    (b c : ℕ) : ((k.setBh b f).bh c).lock = (k.bh c).lock :=
  setBh_same BufferHead.lock k hf b c

theorem setBh_count (k : Kernel D) {f : BufferHead D → BufferHead D} (hf : ∀ h, (f h).count = h.count)
    (b c : ℕ) : ((k.setBh b f).bh c).count = (k.bh c).count :=
  setBh_same BufferHead.count k hf b c

/-- A change of one buffer that keeps what the books say of it. -/
theorem Same.setBh (k : Kernel D) (b : ℕ) (f : BufferHead D → BufferHead D)
    (hf : ∀ h, (f h).tag = h.tag ∧ (f h).count = h.count ∧ (f h).lock = h.lock) :
    Same k (k.setBh b f) :=
  ⟨rfl, rfl, rfl, setBh_tag k (fun h => (hf h).1) b, setBh_count k (fun h => (hf h).2.1) b,
    setBh_lock k (fun h => (hf h).2.2) b, rfl, rfl, rfl, rfl, rfl, rfl⟩

/-- A buffer that looks unused but is held has too many references. -/
theorem outstanding_of_count_zero (h : Books m k l) (hb : (k.bh b).count = 0) {q : ι}
    (hq : (l q).Holds b) : 256 ≤ outstanding k l b := by
  have hpos := outstanding_pos k hq
  have hcount := h.counted.count b
  rw [hb] at hcount
  have hmod := congrArg BitVec.toNat hcount
  rw [BitVec.toNat_ofNat] at hmod
  have hzero : outstanding k l b % 256 = 0 := hmod.symm
  omega

/-! ### References taken and given back -/

variable [DecidableEq ι]

theorem Own.get_holds {x : Own} {r : Ref} {c : ℕ} (h : x.Holds c) : (x.get r).Holds c := by
  obtain ⟨r', hr', hc⟩ := h
  exact ⟨r', List.mem_cons_of_mem r hr', hc⟩

theorem outstanding_get (k : Kernel D) (l : ι → Own) (p : ι) (r : Ref) (c : ℕ) :
    outstanding k (update l p ((l p).get r)) c = outstanding k l c + if r.bh = c then 1 else 0 := by
  have h := outstanding_update k l p ((l p).get r) c
  rw [show ((l p).get r).held = r :: (l p).held from rfl, refs_cons] at h
  omega

theorem outstanding_put (k : Kernel D) {l : ι → Own} {p : ι} {b : ℕ} (h : (l p).Holds b) (c : ℕ) :
    outstanding k (update l p ((l p).put b)) c + (if b = c then 1 else 0) = outstanding k l c := by
  have hout := outstanding_update k l p ((l p).put b) c
  have hrefs := refs_eraseP h c
  rw [show ((l p).put b).held = (l p).held.eraseP (·.bh = b) from rfl] at hout
  omega

/-- **A reference is taken.** -/
theorem Books.countUp (h : Books m k l) (b : ℕ) : Books m (k.setBh b fun h => { h with count := h.count + 1 })
      (update l p ((l p).get ⟨b, (k.bh b).tag⟩)) := by
  have htag := setBh_tag k (f := fun h => { h with count := h.count + 1 }) (fun _ => rfl) b
  have hlock := setBh_lock k (f := fun h => { h with count := h.count + 1 }) (fun _ => rfl) b
  refine ⟨h.cached.congr rfl rfl rfl htag, ⟨?_, ?_⟩, ?_, h.size⟩
  · intro c
    have hout := outstanding_get k l p ⟨b, (k.bh b).tag⟩ c
    show _ = BitVec.ofNat 8 (outstanding k _ c)
    rw [hout, setBh_bh]
    by_cases hc : c = b
    · rw [if_pos hc, if_pos hc.symm, hc, BitVec.ofNat_add, ← h.counted.count b]
      rfl
    · rw [if_neg hc, if_neg (Ne.symm hc), Nat.add_zero]
      exact h.counted.count c
  · intro hs q r hr
    rw [htag]
    by_cases hq : q = p
    · rw [hq, update_self] at hr
      rcases List.mem_cons.1 hr with hr | hr
      · rw [hr]
      · exact h.counted.held hs p r hr
    · rw [update_of_ne hq] at hr
      exact h.counted.held hs q r hr
  · apply h.queued.congr htag hlock rfl rfl rfl rfl
    · intro q r hr
      by_cases hq : q = p
      · rw [hq] at hr ⊢
        rw [update_self] at hr ⊢
        exact ⟨hr, Own.get_holds⟩
      · rw [update_of_ne hq] at hr ⊢
        exact ⟨hr, id⟩
    · exact update_same Own.locked rfl

/-- **A reference is given back** by a process that is not on the way to a request. -/
theorem Books.countDown (h : Books m k l) (hb : (l p).Holds b) (hp : (l p).wants = none) :
    Books m (k.setBh b fun h => { h with count := h.count - 1 })
      (update l p ((l p).put b)) := by
  have htag := setBh_tag k (f := fun h => { h with count := h.count - 1 }) (fun _ => rfl) b
  have hlock := setBh_lock k (f := fun h => { h with count := h.count - 1 }) (fun _ => rfl) b
  refine ⟨h.cached.congr rfl rfl rfl htag, ⟨?_, ?_⟩, ?_, h.size⟩
  · intro c
    have hout := outstanding_put k hb c
    have hold := h.counted.count c
    show _ = BitVec.ofNat 8 (outstanding k _ c)
    rw [← hout, BitVec.ofNat_add] at hold
    rw [setBh_bh]
    by_cases hc : c = b
    · rw [if_pos hc.symm, hc] at hold
      rw [if_pos hc, hc]
      show (k.bh b).count - 1 = _
      rw [hold]
      exact BitVec.add_sub_cancel _ _
    · rw [if_neg (Ne.symm hc)] at hold
      rw [if_neg hc, hold]
      exact BitVec.add_zero _
  · intro hs q r hr
    rw [htag]
    by_cases hq : q = p
    · rw [hq, update_self] at hr
      exact h.counted.held hs p r (List.mem_of_mem_eraseP hr)
    · rw [update_of_ne hq] at hr
      exact h.counted.held hs q r hr
  · apply h.queued.congr htag hlock rfl rfl rfl rfl
    · intro q r hr
      by_cases hq : q = p
      · rw [hq, update_self] at hr
        rw [show ((l p).put b).wants = (l p).wants from rfl, hp] at hr
        cases hr
      · rw [update_of_ne hq] at hr ⊢
        exact ⟨hr, id⟩
    · exact update_same Own.locked rfl

/-! ### The lock of a buffer -/

/-- A process is about to sleep in `lock_buffer`. -/
theorem Books.want (h : Books m k l) {w : Option Ref}
    (hw : ∀ r, w = some r → (l p).Holds r.bh ∧ (k.bh r.bh).tag = r.tag) :
    Books m k (update l p { l p with wants := w }) := by
  have hheld : ∀ q, (update l p { l p with wants := w } q).held = (l q).held :=
    update_same Own.held rfl
  have hlocked : ∀ q, (update l p { l p with wants := w } q).locked = (l q).locked :=
    update_same Own.locked rfl
  refine ⟨h.cached, h.counted.congr (fun _ => rfl) (fun _ => rfl) rfl rfl hheld,
    { h.queued with wants := ?_, locked := ?_, lockedOnce := ?_ }, h.size⟩
  · intro hm q r hr
    by_cases hq : q = p
    · rw [hq] at hr ⊢
      rw [update_self] at hr ⊢
      exact hw r hr
    · rw [update_of_ne hq] at hr ⊢
      exact h.queued.wants hm q r hr
  · intro q r hr
    rw [hlocked] at hr
    exact h.queued.locked q r hr
  · intro q q' r r' hr hr'
    rw [hlocked] at hr hr'
    exact h.queued.lockedOnce q q' r r' hr hr'

/-- **A buffer is locked.** -/
theorem Books.lock (h : Books m k l) (hb : (k.bh b).lock = false) :
    Books m (k.setBh b fun h => { h with lock := true })
      (update l p { l p with wants := none, locked := some ⟨b, (k.bh b).tag⟩ }) := by
  have htag := setBh_tag k (f := fun h => { h with lock := true }) (fun _ => rfl) b
  have hcount := setBh_count k (f := fun h => { h with lock := true }) (fun _ => rfl) b
  have hlock : ∀ c, (k.bh c).lock = true → ((k.setBh b fun h => { h with lock := true }).bh c).lock = true := by
    intro c hc
    rw [setBh_bh]
    split
    · rfl
    · exact hc
  have hheld : ∀ q, (update l p { l p with wants := none, locked := some ⟨b, (k.bh b).tag⟩ } q).held =
    (l q).held :=
    update_same Own.held rfl
  have hfresh := h.queued.not_requested hb
  refine ⟨h.cached.congr rfl rfl rfl htag, h.counted.congr htag hcount rfl rfl hheld,
    { h.queued with wants := ?_, locked := ?_, lockedOnce := ?_, request := ?_ }, h.size⟩
  · intro hm q r hr
    by_cases hq : q = p
    · rw [hq, update_self] at hr
      cases hr
    · rw [update_of_ne hq] at hr ⊢
      rw [htag]
      exact h.queued.wants hm q r hr
  · intro q r hr
    by_cases hq : q = p
    · rw [hq, update_self] at hr
      cases hr
      refine ⟨?_, htag b, hfresh⟩
      rw [setBh_bh, if_pos rfl]
    · rw [update_of_ne hq] at hr
      obtain ⟨h1, h2, h3⟩ := h.queued.locked q r hr
      exact ⟨hlock _ h1, (htag _).trans h2, h3⟩
  · -- another process has locked the buffer only if it is locked
    have hother : ∀ q r, q ≠ p → (l q).locked = some r → r.bh ≠ b := by
      intro q r _ hr hrb
      have hl := (h.queued.locked q r hr).1
      rw [hrb, hb] at hl
      cases hl
    intro q q' r r' hr hr' hbh
    by_cases hq : q = p <;> by_cases hq' : q' = p
    · rw [hq, hq']
    · rw [hq, update_self] at hr
      rw [update_of_ne hq'] at hr'
      cases hr
      exact absurd hbh.symm (hother q' r' hq' hr')
    · rw [hq', update_self] at hr'
      rw [update_of_ne hq] at hr
      cases hr'
      exact absurd hbh (hother q r hq hr)
    · rw [update_of_ne hq] at hr
      rw [update_of_ne hq'] at hr'
      exact h.queued.lockedOnce q q' r r' hr hr' hbh
  · intro s hs
    obtain ⟨h1, h2, h3⟩ := h.queued.request s hs
    exact ⟨hlock _ h1, (htag _).trans h2, h3⟩

/-- **A buffer is unlocked** by the process that has locked it. -/
theorem Books.unlock (h : Books m k l) (hp : (l p).locked = some ⟨b, t⟩) :
    Books m (k.setBh b fun h => { h with lock := false })
      (update l p { l p with locked := none }) := by
  have htag := setBh_tag k (f := fun h => { h with lock := false }) (fun _ => rfl) b
  have hcount := setBh_count k (f := fun h => { h with lock := false }) (fun _ => rfl) b
  have hlock : ∀ c, c ≠ b → ((k.setBh b fun h => { h with lock := false }).bh c).lock =
      (k.bh c).lock := by
    intro c hc
    rw [setBh_bh, if_neg hc]
  obtain ⟨hheld, hwants, hown⟩ := update_unlocked l p
  refine ⟨h.cached.congr rfl rfl rfl htag, h.counted.congr htag hcount rfl rfl hheld,
    { h.queued with wants := ?_, locked := ?_, lockedOnce := ?_, request := ?_ }, h.size⟩
  · intro hm q r hr
    rw [hwants] at hr
    rw [htag, Own.Holds, hheld]
    exact h.queued.wants hm q r hr
  · intro q r hr
    obtain ⟨hq, hr⟩ := hown q r hr
    obtain ⟨h1, h2, h3⟩ := h.queued.locked q r hr
    have hne : r.bh ≠ b := fun hrb => hq (h.queued.lockedOnce q p r ⟨b, t⟩ hr hp hrb)
    exact ⟨(hlock _ hne).trans h1, (htag _).trans h2, h3⟩
  · intro q q' r r' hr hr'
    exact h.queued.lockedOnce q q' r r' (hown q r hr).2 (hown q' r' hr').2
  · intro s hs
    obtain ⟨h1, h2, h3⟩ := h.queued.request s hs
    have hne := (h.queued.locked p _ hp).2.2 s hs
    exact ⟨(hlock _ hne).trans h1, (htag _).trans h2, h3⟩

/-! ### A buffer for another block -/

/-- A block that is not found has no buffer. -/
theorem Cached.not_found (h : Cached k) (hfind : k.findBuffer t = none) {c : ℕ} (hc : c < k.buffers)
    (hdev : (k.bh c).tag.dev ≠ 0) : (k.bh c).tag ≠ t := by
  intro ht
  have hmem : c ∈ k.hash (hashfn t) := (h.hashed _ c).2 ⟨hc, hdev, by rw [ht]⟩
  have hnot := List.find?_eq_none.1 hfind c hmem
  exact hnot (by simpa using ht)

theorem assign_bh (k : Kernel D) (b c : ℕ) (t : Tag) : (k.assign b t).bh c =
    if c = b then { k.bh b with count := 1, dirt := false, uptodate := false, tag := t }
    else k.bh c := by
  by_cases hc : c = b
  · simp [assign, insertIntoQueues, removeFromQueues, setBh, hc]
  · simp [assign, insertIntoQueues, removeFromQueues, setBh, hc]

/-- The hash queues after the buffer went from its old queue to its new one. -/
theorem assign_hash (k : Kernel D) (b : ℕ) (t : Tag) : (k.assign b t).hash =
    let old := update k.hash (hashfn (k.bh b).tag) ((k.hash (hashfn (k.bh b).tag)).erase b)
    if t.dev = 0 then old else update old (hashfn t) (b :: old (hashfn t)) := by
  simp [assign, insertIntoQueues, removeFromQueues, setBh]

theorem mem_assign_hash (h : Cached k) (b c i : ℕ) (t : Tag) :
    c ∈ (k.assign b t).hash i ↔ c = b ∧ t.dev ≠ 0 ∧ i = hashfn t ∨ c ≠ b ∧ c ∈ k.hash i := by
  have hold : c ∈ update k.hash (hashfn (k.bh b).tag)
      ((k.hash (hashfn (k.bh b).tag)).erase b) i ↔ c ≠ b ∧ c ∈ k.hash i := by
    rw [update_apply]
    split
    · rename_i hi
      rw [hi]
      exact (h.hashNodup _).mem_erase_iff
    · rename_i hi
      constructor
      · intro hc
        refine ⟨?_, hc⟩
        intro hcb
        rw [hcb] at hc
        exact hi ((h.hashed i b).1 hc).2.2.symm
      · exact fun hc => hc.2
  rw [assign_hash]
  by_cases hdev : t.dev = 0
  · simp only [hdev, if_true, hold]
    simp
  · simp only [hdev, if_false]
    rw [update_apply]
    split
    · rename_i hi
      rw [List.mem_cons, ← hi, hold]
      by_cases hcb : c = b
      · simp only [hcb, hi, ne_eq, not_true_eq_false, false_and, or_false, true_and]
        exact (iff_true_intro (And.intro hdev trivial)).symm
      · simp [hcb]
    · rename_i hi
      rw [hold]
      simp [hi]

theorem assign_hash_nodup (h : Cached k) (b i : ℕ) (t : Tag) : ((k.assign b t).hash i).Nodup := by
  have hold : ∀ j, (update k.hash (hashfn (k.bh b).tag) ((k.hash (hashfn (k.bh b).tag)).erase b) j).Nodup := by
    intro j
    rw [update_apply]
    split
    · exact (h.hashNodup _).erase b
    · exact h.hashNodup j
  have hnot : ∀ j, b ∉ update k.hash (hashfn (k.bh b).tag) ((k.hash (hashfn (k.bh b).tag)).erase b) j := by
    intro j hb
    rw [update_apply] at hb
    split at hb
    · exact (h.hashNodup _).not_mem_erase hb
    · rename_i hj
      exact hj ((h.hashed j b).1 hb).2.2.symm
  rw [assign_hash]
  by_cases hdev : t.dev = 0
  · simp only [hdev, if_true]
    exact hold i
  · simp only [hdev, if_false]
    rw [update_apply]
    split
    · exact List.nodup_cons.2 ⟨hnot _, hold _⟩
    · exact hold i

/-- The cache after a buffer that was not the one of the block became it. -/
theorem Cached.assign (h : Cached k) (hb : b ∈ k.freeList) (hfind : k.findBuffer t = none) :
    Cached (k.assign b t) := by
  have hbuf : b < k.buffers := (h.free b).1 hb
  have hfree : (k.assign b t).freeList = k.freeList.erase b ++ [b] := rfl
  have hmem : ∀ c, c ∈ k.freeList.erase b ↔ c ≠ b ∧ c ∈ k.freeList :=
    fun c => h.freeNodup.mem_erase_iff
  refine ⟨?_, ?_, fun i => assign_hash_nodup h b i t, ?_, ?_⟩
  · rw [hfree, List.nodup_append]
    refine ⟨h.freeNodup.erase b, List.nodup_singleton b, ?_⟩
    intro c hc d hd
    rw [List.mem_singleton.1 hd]
    exact ((hmem c).1 hc).1
  · intro c
    rw [hfree, List.mem_append, hmem, List.mem_singleton, h.free]
    show _ ↔ c < k.buffers
    constructor
    · rintro (⟨-, hc⟩ | hc)
      · exact hc
      · rw [hc]
        exact hbuf
    · intro hc
      by_cases hcb : c = b
      · exact Or.inr hcb
      · exact Or.inl ⟨hcb, hc⟩
  · intro i c
    rw [mem_assign_hash h, assign_bh]
    show _ ↔ c < k.buffers ∧ _
    by_cases hcb : c = b
    · rw [if_pos hcb]
      simp only [hcb, true_and, ne_eq, not_true_eq_false, false_and, or_false, hbuf]
      exact and_congr_right fun _ => eq_comm
    · rw [if_neg hcb]
      simp only [hcb, false_and, ne_eq, not_false_eq_true, true_and, false_or]
      exact h.hashed i c
  · intro c d hc hd hdev htag
    rw [assign_bh] at hdev
    rw [assign_bh, assign_bh] at htag
    by_cases hcb : c = b <;> by_cases hdb : d = b
    · rw [hcb, hdb]
    · rw [if_pos hcb] at hdev
      rw [if_pos hcb, if_neg hdb] at htag
      have hdev' : (k.bh d).tag.dev ≠ 0 := by
        rw [← htag]
        exact hdev
      exact absurd htag.symm (h.not_found hfind hd hdev')
    · rw [if_neg hcb] at hdev
      rw [if_neg hcb, if_pos hdb] at htag
      exact absurd htag (h.not_found hfind hc hdev)
    · rw [if_neg hcb] at hdev
      rw [if_neg hcb, if_neg hdb] at htag
      exact h.unique c d hc hd hdev htag

/-- **A buffer is used for another block**, by a process that has found it unused and unlocked. -/
theorem Books.assign (h : Books m k l) (hmay : may m p e k l) (hb : b ∈ k.freeList)
    (hfind : k.findBuffer t = none) (hlock : (k.bh b).lock = false) (hcount : (k.bh b).count = 0) :
    Books m (k.assign b t) (update l p ((l p).get ⟨b, t⟩)) := by
  have htag : ∀ c, c ≠ b → ((k.assign b t).bh c).tag = (k.bh c).tag := by
    intro c hc
    rw [assign_bh, if_neg hc]
  have hlocks : ∀ c, ((k.assign b t).bh c).lock = (k.bh c).lock := by
    intro c
    rw [assign_bh]
    split
    · rename_i hc
      rw [hc]
    · rfl
  have hlocked : ∀ q, (update l p ((l p).get ⟨b, t⟩) q).locked = (l q).locked :=
    update_same Own.locked rfl
  have hwants : ∀ q, (update l p ((l p).get ⟨b, t⟩) q).wants = (l q).wants :=
    update_same Own.wants rfl
  refine ⟨h.cached.assign hb hfind, ⟨?_, ?_⟩,
    { h.queued with wants := ?_, locked := ?_, lockedOnce := ?_, request := ?_ }, h.size⟩
  · intro c
    have hout : outstanding (k.assign b t) (update l p ((l p).get ⟨b, t⟩)) c = _ :=
      outstanding_get k l p ⟨b, t⟩ c
    rw [hout, assign_bh]
    by_cases hc : c = b
    · rw [if_pos hc, if_pos hc.symm, hc, BitVec.ofNat_add, ← h.counted.count b, hcount]
      rfl
    · rw [if_neg hc, if_neg (Ne.symm hc), Nat.add_zero]
      exact h.counted.count c
  · intro hs q r hr
    have hold : ∀ q, ∀ r ∈ (l q).held, ((k.assign b t).bh r.bh).tag = r.tag := by
      intro q r hr
      have hne : r.bh ≠ b := by
        intro hrb
        have hmany := outstanding_of_count_zero h hcount (q := q) ⟨r, hr, hrb⟩
        have hfew := hmay.2.1 hs b
        omega
      rw [htag _ hne]
      exact h.counted.held hs q r hr
    by_cases hq : q = p
    · rw [hq, update_self] at hr
      rcases List.mem_cons.1 hr with hr | hr
      · rw [hr, assign_bh, if_pos rfl]
      · exact hold p r hr
    · rw [update_of_ne hq] at hr
      exact hold q r hr
  · intro hm q r hr
    rw [hwants] at hr
    obtain ⟨hholds, ht⟩ := h.queued.wants hm q r hr
    have hne : r.bh ≠ b := by
      intro hrb
      have hmany := outstanding_of_count_zero h hcount (q := q) (hrb ▸ hholds)
      have hfew := hmay.1 hm q r hr
      rw [hrb] at hfew
      omega
    refine ⟨?_, (htag _ hne).trans ht⟩
    by_cases hq : q = p
    · rw [hq] at hholds ⊢
      rw [update_self]
      exact Own.get_holds hholds
    · rw [update_of_ne hq]
      exact hholds
  · intro q r hr
    rw [hlocked] at hr
    obtain ⟨h1, h2, h3⟩ := h.queued.locked q r hr
    have hne : r.bh ≠ b := by
      intro hrb
      rw [hrb, hlock] at h1
      cases h1
    exact ⟨(hlocks _).trans h1, (htag _ hne).trans h2, h3⟩
  · intro q q' r r' hr hr'
    rw [hlocked] at hr hr'
    exact h.queued.lockedOnce q q' r r' hr hr'
  · intro s hs
    obtain ⟨h1, h2, h3⟩ := h.queued.request s hs
    exact ⟨(hlocks _).trans h1, (htag _ (h.queued.not_requested hlock s hs)).trans h2, h3⟩

end OldLinux.Buffers
