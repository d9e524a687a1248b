import OldLinux.Buffers.Requests

/-!
# Requests for locked buffers

`lock_buffer` and `make_request` keep the books.  A process that sleeps for the lock of a buffer has a
reference to it, so that it is still for the same block when it wakes up, and the queue it puts the
request in is the one of its device.
-/

namespace OldLinux.Buffers

open Function Lib.Processes Kernel

variable {D : Type} {ι : Type*} [Fintype ι] [DecidableEq ι] {m : Mode} {k k' : Kernel D} {l l' : ι → Own}
variable {p : ι} {b d n : ℕ} {t : Tag} {rw : Rw} {ahead : Bool}

/-! ### Steps at no special place -/

theorem leaves_all (h : k'.queue = k.queue) (hreq : k'.request = k.request) (hc : k'.completed = k.completed) :
    LeavesRequests k k' :=
  ⟨hc, fun _ _ hs => ⟨h ▸ hs, congrFun hreq _⟩⟩

theorem wp_get {Q : Kernel D → Kernel D → (ι → Own) → Prop}
    (h : ∀ k', Later k k' → Books m k' l → Q k' k' l) : wp (discipline D ι m) p get Q k l :=
  (wp_look (fun _ => leaves_all rfl rfl rfl) ..).2 fun k' hk hinv => ⟨trivial, fun _ => h k' hk hinv⟩

theorem wp_step {f : Kernel D → Own → Kernel D × Own} {Q : Kernel D → Kernel D → (ι → Own) → Prop}
    (h : ∀ k', Later k k' → Books m k' l → may m p .plain k' l →
      LeavesRequests k' (f k' (l p)).1 ∧ Books m (f k' (l p)).1 (update l p (f k' (l p)).2) ∧
        Q k' (f k' (l p)).1 (update l p (f k' (l p)).2)) :
    wp (discipline D ι m) p (change .plain f) Q k l :=
  (wp_change ..).2 fun k' hk hinv => ⟨trivial, h k' hk hinv⟩

/-- The devices do not lock a buffer, so that a process sleeps only if it was locked before. -/
theorem wp_waitOnBuffer {Q : Unit → Kernel D → (ι → Own) → Prop}
    (h : ∀ k', Later k k' → Books m k' l → (k'.bh b).lock = false → Q () k' l)
    (hsleep : (k.bh b).lock = true → ∀ k' l', Books m k' l' → l' p = l p →
      (k'.bh b).lock = false → Q () k' l') :
    wp (discipline D ι m) p (waitOnBuffer b) Q k l := by
  refine (wp_await ..).2 fun k' hk hinv => ⟨trivial, fun _ => ⟨fun hfree => ?_, fun hlock => ?_⟩⟩
  · exact h k' hk hinv (by simpa using hfree)
  · have hbefore : (k.bh b).lock = true := by
      by_contra hfree
      have hafter := hk.lock b (eq_false_of_ne_true hfree)
      rw [hafter] at hlock
      cases hlock
    intro k'' l'' hinv'' hl
    exact ⟨trivial, fun _ hfree => hsleep hbefore k'' l'' hinv'' hl (by simpa using hfree)⟩

theorem wp_stuck {α : Type} {Q : α → Kernel D → (ι → Own) → Prop} :
    wp (discipline D ι m) p (stuck : Prog D α) Q k l := by
  refine fun k' _ _ => ⟨trivial,
    fun _ => ⟨fun h => (by cases h), fun _ k'' l'' _ _ => ⟨trivial, fun _ h => ?_⟩⟩⟩
  cases h

/-! ### Locks -/

/-- **`lock_buffer`.**  The buffer is for the same block when it is locked. -/
theorem wp_lockBuffer {Q : Unit → Kernel D → (ι → Own) → Prop} (hwants : (l p).wants = none)
    (hhold : (k.bh b).lock = false ∨ (l p).Holds b)
    (h : ∀ k' l' t, Books m k' l' → l' p = { l p with locked := some ⟨b, t⟩ } → (m.queue → t = (k.bh b).tag) →
      Q () k' l') :
    wp (discipline D ι m) p (lockBuffer b) Q k l := by
  have finish : ∀ k₁ l₁, (k₁.bh b).lock = false → l₁ p = { l p with wants := (l₁ p).wants } →
      (m.queue → (k₁.bh b).tag = (k.bh b).tag) → wp (discipline D ι m) p (change .plain fun k x =>
        (k.setBh b fun h => { h with lock := true },
          { x with wants := none, locked := some ⟨b, (k.bh b).tag⟩ }) : Prog D _)
        (fun _ k l => Q () k l) k₁ l₁ := by
    intro k₁ l₁ hfree hl htag
    refine wp_step fun k₂ hk₂ hinv₂ _ => ?_
    have hbooks := hinv₂.lock (p := p) (hk₂.lock b hfree)
    refine ⟨leaves_all rfl rfl rfl, hbooks, h _ _ _ hbooks ?_ fun hm => (hk₂.tag b).trans (htag hm)⟩
    rw [update_self, hl]
    dsimp only
    rw [hwants]
  rw [lockBuffer, wp_bind]
  refine wp_step fun k₁ hk₁ hinv₁ _ => ?_
  have hbooks : Books m k₁ (update l p { l p with
      wants := if (k₁.bh b).lock = true ∧ (l p).Holds b then some ⟨b, (k₁.bh b).tag⟩ else none }) := by
    refine hinv₁.want fun r hr => ?_
    obtain ⟨⟨-, hholds⟩, heq⟩ := Option.ite_none_right_eq_some.1 hr
    rw [← Option.some.inj heq]
    exact ⟨hholds, rfl⟩
  refine ⟨leaves_all rfl rfl rfl, hbooks, ?_⟩
  rw [wp_bind]
  refine wp_waitOnBuffer (fun k₂ hk₂ hinv₂ hfree => ?_) fun hlock k₂ l₂ hinv₂ hl₂ hfree => ?_
  · refine finish k₂ _ hfree ?_ fun _ => (hk₂.tag b).trans (hk₁.tag b)
    rw [update_self]
  · -- it holds the buffer, which nobody has used for another block meanwhile
    have hholds : (l p).Holds b := by
      rcases hhold with hfree' | hholds
      · rw [hk₁.lock b hfree'] at hlock
        cases hlock
      · exact hholds
    rw [update_self, if_pos ⟨hlock, hholds⟩] at hl₂
    refine finish k₂ l₂ hfree ?_ fun hm => ?_
    · rw [hl₂]
    · have hsame := (hinv₂.queued.wants hm p ⟨b, (k₁.bh b).tag⟩ (by rw [hl₂])).2
      exact hsame.trans (hk₁.tag b)

theorem wp_unlockBuffer {Q : Unit → Kernel D → (ι → Own) → Prop} (hlocked : (l p).locked = some ⟨b, t⟩)
    (h : ∀ k' l', Books m k' l' → l' p = { l p with locked := none } → Q () k' l') :
    wp (discipline D ι m) p (unlockBuffer b) Q k l := by
  rw [unlockBuffer, wp_bind]
  refine wp_step fun k₁ _ hinv₁ _ => ?_
  have hbooks := hinv₁.unlock hlocked
  exact ⟨leaves_all rfl rfl rfl, hbooks, h _ _ hbooks (update_self ..)⟩

/-! ### Requests -/

/-- A slot that has been found is still free. -/
theorem wp_findRequest {Q : Option ℕ → Kernel D → (ι → Own) → Prop} {x : Own} (hl : l p = x)
    (hnone : ∀ k' l', l' p = x → Q none k' l')
    (hsome : ∀ k' l' req, l' p = x → (k'.request req).dev < 0 → req < slots rw → Q (some req) k' l') :
    wp (discipline D ι m) p (findRequest rw ahead n) Q k l := by
  induction n generalizing k l with
  | zero => exact wp_stuck
  | succ n ih =>
    rw [findRequest, wp_bind]
    refine wp_get fun k₁ _ _ => ?_
    cases hreq : k₁.emptyRequest rw with
    | some req =>
      obtain ⟨hfree, hslot⟩ := emptyRequest_free hreq
      exact hsome k₁ l req hl hfree hslot
    | none =>
      dsimp only
      split
      · exact hnone k₁ l hl
      · rw [wp_bind]
        refine wp_get fun k₂ _ _ => ?_
        rw [wp_bind]
        refine (wp_await ..).2 fun k₃ _ _ => ⟨trivial, fun _ => ⟨fun _ => ih hl, fun _ k₄ l₄ _ hl₄ => ?_⟩⟩
        exact ⟨trivial, fun _ _ => ih (hl₄.trans hl)⟩

/-- `INIT_REQUEST` finds the first request of the queue in order. -/
theorem wp_requestFn {Q : Unit → Kernel D → (ι → Own) → Prop} (h : ∀ k', Q () k' l) :
    wp (discipline D ι m) p (requestFn d) Q k l := by
  rw [requestFn, wp_bind]
  refine wp_get fun k₁ _ hinv₁ => ?_
  cases hinit : k₁.initRequest d with
  | none => exact h k₁
  | some msg =>
    rw [wp_panic]
    rw [initRequest] at hinit
    split at hinit
    · cases hinit
    · rename_i req rest hqueue
      have hmem : req ∈ k₁.queue d := by
        rw [hqueue]
        exact List.mem_cons_self
      split at hinit
      · rename_i hmajor
        cases hinit
        refine Or.inr (Or.inr ⟨fun hm => ?_, rfl⟩)
        exact hmajor (hinv₁.queued.device hm d req hmem)
      · split at hinit
        · rename_i hlock
          have hlocked := (hinv₁.queued.request req (mem_requests_of_mem hinv₁.queued.none hmem)).1
          rw [hlocked] at hlock
          cases hlock
        · cases hinit

/-- `make_request` for a buffer of the device `d`. -/
theorem wp_lockedRequest (hidle : (l p).wants = none ∧ (l p).locked = none) (hd : d < 7)
    (hmajor : m.queue → major (k.bh b).tag.dev.toNat = d) (hhold : (k.bh b).lock = false ∨ (l p).Holds b)
    (hrw : rw = .read ∨ rw = .write) :
    wp (discipline D ι m) p (lockedRequest n d rw ahead b) (fun _ _ l' => l' p = l p) k l := by
  rw [lockedRequest, wp_bind]
  refine wp_lockBuffer hidle.1 hhold fun k₁ l₁ t _ hl₁ htag => ?_
  have hback : ∀ l₂ : ι → Own, l₂ p = { l₁ p with locked := none } → l₂ p = l p := by
    intro l₂ hl₂
    rw [hl₂, hl₁]
    dsimp only
    rw [← hidle.2]
  have hlocked : (l₁ p).locked = some ⟨b, t⟩ := by rw [hl₁]
  rw [wp_bind]
  refine wp_get fun k₂ _ _ => ?_
  split
  · exact wp_unlockBuffer hlocked fun _ l₃ _ hl₃ => hback l₃ hl₃
  · rw [wp_bind]
    refine wp_findRequest rfl (fun k₃ l₃ hl₃ => ?_) fun k₃ l₃ req hl₃ hfree hslot => ?_
    · refine wp_unlockBuffer (by rw [hl₃]; exact hlocked) fun _ l₄ _ hl₄ => hback l₄ ?_
      rw [hl₄, hl₃]
    · dsimp only
      rw [wp_bind]
      refine wp_step fun k₄ hk₄ hinv₄ _ => ?_
      have hslot₄ : (k₄.request req).dev < 0 := by
        rw [hk₄.slot req hfree]
        exact hfree
      have hbooks := hinv₄.enqueue (p := p) (by rw [hl₃]; exact hlocked) hd
        (fun hm => by rw [htag hm]; exact hmajor hm) hslot₄ hslot hrw
      have hown : update l₃ p { l₃ p with locked := none } p = l p := by
        refine hback _ ?_
        rw [update_self, hl₃]
      refine ⟨hinv₄.queued.enqueue_leaves hslot₄, hbooks, ?_⟩
      split
      · exact wp_requestFn fun _ => hown
      · exact hown

theorem wp_makeRequest (hidle : (l p).wants = none ∧ (l p).locked = none) (hd : d < 7)
    (hmajor : m.queue → major (k.bh b).tag.dev.toNat = d) (hhold : (k.bh b).lock = false ∨ (l p).Holds b) :
    wp (discipline D ι m) p (makeRequest n d rw b) (fun _ _ l' => l' p = l p) k l := by
  have hahead : ∀ rw, (rw = .read ∨ rw = .write) → wp (discipline D ι m) p (do
      let k ← get
      if (k.bh b).lock then pure () else lockedRequest n d rw true b) (fun _ _ l' => l' p = l p) k l := by
    intro rw hrw
    rw [wp_bind]
    refine wp_get fun k₁ hk₁ _ => ?_
    split
    · rfl
    · rename_i hfree
      refine wp_lockedRequest hidle hd (fun hm => ?_) (.inl (eq_false_of_ne_true hfree)) hrw
      rw [hk₁.tag]
      exact hmajor hm
  cases rw with
  | reada => exact hahead .read (.inl rfl)
  | writea => exact hahead .write (.inr rfl)
  | read => exact wp_lockedRequest hidle hd hmajor hhold (.inl rfl)
  | write => exact wp_lockedRequest hidle hd hmajor hhold (.inr rfl)

/-- **`ll_rw_block`** for a buffer that the process holds, or that is not locked. -/
theorem wp_llRwBlock (hidle : (l p).wants = none ∧ (l p).locked = none)
    (hhold : (k.bh b).lock = false ∨ (l p).Holds b) :
    wp (discipline D ι m) p (llRwBlock n rw b) (fun _ _ l' => l' p = l p) k l := by
  rw [llRwBlock, wp_bind]
  refine wp_get fun k₁ hk₁ _ => ?_
  dsimp only
  split
  · rfl
  · rename_i hdriver
    refine wp_makeRequest hidle (by omega) (fun _ => rfl) ?_
    exact hhold.imp_left (hk₁.lock b)

end OldLinux.Buffers
