import OldLinux.Buffers.Locking

/-!
# `getblk` and what it calls

Each function of the cache keeps the books, and says by what the process has afterwards what it has done:
a reference more, one less, or none.  `getblk` comes back to itself through `sync_dev` and `sync_inodes`;
the number of rounds that are left bounds the depth.
-/

namespace OldLinux.Buffers

open Function Lib.Processes Kernel

variable {D : Type} {ι : Type*} [Fintype ι] [DecidableEq ι] {m : Mode} {k k' : Kernel D} {l l' : ι → Own}
variable {p : ι} {b i n : ℕ} {t : Tag} {x : Own} {sync : BitVec 16 → Prog D Unit} {getblk : Tag → Prog D ℕ}

theorem Own.put_get (x : Own) (r : Ref) : (x.get r).put r.bh = x := by
  rw [Own.put, Own.get, List.eraseP_cons_of_pos (by simp)]

theorem Own.holds_get (x : Own) (r : Ref) : (x.get r).Holds r.bh := ⟨r, List.mem_cons_self, rfl⟩

/-- A step that the books do not see. -/
theorem wp_modify {f : Kernel D → Kernel D} {Q : Kernel D → Kernel D → (ι → Own) → Prop}
    (hf : ∀ k, Same k (f k)) (h : ∀ k', Q k' (f k') l) : wp (discipline D ι m) p (modify f) Q k l := by
  refine wp_step fun k' _ hinv _ => ?_
  dsimp only
  rw [update_eq_self]
  exact ⟨leaves_all (hf k').queue (hf k').request (hf k').completed, hinv.congr (hf k') (SameOwn.refl l), h k'⟩

/-! ### References -/

/-- A buffer that is found gets a reference, and loses it when it is for another block after the sleep. -/
theorem does_getHashTable (hx : x.Idle) : Does (discipline D ι m) p x (getHashTable t n : Prog D _)
    fun r y => y = match r with | none => x | some b => x.get ⟨b, t⟩ := by
  induction n with
  | zero => exact fun _ _ _ => wp_stuck
  | succ n ih =>
    intro k l hl
    rw [getHashTable, wp_bind]
    refine wp_get fun k₁ _ _ => ?_
    cases hfind : k₁.findBuffer t with
    | none => exact hl
    | some b =>
      dsimp only
      have htag : (k₁.bh b).tag = t := by
        have hfound := List.find?_some hfind
        simpa using hfound
      rw [wp_bind]
      refine wp_step fun k₂ hk₂ hinv₂ _ => ?_
      have hbooks := hinv₂.countUp (p := p) b
      have hown : update l p ((l p).get ⟨b, (k₂.bh b).tag⟩) p = x.get ⟨b, t⟩ := by
        rw [update_self, hl, hk₂.tag, htag]
      have hrest : ∀ k₃ l₃, l₃ p = x.get ⟨b, t⟩ → wp (discipline D ι m) p (do
          let k ← get
          if (k.bh b).tag = t then pure (some b)
          else do
            let _ ← countDown b
            getHashTable t n : Prog D _)
          (fun r _ l => l p = match r with | none => x | some b => x.get ⟨b, t⟩) k₃ l₃ := by
        intro k₃ l₃ hl₃
        rw [wp_bind]
        refine wp_get fun k₄ _ _ => ?_
        split
        · exact hl₃
        · rw [wp_bind]
          refine wp_step fun k₅ _ hinv₅ _ => ?_
          have hdown := hinv₅.countDown (p := p) (b := b) (by rw [hl₃]; exact x.holds_get ⟨b, t⟩)
            (by rw [hl₃]; exact hx.1)
          refine ⟨leaves_all rfl rfl rfl, hdown, ih _ _ ?_⟩
          rw [update_self, hl₃]
          exact x.put_get ⟨b, t⟩
      refine ⟨leaves_all rfl rfl rfl, hbooks, ?_⟩
      rw [wp_bind]
      exact wp_waitOnBuffer (fun k₃ _ _ _ => hrest k₃ _ hown) fun _ k₃ l₃ _ hl₃ _ =>
        hrest k₃ l₃ (hl₃.trans hown)

/-- A reference is dropped without waiting. -/
theorem does_countDown (hx : x.Idle) (hb : x.Holds b) :
    Does (discipline D ι m) p x (countDown b : Prog D _) fun _ y => y = x.put b := by
  intro k l hl
  refine wp_step fun k₁ _ hinv₁ _ => ?_
  refine ⟨leaves_all rfl rfl rfl, hinv₁.countDown (by rw [hl]; exact hb) (by rw [hl]; exact hx.1), ?_⟩
  dsimp only
  rw [update_self, hl]

/-- **`brelse`** gives a reference back. -/
theorem does_brelse (hx : x.Idle) (hb : x.Holds b) :
    Does (discipline D ι m) p x (brelse b : Prog D _) fun _ y => y = x.put b := by
  intro k l hl
  have hrest : ∀ k₁ l₁, l₁ p = x → wp (discipline D ι m) p (do
      let k ← countDown b
      if (k.bh b).count = 0 then .panic "Trying to free free buffer"
      else do
        let _ ← modify fun k => { k with bufferWait := k.bufferWait + 1 } : Prog D _)
      (fun _ _ l => l p = x.put b) k₁ l₁ := by
    intro k₁ l₁ hl₁
    have hholds : (l₁ p).Holds b := by
      rw [hl₁]
      exact hb
    rw [wp_bind]
    refine wp_step fun k₂ _ hinv₂ hmay => ?_
    have hdown := hinv₂.countDown (p := p) hholds (by rw [hl₁]; exact hx.1)
    refine ⟨leaves_all rfl rfl rfl, hdown, ?_⟩
    split
    · rename_i hzero
      refine Or.inr (Or.inl ⟨fun hs => ?_, rfl⟩)
      have hmany := outstanding_of_count_zero hinv₂ hzero hholds
      have hfew := hmay.2.1 hs b
      omega
    · rw [wp_bind]
      refine wp_modify (fun _ => ⟨rfl, rfl, rfl, fun _ => rfl, fun _ => rfl, fun _ => rfl, rfl, rfl, rfl, rfl,
        rfl, rfl⟩) fun k₃ => ?_
      show update l₁ p _ p = _
      rw [update_self, hl₁]
  rw [brelse, wp_bind]
  exact wp_waitOnBuffer (fun k₁ _ _ _ => hrest k₁ l hl) fun _ k₁ l₁ _ hl₁ _ => hrest k₁ l₁ (hl₁.trans hl)

/-! ### `getblk` -/

/-- What `getblk` picks from the free list is in it. -/
theorem leastBad_mem {q : List ℕ} {bh : Option ℕ} (h : k.leastBad q bh = some b) : b ∈ q ∨ bh = some b := by
  induction q generalizing bh with
  | nil => exact Or.inr h
  | cons tmp q ih =>
    rw [leastBad] at h
    have hlater : ∀ {bh'}, k.leastBad q bh' = some b → b ∈ tmp :: q ∨ bh' = some b :=
      fun h => (ih h).imp_left (List.mem_cons_of_mem tmp)
    split at h
    · exact hlater h
    · split at h
      · split at h
        · exact Or.inl (Option.some.inj h ▸ List.mem_cons_self)
        · exact Or.inl ((hlater h).elim id fun h => Option.some.inj h ▸ List.mem_cons_self)
      · exact hlater h

/-- What is found does not depend on the devices. -/
theorem Later.findBuffer (h : Later k k') (t : Tag) : k'.findBuffer t = k.findBuffer t := by
  rw [Kernel.findBuffer, Kernel.findBuffer, h.hash]
  congr 1
  funext c
  rw [h.tag]

/-- A buffer that is free, whatever is in it. -/
def Spare (k : Kernel D) (b : ℕ) : Prop := (k.bh b).count = 0 ∧ (k.bh b).lock = false

theorem Spare.later (h : Spare k b) (hk : Later k k') : Spare k' b :=
  ⟨(hk.count b).trans h.1, hk.lock b h.2⟩

/-- `sync_dev` leaves the process as it was; in a careful run it is called without a locked inode. -/
def Syncs (m : Mode) (p : ι) (sync : BitVec 16 → Prog D Unit) : Prop :=
  ∀ x : Own, x.Idle → (m.careful → x.inodes = []) →
  ∀ dev, Does (discipline D ι m) p x (sync dev) fun _ y => y = x

/-- The buffer is written out until it is clean. -/
theorem wp_clean (hsync : Syncs m p sync) (hx : x.Idle) (hl : l p = x) (hb : Spare k b) :
    wp (discipline D ι m) p (clean sync b n) (fun r k l => l p = x ∧ (r = true → Spare k b)) k l := by
  induction n generalizing k l with
  | zero => exact wp_stuck
  | succ n ih =>
    rw [clean, wp_bind]
    refine (wp_look (fun _ => leaves_all rfl rfl rfl) ..).2 fun k₁ hk₁ _ => ⟨trivial, fun hmay => ?_⟩
    split
    · rename_i hdirt
      rw [wp_bind]
      have hcareful : m.careful → x.inodes = [] := by
        intro hm
        rw [← hl]
        exact hmay.2.2 hm b rfl hdirt
      apply wp_mono (hsync x hx hcareful _ k₁ l hl)
      intro _ k₂ l₂ hl₂
      have hrest : ∀ k₃ l₃, l₃ p = x → (k₃.bh b).lock = false → wp (discipline D ι m) p (do
          let k ← get
          if (k.bh b).count ≠ 0 then pure false else clean sync b n)
          (fun r k l => l p = x ∧ (r = true → Spare k b)) k₃ l₃ := by
        intro k₃ l₃ hl₃ hlock
        rw [wp_bind]
        refine wp_get fun k₄ hk₄ _ => ?_
        split
        · exact ⟨hl₃, fun h => (by cases h)⟩
        · rename_i hcount
          exact ih hl₃ ⟨not_not.1 hcount, hk₄.lock b hlock⟩
      rw [wp_bind]
      exact wp_waitOnBuffer (fun k₃ _ _ hlock => hrest k₃ l₂ hl₂ hlock)
        fun _ k₃ l₃ _ hl₃ hlock => hrest k₃ l₃ (hl₃.trans hl₂) hlock
    · exact ⟨hl, fun _ => hb.later hk₁⟩

/-- **`getblk`** returns a buffer for the block, with a reference to it. -/
theorem does_getblkLoop (hsync : Syncs m p sync) (hx : x.Idle) :
    Does (discipline D ι m) p x (getblkLoop sync t n) fun b y => y = x.get ⟨b, t⟩ := by
  induction n with
  | zero => exact fun _ _ _ => wp_stuck
  | succ n ih =>
    intro k l hl
    rw [getblkLoop, wp_bind]
    apply wp_mono (does_getHashTable hx k l hl)
    intro r k₁ l₁ hr
    cases r with
    | some b => exact hr
    | none =>
      dsimp only at hr ⊢
      rw [wp_bind]
      refine wp_get fun k₂ _ hinv₂ => ?_
      cases hleast : k₂.leastBad k₂.freeList none with
      | none =>
        dsimp only
        rw [wp_bind]
        refine wp_get fun k₃ _ _ => ?_
        rw [wp_bind]
        refine (wp_await ..).2 fun k₄ _ _ => ⟨trivial, fun _ => ⟨fun _ => ih k₄ l₁ hr, fun _ k₅ l₅ _ hl₅ => ?_⟩⟩
        exact ⟨trivial, fun _ _ => ih k₅ l₅ (hl₅.trans hr)⟩
      | some b =>
        dsimp only
        have hbuf : b < m.buffers := by
          rw [← hinv₂.size]
          exact (hinv₂.cached.free b).1 ((leastBad_mem hleast).resolve_right fun h => (by cases h))
        have hrest : ∀ k₃ l₃, l₃ p = x → (k₃.bh b).lock = false → wp (discipline D ι m) p (do
            let k ← get
            if (k.bh b).count ≠ 0 then getblkLoop sync t n
            else if ← clean sync b n then do
              let k ← get
              if (k.findBuffer t).isSome then getblkLoop sync t n
              else if b ∉ k.freeList then .panic "Free block list corrupted"
              else do
                let _ ← change .plain fun k x => (k.assign b t, x.get ⟨b, t⟩)
                pure b
            else getblkLoop sync t n) (fun b _ l => l p = x.get ⟨b, t⟩) k₃ l₃ := by
          intro k₃ l₃ hl₃ hlock
          rw [wp_bind]
          refine wp_get fun k₄ hk₄ _ => ?_
          split
          · exact ih k₄ l₃ hl₃
          · rename_i hcount
            rw [wp_bind]
            apply wp_mono (wp_clean hsync hx hl₃ ⟨not_not.1 hcount, hk₄.lock b hlock⟩)
            rintro r k₅ l₅ ⟨hl₅, hspare⟩
            split
            · rename_i hr
              rw [wp_bind]
              refine wp_get fun k₆ hk₆ hinv₆ => ?_
              split
              · exact ih k₆ l₅ hl₅
              · rename_i hfind
                have hfree : ∀ k' : Kernel D, Books m k' l₅ → b ∈ k'.freeList := by
                  intro k' hinv
                  rw [hinv.cached.free, hinv.size]
                  exact hbuf
                split
                · rename_i hnot
                  exact absurd (hfree k₆ hinv₆) hnot
                · rw [wp_bind]
                  refine wp_step fun k₇ hk₇ hinv₇ hmay => ?_
                  have hnone : k₇.findBuffer t = none := by
                    rw [hk₇.findBuffer]
                    simpa using hfind
                  have hspare₇ := ((hspare hr).later hk₆).later hk₇
                  refine ⟨leaves_all rfl rfl rfl,
                    hinv₇.assign hmay (hfree k₇ hinv₇) hnone hspare₇.2 hspare₇.1, ?_⟩
                  show update l₅ p _ p = _
                  rw [update_self, hl₅]
            · exact ih k₅ l₅ hl₅
        rw [wp_bind]
        exact wp_waitOnBuffer (fun k₃ _ _ hlock => hrest k₃ l₁ hr hlock)
          fun _ k₃ l₃ _ hl₃ hlock => hrest k₃ l₃ (hl₃.trans hr) hlock

/-- `getblk` as the other functions call it. -/
def Gets (m : Mode) (p : ι) (getblk : Tag → Prog D ℕ) : Prop :=
  ∀ x : Own, x.Idle → ∀ t, Does (discipline D ι m) p x (getblk t) fun b y => y = x.get ⟨b, t⟩

/-- The buffer that is returned is the one of the block, and it is in use. -/
theorem gets_getblkWith (hsync : Syncs m p sync) : Gets m p (getblkWith sync n : Tag → Prog D ℕ) := by
  intro x hx t k l hl
  rw [getblkWith, wp_bind]
  apply wp_mono (does_getblkLoop hsync hx k l hl)
  intro b k₁ l₁ hl₁
  rw [wp_bind]
  refine (wp_look (fun _ => leaves_all rfl rfl rfl) ..).2 fun k₂ _ hinv₂ => ⟨fun hs hfew => ?_, fun _ => hl₁⟩
  have hmem : ⟨b, t⟩ ∈ (l₁ p).held := by
    rw [hl₁]
    exact List.mem_cons_self
  refine ⟨hinv₂.counted.held hs p _ hmem, fun hzero => ?_⟩
  have hmany := outstanding_of_count_zero hinv₂ hzero ⟨_, hmem, rfl⟩
  omega

/-! ### `bread` -/

theorem does_llRwBlock {rw : Rw} (hx : x.Idle) (hb : x.Holds b) :
    Does (discipline D ι m) p x (llRwBlock n rw b : Prog D _) fun _ y => y = x := by
  intro k l hl
  apply wp_mono (wp_llRwBlock (by rw [hl]; exact hx) (.inr (by rw [hl]; exact hb)))
  intro _ _ l₁ hl₁
  exact hl₁.trans hl

theorem does_waitOnBuffer : Does (discipline D ι m) p x (waitOnBuffer b : Prog D _) fun _ y => y = x := by
  intro k l hl
  exact wp_waitOnBuffer (fun _ _ _ _ => hl) fun _ _ _ _ hl₁ _ => hl₁.trans hl

theorem does_get : Does (discipline D ι m) p x (get : Prog D _) fun _ y => y = x :=
  fun _ _ hl => wp_get fun _ _ _ => hl

theorem does_modify {f : Kernel D → Kernel D} (hf : ∀ k, Same k (f k)) :
    Does (discipline D ι m) p x (modify f) fun _ y => y = x :=
  fun _ _ hl => wp_modify hf fun _ => hl

/-- **`bread`** returns a buffer for the block with a reference to it, or gives the reference back. -/
theorem does_breadWith (hget : Gets m p getblk) (hx : x.Idle) :
      Does (discipline D ι m) p x (breadWith getblk n t)
      fun r y => y = match r with | none => x | some b => x.get ⟨b, t⟩ := by
  refine Does.bind (hget x hx t) ?_
  rintro b _ rfl
  refine Does.bind does_get ?_
  rintro k _ rfl
  split
  · exact Does.pure rfl
  · refine Does.bind (does_llRwBlock hx (x.holds_get ⟨b, t⟩)) ?_
    rintro _ _ rfl
    refine Does.then does_waitOnBuffer fun _ => ?_
    refine Does.bind does_get ?_
    rintro k _ rfl
    split
    · exact Does.pure rfl
    · refine Does.bind (does_brelse hx (x.holds_get ⟨b, t⟩)) ?_
      rintro _ _ rfl
      exact Does.pure (x.put_get ⟨b, t⟩)

/-! ### Inodes -/

/-- A wait for an inode that the process has not locked itself. -/
theorem does_waitOnInode (hi : m.careful → i ∉ x.inodes) :
    Does (discipline D ι m) p x (waitOnInode i : Prog D _) fun _ y => y = x := by
  intro k l hl
  have hmust : ∀ l' : ι → Own, l' p = x → m.careful → i ∉ (l' p).inodes := by
    intro l' hl' hm
    rw [hl']
    exact hi hm
  refine (wp_await ..).2 fun k₁ _ _ => ⟨hmust l hl, fun _ => ⟨fun _ => hl, fun _ k₂ l₂ _ hl₂ => ?_⟩⟩
  exact ⟨hmust l₂ (hl₂.trans hl), fun _ _ => hl₂.trans hl⟩

/-- A change of an inode and of the inodes that the process has locked. -/
theorem does_setInode (f : Inode → Inode) (g : List ℕ → List ℕ) : Does (discipline D ι m) p x
      (change .plain fun k x => (k.setInode i f, { x with inodes := g x.inodes }) : Prog D _)
      fun _ y => y = { x with inodes := g x.inodes } := by
  intro k l hl
  refine wp_step fun k₁ _ hinv₁ _ => ?_
  refine ⟨leaves_all rfl rfl rfl,
    hinv₁.congr ⟨rfl, rfl, rfl, fun _ => rfl, fun _ => rfl, fun _ => rfl, rfl, rfl, rfl, rfl, rfl, rfl⟩
    fun q => ?_, ?_⟩
  · by_cases hq : q = p
    · rw [hq, update_self]
      exact ⟨rfl, rfl, rfl⟩
    · rw [update_of_ne hq]
      exact ⟨rfl, rfl, rfl⟩
  · rw [update_self, hl]

theorem does_lockInode (hi : m.careful → i ∉ x.inodes) :
    Does (discipline D ι m) p x (lockInode i : Prog D _) fun _ y => y = { x with inodes := i :: x.inodes } := by
  refine Does.then (does_waitOnInode hi) fun _ => ?_
  refine Does.bind (does_setInode _ (i :: ·)) ?_
  rintro _ _ rfl
  exact Does.pure rfl

theorem does_unlockInode :
    Does (discipline D ι m) p { x with inodes := i :: x.inodes } (unlockInode i : Prog D _) fun _ y =>
    y = x := by
  refine Does.bind (does_setInode _ (·.erase i)) ?_
  rintro _ _ rfl
  refine Does.pure ?_
  dsimp only
  rw [List.erase_cons_head]

theorem does_getSuper {dev : BitVec 16} :
    Does (discipline D ι m) p x (getSuper dev n : Prog D _) fun _ y => y = x := by
  induction n with
  | zero => exact fun _ _ _ => wp_stuck
  | succ n ih =>
    have hwait : ∀ s, Does (discipline D ι m) p x (await .plain fun k => !(k.super s).lock : Prog D _)
        fun _ y => y = x := by
      intro s k l hl
      exact (wp_await ..).2 fun _ _ _ =>
        ⟨trivial, fun _ => ⟨fun _ => hl, fun _ _ _ _ hl₂ => ⟨trivial, fun _ _ => hl₂.trans hl⟩⟩⟩
    refine Does.then does_get fun k => ?_
    split
    · exact Does.pure rfl
    · split
      · exact Does.pure rfl
      · rename_i s _
        refine Does.then (hwait s) fun _ => ?_
        refine Does.then does_get fun k => ?_
        split
        · exact Does.pure rfl
        · exact ih

theorem does_panic {α : Type} {post : α → Own → Prop} {msg : String} (h : mayPanic m msg) :
    Does (discipline D ι m) p x (.panic msg) post := fun _ _ _ => h

/-- A store into a buffer. -/
theorem does_store {f : D → D} : Does (discipline D ι m) p x (store b f) fun _ y => y = x :=
  does_modify fun k => Same.setBh k b _ fun _ => ⟨rfl, rfl, rfl⟩

variable [Format D]

/-- `write_inode` for an inode that the process has not locked. -/
theorem does_writeInodeWith (hget : Gets m p getblk) (hx : x.Idle) (hi : m.careful → i ∉ x.inodes) :
    Does (discipline D ι m) p x (writeInodeWith getblk n i) fun _ y => y = x := by
  refine Does.bind (does_lockInode hi) ?_
  rintro _ _ rfl
  refine Does.then does_get fun k => ?_
  split
  · exact does_unlockInode
  · refine Does.then does_getSuper fun s => ?_
    split
    · exact does_panic (.inl (by simp [inodePanics]))
    · rename_i s
      refine Does.then does_get fun k₁ => ?_
      refine Does.bind (does_breadWith hget (x := { x with inodes := i :: x.inodes }) hx) ?_
      rintro r _ rfl
      cases r with
      | none => exact does_panic (.inl (by simp [inodePanics]))
      | some b =>
        dsimp only
        refine Does.then does_get fun k₂ => ?_
        refine Does.then does_store fun _ => ?_
        refine Does.then (does_modify fun k =>
          ⟨rfl, rfl, rfl, fun _ => rfl, fun _ => rfl, fun _ => rfl, rfl, rfl,
          rfl, rfl, rfl, rfl⟩) fun _ => ?_
        refine Does.bind (does_brelse hx (Own.holds_get _ ⟨b, _⟩)) ?_
        rintro _ _ rfl
        rw [Own.put_get _ ⟨b, _⟩]
        exact does_unlockInode

theorem does_syncInodesWith (hget : Gets m p getblk) (hx : x.Idle) (hi : m.careful → x.inodes = []) :
    Does (discipline D ι m) p x (syncInodesWith getblk n) fun _ y => y = x := by
  have hnot : ∀ i, m.careful → i ∉ x.inodes := by
    intro i hm
    rw [hi hm]
    exact List.not_mem_nil
  refine Does.forEach fun i _ => ?_
  refine Does.then (does_waitOnInode (hnot i)) fun _ => ?_
  refine Does.then does_get fun k => ?_
  split
  · exact does_writeInodeWith hget hx (hnot i)
  · exact Does.pure rfl

/-! ### `sync_dev` -/

omit [Format D] in
/-- A loop body that waits for a buffer and then writes it. -/
theorem does_writeUnlocked (hx : x.Idle) (q : Kernel D → Prop) [DecidablePred q] :
    Does (discipline D ι m) p x (do
      waitOnBuffer b
      let k ← get
      if q k then llRwBlock n .write b else pure () : Prog D _) fun _ y => y = x := by
  intro k₁ l₁ hl₁
  have hrest : ∀ k₂ l₂, l₂ p = x → (k₂.bh b).lock = false → wp (discipline D ι m) p (do
      let k ← get
      if q k then llRwBlock n .write b else pure () : Prog D _) (fun _ _ l => l p = x) k₂ l₂ := by
    intro k₂ l₂ hl₂ hlock
    rw [wp_bind]
    refine wp_get fun k₃ hk₃ _ => ?_
    split
    · apply wp_mono (wp_llRwBlock (by rw [hl₂]; exact hx) (.inl (hk₃.lock b hlock)))
      intro _ _ l₄ hl₄
      exact hl₄.trans hl₂
    · exact hl₂
  rw [wp_bind]
  exact wp_waitOnBuffer (fun k₂ _ _ hlock => hrest k₂ l₁ hl₁ hlock)
    fun _ k₂ l₂ _ hl₂ hlock => hrest k₂ l₂ (hl₂.trans hl₁) hlock

omit [Format D] in
/-- A buffer that is not held is not locked when it is written out. -/
theorem does_writeOut (hx : x.Idle) {dev : BitVec 16} :
    Does (discipline D ι m) p x (writeOut n dev b : Prog D _) fun _ y => y = x := by
  refine Does.then does_get fun k => ?_
  split
  · exact Does.pure rfl
  · exact does_writeUnlocked hx fun k => (k.bh b).tag.dev = dev ∧ (k.bh b).dirt

/-- **`sync_dev`** comes back to `getblk` with one round less. -/
theorem syncs_syncDev : Syncs m p (syncDev n : BitVec 16 → Prog D Unit) := by
  induction n with
  | zero => exact fun _ _ _ _ _ _ _ => wp_stuck
  | succ n ih =>
    intro x hx hi dev
    refine Does.then does_get fun k => ?_
    refine Does.then (Does.forEach fun b _ => does_writeOut hx) fun _ => ?_
    refine Does.then (does_syncInodesWith (gets_getblkWith ih) hx hi) fun _ => ?_
    exact Does.forEach fun b _ => does_writeOut hx

theorem gets_getblk : Gets m p (Buffers.getblk n : Tag → Prog D ℕ) := gets_getblkWith syncs_syncDev

end OldLinux.Buffers
