import OldLinux.Malloc.Runs

/-!
# `free_s` and interrupts

The search of `free_s` runs with interrupts enabled, and an interrupt may call `malloc` and `free_s`.
As long as no interrupt gives up the descriptor the search has come to, the search finds the
descriptor of its object, and what comes after `cli` is right whatever `prev` is.  A descriptor that
an interrupt gives up under the search leads it along `free_bucket_desc` and into a panic.
-/

namespace OldLinux.Malloc

open Lib Memory

variable {A A' : Allocator} {W W' : World} {L L' : ℕ → List ℕ} {objs : ℕ → List ℕ} {i d e r : ℕ}
  {size : ℤ} {s : Search} {x y : ℕ × Word} {c : Call} {l₁ l₂ : List ℕ}

/-- `free_s` during its search. -/
structure Freeing where
  world : World
  search : Search

/-- A step of the search, or a call that runs as an interrupt. -/
inductive Turn where
  | step
  | call (c : Call)
deriving DecidableEq

def Freeing.turn (x : ℕ × Word) (size : ℤ) (F : Freeing) : Turn → Option Freeing
  | .step => some { F with search := F.world.alloc.searchStep (pageOf x.1) size F.search }
  | .call c => (F.world.call c).map fun W => { F with world := W }

/-- Interrupts free other objects and write into other objects. -/
def Freeing.Possible (x : ℕ × Word) (F : Freeing) : Turn → Prop
  | .step => True
  | .call (.free obj len size) => (obj, len) ≠ x ∧ F.world.Allowed (.free obj len size)
  | .call (.write a _) => ∃ y ∈ F.world.objects, y ≠ x ∧ y.1 ≤ a ∧ a < y.1 + capacity y.2
  | .call c => F.world.Allowed c

/-- The descriptor the search has come to. -/
def Search.cursor : Search → Option ℕ
  | .look _ _ b => some b
  | .advance _ b => some b
  | _ => none

/-- The call does not free the last object of the page whose descriptor the search has come to. -/
def Freeing.Spares (F : Freeing) : Turn → Prop
  | .call (.free obj _ _) => ∀ b, F.search.cursor = some b →
      ¬((F.world.alloc.desc b).page = pageOf obj ∧ (F.world.alloc.desc b).refcnt = 1)
  | _ => True

/-! ### What an interrupt does to the search -/

theorem prevOk_mono (h : ∀ p ∈ A.descPages, p ∈ A'.descPages) {prev : ℕ} (hp : PrevOk A prev) :
    PrevOk A' prev := by
  refine hp.imp_right ?_
  intro hdesc
  obtain ⟨p, hp, hk⟩ := hdesc
  exact ⟨p, h p hp, hk⟩

/-- Chains that got longer in front. -/
theorem Tracks.grown (h : Tracks A L i d r s) (hi : i < 9) (hg : Grown A A' L L') : Tracks A' L' i d r s := by
  cases s with
  | dir j => exact h
  | look j prev b =>
    obtain ⟨hj, hprev, l₁, l₂, hl, hb, hd, hr⟩ := h
    obtain ⟨m, hm⟩ := hg.longer j (by omega)
    refine ⟨hj, prevOk_mono hg.tables hprev, m ++ l₁, l₂, ?_, hb, hd, hr⟩
    rw [hm, hl, List.append_assoc]
  | advance j b =>
    obtain ⟨hj, l₁, l₂, hl, hd, hr⟩ := h
    obtain ⟨m, hm⟩ := hg.longer j (by omega)
    refine ⟨hj, m ++ l₁, l₂, ?_, hd, hr⟩
    rw [hm, hl, List.append_assoc]
  | found j prev b => exact ⟨h.1, h.2.1, prevOk_mono hg.tables h.2.2⟩
  | lost => exact h

/-- One descriptor less, which is not `b`. -/
theorem erase_split (l₁ l₂ : List ℕ) {b : ℕ} (h : e ≠ b) : ∃ m₁ m₂, (l₁ ++ b :: l₂).erase e = m₁ ++ b :: m₂ ∧
    m₂.length ≤ l₂.length ∧ ∀ d ∈ l₂, d ≠ e → d ∈ m₂ := by
  by_cases he : e ∈ l₁
  · exact ⟨l₁.erase e, l₂, List.erase_append_left _ he, le_rfl, fun _ hd _ => hd⟩
  · refine ⟨l₁, l₂.erase e, ?_, List.length_erase_le, fun d hd hde => (List.mem_erase_of_ne hde).2 hd⟩
    rw [List.erase_append_right _ he, List.erase_cons_tail (by simpa using h.symm)]

/-- A chain without a descriptor that the search has not come to. -/
theorem Tracks.erased (h : Tracks A L i d r s) (hi : i < 9) {k : ℕ} (hde : d ≠ e)
    (hne : ∀ b, s.cursor = some b → e ≠ b) (htables : ∀ p ∈ A.descPages, p ∈ A'.descPages) :
    Tracks A' (retire L k e) i d r s := by
  have hlist : ∀ j, j < 9 → retire L k e j = if j = k then (L j).erase e else L j := by
    intro j hj
    rw [retire_of_ne (by omega), without, Function.update_apply]
    split
    · rename_i hjk
      rw [hjk]
    · rfl
  cases s with
  | dir j => exact h
  | look j prev b =>
    obtain ⟨hj, hprev, l₁, l₂, hl, hb, hd, hr⟩ := h
    have hprev' := prevOk_mono htables hprev
    rw [Tracks, hlist j (by omega)]
    split
    · cases l₂ with
      | nil =>
        refine ⟨hj, hprev', (L j).erase e, [], ?_, hb, ?_, hr⟩
        · rw [List.append_nil]
        · intro hji
          exact absurd (hd hji) List.not_mem_nil
      | cons c l₂ =>
        have hbc : b = c := hb
        obtain ⟨m₁, m₂, hm, hlen, hmem⟩ :=
          erase_split l₁ l₂ (show e ≠ c by rw [← hbc]; exact hne b rfl)
        rw [List.length_cons] at hr
        refine ⟨hj, hprev', m₁, c :: m₂, by rw [hl, hm], hbc, ?_, by rw [List.length_cons]; omega⟩
        intro hji
        rcases List.mem_cons.1 (hd hji) with hdc | hdl
        · rw [hdc]
          exact List.mem_cons_self
        · exact List.mem_cons_of_mem c (hmem d hdl hde)
    · exact ⟨hj, hprev', l₁, l₂, hl, hb, hd, hr⟩
  | advance j b =>
    obtain ⟨hj, l₁, l₂, hl, hd, hr⟩ := h
    rw [Tracks, hlist j (by omega)]
    split
    · obtain ⟨m₁, m₂, hm, hlen, hmem⟩ := erase_split l₁ l₂ (hne b rfl)
      exact ⟨hj, m₁, m₂, by rw [hl, hm], fun hji => hmem d (hd hji) hde, by omega⟩
    · exact ⟨hj, l₁, l₂, hl, hd, hr⟩
  | found j prev b => exact ⟨h.1, h.2.1, prevOk_mono htables h.2.2⟩
  | lost => exact h

/-! ### Every turn keeps the search on the way -/

/-- The allocator is in order, the object is allocated and the search on the way to its descriptor. -/
structure Underway (x : ℕ × Word) (F : Freeing) (r : ℕ) : Prop where
  object : x ∈ F.world.objects
  way : ∃ L objs d, Sound F.world L objs ∧ Placed F.world.alloc L objs x d ∧
    Tracks F.world.alloc L (findBucket x.2) d r F.search

/-- The descriptor of an object stays the one it is. -/
theorem Ordered.same_desc {objs' : ℕ → List ℕ} {d' : ℕ} (h : Ordered W L objs)
    (hd : Placed W.alloc L objs x d) (hd' : Placed A' L' objs' x d')
    (hpage : pageOf x.1 = (A'.desc d').page) (hsame : (A'.desc d').page = (W.alloc.desc d').page)
    (hlisted : d' ∈ L (findBucket x.2)) : d' = d :=
  (h.desc_eq hd (findBucket_spec hd'.length).1 hlisted (hpage.trans hsame)).1

theorem Underway.malloc {F : Freeing} {len : Word} (h : Underway x F r) (hlen : len.toNat ≤ 4096)
    (hcall : F.world.call (.malloc len) = some W') : Underway x ⟨W', F.search⟩ r := by
  obtain ⟨hx, L, objs, d, hs, hd, ht⟩ := h
  obtain ⟨o, L', objs', hW, hA⟩ := hs.malloc_call hlen hcall
  have hx' : x ∈ W'.objects := by
    rw [hW]
    exact List.mem_cons_of_mem _ hx
  have hs' : Sound W' L' objs' := by
    rw [hW]
    exact hA.sound
  have hi := (findBucket_spec hd.length).1
  obtain ⟨d', hd'⟩ := hs'.placed x hx'
  have hdd : d = d' := by
    obtain ⟨m, hm⟩ := hA.grown.longer _ hi
    refine (hs'.desc_eq hd' hi (by rw [hm]; exact List.mem_append_right m hd.listed) ?_).1
    rw [hA.grown.pages _ hi d hd.listed]
    exact hs.placed_page hd
  refine ⟨hx', L', objs', d', hs', hd', ?_⟩
  rw [← hdd]
  exact ht.grown hi hA.grown

theorem Underway.free {F : Freeing} {obj : ℕ} {len : Word} {size : ℤ} (h : Underway x F r)
    (hne : (obj, len) ≠ x) (ha : F.world.Allowed (.free obj len size))
    (hspares : F.Spares (.call (.free obj len size)))
    (hcall : F.world.call (.free obj len size) = some W') : Underway x ⟨W', F.search⟩ r := by
  obtain ⟨hx, L, objs, d, hs, hd, ht⟩ := h
  obtain ⟨e, L', objs', hW, he, R⟩ := hs.free_call ha.1 ha.2 hcall
  have hx' : x ∈ W'.objects := by
    rw [hW]
    exact (List.mem_erase_of_ne hne.symm).2 hx
  have hs' : Sound W' L' objs' := by
    rw [hW]
    exact R.sound
  have hi := (findBucket_spec hd.length).1
  obtain ⟨d', hd'⟩ := hs'.placed x hx'
  have hpage := hs'.placed_page hd'
  have htables : ∀ p ∈ F.world.alloc.descPages, p ∈ W'.alloc.descPages := by
    rw [R.tables]
    exact fun _ hp => hp
  by_cases hone : (F.world.alloc.desc e).refcnt = 1
  · obtain ⟨hL, -, -⟩ := R.last hone
    rw [hL] at hd'
    obtain ⟨hlisted, hde⟩ := hs.mem_retire he.listed hi hd'.listed
    have hdd := hs.same_desc hd hd' hpage (R.pages d') hlisted
    rw [hdd] at hd' hde
    refine ⟨hx', L', objs', d, hs', by rw [hL]; exact hd', ?_⟩
    rw [hL]
    refine ht.erased hi hde.symm.symm ?_ htables
    intro b hb heb
    have hpe := hs.placed_page he
    exact hspares b hb ⟨by rw [← heb]; exact hpe.symm, by rw [← heb]; exact hone⟩
  · obtain ⟨hL, -⟩ := R.more hone
    rw [hL] at hd'
    have hdd := hs.same_desc hd hd' hpage (R.pages d') hd'.listed
    rw [hdd] at hd'
    refine ⟨hx', L', objs', d, hs', by rw [hL]; exact hd', ?_⟩
    rw [hL]
    exact ht.grown hi ⟨fun _ _ => ⟨[], rfl⟩, fun _ _ c _ => R.pages c, htables⟩

theorem Underway.step {F : Freeing} (h : Underway x F r) (hsize : size = 0 ∨ size = x.2.toNat) :
    Underway x { F with search := F.world.alloc.searchStep (pageOf x.1) size F.search } (r - 1) := by
  obtain ⟨hx, L, objs, d, hs, hd, ht⟩ := h
  have hsought := hs.toOrdered.sought hd hsize
  refine ⟨hx, L, objs, d, hs, hd, ?_⟩
  cases r with
  | zero =>
    obtain ⟨prev, hfound, hprev⟩ := ht.done hsought.bucket
    rw [hfound]
    exact ⟨rfl, rfl, hprev⟩
  | succ r => exact hsought.step ht

/-- **A turn**: the search comes nearer, and no interrupt drives it back. -/
theorem Underway.turn {F F' : Freeing} {e : Turn} (h : Underway x F r)
    (hsize : size = 0 ∨ size = x.2.toNat) (ha : F.Possible x e) (hspares : F.Spares e)
    (hturn : F.turn x size e = some F') :
    Underway x F' (if e = .step then r - 1 else r) := by
  cases e with
  | step =>
    cases hturn
    rw [if_pos rfl]
    exact h.step hsize
  | call c =>
    rw [if_neg Turn.noConfusion]
    obtain ⟨W', hW, hF⟩ := Option.map_eq_some_iff.1 hturn
    rw [← hF]
    cases c with
    | malloc len => exact h.malloc ha hW
    | free obj len size => exact h.free ha.1 ha.2 hspares hW
    | write a w =>
      cases hW
      obtain ⟨hx, L, objs, d, hs, hd, ht⟩ := h
      obtain ⟨y, hy, -, h1, h2⟩ := ha
      refine ⟨hx, L, objs, d, hs.write ⟨y, hy, h1, h2⟩, hd.same rfl hd.listed hd.taken, ?_⟩
      exact ht.grown (findBucket_spec hd.length).1 ⟨fun _ _ => ⟨[], rfl⟩, fun _ _ _ _ => rfl, fun _ hp => hp⟩

theorem Underway.run {F F' : Freeing} {es : List Turn} (h : Underway x F r)
    (hsize : size = 0 ∨ size = x.2.toNat)
    (ha : Along (Freeing.turn x size) (fun F e => F.Possible x e ∧ F.Spares e) F es)
    (hexec : exec (Freeing.turn x size) F es = some F') : Underway x F' (r - es.count .step) := by
  induction es generalizing F r with
  | nil =>
    cases hexec
    exact h
  | cons e es ih =>
    obtain ⟨F1, hturn, hrest⟩ := Option.bind_eq_some_iff.1 hexec
    have hnext := ih (h.turn hsize ha.1.1 ha.1.2 hturn) (ha.2 F1 hturn) hrest
    by_cases he : e = .step
    · rw [if_pos he] at hnext
      rw [he, List.count_cons_self, show r - (es.count Turn.step + 1) =
        r - 1 - es.count Turn.step from by omega]
      exact hnext
    · rw [if_neg he] at hnext
      rw [List.count_cons_of_ne he]
      exact hnext

/-- What `free_s` does once it has found the descriptor `b` on the chain of bucket `i`: it does not
panic and leaves the allocator in order; `Released` says what has become of the lists. -/
def Freeing.Finishes (x : ℕ × Word) (F : Freeing) (i prev b : ℕ) : Prop :=
  ∃ A' L objs L' objs', release x.1 i prev b F.world.alloc = .ok () A' ∧ Sound F.world L objs ∧
    b ∈ L i ∧ (F.world.alloc.desc b).page = pageOf x.1 ∧ Released F.world L x b A' L' objs'

theorem Underway.finishes {F : Freeing} {prev b : ℕ} (h : Underway x F r)
    (hfound : F.search = .found i prev b) : F.Finishes x i prev b := by
  obtain ⟨hx, L, objs, d, hs, hd, ht⟩ := h
  rw [hfound] at ht
  obtain ⟨hi, hb, hprev⟩ := ht
  obtain ⟨_, A', hrun, L', objs', R⟩ := ok_of_wp (hs.release hx hd hprev)
  rw [hi, hb]
  exact ⟨A', L, objs, L', objs', hrun, hs, hd.listed, (hs.placed_page hd).symm, R⟩

/-- **`free_s` survives interrupts** that spare the descriptor its search has come to: the search does
not get lost and ends after a bounded number of steps of its own, and what follows is right. -/
theorem free_s_survives_interrupts {F : Freeing} {es : List Turn} (hs : Sound W L objs)
    (hx : x ∈ W.objects) (hsize : size = 0 ∨ size = x.2.toNat)
    (ha : Along (Freeing.turn x size) (fun F e => F.Possible x e ∧ F.Spares e) ⟨W, .dir 0⟩ es)
    (hexec : exec (Freeing.turn x size) ⟨W, .dir 0⟩ es = some F) :
    (∃ L objs, Sound F.world L objs) ∧ F.search ≠ .lost ∧
      (searchSteps ≤ es.count .step → ∃ i prev b, F.search = .found i prev b) ∧
      ∀ i prev b, F.search = .found i prev b → F.Finishes x i prev b := by
  obtain ⟨d, hd⟩ := hs.placed x hx
  have h0 : Underway x ⟨W, .dir 0⟩ (10 * perBucket) :=
    ⟨hx, L, objs, d, hs, hd, tracks_start W.alloc L _ d⟩
  have hend := h0.run hsize ha hexec
  have hend' := hend
  obtain ⟨hx', L', objs', d', hs', hd', ht⟩ := hend'
  refine ⟨⟨L', objs', hs'⟩, ?_, ?_, fun i prev b hfound => hend.finishes hfound⟩
  · intro hlost
    rw [hlost] at ht
    exact ht
  · intro hsteps
    have hfuel : 10 * perBucket < searchSteps := by decide
    rw [show 10 * perBucket - es.count Turn.step = 0 from by omega] at ht
    obtain ⟨prev, hfound, -⟩ := ht.done (findBucket_spec hd'.length).1
    exact ⟨_, prev, d', hfound⟩

/-! ### A search that gets lost -/

/-- Two pages with an object of 4096 bytes each, as two calls of `malloc` leave them.  All 256
descriptors are in the page at 0x100000, the second bucket comes first on the chain. -/
def twoPages : World :=
  ⟨⟨⟨fun k => if k < 3 then 1 else 100, 0x1000000, fun _ _ => 0⟩,
    fun d =>
      if d = 0x100000 then ⟨0x101000, 0, 0, 1, 4096⟩
      else if d = 0x100010 then ⟨0x102000, 0x100000, 0, 1, 4096⟩
      else ⟨0, if d = 0x100ff0 then 0 else d + 16, 0, 0, 0⟩,
    fun i => if i = 8 then 0x100010 else 0, 0x100020, [0x100000]⟩,
    [(0x101000, 4096), (0x102000, 4096)]⟩

def twoLists (i : ℕ) : List ℕ :=
  if i = 8 then [0x100010, 0x100000] else if i = 9 then List.range' 0x100020 254 16 else []

theorem twoLists_free : twoLists 9 = List.range' 0x100020 254 16 := rfl

theorem mem_twoLists : d ∈ twoLists i ↔ i = 8 ∧ (d = 0x100010 ∨ d = 0x100000) ∨
    i = 9 ∧ ∃ k < 254, d = 0x100020 + 16 * k := by
  obtain ⟨n, hn⟩ : ∃ n, 254 = n := ⟨_, rfl⟩
  rw [twoLists, hn]
  split
  · rename_i h8
    simp [h8]
  · rename_i h8
    split
    · rename_i h9
      simp [h9, List.mem_range']
    · rename_i h9
      simp [h8, h9]

theorem twoPages_next (hd : 0x100020 ≤ d) : twoPages.alloc.next d = if d = 0x100ff0 then 0 else d + 16 := by
  show (if d = 0x100000 then _ else if d = 0x100010 then _ else _ : BucketDesc).next = _
  rw [if_neg (by omega), if_neg (by omega)]

theorem twoPages_lists : Lists twoPages.alloc.next twoPages.alloc.head twoLists := by
  refine ⟨?_, ?_, ?_⟩
  · intro i
    by_cases h8 : i = 8
    · rw [h8]
      exact ⟨rfl, by decide, rfl, by decide, rfl⟩
    · by_cases h9 : i = 9
      · rw [h9, head_free, twoLists_free, show 254 = 253 + 1 from rfl, List.range'_concat]
        show Linked twoPages.alloc.next 0x100020 _
        refine linked_range' (by omega) ?_ ⟨rfl, by omega, ?_⟩
        · intro d hd
          obtain ⟨k, hk, hdk⟩ := List.mem_range'.1 hd
          rw [twoPages_next (by omega), if_neg (by omega)]
        · rw [twoPages_next (by omega), if_pos (by omega)]
          rfl
      · rw [twoLists, if_neg h8, if_neg h9]
        show twoPages.alloc.head i = 0
        rw [Allocator.head]
        split
        · show (if i = 8 then _ else 0) = 0
          rw [if_neg h8]
        · rfl
  · intro i
    rw [twoLists]
    split
    · decide
    · split
      · exact List.nodup_range' 16 (by omega)
      · exact List.nodup_nil
  · intro i j d hi hj
    rcases mem_twoLists.1 hi with ⟨hi', h⟩ | ⟨hi', k, hk, h⟩ <;>
      rcases mem_twoLists.1 hj with ⟨hj', h'⟩ | ⟨hj', k', hk', h'⟩
    · rw [hi', hj']
    · omega
    · omega
    · rw [hi', hj']

theorem twoPages_sound : Sound twoPages twoLists fun _ => [] := by
  have hmem : ∀ i < 9, ∀ d ∈ twoLists i, i = 8 ∧ (d = 0x100010 ∨ d = 0x100000) := by
    intro i hi d hd
    rcases mem_twoLists.1 hd with h | ⟨h, -⟩
    · exact h
    · omega
  have hheld : ∀ f, 256 ≤ f → f < 259 → Held twoPages.alloc.mm f := by
    intro f h1 h2
    refine ⟨h1, by omega, ?_, ?_⟩
    · obtain ⟨k, hk⟩ : ∃ k, f - 256 = k := ⟨_, rfl⟩
      rw [hk]
      show (if k < 3 then (1 : BitVec 8) else 100) = 1
      rw [if_pos (by omega)]
    · show f * 4096 < 0x1000000
      omega
  refine ⟨⟨twoPages_lists, ?_, ?_, ?_, ?_, ?_, ?_, ?_, by decide, ?_⟩, ?_⟩
  · intro i hi
    rw [twoLists, if_neg (by omega), if_neg (by omega)]
  · intro d
    constructor
    · intro hd
      obtain ⟨p, hp, k, hk, hdk⟩ := hd
      rw [List.mem_singleton.1 hp] at hdk
      by_cases hk2 : k < 2
      · exact ⟨8, mem_twoLists.2 (Or.inl ⟨rfl, by omega⟩)⟩
      · exact ⟨9, mem_twoLists.2 (Or.inr ⟨rfl, k - 2, by omega, by omega⟩)⟩
    · intro hd
      obtain ⟨i, hi⟩ := hd
      refine ⟨0x100000, List.mem_singleton.2 rfl, ?_⟩
      rcases mem_twoLists.1 hi with ⟨-, h | h⟩ | ⟨-, k, hk, hdk⟩
      · exact ⟨1, by omega, h⟩
      · exact ⟨0, by omega, h⟩
      · exact ⟨k + 2, by omega, by omega⟩
  · intro p hp
    exact ⟨256, hheld 256 (by omega) (by omega), List.mem_singleton.1 hp⟩
  · intro i hi d hd
    obtain ⟨h8, hd⟩ := hmem i hi d hd
    rw [h8]
    rcases hd with hd | hd <;> rw [hd]
    · exact ⟨⟨258, hheld 258 (by omega) (by omega), rfl⟩, rfl, rfl, List.nodup_nil,
        fun _ h => absurd h List.not_mem_nil, rfl, by decide⟩
    · exact ⟨⟨257, hheld 257 (by omega) (by omega), rfl⟩, rfl, rfl, List.nodup_nil,
        fun _ h => absurd h List.not_mem_nil, rfl, by decide⟩
  · intro i hi d hd j hj e he hp
    rcases (hmem i hi d hd).2 with h | h <;> rcases (hmem j hj e he).2 with h' | h' <;> rw [h, h'] at hp ⊢
    · exact absurd hp (by decide)
    · exact absurd hp (by decide)
  · intro i hi d hd
    rcases (hmem i hi d hd).2 with h | h <;> rw [h] <;> decide
  · intro y hy
    have hcap : findBucket 4096 = 8 := by decide
    have hslot : ∀ p, Slot p 4096 p := fun p => ⟨0, by omega, by omega⟩
    have hy' : y = (0x101000, 4096) ∨ y = (0x102000, 4096) := by
      simpa [twoPages] using hy
    rcases hy' with h | h <;> rw [h]
    · exact ⟨0x100000, by decide, mem_twoLists.2 (Or.inl ⟨hcap, Or.inr rfl⟩), hslot 0x101000, List.not_mem_nil⟩
    · exact ⟨0x100010, by decide, mem_twoLists.2 (Or.inl ⟨hcap, Or.inl rfl⟩), hslot 0x102000, List.not_mem_nil⟩
  · intro k hk h0
    have h0' : (if k < 3 then (1 : BitVec 8) else 100) = 0 := h0
    split at h0'
    · exact absurd h0' (by decide)
    · exact absurd h0' (by decide)
  · intro i hi d hd
    rcases (hmem i hi d hd).2 with h | h <;> rw [h] <;> decide

/-- The search walks past pages that are not the one it looks for. -/
theorem search_passes (size : ℤ) (prev : ℕ) {page b : ℕ} {l : List ℕ} (h : Linked A.next b l)
    (hl : ∀ c ∈ l, (A.desc c).page ≠ page) :
    ∃ n, (A.searchStep page size)^[n] (.look i prev b) = .dir (i + 1) := by
  induction l generalizing b prev with
  | nil =>
    refine ⟨1, ?_⟩
    rw [linked_nil] at h
    rw [Function.iterate_one, Allocator.searchStep, if_pos h]
  | cons c l ih =>
    obtain ⟨hbc, hc, hrest⟩ := h
    obtain ⟨n, hn⟩ := ih c hrest (fun c' hc' => hl c' (List.mem_cons_of_mem c hc'))
    refine ⟨n + 1 + 1, ?_⟩
    have hpage := hl c List.mem_cons_self
    rw [Function.iterate_succ_apply, Function.iterate_succ_apply, hbc]
    rw [show A.searchStep page size (.look i prev c) = .advance i c from by
      rw [Allocator.searchStep, if_neg hc, if_neg hpage]]
    exact hn

theorem exec_steps (x : ℕ × Word) (size : ℤ) (n : ℕ) (F : Freeing) :
    exec (Freeing.turn x size) F (List.replicate n .step) =
      some ⟨F.world, (F.world.alloc.searchStep (pageOf x.1) size)^[n] F.search⟩ := by
  induction n generalizing F with
  | zero => rfl
  | succ n ih =>
    rw [List.replicate_succ, Function.iterate_succ_apply]
    exact ih _

theorem along_steps (x : ℕ × Word) (size : ℤ) (n : ℕ) (F : Freeing) :
    Along (Freeing.turn x size) (Freeing.Possible x) F (List.replicate n .step) := by
  apply along_of_forall
  intro e he F
  rw [List.eq_of_mem_replicate he]
  trivial

/-- `free_s` of the object in the second page. -/
theorem second_freed {A' : Allocator} (hrun : freeS 0x102000 0 twoPages.alloc = .ok PUnit.unit A') :
    twoPages.call (.free 0x102000 4096 0) = some ⟨A', [(0x101000, 4096)]⟩ := by
  rw [World.call, hrun]
  rfl

/-- The search steps, an interrupt frees the object in the second page, and the search goes on. -/
def interrupted (n m : ℕ) : List Turn :=
  List.replicate n Turn.step ++ [Turn.call (.free 0x102000 4096 0)] ++ List.replicate m Turn.step

/-- The search is at the descriptor of the first page when the other page is given back. -/
theorem free_s_survives_steps : ∃ F, exec (Freeing.turn (0x101000, 4096) 0) ⟨twoPages, .dir 0⟩
    (interrupted 19 searchSteps) = some F ∧ ∃ i prev b, F.search = .found i prev b := by
  have hx : ((0x101000, 4096) : ℕ × Word) ∈ twoPages.objects := by decide
  have hy : ((0x102000, 4096) : ℕ × Word) ∈ twoPages.objects := by decide
  obtain ⟨_, A', hrun, -⟩ := ok_of_wp (twoPages_sound.free hy (Or.inl rfl))
  have hfirst : (twoPages.alloc.searchStep (pageOf 0x101000) 0)^[19] (.dir 0) =
    .look 8 0x100010 0x100000 := by decide
  have hruns : ∀ m, ∃ F, exec (Freeing.turn (0x101000, 4096) 0) ⟨twoPages, .dir 0⟩
      (interrupted 19 m) = some F := by
    intro m
    rw [interrupted, exec_append, exec_append, exec_steps, hfirst]
    show ∃ F, (((twoPages.call (.free 0x102000 4096 0)).map fun W =>
      Freeing.mk W (.look 8 0x100010 0x100000)).bind
      some).bind _ = some F
    rw [second_freed hrun]
    exact ⟨_, exec_steps _ _ _ _⟩
  obtain ⟨F, hexec⟩ := hruns searchSteps
  have ha : Along (Freeing.turn (0x101000, 4096) 0)
      (fun F e => F.Possible (0x101000, 4096) e ∧ F.Spares e) ⟨twoPages, .dir 0⟩
      (interrupted 19 searchSteps) := by
    have hsteps : ∀ n F, Along (Freeing.turn (0x101000, 4096) 0)
        (fun F e => F.Possible (0x101000, 4096) e ∧ F.Spares e) F (List.replicate n .step) := by
      intro n F
      apply along_of_forall
      intro e he F
      rw [List.eq_of_mem_replicate he]
      exact ⟨trivial, trivial⟩
    refine Along.append (Along.append (hsteps _ _) fun F hF => ?_) fun F _ => hsteps _ _
    rw [exec_steps, hfirst] at hF
    cases hF
    refine ⟨⟨⟨by decide, hy, Or.inl rfl⟩, fun b hb => ?_⟩, fun _ _ => trivial⟩
    cases hb
    decide
  have hend := free_s_survives_interrupts twoPages_sound hx (Or.inl rfl) ha hexec
  refine ⟨_, hexec, hend.2.2.1 ?_⟩
  rw [interrupted, List.count_append, List.count_append, List.count_replicate_self, List.count_replicate_self]
  omega

/-- `free_s` of the object in the first page is interrupted by `free_s` of the other object, which
gives up the descriptor that the search has come to: the search ends in the panic. -/
theorem free_s_gets_lost : ∃ W L objs x, ∃ size : ℤ, ∃ es F, Sound W L objs ∧ x ∈ W.objects ∧
    (size = 0 ∨ size = x.2.toNat) ∧ Along (Freeing.turn x size) (Freeing.Possible x) ⟨W, .dir 0⟩ es ∧
    exec (Freeing.turn x size) ⟨W, .dir 0⟩ es = some F ∧ F.search = .lost := by
  have hy : ((0x102000, 4096) : ℕ × Word) ∈ twoPages.objects := by decide
  obtain ⟨_, A', hrun, d, L', objs', hd, R⟩ := ok_of_wp (twoPages_sound.free hy (Or.inl rfl))
  -- the descriptor of the second page is the one the search comes to
  have hdeq : d = 0x100010 := by
    have hlisted := hd.listed
    rw [show findBucket ((0x102000, 4096) : ℕ × Word).2 = 8 from by decide] at hlisted
    have hpage := twoPages_sound.placed_page hd
    rcases mem_twoLists.1 hlisted with ⟨-, h | h⟩ | ⟨h, -⟩
    · exact h
    · rw [h] at hpage
      exact absurd hpage (by decide)
    · omega
  have hL := (R.last (by rw [hdeq]; rfl)).1
  have hnine := R.sound.lists.linked 9
  rw [hL, retire_free, hdeq] at hnine
  obtain ⟨-, -, hfree⟩ := hnine
  have hpages : ∀ c ∈ twoLists 9, (A'.desc c).page ≠ 0x101000 := by
    intro c hc
    have hck := mem_twoLists.1 hc
    rw [R.pages c]
    show (if c = 0x100000 then _ else if c = 0x100010 then _ else _ : BucketDesc).page ≠ _
    rw [if_neg (by omega), if_neg (by omega)]
    show (0 : ℕ) ≠ 0x101000
    omega
  obtain ⟨n, hn⟩ := search_passes 0 0x100010 (i := 8) hfree hpages
  have hcall := second_freed hrun
  have hfirst : (twoPages.alloc.searchStep (pageOf 0x101000) 0)^[18] (.dir 0) = .advance 8 0x100010 := by decide
  have hexec1 : exec (Freeing.turn (0x101000, 4096) 0) ⟨twoPages, .dir 0⟩
      (List.replicate 18 Turn.step ++ [Turn.call (.free 0x102000 4096 0)]) =
      some ⟨⟨A', [(0x101000, 4096)]⟩, .advance 8 0x100010⟩ := by
    rw [exec_append, exec_steps, hfirst]
    show ((twoPages.call (.free 0x102000 4096 0)).map fun W => Freeing.mk W (.advance 8 0x100010)).bind
      some = _
    rw [hcall]
    rfl
  refine ⟨twoPages, twoLists, fun _ => [], (0x101000, 4096), 0,
    interrupted 18 (1 + n + 1),
    ⟨⟨A', [(0x101000, 4096)]⟩, .lost⟩, twoPages_sound, by decide, Or.inl rfl, ?_, ?_, rfl⟩
  · apply Along.append
    · apply Along.append (along_steps _ _ _ _)
      intro F hF
      rw [exec_steps, hfirst] at hF
      cases hF
      exact ⟨⟨by decide, hy, Or.inl rfl⟩, fun _ _ => trivial⟩
    · intro F _
      exact along_steps _ _ _ _
  · rw [interrupted, exec_append, hexec1]
    show exec _ _ _ = _
    rw [exec_steps, Function.iterate_succ_apply', Nat.add_comm 1 n, Function.iterate_succ_apply]
    show some (Freeing.mk _ (A'.searchStep 0x101000 0
      ((A'.searchStep 0x101000 0)^[n] (.look 8 0x100010 (A'.next 0x100010))))) = _
    rw [hn]
    rfl

end OldLinux.Malloc
