import OldLinux.Lib.Trace
import OldLinux.Malloc.Search
import OldLinux.Memory.Runs

/-!
# Runs of the allocator

Every sequence of `malloc`, `free_s` and writes of the users, from the allocator as it is at boot,
leaves it in order.
-/

namespace OldLinux.Malloc

open Lib Memory

variable {A A' : Allocator} {W W' : World} {L : ℕ → List ℕ} {objs : ℕ → List ℕ} {M : MainMemory}
  {m : ℕ → ℕ → Word} {garbage : ℕ → BucketDesc} {i d : ℕ} {x : ℕ × Word} {c : Call}

/-- No buckets and no descriptors; what is where the descriptors will be does not matter. -/
def World.boot (M : MainMemory) (m : ℕ → ℕ → Word) (garbage : ℕ → BucketDesc) : World :=
  ⟨⟨M.boot m, garbage, fun _ => 0, 0, []⟩, []⟩

/-- The allocators that sequences of calls reach. -/
abbrev Reached (M : MainMemory) (m : ℕ → ℕ → Word) (garbage : ℕ → BucketDesc) : World → Prop :=
  Reach (fun W => W = World.boot M m garbage) World.call World.Allowed

theorem boot_sound (M : MainMemory) (m : ℕ → ℕ → Word) (garbage : ℕ → BucketDesc) :
    Sound (World.boot M m garbage) (fun _ => []) (fun _ => []) := by
  obtain ⟨-, hhigh, hcount⟩ := boot_spec M m
  have hhead : (World.boot M m garbage).alloc.head = fun _ => 0 := by
    funext j
    rw [Allocator.head]
    split
    · rfl
    · split <;> rfl
  refine ⟨⟨⟨?_, fun _ => List.nodup_nil, fun _ _ _ h _ => absurd h List.not_mem_nil⟩, fun _ _ => rfl,
    ?_, fun _ h => absurd h List.not_mem_nil, fun _ _ _ h => absurd h List.not_mem_nil,
    fun _ _ _ h => absurd h List.not_mem_nil, fun _ _ _ h => absurd h List.not_mem_nil,
    fun _ h => absurd h List.not_mem_nil, List.nodup_nil, ?_⟩, fun _ _ _ h => absurd h List.not_mem_nil⟩
  · intro j
    rw [hhead]
    exact rfl
  · intro d
    constructor
    · intro hd
      obtain ⟨p, hp, -⟩ := hd
      exact absurd hp List.not_mem_nil
    · intro hd
      obtain ⟨j, hj⟩ := hd
      exact absurd hj List.not_mem_nil
  · intro k hk h0
    have hcount := hcount (256 + k) (by omega) (by omega)
    rw [Mm.count, show 256 + k - 256 = k from by omega] at hcount
    have hmap : (M.boot m).memMap k = 0 := h0
    rw [hmap, MainMemory.base] at hcount
    show (256 + k) * 4096 < (M.boot m).highMemory
    rw [hhigh]
    split at hcount
    · rename_i hin
      have := hin.2
      omega
    · exact absurd hcount (by decide)

/-! ### Every call keeps the allocator in order -/

/-- The call returns what its specification says. -/
theorem ok_of_wp {α : Type} {f : MallocM α} {Q : α → Allocator → Prop}
    (h : wp f Q (fun _ _ => False) A) : ∃ a A', f A = .ok a A' ∧ Q a A' := by
  rw [wp] at h
  cases hf : f A with
  | ok a A' =>
    rw [hf] at h
    exact ⟨a, A', rfl, h⟩
  | error e A' =>
    rw [hf] at h
    exact h.elim

theorem Sound.malloc_call (h : Sound W L objs) {len : Word} (hlen : len.toNat ≤ 4096)
    (hcall : W.call (.malloc len) = some W') :
    ∃ o L' objs', W' = ⟨W'.alloc, (o, len) :: W.objects⟩ ∧ Allocated W L (o, len) W'.alloc L' objs' := by
  have hspec := h.malloc hlen
  rw [World.call] at hcall
  cases hrun : Malloc.malloc len W.alloc with
  | ok obj A =>
    rw [hrun] at hcall
    cases hcall
    obtain ⟨L', objs', hA⟩ := wp_ok hspec hrun
    exact ⟨obj, L', objs', rfl, hA⟩
  | error e A =>
    rw [hrun] at hcall
    cases hcall

theorem Sound.free_call (h : Sound W L objs) {obj : ℕ} {len : Word} {size : ℤ}
    (hx : (obj, len) ∈ W.objects) (hsize : size = 0 ∨ size = len.toNat)
    (hcall : W.call (.free obj len size) = some W') :
    ∃ d L' objs', W' = ⟨W'.alloc, W.objects.erase (obj, len)⟩ ∧ Placed W.alloc L objs (obj, len) d ∧
      Released W L (obj, len) d W'.alloc L' objs' := by
  obtain ⟨_, A', hrun, d, L', objs', hd, R⟩ := ok_of_wp (h.free hx hsize)
  rw [World.call] at hcall
  have hrun' : freeS obj size W.alloc = .ok PUnit.unit A' := hrun
  rw [hrun'] at hcall
  cases hcall
  exact ⟨d, L', objs', rfl, hd, R⟩

theorem Sound.call (h : Sound W L objs) (ha : W.Allowed c) (hcall : W.call c = some W') :
    ∃ L' objs', Sound W' L' objs' := by
  cases c with
  | malloc len =>
    obtain ⟨o, L', objs', hW, hA⟩ := h.malloc_call ha hcall
    rw [hW]
    exact ⟨L', objs', hA.sound⟩
  | free obj len size =>
    obtain ⟨d, L', objs', hW, -, R⟩ := h.free_call ha.1 ha.2 hcall
    rw [hW]
    exact ⟨L', objs', R.sound⟩
  | write a w =>
    cases hcall
    exact ⟨L, objs, h.write ha⟩

theorem Reached.sound (h : Reached M m garbage W) : ∃ L objs, Sound W L objs := by
  refine Reach.invariant (I := fun W => ∃ L objs, Sound W L objs) ?_ ?_ h
  · intro W hW
    rw [hW]
    exact ⟨_, _, boot_sound M m garbage⟩
  · intro W c W' hI ha hcall
    obtain ⟨L, objs, hs⟩ := hI
    exact hs.call ha hcall

/-! ### What the users rely on -/

/-- The objects do not overlap, each is in one page and as long as was asked for. -/
structure World.Apart (W : World) : Prop where
  disjoint : W.objects.Pairwise fun x y => x.1 + capacity x.2 ≤ y.1 ∨ y.1 + capacity y.2 ≤ x.1
  inPage : ∀ x ∈ W.objects, x.1 % 4096 + capacity x.2 ≤ 4096
  enough : ∀ x ∈ W.objects, x.2.toNat ≤ capacity x.2

/-- `d` is on list `i`: a chain of `bucket_dir` below 9, and `free_bucket_desc` at 9. -/
def Allocator.On (A : Allocator) (i d : ℕ) : Prop := ∃ l, Linked A.next (A.head i) l ∧ d ∈ l

/-- `refcnt` and the free chain of a descriptor add up to the objects of its page. -/
def Allocator.Counts (A : Allocator) (d : ℕ) : Prop :=
  ∃ l, Linked A.word (A.desc d).freeptr l ∧
  (A.desc d).refcnt.toNat + l.length = 4096 / (A.desc d).bucketSize.toNat

/-- The last object of a page was freed: `mem_map` has counted the page once and now does not, and its
descriptor has gone from its chain to `free_bucket_desc`. -/
structure GivenBack (A A' : Allocator) (obj : ℕ) : Prop where
  count : A.mm.memMap (pageOf obj / 4096 - 256) = 1
  memMap : A'.mm.memMap = Function.update A.mm.memMap (pageOf obj / 4096 - 256) 0
  desc : ∃ d i, i < 9 ∧ (A.desc d).page = pageOf obj ∧ A.On i d ∧ A'.On 9 d

theorem Ordered.apart (h : Ordered W L objs) : W.Apart where
  disjoint := by
    have hne : W.objects.Pairwise fun x y => x.1 ≠ y.1 := List.pairwise_map.1 h.single
    apply hne.imp_of_mem
    intro x y hx hy hxy
    exact h.disjoint hx hy hxy
  inPage := by
    intro x hx
    obtain ⟨d, hd⟩ := h.placed x hx
    have hi := (findBucket_spec hd.length).1
    have hr := hd.slot.range hi
    have hmod := (h.buckets _ hi d hd.listed).page_mod
    have hpos := bucketSize_pos hi
    rw [capacity]
    omega
  enough := by
    intro x hx
    obtain ⟨d, hd⟩ := h.placed x hx
    exact (findBucket_spec hd.length).2

theorem Sound.given_back (h : Sound W L objs) (hx : x ∈ W.objects) (hd : Placed W.alloc L objs x d)
    {L' objs' : ℕ → List ℕ} (R : Released W L x d A' L' objs') :
    ((∀ y ∈ W.objects.erase x, pageOf y.1 ≠ pageOf x.1) → GivenBack W.alloc A' x.1) ∧
    ((∃ y ∈ W.objects.erase x, pageOf y.1 = pageOf x.1) → A'.mm.memMap = W.alloc.mm.memMap) := by
  have hi := (findBucket_spec hd.length).1
  have hlive := (h.buckets _ hi d hd.listed).live
  have hpage := h.placed_page hd
  rw [(List.perm_cons_erase hx).countP_eq,
    List.countP_cons_of_pos (by rw [decide_eq_true_eq]; exact hpage)] at hlive
  constructor
  · intro hlast
    have hzero : (W.objects.erase x).countP (fun y => pageOf y.1 = (W.alloc.desc d).page) = 0 := by
      rw [List.countP_eq_zero]
      intro y hy hp
      rw [decide_eq_true_eq] at hp
      exact hlast y hy (hp.trans hpage.symm)
    rw [hzero] at hlive
    have hone : (W.alloc.desc d).refcnt = 1 := BitVec.eq_of_toNat_eq hlive
    obtain ⟨hL, hcount, hmap⟩ := R.last hone
    refine ⟨hcount, hmap, d, _, hi, hpage.symm, ⟨_, h.lists.linked _, hd.listed⟩, _, R.sound.lists.linked 9, ?_⟩
    rw [hL, retire_free]
    exact List.mem_cons_self
  · intro hmore
    obtain ⟨y, hy, hp⟩ := hmore
    refine (R.more ?_).2
    intro hone
    have hpos : 0 < (W.objects.erase x).countP fun y => pageOf y.1 = (W.alloc.desc d).page := by
      rw [List.countP_pos_iff]
      exact ⟨y, hy, by rw [decide_eq_true_eq, hp, hpage]⟩
    rw [hone] at hlive
    have h1 : (1 : BitVec 16).toNat = 1 := rfl
    omega

/-- **The allocator hands out disjoint memory and leaks nothing.**  After every sequence of calls the
objects are apart, every descriptor is on exactly one list, those on chains count their objects,
`free_s` of an object succeeds and gives the page back with its last object, and `malloc` succeeds
where two pages are free. -/
theorem allocator_is_sound (h : Reached M m garbage W) :
    W.Apart ∧ (∀ d, W.alloc.IsDesc d → ∃! i, W.alloc.On i d) ∧
    (∀ i < 9, ∀ d, W.alloc.On i d → (W.alloc.desc d).bucketSize.toNat = bucketSize i ∧ W.alloc.Counts d) ∧
    (∀ obj len size, W.Allowed (.free obj len size) → ∃ A', freeS obj size W.alloc = .ok () A' ∧
      ((∀ y ∈ W.objects.erase (obj, len), pageOf y.1 ≠ pageOf obj) → GivenBack W.alloc A' obj) ∧
      ((∃ y ∈ W.objects.erase (obj, len), pageOf y.1 = pageOf obj) → A'.mm.memMap = W.alloc.mm.memMap)) ∧
    ∀ len : Word, len.toNat ≤ 4096 → ¬W.alloc.mm.Tight → ∃ obj A', malloc len W.alloc = .ok obj A' := by
  obtain ⟨L, objs, hs⟩ := Reached.sound h
  refine ⟨hs.apart, ?_, ?_, ?_, ?_⟩
  · intro d hd
    obtain ⟨i, hi⟩ := (hs.descs d).1 hd
    exact hs.lists.existsUnique hi
  · intro i hi d hd
    obtain ⟨l, hl, hdl⟩ := hd
    rw [hl.unique (hs.lists.linked i)] at hdl
    have hb := hs.buckets i hi d hdl
    refine ⟨hb.size, objs d, hb.chain, ?_⟩
    rw [hb.size]
    exact hb.count
  · intro obj len size ha
    obtain ⟨_, A', hrun, d, L', objs', hd, R⟩ := ok_of_wp (hs.free ha.1 ha.2)
    exact ⟨A', hrun, hs.given_back ha.1 hd R⟩
  · intro len hlen hfree
    have hspec : wp (malloc len) (fun _ _ => True) (fun _ _ => False) W.alloc :=
      wp_mono (hs.malloc hlen) (fun _ _ _ => trivial) (fun _ _ h => hfree h.2)
    obtain ⟨obj, A', hrun, -⟩ := ok_of_wp hspec
    exact ⟨obj, A', hrun⟩

theorem boot_not_tight (h : M.lo + 1 < M.hi) : ¬(M.boot m).Tight := by
  intro htight
  obtain ⟨k, hk⟩ := htight
  obtain ⟨-, -, hcount⟩ := boot_spec M m
  have hlow := M.lowMem_le
  have hhigh := M.hi_le
  have hfree : ∀ f, M.Has f → (M.boot m).memMap (f - 256) = 0 := by
    intro f hf
    have hc := hcount f hf.lowMem_le hf.lt
    rw [MainMemory.base, if_pos hf] at hc
    exact BitVec.eq_of_toNat_eq hc
  have h1 := hfree M.lo ⟨le_rfl, by omega⟩
  have h2 := hfree (M.lo + 1) ⟨by omega, by omega⟩
  by_cases hkl : M.lo - 256 = k
  · exact hk _ (by omega) (by omega) h2
  · exact hk _ (by omega) hkl h1

/-- A second object of 100 bytes fits in the page of the first one. -/
theorem one_leaves_room {L objs : ℕ → List ℕ} {obj : ℕ} (h : Sound W L objs) (hone : W.objects = [(obj, 100)]) :
    ∃ d ∈ L (findBucket 100), (W.alloc.desc d).freeptr ≠ 0 := by
  obtain ⟨d, hd⟩ := h.placed (obj, 100) (by rw [hone]; exact List.mem_singleton_self _)
  have hbucket := h.buckets _ (findBucket_spec hd.length).1 d hd.listed
  refine ⟨d, hd.listed, fun hzero => ?_⟩
  have hlive := hbucket.live.trans_le (List.countP_le_length (l := W.objects))
  have hchain := hbucket.chain
  rw [hzero] at hchain
  have hcount := hbucket.count
  rw [hchain.unique (linked_nil.2 rfl)] at hcount
  have hslots : 4096 / bucketSize (findBucket 100) = 32 := by decide
  rw [hone] at hlive
  simp only [List.length_nil, List.length_singleton, hslots] at hcount hlive
  omega

/-- Of two objects in a page one is given back. -/
theorem allocator_is_sound_one : ∃ W : World, (∃ obj, W.objects = [(obj, 100)]) ∧ W.Apart ∧
    (∀ d, W.alloc.IsDesc d → ∃! i, W.alloc.On i d) ∧
    (∀ i < 9, ∀ d, W.alloc.On i d → (W.alloc.desc d).bucketSize.toNat = bucketSize i ∧ W.alloc.Counts d) ∧
    (∀ obj len size, W.Allowed (.free obj len size) → ∃ A', freeS obj size W.alloc = .ok () A' ∧
      ((∀ y ∈ W.objects.erase (obj, len), pageOf y.1 ≠ pageOf obj) → GivenBack W.alloc A' obj) ∧
      ((∃ y ∈ W.objects.erase (obj, len), pageOf y.1 = pageOf obj) → A'.mm.memMap = W.alloc.mm.memMap)) ∧
    ∀ len : Word, len.toNat ≤ 4096 → ¬W.alloc.mm.Tight → ∃ obj A', malloc len W.alloc = .ok obj A' := by
  have hlen : (100 : Word).toNat ≤ 4096 := by decide
  have h0 : Reached sixteenMegabytes (fun _ _ => 0) (fun _ => BucketDesc.zero)
      (World.boot sixteenMegabytes (fun _ _ => 0) fun _ => BucketDesc.zero) := Reach.start rfl
  obtain ⟨a, A1, hrun1⟩ := (allocator_is_sound h0).2.2.2.2 100 hlen
    (boot_not_tight (show 1024 + 1 < 4096 by omega))
  have h1 : Reached sixteenMegabytes (fun _ _ => 0) (fun _ => BucketDesc.zero) ⟨A1, [(a, 100)]⟩ := by
    refine Reach.step (.malloc 100) h0 hlen ?_
    rw [World.call, hrun1]
    rfl
  obtain ⟨L, objs, hs⟩ := Reached.sound h1
  obtain ⟨b, A2, hrun2, -⟩ := ok_of_wp (hs.malloc_room hlen (one_leaves_room hs rfl))
  have h2 : Reached sixteenMegabytes (fun _ _ => 0) (fun _ => BucketDesc.zero) ⟨A2, [(b, 100), (a, 100)]⟩ := by
    refine Reach.step (.malloc 100) h1 hlen ?_
    rw [World.call, hrun2]
  have hfree : World.Allowed ⟨A2, [(b, 100), (a, 100)]⟩ (.free b 100 0) := ⟨List.mem_cons_self, Or.inl rfl⟩
  obtain ⟨A3, hrun3, -⟩ := (allocator_is_sound h2).2.2.2.1 b 100 0 hfree
  have h3 : Reached sixteenMegabytes (fun _ _ => 0) (fun _ => BucketDesc.zero) ⟨A3, [(a, 100)]⟩ := by
    refine Reach.step (.free b 100 0) h2 hfree ?_
    rw [World.call, hrun3]
    simp
  exact ⟨_, ⟨a, rfl⟩, allocator_is_sound h3⟩

end OldLinux.Malloc
