import OldLinux.Malloc.Sound
import OldLinux.Memory.Room

/-!
# Objects are taken and put back

The parts of `malloc` and `free_s` that work on the free chain of one page, and the writes of the
users.
-/

namespace OldLinux.Malloc

open Function Lib Memory

variable {A A' : Allocator} {W : World} {L : ℕ → List ℕ} {objs : ℕ → List ℕ}
  {objects objects' : List (ℕ × Word)} {i d o : ℕ} {l : List ℕ} {len : Word}

@[simp]
theorem wp_mmCall {α : Type} (c : MmM α) (Q : α → Allocator → Prop) (E : Stop → Allocator → Prop)
    (A : Allocator) : wp (mmCall c) Q E A ↔
      wp c (fun a s => Q a { A with mm := s }) (fun e s => E (.trap e) { A with mm := s }) A.mm := by
  unfold wp mmCall
  cases c A.mm <;> rfl

/-! ### Descriptors that a step leaves alone -/

/-- The descriptors agree but for `next`. -/
structure SameBut (b b' : BucketDesc) : Prop where
  page : b'.page = b.page
  freeptr : b'.freeptr = b.freeptr
  refcnt : b'.refcnt = b.refcnt
  size : b'.bucketSize = b.bucketSize

theorem SameBut.refl (b : BucketDesc) : SameBut b b := ⟨rfl, rfl, rfl, rfl⟩

theorem Bucket.same (h : Bucket A objects i d l) (hb : SameBut (A.desc d) (A'.desc d))
    (hword : ∀ o ∈ l, A'.word o = A.word o)
    (hheld : ∀ f, Held A.mm f → (A.desc d).page = f * 4096 → Held A'.mm f)
    (hlive : objects'.countP (fun x => pageOf x.1 = (A.desc d).page) =
      objects.countP fun x => pageOf x.1 = (A.desc d).page) : Bucket A' objects' i d l where
  page := by
    obtain ⟨f, hf, hp⟩ := h.page
    exact ⟨f, hheld f hf hp, by rw [hb.page]; exact hp⟩
  size := by
    rw [hb.size]
    exact h.size
  chain := by
    rw [hb.freeptr]
    exact h.chain.congr hword
  nodup := h.nodup
  slots := by
    rw [hb.page]
    exact h.slots
  count := by
    rw [hb.refcnt]
    exact h.count
  live := by
    rw [hb.refcnt, hb.page, hlive]
    exact h.live

theorem Placed.same {objs' : ℕ → List ℕ} {L' : ℕ → List ℕ} {x : ℕ × Word}
    (h : Placed A L objs x d) (hpage : (A'.desc d).page = (A.desc d).page)
    (hlisted : d ∈ L' (findBucket x.2)) (hobjs : x.1 ∉ objs' d) : Placed A' L' objs' x d where
  length := h.length
  listed := hlisted
  slot := by
    rw [hpage]
    exact h.slot
  taken := hobjs

theorem desc_setDesc_of_ne {b : BucketDesc} {e : ℕ} (h : e ≠ d) :
    (A.setDesc d b).desc e = A.desc e := by
  rw [setDesc_desc, if_neg h]

/-- What a step that works on the page of one descriptor leaves alone. -/
structure Local (A A' : Allocator) (d : ℕ) : Prop where
  desc : ∀ e, e ≠ d → A'.desc e = A.desc e
  page : (A'.desc d).page = (A.desc d).page
  next : (A'.desc d).next = (A.desc d).next
  size : (A'.desc d).bucketSize = (A.desc d).bucketSize
  chain : A'.chain = A.chain
  free : A'.freeBucketDesc = A.freeBucketDesc
  tables : A'.descPages = A.descPages
  memMap : A'.mm.memMap = A.mm.memMap
  high : A'.mm.highMemory = A.mm.highMemory

theorem Local.pages (h : Local A A' d) (e : ℕ) : (A'.desc e).page = (A.desc e).page := by
  by_cases hed : e = d
  · rw [hed]
    exact h.page
  · rw [h.desc e hed]

theorem Local.nexts (h : Local A A' d) : A'.next = A.next := by
  funext e
  rw [Allocator.next, Allocator.next]
  by_cases hed : e = d
  · rw [hed]
    exact h.next
  · rw [h.desc e hed]

theorem Local.heads (h : Local A A' d) : A'.head = A.head := by
  funext j
  rw [Allocator.head, Allocator.head, h.chain, h.free]

theorem Local.held (h : Local A A' d) {f : ℕ} (hf : Held A.mm f) : Held A'.mm f := by
  rw [Held, h.memMap, h.high]
  exact hf

/-- **A step on one page.** -/
theorem Ordered.change (h : Ordered W L objs) (hi : i < 9) (hd : d ∈ L i)
    (hlocal : Local W.alloc A' d)
    (hword : ∀ j < 9, ∀ e ∈ L j, e ≠ d → ∀ o ∈ objs e, A'.word o = W.alloc.word o)
    (hlive : ∀ p ≠ (W.alloc.desc d).page, (objects'.countP fun x => pageOf x.1 = p) =
      W.objects.countP fun x => pageOf x.1 = p)
    (hb : Bucket A' objects' i d l)
    (hplaced : ∀ x ∈ objects', ∃ e, Placed A' L (update objs d l) x e)
    (hsingle : (objects'.map Prod.fst).Nodup) :
    Ordered ⟨A', objects'⟩ L (update objs d l) where
  lists := by
    rw [hlocal.nexts, hlocal.heads]
    exact h.lists
  empty := h.empty
  descs := by
    intro e
    rw [Allocator.IsDesc, hlocal.tables]
    exact h.descs e
  tables := by
    intro p hp
    rw [hlocal.tables] at hp
    obtain ⟨f, hf, hpf⟩ := h.tables p hp
    exact ⟨f, hlocal.held hf, hpf⟩
  buckets := by
    intro j hj e he
    by_cases hed : e = d
    · have hij := h.lists.apart j i e he (by rw [hed]; exact hd)
      rw [hed, update_self, hij]
      exact hb
    · have hpage : (W.alloc.desc e).page ≠ (W.alloc.desc d).page := fun heq =>
        hed (h.distinct j hj e he i hi d hd heq)
      rw [update_of_ne hed]
      refine (h.buckets j hj e he).same ?_ (hword j hj e he hed) (fun _ hf _ => hlocal.held hf)
        (hlive _ hpage)
      rw [hlocal.desc e hed]
      exact SameBut.refl _
  distinct := by
    intro j hj e he k hk c hc hp
    rw [hlocal.pages, hlocal.pages] at hp
    exact h.distinct j hj e he k hk c hc hp
  noTable := by
    intro j hj e he
    rw [hlocal.pages, hlocal.tables]
    exact h.noTable j hj e he
  placed := hplaced
  single := hsingle
  pool := by
    intro k hk
    rw [hlocal.memMap, hlocal.high]
    exact h.pool k hk

/-! ### `malloc` takes an object -/

/-- **An object is taken** off the free chain of a page of its bucket. -/
theorem Ordered.take (h : Ordered W L objs) (hlen : len.toNat ≤ 4096) (hd : d ∈ L (findBucket len))
    (hroom : (W.alloc.desc d).freeptr ≠ 0)
    (hused : ∀ i < 9, ∀ e ∈ L i, e ≠ d → (W.alloc.desc e).refcnt ≠ 0) :
    wp (takeObject d) (fun o A' => ∃ objs', Sound ⟨A', (o, len) :: W.objects⟩ L objs')
      (fun _ _ => False) W.alloc := by
  have hi := (findBucket_spec hlen).1
  have hb := h.buckets _ hi d hd
  obtain ⟨os, hos, hchain⟩ := hb.chain.eq_cons hroom
  obtain ⟨o, ho⟩ : ∃ o, (W.alloc.desc d).freeptr = o := ⟨_, rfl⟩
  rw [ho] at hos hchain hroom
  have hmem : o ∈ objs d := by
    rw [hos]
    exact List.mem_cons_self
  have hslot := hb.slots o hmem
  have hpage : pageOf o = (W.alloc.desc d).page := pageOf_slot hslot hi hb.page_mod
  have hcount := hb.count
  rw [hos, List.length_cons] at hcount
  have hbound := (slots_le hi).2
  have hinc : ((W.alloc.desc d).refcnt + 1).toNat = (W.alloc.desc d).refcnt.toNat + 1 := by
    rw [BitVec.toNat_add]
    show ((W.alloc.desc d).refcnt.toNat + 1) % 2 ^ 16 = _
    omega
  have hnodup := hb.nodup
  rw [hos] at hnodup
  have hnew : ∀ x ∈ W.objects, x.1 ≠ o := by
    intro x hx hxo
    obtain ⟨e, he⟩ := h.placed x hx
    have hde := (h.desc_eq he hi hd (by rw [hxo]; exact hpage)).1
    have := he.taken
    rw [← hde, hxo] at this
    exact this hmem
  rw [takeObject, wp_bind, wp_get, wp_bind, wp_modify, wp_pure, ho]
  obtain ⟨A', hA'⟩ : ∃ A', W.alloc.setDesc d { W.alloc.desc d with
    freeptr := W.alloc.word o, refcnt := (W.alloc.desc d).refcnt + 1 } = A' := ⟨_, rfl⟩
  have hself : A'.desc d = { W.alloc.desc d with
      freeptr := W.alloc.word o, refcnt := (W.alloc.desc d).refcnt + 1 } := by
    rw [← hA', setDesc_self]
  have hlocal : Local W.alloc A' d := by
    rw [← hA']
    constructor <;> simp [setDesc_desc]
    exact fun e hed heq => absurd heq hed
  have hword : A'.word = W.alloc.word := by rw [← hA']; rfl
  rw [hA']
  refine ⟨update objs d os, h.change hi hd hlocal ?_ ?_ ⟨?_, ?_, ?_, ?_, ?_, ?_, ?_⟩ ?_ ?_, ?_⟩
  · intro j hj e he hed o' ho'
    rw [hword]
  · intro p hp
    apply List.countP_cons_of_neg
    rw [decide_eq_true_eq, hpage]
    exact fun heq => hp heq.symm
  · rw [hself]
    obtain ⟨f, hf, hpf⟩ := hb.page
    exact ⟨f, hlocal.held hf, hpf⟩
  · rw [hself]
    exact hb.size
  · rw [hself, hword]
    exact hchain
  · exact (List.nodup_cons.1 hnodup).2
  · intro o' ho'
    rw [hself]
    apply hb.slots
    rw [hos]
    exact List.mem_cons_of_mem o ho'
  · rw [hself, hinc]
    omega
  · rw [hself, hinc, List.countP_cons_of_pos (by rw [decide_eq_true_eq]; exact hpage), hb.live]
  · intro x hx
    rcases List.mem_cons.1 hx with hx | hx
    · rw [hx]
      refine ⟨d, hlen, hd, ?_, ?_⟩
      · rw [hlocal.page]
        exact hslot
      · rw [update_self]
        exact (List.nodup_cons.1 hnodup).1
    · obtain ⟨e, he⟩ := h.placed x hx
      refine ⟨e, he.same (hlocal.pages e) he.listed ?_⟩
      by_cases hed : e = d
      · rw [hed, update_self]
        intro hmem'
        have := he.taken
        rw [hed, hos] at this
        exact this (List.mem_cons_of_mem o hmem')
      · rw [update_of_ne hed]
        exact he.taken
  · rw [List.map_cons, List.nodup_cons]
    refine ⟨?_, h.single⟩
    intro hmem'
    obtain ⟨x, hx, hxo⟩ := List.mem_map.1 hmem'
    exact hnew x hx hxo
  · intro j hj e he
    by_cases hed : e = d
    · rw [hed, hself]
      intro h0
      have := congrArg BitVec.toNat h0
      rw [hinc] at this
      exact absurd this (Nat.succ_ne_zero _)
    · rw [hlocal.desc e hed]
      exact hused j hj e he hed

/-! ### `free_s` puts an object back -/

/-- The object goes to the front of the free chain of its page. -/
def Allocator.put (A : Allocator) (obj d : ℕ) : Allocator :=
  (A.store obj (A.desc d).freeptr).setDesc d { A.desc d with
    freeptr := obj
    refcnt := (A.desc d).refcnt - 1 }

theorem put_local (A : Allocator) (obj d : ℕ) : Local A (A.put obj d) d := by
  constructor <;> simp [Allocator.put, setDesc_desc]
  · exact fun e hed heq => absurd heq hed
  · rfl
  · rfl

theorem put_desc (A : Allocator) (obj d : ℕ) : (A.put obj d).desc d = { A.desc d with
    freeptr := obj
    refcnt := (A.desc d).refcnt - 1 } := by
  rw [Allocator.put, setDesc_self]

/-- A page counts its objects. -/
theorem Ordered.refcnt_pos (h : Ordered W L objs) {x : ℕ × Word} (hx : x ∈ W.objects)
    (hp : Placed W.alloc L objs x d) : 0 < (W.alloc.desc d).refcnt.toNat := by
  rw [(h.buckets _ (findBucket_spec hp.length).1 d hp.listed).live, List.countP_pos_iff]
  exact ⟨x, hx, by rw [decide_eq_true_eq]; exact h.placed_page hp⟩

theorem Ordered.freeptr_lt (h : Ordered W L objs) (hi : i < 9) (hd : d ∈ L i) :
    (W.alloc.desc d).freeptr < 2 ^ 32 := by
  have hb := h.buckets i hi d hd
  by_cases h0 : (W.alloc.desc d).freeptr = 0
  · omega
  · obtain ⟨os, hos, -⟩ := hb.chain.eq_cons h0
    have hslot := (hb.slots _ (by rw [hos]; exact List.mem_cons_self)).range hi
    obtain ⟨f, hf, hpf⟩ := hb.page
    have := hf.2.1
    omega

theorem eq_of_fst {x y : ℕ × Word} (h : (objects.map Prod.fst).Nodup) (hx : x ∈ objects)
    (hy : y ∈ objects) (heq : x.1 = y.1) : x = y := by
  exact List.inj_on_of_nodup_map h hx hy heq

/-- **An object is put back.** -/
theorem Ordered.put (h : Ordered W L objs) {x : ℕ × Word} (hx : x ∈ W.objects)
    (hp : Placed W.alloc L objs x d) :
    Ordered ⟨W.alloc.put x.1 d, W.objects.erase x⟩ L
      (update objs d (x.1 :: objs d)) := by
  have hi := (findBucket_spec hp.length).1
  have hb := h.buckets _ hi d hp.listed
  have hlocal := put_local W.alloc x.1 d
  have hself := put_desc W.alloc x.1 d
  have hpage := h.placed_page hp
  have hpos := h.refcnt_pos hx hp
  have hcount := hb.count
  have hbound := (slots_le hi).2
  have hdec : ((W.alloc.desc d).refcnt - 1).toNat = (W.alloc.desc d).refcnt.toNat - 1 := by
    rw [BitVec.toNat_sub]
    show (2 ^ 16 - 1 + (W.alloc.desc d).refcnt.toNat) % 2 ^ 16 = _
    omega
  have hsize := bucketSize_pos hi
  have hother : ∀ j < 9, ∀ e ∈ L j, ∀ o ∈ objs e, (W.alloc.put x.1 d).word o = W.alloc.word o := by
    intro j hj e he o ho
    have hne := h.outside hx le_rfl (show x.1 < x.1 + capacity x.2 from by rw [capacity]; omega) hj he ho
    exact word_store_of_ne W.alloc hne
  have hpos' : x.1 ≠ 0 := by
    have hr := hp.slot.range hi
    obtain ⟨f, hf, hpf⟩ := hb.page
    have := hf.1
    omega
  have hperm := List.perm_cons_erase hx
  have hlive : ∀ p, (W.objects.countP fun y => pageOf y.1 = p) =
      (x :: W.objects.erase x).countP fun y => pageOf y.1 = p := fun p => hperm.countP_eq _
  have hsub : ∀ y ∈ W.objects.erase x, y ∈ W.objects ∧ y.1 ≠ x.1 := by
    intro y hy
    have hnodup : W.objects.Nodup := List.Nodup.of_map Prod.fst h.single
    have hy' := (hnodup.mem_erase_iff).1 hy
    exact ⟨hy'.2, fun heq => hy'.1 (eq_of_fst h.single hy'.2 hx heq)⟩
  refine h.change hi hp.listed hlocal (fun j hj e he _ => hother j hj e he) ?_
    ⟨?_, ?_, ?_, ?_, ?_, ?_, ?_⟩ ?_ ?_
  · intro p hne
    rw [hlive, List.countP_cons_of_neg]
    rw [decide_eq_true_eq, hpage]
    exact fun heq => hne heq.symm
  · rw [hself]
    obtain ⟨f, hf, hpf⟩ := hb.page
    exact ⟨f, hlocal.held hf, hpf⟩
  · rw [hself]
    exact hb.size
  · rw [hself]
    refine ⟨rfl, hpos', ?_⟩
    have hword : (W.alloc.put x.1 d).word x.1 = (W.alloc.desc d).freeptr := by
      show (W.alloc.store x.1 (W.alloc.desc d).freeptr).word x.1 = _
      rw [word_store W.alloc (h.freeptr_lt hi hp.listed), if_pos rfl]
    rw [hword]
    exact hb.chain.congr (hother _ hi d hp.listed)
  · exact List.nodup_cons.2 ⟨hp.taken, hb.nodup⟩
  · intro o ho
    rw [hself]
    rcases List.mem_cons.1 ho with ho | ho
    · rw [ho]
      exact hp.slot
    · exact hb.slots o ho
  · rw [hself, hdec, List.length_cons]
    omega
  · have hl := hb.live
    rw [hlive, List.countP_cons_of_pos (by rw [decide_eq_true_eq]; exact hpage)] at hl
    rw [hself, hdec]
    show (W.alloc.desc d).refcnt.toNat - 1 =
      (W.objects.erase x).countP fun y => pageOf y.1 = (W.alloc.desc d).page
    omega
  · intro y hy
    obtain ⟨hy, hne⟩ := hsub y hy
    obtain ⟨e, he⟩ := h.placed y hy
    refine ⟨e, he.same (hlocal.pages e) he.listed ?_⟩
    by_cases hed : e = d
    · rw [hed, update_self]
      intro hmem
      rcases List.mem_cons.1 hmem with heq | hmem
      · exact hne heq
      · have := he.taken
        rw [hed] at this
        exact this hmem
    · rw [update_of_ne hed]
      exact he.taken
  · exact h.single.sublist (List.erase_sublist.map Prod.fst)

/-! ### The users write -/

/-- **A write of a user** into an object of its own. -/
theorem Sound.write (h : Sound W L objs) {a : ℕ} {w : Word} (ha : W.Allowed (.write a w)) :
    Sound ⟨W.alloc.store a w.toNat, W.objects⟩ L objs := by
  obtain ⟨x, hx, h1, h2⟩ := ha
  refine ⟨⟨h.lists, h.empty, h.descs, h.tables, ?_, h.distinct, h.noTable, ?_, h.single, h.pool⟩, h.used⟩
  · intro i hi d hd
    refine (h.buckets i hi d hd).same (SameBut.refl _) ?_ (fun _ hf _ => hf) rfl
    intro o ho
    exact word_store_of_ne W.alloc (h.outside hx h1 h2 hi hd ho)
  · intro y hy
    obtain ⟨e, he⟩ := h.placed y hy
    exact ⟨e, he.same rfl he.listed he.taken⟩

end OldLinux.Malloc
