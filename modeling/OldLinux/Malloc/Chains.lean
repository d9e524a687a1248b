import OldLinux.Malloc.Objects

/-!
# Descriptors change lists

`free_s` takes the descriptor of an empty page off its chain and puts it on `free_bucket_desc`;
`malloc` takes one from there, or makes a page of them, and puts it on a chain with a new page.
-/

namespace OldLinux.Malloc

open Function Lib Memory

variable {A A' : Allocator} {W : World} {L : ℕ → List ℕ} {objs : ℕ → List ℕ}
  {objects : List (ℕ × Word)} {i d prev f : ℕ} {l l₁ l₂ : List ℕ} {s s' : Mm}

/-! ### `prev` is made accurate -/

/-- **The first descriptor of a chain** has no `prev`, whatever was taken for it. -/
theorem Ordered.prev_first (h : Ordered W L objs) (hi : i < 9) (hl : L i = d :: l)
    (hprev : prev = 0 ∨ W.alloc.IsDesc prev) : W.alloc.accuratePrev i prev d = some 0 := by
  have hlinked := h.lists.linked i
  have hnodup := h.lists.nodup i
  rw [head_chain hi] at hlinked
  have hwalk := walk_eq (fun c => W.alloc.next c = d) (n := addresses) hlinked
    (by have := h.length_lt i; rw [addresses]; omega)
  rw [hl] at hlinked hnodup
  rw [hl, find_before_first hlinked hnodup] at hwalk
  rw [Allocator.accuratePrev]
  split
  · rw [hwalk]
    rfl
  · rename_i hcond
    by_cases h0 : prev = 0
    · rw [h0]
    · -- nothing stands before the first cell
      obtain ⟨j, hj⟩ := (h.descs prev).1 (hprev.resolve_left h0)
      have hnext : W.alloc.next prev = d := by
        by_contra hne
        exact hcond (Or.inl ⟨h0, hne⟩)
      obtain ⟨m₁, m₂, hm⟩ := (h.lists.linked j).before hj hlinked.2.1 hnext
      have hdj : d ∈ L j := by
        rw [hm]
        exact List.mem_append_right m₁ (List.mem_cons_of_mem prev List.mem_cons_self)
      have hij := h.lists.apart j i d hdj (by rw [hl]; exact List.mem_cons_self)
      have hnone := find_before_first hlinked hnodup
      rw [List.find?_eq_none] at hnone
      rw [hij, hl] at hj
      exact absurd (by rw [decide_eq_true_eq]; exact hnext) (hnone prev hj)

/-- **The others** get the one before them. -/
theorem Ordered.prev_inner (h : Ordered W L objs) (hi : i < 9) {a : ℕ}
    (hl : L i = l₁ ++ a :: d :: l₂) (hprev : prev = 0 ∨ W.alloc.IsDesc prev) :
    W.alloc.accuratePrev i prev d = some a := by
  have hlinked := h.lists.linked i
  have hnodup := h.lists.nodup i
  rw [head_chain hi] at hlinked
  have hwalk := walk_eq (fun c => W.alloc.next c = d) (n := addresses) hlinked
    (by have := h.length_lt i; rw [addresses]; omega)
  have hda : d ∈ L i := by
    rw [hl]
    exact List.mem_append_right l₁ (List.mem_cons_of_mem a List.mem_cons_self)
  have hne := hlinked.ne_zero hda
  rw [hl] at hlinked hnodup
  rw [hl, find_before hlinked hnodup] at hwalk
  rw [Allocator.accuratePrev]
  split
  · rw [hwalk]
    rfl
  · rename_i hcond
    by_cases h0 : prev = 0
    · -- the chain does not begin with `d`
      have hchain : W.alloc.chain i = d := by
        by_contra hne
        exact hcond (Or.inr ⟨h0, hne⟩)
      exfalso
      cases l₁ with
      | nil =>
        have had : a = d := hlinked.1.symm.trans hchain
        rw [had] at hnodup
        exact (List.nodup_cons.1 hnodup).1 List.mem_cons_self
      | cons c l₁ =>
        have hcd : c = d := hlinked.1.symm.trans hchain
        rw [hcd] at hnodup
        exact (List.nodup_cons.1 hnodup).1
          (List.mem_append_right l₁ (List.mem_cons_of_mem a List.mem_cons_self))
    · obtain ⟨j, hj⟩ := (h.descs prev).1 (hprev.resolve_left h0)
      have hnext : W.alloc.next prev = d := by
        by_contra hne
        exact hcond (Or.inl ⟨h0, hne⟩)
      obtain ⟨m₁, m₂, hm⟩ := (h.lists.linked j).before hj hne hnext
      have hdj : d ∈ L j := by
        rw [hm]
        exact List.mem_append_right m₁ (List.mem_cons_of_mem prev List.mem_cons_self)
      have hij := h.lists.apart j i d hdj hda
      have hm' := hm
      rw [hij, hl] at hm'
      have hfind := find_before hlinked hnodup
      have hlinked' := hlinked
      have hnodup' := hnodup
      rw [hm'] at hlinked' hnodup'
      have hfind' := find_before hlinked' hnodup'
      rw [← hm', hfind] at hfind'
      exact hfind'.symm

/-! ### `free_s` takes a descriptor off its chain -/

/-- The lists without `d` on the chain of bucket `i`. -/
def without (L : ℕ → List ℕ) (i d : ℕ) : ℕ → List ℕ := update L i ((L i).erase d)

structure Unlinked (A A' : Allocator) (L : ℕ → List ℕ) (i d : ℕ) : Prop where
  mm : A'.mm = A.mm
  tables : A'.descPages = A.descPages
  free : A'.freeBucketDesc = A.freeBucketDesc
  same : ∀ e, SameBut (A.desc e) (A'.desc e)
  lists : Lists A'.next A'.head (without L i d)

theorem setNext_same (A : Allocator) (d b e : ℕ) : SameBut (A.desc e) ((A.setNext d b).desc e) := by
  rw [Allocator.setNext, setDesc_desc]
  split
  · rename_i he
    rw [he]
    exact ⟨rfl, rfl, rfl, rfl⟩
  · exact SameBut.refl _

theorem Ordered.unlink (h : Ordered W L objs) (hi : i < 9) (hd : d ∈ L i)
    (hprev : prev = 0 ∨ W.alloc.IsDesc prev) :
    wp (unlink i prev d) (fun _ A' => Unlinked W.alloc A' L i d) (fun _ _ => False) W.alloc := by
  obtain ⟨l₁, l₂, hl⟩ := List.append_of_mem hd
  have hnodup := h.lists.nodup i
  have hlinked := h.lists.linked i
  rw [hl] at hnodup hlinked
  have herase : (L i).erase d = l₁ ++ l₂ := by
    rw [hl, List.erase_append_right]
    · rw [List.erase_cons_head]
    · intro hmem
      exact (List.nodup_append.1 hnodup).2.2 d hmem d List.mem_cons_self rfl
  rw [Malloc.unlink, wp_bind, wp_get]
  rcases List.eq_nil_or_concat l₁ with hnil | ⟨m, a, hm⟩
  · rw [hnil, List.nil_append] at hl hlinked herase
    rw [h.prev_first hi hl hprev]
    have hchain : W.alloc.chain i = d := by
      rw [← head_chain hi]
      exact hlinked.1
    simp only [wp_ite]
    refine ⟨fun h0 => absurd rfl h0, fun _ => ⟨fun hne => absurd hchain hne, fun _ => ?_⟩⟩
    rw [wp_modify]
    refine ⟨rfl, rfl, rfl, fun _ => SameBut.refl _, ?_⟩
    rw [without, herase]
    refine h.lists.pop hl ?_ ?_
    · rw [head_chain hi]
      exact update_self ..
    · intro j hj
      rw [Allocator.head, Allocator.head]
      show (if j < 9 then update W.alloc.chain i _ j else _) = _
      rw [update_of_ne hj]
      rfl
  · rw [List.concat_eq_append] at hm
    rw [hm, List.append_assoc, List.singleton_append] at hl
    rw [hm, List.append_assoc, List.singleton_append] at herase
    have ha : a ∈ L i := by
      rw [hl]
      exact List.mem_append_right m List.mem_cons_self
    rw [h.prev_inner hi hl hprev]
    simp only [wp_ite]
    refine ⟨fun _ => ?_, fun h0 => absurd ((h.lists.linked i).ne_zero ha) h0⟩
    rw [wp_modify]
    refine ⟨rfl, rfl, rfl, fun e => setNext_same _ _ _ e, ?_⟩
    rw [without, herase]
    refine h.lists.unlink hl ?_ ?_ (fun _ => rfl)
    · rw [setNext_next, if_pos rfl]
    · intro c hc
      rw [setNext_next, if_neg hc]

/-! ### An empty page is given back -/

/-- The lists after `d` has gone from the chain of bucket `i` to `free_bucket_desc`. -/
def retire (L : ℕ → List ℕ) (i d : ℕ) : ℕ → List ℕ :=
  update (without L i d) 9 (d :: L 9)

theorem mem_without {e j : ℕ} : e ∈ without L i d j → e ∈ L j := by
  intro he
  rw [without, update_apply] at he
  split at he
  · rename_i hj
    rw [hj]
    exact List.mem_of_mem_erase he
  · exact he

theorem Ordered.not_mem_without (h : Ordered W L objs) (hd : d ∈ L i) (j : ℕ) : d ∉ without L i d j := by
  intro hmem
  by_cases hj : j = i
  · rw [hj, without, update_self] at hmem
    exact ((h.lists.nodup i).mem_erase_iff.1 hmem).1 rfl
  · rw [without, update_of_ne hj] at hmem
    exact hj (h.lists.apart j i d hmem hd)

theorem retire_of_ne {j : ℕ} (hj : j ≠ 9) : retire L i d j = without L i d j :=
  update_of_ne hj _ _

theorem retire_free : retire L i d 9 = d :: L 9 := update_self ..

/-- The descriptors on chains after one has been retired. -/
theorem Ordered.mem_retire (h : Ordered W L objs) (hd : d ∈ L i) {e j : ℕ} (hj : j < 9)
    (he : e ∈ retire L i d j) : e ∈ L j ∧ e ≠ d := by
  rw [retire_of_ne (by omega)] at he
  refine ⟨mem_without he, ?_⟩
  intro hed
  rw [hed] at he
  exact h.not_mem_without hd j he

theorem Ordered.retire_mem (h : Ordered W L objs) {e j : ℕ} (he : e ∈ L j) (hed : e ≠ d) :
    e ∈ retire L i d j := by
  by_cases hj : j = 9
  · rw [hj, retire_free]
    rw [hj] at he
    exact List.mem_cons_of_mem d he
  · rw [retire_of_ne hj]
    by_cases hji : j = i
    · rw [hji, without, update_self]
      rw [hji] at he
      exact (h.lists.nodup i).mem_erase_iff.2 ⟨hed, he⟩
    · rw [without, update_of_ne hji]
      exact he

/-- **A page without objects is given back** and its descriptor is free. -/
theorem Ordered.retire (h : Ordered W L objs) (hi : i < 9) (hd : d ∈ L i)
    (hzero : (W.alloc.desc d).refcnt = 0) (hf : (W.alloc.desc d).page = f * 4096)
    (hunlinked : Unlinked W.alloc A' L i d) :
    Ordered ⟨{ ({ A' with mm := A'.mm.setCount (f - 256) 0 } : Allocator).setNext d A'.freeBucketDesc
      with freeBucketDesc := d }, W.objects⟩ (Malloc.retire L i d) objs := by
  obtain ⟨B, hB⟩ : ∃ B, { ({ A' with mm := A'.mm.setCount (f - 256) 0 } : Allocator).setNext d
    A'.freeBucketDesc with freeBucketDesc := d } = B := ⟨_, rfl⟩
  have hb := h.buckets i hi d hd
  obtain ⟨g, hg, hgf⟩ := hb.page
  have hgeq : g = f := by omega
  rw [hgeq] at hg
  have hsame : ∀ e, SameBut (W.alloc.desc e) (B.desc e) := by
    intro e
    have h1 := hunlinked.same e
    have h2 := setNext_same { A' with mm := A'.mm.setCount (f - 256) 0 } d A'.freeBucketDesc e
    rw [← hB]
    exact ⟨h2.page.trans h1.page, h2.freeptr.trans h1.freeptr, h2.refcnt.trans h1.refcnt, h2.size.trans h1.size⟩
  have htables : B.descPages = W.alloc.descPages := by
    rw [← hB]
    exact hunlinked.tables
  have hmap : B.mm.memMap = update W.alloc.mm.memMap (f - 256) 0 := by
    rw [← hB, ← hunlinked.mm]
    rfl
  have hhigh : B.mm.highMemory = W.alloc.mm.highMemory := by
    rw [← hB, ← hunlinked.mm]
    rfl
  have hword : B.word = W.alloc.word := by
    rw [← hB]
    funext a
    rw [Allocator.word, Allocator.word, ← hunlinked.mm]
    rfl
  have hheld : ∀ g, Held W.alloc.mm g → g ≠ f → Held B.mm g := by
    intro g hg' hne
    have h1 := hg'.1
    have h2 := hg.1
    rw [Held, hmap, hhigh, update_of_ne (by omega)]
    exact hg'
  have hnone : ∀ x ∈ W.objects, pageOf x.1 ≠ (W.alloc.desc d).page := by
    have hlive := hb.live
    rw [hzero] at hlive
    intro x hx hp
    have := List.countP_eq_zero.1 hlive.symm x hx
    rw [decide_eq_true_eq] at this
    exact this hp
  have hlists : Lists B.next B.head (Malloc.retire L i d) := by
    have hfresh := h.not_mem_without hd
    have hnine : without L i d 9 = L 9 := update_of_ne (by omega) _ _
    rw [Malloc.retire, ← hnine, ← hB]
    refine hunlinked.lists.push ((h.lists.linked i).ne_zero hd) hfresh ?_ ?_ ?_ ?_
    · show (Allocator.setNext _ d A'.freeBucketDesc).next d = _
      rw [setNext_next, if_pos rfl, head_free]
    · intro c hc
      show (Allocator.setNext _ d A'.freeBucketDesc).next c = _
      rw [setNext_next, if_neg hc]
      rfl
    · exact head_free
    · intro j hj
      rw [Allocator.head, Allocator.head, if_neg hj, if_neg hj]
      rfl
  rw [hB]
  refine ⟨hlists, ?_, ?_, ?_, ?_, ?_, ?_, ?_, h.single, ?_⟩
  · intro j hj
    rw [retire_of_ne (by omega), without, update_of_ne (by omega)]
    exact h.empty j hj
  · intro e
    rw [Allocator.IsDesc, htables]
    refine (h.descs e).trans ⟨?_, ?_⟩
    · intro he
      obtain ⟨j, hj⟩ := he
      by_cases hed : e = d
      · refine ⟨9, ?_⟩
        rw [retire_free, hed]
        exact List.mem_cons_self
      · exact ⟨j, h.retire_mem hj hed⟩
    · intro he
      obtain ⟨j, hj⟩ := he
      by_cases hj9 : j = 9
      · rw [hj9, retire_free] at hj
        rcases List.mem_cons.1 hj with hj | hj
        · exact ⟨i, by rw [hj]; exact hd⟩
        · exact ⟨9, hj⟩
      · rw [retire_of_ne hj9] at hj
        exact ⟨j, mem_without hj⟩
  · intro p hp
    rw [htables] at hp
    obtain ⟨g, hg', hpg⟩ := h.tables p hp
    refine ⟨g, hheld g hg' ?_, hpg⟩
    intro hgf
    apply h.noTable i hi d hd
    rw [hf, ← hgf, ← hpg]
    exact hp
  · intro j hj e he
    obtain ⟨he, hed⟩ := h.mem_retire hd hj he
    refine (h.buckets j hj e he).same (hsame e) (fun _ _ => by rw [hword]) ?_ rfl
    intro g hg' hpg
    refine hheld g hg' ?_
    intro hgf
    apply hed
    apply h.distinct j hj e he i hi d hd
    rw [hpg, hf, hgf]
  · intro j hj e he k hk c hc hp
    rw [(hsame e).page, (hsame c).page] at hp
    exact h.distinct j hj e (h.mem_retire hd hj he).1 k hk c (h.mem_retire hd hk hc).1 hp
  · intro j hj e he
    rw [(hsame e).page, htables]
    exact h.noTable j hj e (h.mem_retire hd hj he).1
  · intro x hx
    obtain ⟨e, he⟩ := h.placed x hx
    refine ⟨e, he.same (hsame e).page (h.retire_mem he.listed ?_) he.taken⟩
    intro hed
    apply hnone x hx
    rw [← hed]
    exact h.placed_page he
  · intro k hk hk0
    rw [hmap] at hk0
    rw [hhigh]
    by_cases hkf : k = f - 256
    · have h1 := hg.1
      have h2 := hg.2.2.2
      rw [hkf, show 256 + (f - 256) = f from by omega]
      exact h2
    · rw [update_of_ne hkf] at hk0
      exact h.pool k hk hk0

/-- What `free_s` leaves when it has found the descriptor `d` of the object. -/
structure Released (W : World) (L : ℕ → List ℕ) (x : ℕ × Word) (d : ℕ) (A' : Allocator)
    (L' objs' : ℕ → List ℕ) : Prop where
  sound : Sound ⟨A', W.objects.erase x⟩ L' objs'
  pages : ∀ e, (A'.desc e).page = (W.alloc.desc e).page
  tables : A'.descPages = W.alloc.descPages
  last : (W.alloc.desc d).refcnt = 1 → L' = retire L (findBucket x.2) d ∧
    W.alloc.mm.memMap (pageOf x.1 / 4096 - 256) = 1 ∧
    A'.mm.memMap = update W.alloc.mm.memMap (pageOf x.1 / 4096 - 256) 0
  more : (W.alloc.desc d).refcnt ≠ 1 → L' = L ∧ A'.mm.memMap = W.alloc.mm.memMap

/-- **`free_s` after its search**, with any descriptor for `prev`. -/
theorem Sound.release (h : Sound W L objs) {x : ℕ × Word} (hx : x ∈ W.objects)
    (hp : Placed W.alloc L objs x d) (hprev : prev = 0 ∨ W.alloc.IsDesc prev) :
    wp (release x.1 (findBucket x.2) prev d)
      (fun _ A' => ∃ L' objs', Released W L x d A' L' objs') (fun _ _ => False) W.alloc := by
  have hi := (findBucket_spec hp.length).1
  have hput := h.toOrdered.put hx hp
  have hself := put_desc W.alloc x.1 d
  have hlocal := put_local W.alloc x.1 d
  have hrefcnt : ((W.alloc.put x.1 d).desc d).refcnt = 0 ↔ (W.alloc.desc d).refcnt = 1 := by
    rw [hself]
    show (W.alloc.desc d).refcnt - 1 = 0 ↔ _
    constructor
    · intro h0
      bv_omega
    · intro h1
      rw [h1]
      rfl
  obtain ⟨f, hf, hpf⟩ := (h.buckets _ hi d hp.listed).page
  have hpage : pageOf x.1 / 4096 = f := by
    rw [h.placed_page hp, hpf]
    omega
  have hused : ∀ i < 9, ∀ e ∈ L i, e ≠ d → ((W.alloc.put x.1 d).desc e).refcnt ≠ 0 := by
    intro j hj e he hed
    rw [hlocal.desc e hed]
    exact h.used j hj e he
  rw [Malloc.release, wp_bind, wp_modify, wp_bind, wp_modify, wp_bind, wp_get]
  show wp (if ((W.alloc.put x.1 d).desc d).refcnt = 0 then _ else _) _ _ (W.alloc.put x.1 d)
  rw [wp_ite]
  constructor
  · intro hzero
    have hunlink : wp (unlink _ prev d) _ _ _ := hput.unlink hi hp.listed (by
      rw [Allocator.IsDesc, hlocal.tables]
      exact hprev)
    rw [wp_bind]
    apply wp_mono hunlink _ (fun _ _ h => h)
    intro _ A1 hA1
    have hpf1 : (A1.desc d).page = f * 4096 := by rw [(hA1.same d).page, hlocal.page, hpf]
    have hmap1 : A1.mm.memMap = W.alloc.mm.memMap := by rw [hA1.mm, hlocal.memMap]
    have hhigh1 : A1.mm.highMemory = W.alloc.mm.highMemory := by rw [hA1.mm, hlocal.high]
    have hone : A1.mm.memMap (f - 256) = 1 := by
      rw [hmap1]
      exact hf.2.2.1
    rw [wp_bind, wp_get, wp_bind, wp_mmCall, hpf1]
    apply wp_mono (freePage_spec hf.1 (by rw [hone]; decide))
    · intro _ s hs
      rw [hone, show (1 : BitVec 8) - 1 = 0 from rfl] at hs
      rw [hs, wp_modify]
      have hretire := hput.retire hi hp.listed hzero (by rw [hlocal.page, hpf]) hA1
      have hsame : ∀ e, (({ ({ A1 with mm := A1.mm.setCount (f - 256) 0 } : Allocator).setNext d
          A1.freeBucketDesc with freeBucketDesc := d } : Allocator).desc e) =
          (({ A1 with mm := A1.mm.setCount (f - 256) 0 } : Allocator).setNext d
            A1.freeBucketDesc).desc e := fun _ => rfl
      refine ⟨_, _, ⟨hretire, ?_⟩, ?_, ?_, ?_, ?_⟩
      · intro j hj e he
        obtain ⟨he, hed⟩ := hput.mem_retire hp.listed hj he
        rw [hsame, (setNext_same _ d _ e).refcnt, (hA1.same e).refcnt]
        exact hused j hj e he hed
      · intro e
        rw [hsame, (setNext_same _ d _ e).page]
        exact (hA1.same e).page.trans (hlocal.pages e)
      · exact hA1.tables.trans hlocal.tables
      · intro _
        rw [hpage]
        refine ⟨rfl, hf.2.2.1, ?_⟩
        rw [← hmap1]
        rfl
      · exact fun hne => absurd (hrefcnt.1 hzero) hne
    · intro _ s hs
      have := hs.2.2
      rw [hhigh1] at this
      exact absurd hf.2.2.2 (by omega)
  · intro hne
    refine ⟨L, _, ⟨hput, ?_⟩, hlocal.pages, hlocal.tables, fun h1 => absurd (hrefcnt.2 h1) hne,
      fun _ => ⟨rfl, hlocal.memMap⟩⟩
    intro j hj e he
    by_cases hed : e = d
    · rw [hed]
      exact hne
    · exact hused j hj e he hed

end OldLinux.Malloc
