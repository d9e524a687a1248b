import OldLinux.Malloc.Chains

/-!
# `malloc` makes a bucket

A page from `get_free_page` is nobody's, so a new page of descriptors has no descriptor that is on a
list already, and a new bucket no object that is in use.
-/

namespace OldLinux.Malloc

open Function Lib Memory

variable {A A' : Allocator} {W : World} {L : ℕ → List ℕ} {objs : ℕ → List ℕ} {i d f g size : ℕ}
  {l : List ℕ} {s s' : Mm} {len : Word}

/-! ### `get_free_page` -/

/-- The frame `f` was free and is in use. -/
structure Got (s : Mm) (f : ℕ) (s' : Mm) : Prop where
  low : 256 ≤ f
  lt : f < 4096
  zero : s.memMap (f - 256) = 0
  memMap : s'.memMap = update s.memMap (f - 256) 1
  mem : ∀ g, g ≠ f → s'.mem g = s.mem g
  high : s'.highMemory = s.highMemory

theorem getFreePage_got (s : Mm) :
    wp getFreePage (fun p s' => p = 0 ∧ s' = s ∧ s.Full ∨ ∃ f, p = f * 4096 ∧ Got s f s')
      (fun _ _ => False) s := by
  apply wp_mono (getFreePage_spec s) _ (fun _ _ h => h)
  intro p s' h
  cases h with
  | none hfull => exact Or.inl ⟨rfl, rfl, hfull⟩
  | some k hk h0 _ =>
    have hsub : 256 + k - 256 = k := by omega
    refine Or.inr ⟨256 + k, rfl, by omega, by omega, ?_, ?_, ?_, rfl⟩
    · rw [hsub]
      exact h0
    · rw [hsub]
      rfl
    · intro g hg
      exact storePage_mem_of_ne _ hg _

theorem Got.ne (h : Got s f s') (hg : Held s g) : g ≠ f := by
  intro hgf
  have h1 := hg.2.2.1
  rw [hgf, h.zero] at h1
  exact absurd h1 (by decide)

theorem Got.held (h : Got s f s') (hg : Held s g) : Held s' g := by
  have hne := h.ne hg
  have h1 := hg.1
  have h2 := h.low
  rw [Held, h.memMap, h.high, update_of_ne (by omega)]
  exact hg

theorem Got.new (h : Got s f s') (hpool : ∀ k < 3840, s.memMap k = 0 → (256 + k) * 4096 < s.highMemory) :
    Held s' f := by
  have h1 := h.low
  have h2 := h.lt
  have h3 := hpool (f - 256) (by omega) h.zero
  rw [show 256 + (f - 256) = f from by omega] at h3
  refine ⟨h1, h2, ?_, ?_⟩
  · rw [h.memMap, update_self]
  · rw [h.high]
    exact h3

theorem Got.pool (h : Got s f s') (hpool : ∀ k < 3840, s.memMap k = 0 → (256 + k) * 4096 < s.highMemory) :
    ∀ k < 3840, s'.memMap k = 0 → (256 + k) * 4096 < s'.highMemory := by
  intro k hk h0
  rw [h.memMap] at h0
  rw [h.high]
  by_cases hkf : k = f - 256
  · rw [hkf, update_self] at h0
    exact absurd h0 (by decide)
  · rw [update_of_ne hkf] at h0
    exact hpool k hk h0

/-- No page of the allocator is the new one. -/
theorem Ordered.page_ne (h : Ordered W L objs) (hgot : Got W.alloc.mm f s') (hi : i < 9)
    (hd : d ∈ L i) : (W.alloc.desc d).page ≠ f * 4096 := by
  obtain ⟨g, hg, hpg⟩ := (h.buckets i hi d hd).page
  have hne := hgot.ne hg
  omega

theorem Ordered.desc_page_ne (h : Ordered W L objs) (hgot : Got W.alloc.mm f s') (hd : d ∈ L i) :
    d / 4096 ≠ f := by
  obtain ⟨p, hp, k, hk, hdp⟩ := (h.descs d).2 ⟨i, hd⟩
  obtain ⟨g, hg, hpg⟩ := h.tables p hp
  have hne := hgot.ne hg
  omega

/-- The free objects are where they were. -/
theorem Ordered.word_eq (h : Ordered W L objs) (hgot : Got W.alloc.mm f s') (hi : i < 9) (hd : d ∈ L i)
    {o : ℕ} (ho : o ∈ objs d) (hmem : ∀ g, g ≠ f → A'.mm.mem g = W.alloc.mm.mem g) :
    A'.word o = W.alloc.word o := by
  have hb := h.buckets i hi d hd
  have hr := (hb.slots o ho).range hi
  have hpos := bucketSize_pos hi
  have hne := h.page_ne hgot hi hd
  obtain ⟨g, hg, hpg⟩ := hb.page
  rw [Allocator.word, Allocator.word, hmem]
  intro hof
  omega

/-! ### A page of descriptors -/

theorem linkDescs_spec (n b : ℕ) (A : Allocator) : wp (linkDescs b n) (fun r A' => r = b + n * 16 ∧
      (A'.mm = A.mm ∧ A'.chain = A.chain ∧ A'.freeBucketDesc = A.freeBucketDesc ∧ A'.descPages = A.descPages) ∧
      (∀ e ∈ List.range' b n 16, A'.next e = e + 16) ∧
      ∀ e ∉ List.range' b n 16, A'.desc e = A.desc e) (fun _ _ => False) A := by
  induction n generalizing b A with
  | zero => exact ⟨by omega, ⟨rfl, rfl, rfl, rfl⟩, fun _ h => absurd h List.not_mem_nil, fun _ _ => rfl⟩
  | succ n ih =>
    rw [linkDescs, wp_bind, wp_modify]
    apply wp_mono (ih (b + 16) (A.setNext b (b + 16))) _ (fun _ _ h => h)
    intro r A' hA'
    obtain ⟨hr, hsame, hnext, hdesc⟩ := hA'
    have hb : b ∉ List.range' (b + 16) n 16 := by
      intro hmem
      obtain ⟨k, -, hk⟩ := List.mem_range'.1 hmem
      omega
    refine ⟨by omega, hsame, ?_, ?_⟩
    · intro e he
      rw [List.range'_succ] at he
      rcases List.mem_cons.1 he with he | he
      · rw [he, Allocator.next, hdesc b hb]
        exact (setNext_next A b (b + 16) b).trans (if_pos rfl)
      · exact hnext e he
    · intro e he
      rw [List.range'_succ, List.mem_cons, not_or] at he
      rw [hdesc e he.2, Allocator.setNext, desc_setDesc_of_ne he.1]

/-- What `init_bucket_desc` leaves. -/
structure Made (W : World) (L : ℕ → List ℕ) (objs : ℕ → List ℕ) (A' : Allocator) (f : ℕ) : Prop where
  ordered : Ordered ⟨A', W.objects⟩ (update L 9 (List.range' (f * 4096) 256 16 ++ L 9)) objs
  got : Got W.alloc.mm f A'.mm
  desc : ∀ j, ∀ e ∈ L j, A'.desc e = W.alloc.desc e
  chain : A'.chain = W.alloc.chain
  tables : A'.descPages = f * 4096 :: W.alloc.descPages
  free : A'.freeBucketDesc = f * 4096

theorem Ordered.made (h : Ordered W L objs) (hgot : Got W.alloc.mm f A'.mm)
    (hold : ∀ e, e / 4096 ≠ f → A'.desc e = W.alloc.desc e) (hchain : A'.chain = W.alloc.chain)
    (htables : A'.descPages = f * 4096 :: W.alloc.descPages) (hfree : A'.freeBucketDesc = f * 4096)
    (hnext : ∀ e ∈ List.range' (f * 4096) 255 16, A'.next e = e + 16)
    (hlast : A'.next (f * 4096 + 255 * 16) = W.alloc.freeBucketDesc) : Made W L objs A' f := by
  have hlow := hgot.low
  have hdesc : ∀ j, ∀ e ∈ L j, A'.desc e = W.alloc.desc e := fun j e he =>
    hold e (h.desc_page_ne hgot he)
  have hnew : ∀ e ∈ List.range' (f * 4096) 256 16, e / 4096 = f := by
    intro e he
    obtain ⟨k, hk, hek⟩ := List.mem_range'.1 he
    omega
  have hlists : Lists A'.next A'.head (update L 9 (List.range' (f * 4096) 256 16 ++ L 9)) := by
    refine h.lists.extend _ ?_ (List.nodup_range' 16 (by omega)) ?_ ?_ ?_
    · rw [head_free, hfree, show 256 = 255 + 1 from rfl, List.range'_concat, List.append_assoc]
      refine linked_range' (by omega) hnext ⟨rfl, by omega, ?_⟩
      have hnine := h.lists.linked 9
      rw [head_free] at hnine
      rw [show 16 * 255 = 255 * 16 from rfl, hlast]
      apply hnine.congr
      intro e he
      rw [Allocator.next, Allocator.next, hdesc 9 e he]
    · intro j e he hj
      exact h.desc_page_ne hgot hj (hnew e he)
    · intro j e he
      rw [Allocator.next, Allocator.next, hdesc j e he]
    · intro j hj
      rw [Allocator.head, Allocator.head, hchain, if_neg hj, if_neg hj]
  have hmem : ∀ j e, j < 9 → (e ∈ update L 9 (List.range' (f * 4096) 256 16 ++ L 9) j ↔ e ∈ L j) := by
    intro j e hj
    rw [update_of_ne (by omega)]
  refine ⟨⟨hlists, ?_, ?_, ?_, ?_, ?_, ?_, ?_, h.single, hgot.pool h.pool⟩, hgot, hdesc, hchain, htables, hfree⟩
  · intro j hj
    rw [update_of_ne (by omega)]
    exact h.empty j hj
  · intro e
    constructor
    · intro he
      obtain ⟨p, hp, k, hk, hep⟩ := he
      rw [htables] at hp
      rcases List.mem_cons.1 hp with hp | hp
      · refine ⟨9, ?_⟩
        rw [update_self, List.mem_append]
        exact Or.inl (List.mem_range'.2 ⟨k, hk, by rw [hep, hp]⟩)
      · obtain ⟨j, hj⟩ := (h.descs e).1 ⟨p, hp, k, hk, hep⟩
        refine ⟨j, ?_⟩
        by_cases hj9 : j = 9
        · rw [hj9, update_self, List.mem_append]
          rw [hj9] at hj
          exact Or.inr hj
        · rw [update_of_ne hj9]
          exact hj
    · intro he
      obtain ⟨j, hj⟩ := he
      have hcase : e ∈ List.range' (f * 4096) 256 16 ∨ ∃ j, e ∈ L j := by
        by_cases hj9 : j = 9
        · rw [hj9, update_self, List.mem_append] at hj
          exact hj.imp_right (fun hj => ⟨9, hj⟩)
        · rw [update_of_ne hj9] at hj
          exact Or.inr ⟨j, hj⟩
      rcases hcase with hcase | hcase
      · obtain ⟨k, hk, hek⟩ := List.mem_range'.1 hcase
        refine ⟨f * 4096, ?_, k, hk, hek⟩
        rw [htables]
        exact List.mem_cons_self
      · obtain ⟨p, hp, k, hk, hep⟩ := (h.descs e).2 hcase
        refine ⟨p, ?_, k, hk, hep⟩
        rw [htables]
        exact List.mem_cons_of_mem _ hp
  · intro p hp
    rw [htables] at hp
    rcases List.mem_cons.1 hp with hp | hp
    · exact ⟨f, hgot.new h.pool, hp⟩
    · obtain ⟨g, hg, hpg⟩ := h.tables p hp
      exact ⟨g, hgot.held hg, hpg⟩
  · intro j hj e he
    rw [hmem j e hj] at he
    refine (h.buckets j hj e he).same ?_ (fun o ho => h.word_eq hgot hj he ho hgot.mem)
      (fun _ hg _ => hgot.held hg) rfl
    rw [hdesc j e he]
    exact SameBut.refl _
  · intro j hj e he k hk c hc hp
    rw [hmem j e hj] at he
    rw [hmem k c hk] at hc
    rw [hdesc j e he, hdesc k c hc] at hp
    exact h.distinct j hj e he k hk c hc hp
  · intro j hj e he
    rw [hmem j e hj] at he
    rw [hdesc j e he, htables, List.mem_cons, not_or]
    exact ⟨h.page_ne hgot hj he, h.noTable j hj e he⟩
  · intro x hx
    obtain ⟨e, he⟩ := h.placed x hx
    refine ⟨e, he.same ?_ ?_ he.taken⟩
    · rw [hdesc _ e he.listed]
    · rw [hmem _ e (findBucket_spec he.length).1]
      exact he.listed

/-- **`init_bucket_desc`** puts a page of new descriptors before the free ones. -/
theorem Ordered.initBucketDesc (h : Ordered W L objs) : wp initBucketDesc (fun _ A' => ∃ f, Made W L objs A' f)
      (fun e _ => (∃ message, e = .trap (.panic message)) ∧ W.alloc.mm.Full) W.alloc := by
  obtain ⟨n, hn⟩ : ∃ n, 255 = n := ⟨_, rfl⟩
  rw [Malloc.initBucketDesc, hn, wp_bind, wp_mmCall]
  apply wp_mono (getFreePage_got W.alloc.mm) _ (fun _ _ h => h.elim)
  intro first s' hs'
  rw [wp_ite]
  rcases hs' with ⟨h0, -, hfull⟩ | ⟨f, hfirst, hgot⟩
  · exact ⟨fun _ => ⟨⟨_, rfl⟩, hfull⟩, fun hne => absurd h0 hne⟩
  · have hlow := hgot.low
    refine ⟨fun h0 => absurd h0 (by omega), fun _ => ?_⟩
    rw [wp_bind, wp_modify, wp_bind]
    apply wp_mono (linkDescs_spec n first _) _ (fun _ _ h => h.elim)
    intro r A1 hA1
    rw [← hn] at hA1
    obtain ⟨hr, ⟨hmm, hchain, hfree, htables⟩, hnext, hdesc⟩ := hA1
    rw [wp_modify]
    rw [hfirst] at hr hnext hdesc htables ⊢
    have hnot : f * 4096 + 255 * 16 ∉ List.range' (f * 4096) 255 16 := by
      intro hmem
      obtain ⟨k, hk, hek⟩ := List.mem_range'.1 hmem
      omega
    refine ⟨f, h.made ?_ ?_ hchain htables rfl ?_ ?_⟩
    · show Got W.alloc.mm f A1.mm
      rw [hmm]
      exact hgot
    · intro e he
      have hout : e ∉ List.range' (f * 4096) 255 16 := by
        intro hmem
        obtain ⟨k, hk, hek⟩ := List.mem_range'.1 hmem
        omega
      show (A1.setNext r A1.freeBucketDesc).desc e = _
      rw [Allocator.setNext, desc_setDesc_of_ne (by omega), hdesc e hout]
      show (if e / 4096 = f * 4096 / 4096 then BucketDesc.zero else W.alloc.desc e) = _
      rw [if_neg (by omega)]
    · intro e he
      have hne : e ≠ r := by
        intro her
        rw [her, hr] at he
        exact hnot he
      exact (setNext_next A1 r A1.freeBucketDesc e).trans ((if_neg hne).trans (hnext e he))
    · rw [← hr]
      exact (setNext_next A1 r A1.freeBucketDesc r).trans ((if_pos rfl).trans hfree)

/-! ### A page of objects -/

theorem setUpChain_spec (hpos : 0 < size) (halign : size % 4 = 0) (n cp : ℕ) (A : Allocator)
    (hcp : cp % 4 = 0) (h0 : cp ≠ 0) (hf : cp / 4096 = f) (hend : (cp + n * size) / 4096 = f)
    (hlt : f < 4096) :
    wp (setUpChain size cp n) (fun _ A' =>
      (A'.desc = A.desc ∧ A'.chain = A.chain ∧ A'.freeBucketDesc = A.freeBucketDesc ∧
        A'.descPages = A.descPages) ∧
      (A'.mm.memMap = A.mm.memMap ∧ A'.mm.highMemory = A.mm.highMemory ∧ ∀ g, g ≠ f →
        A'.mm.mem g = A.mm.mem g) ∧
      (∀ b, b / 4 < cp / 4 → A'.word b = A.word b) ∧
      Linked A'.word cp (List.range' cp (n + 1) size)) (fun _ _ => False) A := by
  have hstore : ∀ v g, g ≠ f → (A.store cp v).mm.mem g = A.mm.mem g := by
    intro v g hg
    exact store_mem_of_ne A.mm (by omega) _ _
  induction n generalizing cp A with
  | zero =>
    rw [setUpChain, wp_modify]
    refine ⟨⟨rfl, rfl, rfl, rfl⟩, ⟨rfl, rfl, hstore 0⟩, ?_, rfl, h0, ?_⟩
    · intro b hb
      exact word_store_of_ne A (by omega)
    · rw [word_store A (by omega), if_pos rfl]
      rfl
  | succ n ih =>
    rw [Nat.add_mul, Nat.one_mul] at hend
    rw [setUpChain, wp_bind, wp_modify]
    apply wp_mono (ih (cp + size) (A.store cp (cp + size)) (by omega) (by omega) (by omega)
      (by rw [Nat.add_right_comm]; omega) _) _ (fun _ _ h => h)
    · intro v g hg
      exact store_mem_of_ne _ (by omega) _ _
    · intro _ A' hA'
      obtain ⟨hsame, ⟨hmap, hhigh, hmem⟩, hbelow, hlinked⟩ := hA'
      refine ⟨hsame, ⟨hmap, hhigh, ?_⟩, ?_, ?_⟩
      · intro g hg
        rw [hmem g hg]
        exact hstore _ g hg
      · intro b hb
        rw [hbelow b (by omega)]
        exact word_store_of_ne A (by omega)
      · rw [List.range'_succ]
        refine ⟨rfl, h0, ?_⟩
        rw [hbelow cp (by omega), word_store A (by omega), if_pos rfl]
        exact hlinked

/-- The lists after `d` has gone from `free_bucket_desc` to the chain of bucket `i`. -/
def enlist (L : ℕ → List ℕ) (i d : ℕ) (free : List ℕ) : ℕ → List ℕ :=
  update (update L 9 free) i (d :: L i)

theorem enlist_of_lt {j : ℕ} {free : List ℕ} (hj : j < 9) :
    enlist L i d free j = if j = i then d :: L i else L j := by
  rw [enlist, update_apply]
  split
  · rfl
  · rw [update_of_ne (by omega)]

/-- **A bucket with a new page.** -/
theorem Ordered.enlisted {free : List ℕ} (h : Ordered W L objs) (hi : i < 9) (hl : L 9 = d :: free)
    (hgot : Got W.alloc.mm f A'.mm) (hdesc : ∀ e, e ≠ d → A'.desc e = W.alloc.desc e)
    (hself : A'.desc d = ⟨f * 4096, W.alloc.chain i, f * 4096, 0, BitVec.ofNat 16 (bucketSize i)⟩)
    (hchain : A'.chain = update W.alloc.chain i d)
    (hfree : A'.freeBucketDesc = W.alloc.next d) (htables : A'.descPages = W.alloc.descPages)
    (hword : Linked A'.word (f * 4096) (List.range' (f * 4096) (4096 / bucketSize i) (bucketSize i))) :
    Ordered ⟨A', W.objects⟩ (enlist L i d free)
      (update objs d (List.range' (f * 4096) (4096 / bucketSize i) (bucketSize i))) := by
  have hd9 : d ∈ L 9 := by
    rw [hl]
    exact List.mem_cons_self
  have hne : ∀ j < 9, ∀ e ∈ L j, e ≠ d := by
    intro j hj e he hed
    have := h.lists.apart j 9 e he (by rw [hed]; exact hd9)
    omega
  have hmem : ∀ j < 9, ∀ e ∈ enlist L i d free j, e = d ∧ j = i ∨ e ∈ L j ∧ e ≠ d := by
    intro j hj e he
    rw [enlist_of_lt hj] at he
    split at he
    · rename_i hji
      rcases List.mem_cons.1 he with he | he
      · exact Or.inl ⟨he, hji⟩
      · rw [← hji] at he
        exact Or.inr ⟨he, hne j hj e he⟩
    · exact Or.inr ⟨he, hne j hj e he⟩
  have hsize := bucketSize_pos hi
  have hnodup := h.lists.nodup 9
  rw [hl] at hnodup
  have hfree' : ∀ j, d ∉ update L 9 free j := by
    intro j hj
    by_cases hj9 : j = 9
    · rw [hj9, update_self] at hj
      exact (List.nodup_cons.1 hnodup).1 hj
    · rw [update_of_ne hj9] at hj
      exact hj9 (h.lists.apart j 9 d hj hd9)
  have hlists : Lists A'.next A'.head (enlist L i d free) := by
    have hpop : Lists W.alloc.next (fun j => if j = 9 then W.alloc.next d else W.alloc.head j) _ :=
      h.lists.pop hl (if_pos rfl) (fun j hj => if_neg hj)
    have hpush : Lists A'.next A'.head (update _ i (d :: _)) := hpop.push
      ((h.lists.linked 9).ne_zero hd9) hfree' ?_ ?_ ?_ ?_
    · rw [update_of_ne (show i ≠ 9 by omega)] at hpush
      exact hpush
    · rw [if_neg (by omega), head_chain hi, Allocator.next, hself]
    · intro c hc
      rw [Allocator.next, hdesc c hc]
      rfl
    · rw [head_chain hi, hchain, update_self]
    · intro j hj
      rw [Allocator.head, Allocator.head, hchain, hfree, update_of_ne hj]
      split
      · rw [if_neg (by omega)]
      · split <;> rfl
  refine ⟨hlists, ?_, ?_, ?_, ?_, ?_, ?_, ?_, h.single, hgot.pool h.pool⟩
  · intro j hj
    rw [enlist, update_of_ne (by omega), update_of_ne (by omega)]
    exact h.empty j hj
  · intro e
    rw [Allocator.IsDesc, htables]
    refine (h.descs e).trans ⟨?_, ?_⟩
    · intro he
      obtain ⟨j, hj⟩ := he
      by_cases hed : e = d
      · refine ⟨i, ?_⟩
        rw [enlist, update_self, hed]
        exact List.mem_cons_self
      · refine ⟨j, ?_⟩
        by_cases hji : j = i
        · rw [enlist, hji, update_self]
          rw [hji] at hj
          exact List.mem_cons_of_mem d hj
        · rw [enlist, update_of_ne hji]
          by_cases hj9 : j = 9
          · rw [hj9, hl] at hj
            rw [hj9, update_self]
            exact (List.mem_cons.1 hj).resolve_left hed
          · rw [update_of_ne hj9]
            exact hj
    · intro he
      obtain ⟨j, hj⟩ := he
      by_cases hji : j = i
      · rw [enlist, hji, update_self] at hj
        rcases List.mem_cons.1 hj with hj | hj
        · exact ⟨9, by rw [hj]; exact hd9⟩
        · exact ⟨i, hj⟩
      · rw [enlist, update_of_ne hji] at hj
        by_cases hj9 : j = 9
        · rw [hj9, update_self] at hj
          exact ⟨9, by rw [hl]; exact List.mem_cons_of_mem d hj⟩
        · rw [update_of_ne hj9] at hj
          exact ⟨j, hj⟩
  · intro p hp
    rw [htables] at hp
    obtain ⟨g, hg, hpg⟩ := h.tables p hp
    exact ⟨g, hgot.held hg, hpg⟩
  · intro j hj e he
    rcases hmem j hj e he with ⟨hed, hji⟩ | ⟨he, hed⟩
    · rw [hed, hji, update_self]
      refine ⟨?_, ?_, ?_, List.nodup_range' _ hsize, ?_, ?_, ?_⟩ <;> rw [hself]
      · exact ⟨f, hgot.new h.pool, rfl⟩
      · have hle := bucketSize_mono (show i ≤ 8 by omega) (by omega)
        have h8 : bucketSize 8 = 4096 := rfl
        show (BitVec.ofNat 16 (bucketSize i)).toNat = bucketSize i
        rw [BitVec.toNat_ofNat, Nat.mod_eq_of_lt (by omega)]
      · exact hword
      · intro o ho
        obtain ⟨k, hk, hok⟩ := List.mem_range'.1 ho
        exact ⟨k, hk, hok.trans (congrArg (f * 4096 + ·) (Nat.mul_comm _ _))⟩
      · rw [List.length_range']
        exact Nat.zero_add _
      · symm
        rw [show (0 : BitVec 16).toNat = 0 from rfl, List.countP_eq_zero]
        intro x hx hp
        rw [decide_eq_true_eq] at hp
        obtain ⟨c, hc⟩ := h.placed x hx
        exact h.page_ne hgot (findBucket_spec hc.length).1 hc.listed ((h.placed_page hc).symm.trans hp)
    · rw [update_of_ne hed]
      refine (h.buckets j hj e he).same ?_ (fun o ho => h.word_eq hgot hj he ho hgot.mem)
        (fun _ hg _ => hgot.held hg) rfl
      rw [hdesc e hed]
      exact SameBut.refl _
  · intro j hj e he k hk c hc hp
    rcases hmem j hj e he with ⟨hed, -⟩ | ⟨he, hed⟩
    · rcases hmem k hk c hc with ⟨hcd, -⟩ | ⟨hc, hcd⟩
      · exact hed.trans hcd.symm
      · rw [hed, hself, hdesc c hcd] at hp
        exact absurd hp.symm (h.page_ne hgot hk hc)
    · rcases hmem k hk c hc with ⟨hcd, -⟩ | ⟨hc, hcd⟩
      · rw [hcd, hself, hdesc e hed] at hp
        exact absurd hp (h.page_ne hgot hj he)
      · rw [hdesc e hed, hdesc c hcd] at hp
        exact h.distinct j hj e he k hk c hc hp
  · intro j hj e he
    rw [htables]
    rcases hmem j hj e he with ⟨hed, -⟩ | ⟨he, hed⟩
    · rw [hed, hself]
      intro hp
      obtain ⟨g, hg, hpg⟩ := h.tables _ hp
      have hgf := hgot.ne hg
      have hpg' : f * 4096 = g * 4096 := hpg
      omega
    · rw [hdesc e hed]
      exact h.noTable j hj e he
  · intro x hx
    obtain ⟨e, he⟩ := h.placed x hx
    have hj := (findBucket_spec he.length).1
    have hed := hne _ hj e he.listed
    refine ⟨e, he.same (by rw [hdesc e hed]) ?_ ?_⟩
    · rw [enlist_of_lt hj]
      split
      · rename_i hji
        rw [← hji]
        exact List.mem_cons_of_mem d he.listed
      · exact he.listed
    · rw [update_of_ne hed]
      exact he.taken

/-! ### `malloc` -/

/-- What `malloc` does to the chains: at most one bucket more, before the others. -/
structure Grown (A A' : Allocator) (L L' : ℕ → List ℕ) : Prop where
  longer : ∀ j < 9, ∃ m, L' j = m ++ L j
  pages : ∀ j < 9, ∀ e ∈ L j, (A'.desc e).page = (A.desc e).page
  tables : ∀ p ∈ A.descPages, p ∈ A'.descPages

theorem Grown.refl (A : Allocator) (L : ℕ → List ℕ) : Grown A A L L :=
  ⟨fun _ _ => ⟨[], rfl⟩, fun _ _ _ _ => rfl, fun _ h => h⟩

/-- What `malloc` finds or makes: a descriptor with room on the chain of the bucket. -/
structure HasRoom (W : World) (A' : Allocator) (L L' objs' : ℕ → List ℕ) (i d : ℕ) : Prop where
  ordered : Ordered ⟨A', W.objects⟩ L' objs'
  listed : d ∈ L' i
  room : (A'.desc d).freeptr ≠ 0
  used : ∀ j < 9, ∀ e ∈ L' j, e ≠ d → (A'.desc e).refcnt ≠ 0
  grown : Grown W.alloc A' L L'

/-- The free descriptor at the head of the list gets a page. -/
theorem Ordered.fill (h : Ordered W L objs) (hi : i < 9) (hne : W.alloc.freeBucketDesc ≠ 0)
    (hused : ∀ j < 9, ∀ e ∈ L j, (W.alloc.desc e).refcnt ≠ 0) :
    wp (fillBucket i) (fun d A' => ∃ L' objs', HasRoom W A' L L' objs' i d)
      (fun e _ => (∃ message, e = .trap (.panic message)) ∧ W.alloc.mm.Full) W.alloc := by
  obtain ⟨d, hd⟩ : ∃ d, W.alloc.freeBucketDesc = d := ⟨_, rfl⟩
  have hsize := bucketSize_pos hi
  have hslots := slots_le hi
  have hnine := h.lists.linked 9
  rw [head_free, hd] at hnine
  rw [hd] at hne
  obtain ⟨free, hl, -⟩ := hnine.eq_cons hne
  rw [fillBucket, wp_bind, wp_get, wp_bind, wp_modify, hd, wp_bind, wp_mmCall]
  apply wp_mono (getFreePage_got W.alloc.mm) _ (fun _ _ h => h.elim)
  intro cp s' hs'
  rw [wp_bind, wp_modify, wp_ite]
  rcases hs' with ⟨h0, -, hfull⟩ | ⟨f, hcp, hgot⟩
  · exact ⟨fun _ => ⟨⟨_, rfl⟩, hfull⟩, fun hne => absurd h0 hne⟩
  · have hlow := hgot.low
    have hlt := hgot.lt
    have hend : (cp + (4096 / bucketSize i - 1) * bucketSize i) / 4096 = f := by
      have hmul := bucketSize_dvd hi
      rw [Nat.sub_mul, Nat.one_mul, hmul, hcp]
      omega
    refine ⟨fun h0 => absurd h0 (by omega), fun _ => ?_⟩
    rw [wp_bind]
    apply wp_mono (setUpChain_spec (f := f) hsize (by have := bucketSize_align hi; omega) _ cp _
      (by omega) (by omega) (by omega) hend hlt) _ (fun _ _ h => h.elim)
    intro _ A1 hA1
    obtain ⟨⟨hdesc, hchain, hfree, htables⟩, ⟨hmap, hhigh, hmem⟩, -, hword⟩ := hA1
    rw [wp_bind, wp_modify, wp_pure]
    obtain ⟨B, hB⟩ : ∃ B, (A1.setNext d (A1.chain i)).setChain i d = B := ⟨_, rfl⟩
    have hgot' : Got W.alloc.mm f B.mm := by
      rw [← hB]
      refine ⟨hgot.low, hgot.lt, hgot.zero, ?_, ?_, ?_⟩
      · exact hmap.trans hgot.memMap
      · intro g hg
        exact (hmem g hg).trans (hgot.mem g hg)
      · exact hhigh.trans hgot.high
    have hother : ∀ e, e ≠ d → B.desc e = W.alloc.desc e := by
      intro e hed
      rw [← hB]
      show (A1.setNext d (A1.chain i)).desc e = _
      rw [Allocator.setNext, desc_setDesc_of_ne hed, hdesc, desc_setDesc_of_ne hed]
      show (W.alloc.setDesc d _).desc e = _
      rw [desc_setDesc_of_ne hed]
    have hself : B.desc d = ⟨f * 4096, W.alloc.chain i, f * 4096, 0, BitVec.ofNat 16 (bucketSize i)⟩ := by
      rw [← hB, ← hcp]
      show (A1.setNext d (A1.chain i)).desc d = _
      rw [Allocator.setNext, setDesc_self, hdesc, setDesc_self, hchain]
      show BucketDesc.mk cp (W.alloc.chain i) cp ((W.alloc.setDesc d _).desc d).refcnt
        ((W.alloc.setDesc d _).desc d).bucketSize = _
      rw [setDesc_self]
    have hword' : Linked B.word (f * 4096) (List.range' (f * 4096) (4096 / bucketSize i) (bucketSize i)) := by
      rw [Nat.sub_add_cancel hslots.1, hcp] at hword
      rw [← hB]
      exact hword
    have hchain' : B.chain = update W.alloc.chain i d := by
      rw [← hB]
      show update A1.chain i d = _
      rw [hchain]
      rfl
    have hordered := h.enlisted hi hl hgot' hother hself hchain' (by rw [← hB]; exact hfree)
      (by rw [← hB]; exact htables) hword'
    have hnotin : ∀ j < 9, ∀ e ∈ L j, e ≠ d := by
      intro j hj e he hed
      have := h.lists.apart j 9 e he (by rw [hed, hl]; exact List.mem_cons_self)
      omega
    rw [hB]
    refine ⟨_, _, hordered, ?_, ?_, ?_, ?_, ?_, ?_⟩
    · rw [enlist_of_lt hi, if_pos rfl]
      exact List.mem_cons_self
    · rw [hself]
      show f * 4096 ≠ 0
      omega
    · intro j hj e he hed
      rw [hother e hed]
      rw [enlist_of_lt hj] at he
      split at he
      · exact hused i hi e ((List.mem_cons.1 he).resolve_left hed)
      · exact hused j hj e he
    · intro j hj
      rw [enlist_of_lt hj]
      split
      · rename_i hji
        exact ⟨[d], by rw [hji]; rfl⟩
      · exact ⟨[], rfl⟩
    · intro j hj e he
      rw [hother e (hnotin j hj e he)]
    · intro p hp
      rw [← hB]
      exact htables.symm ▸ hp

/-- **`malloc` makes a bucket**, unless there is at most one free page. -/
theorem Sound.newBucket (h : Sound W L objs) (hi : i < 9) :
    wp (newBucket i) (fun d A' => ∃ L' objs', HasRoom W A' L L' objs' i d)
      (fun e _ => (∃ message, e = .trap (.panic message)) ∧ W.alloc.mm.Tight) W.alloc := by
  rw [Malloc.newBucket, wp_bind, wp_get, wp_ite]
  constructor
  · intro h0
    rw [wp_bind]
    apply wp_mono h.toOrdered.initBucketDesc
    · intro _ A1 hA1
      obtain ⟨f, hmade⟩ := hA1
      have hlow := hmade.got.low
      have hold : ∀ j < 9, update L 9 (List.range' (f * 4096) 256 16 ++ L 9) j = L j :=
        fun j hj => update_of_ne (by omega) _ _
      have hfill := hmade.ordered.fill hi (by rw [hmade.free]; omega) (by
        intro j hj e he
        rw [hold j hj] at he
        rw [hmade.desc j e he]
        exact h.used j hj e he)
      apply wp_mono hfill
      · intro d A' hA'
        obtain ⟨L', objs', R⟩ := hA'
        refine ⟨L', objs', R.ordered, R.listed, R.room, R.used, ?_, ?_, ?_⟩
        · intro j hj
          have hlong := R.grown.longer j hj
          rw [hold j hj] at hlong
          exact hlong
        · intro j hj e he
          have hpages := R.grown.pages j hj e (by rw [hold j hj]; exact he)
          rw [hpages, hmade.desc j e he]
        · intro p hp
          refine R.grown.tables p ?_
          rw [hmade.tables]
          exact List.mem_cons_of_mem _ hp
      · intro e _ he
        refine ⟨he.1, f - 256, ?_⟩
        intro j hj hjf
        have hfull := he.2 j hj
        rw [hmade.got.memMap, update_of_ne hjf] at hfull
        exact hfull
    · intro e _ he
      exact ⟨he.1, he.2.tight⟩
  · intro hne
    apply wp_mono (h.toOrdered.fill hi hne h.used) (fun _ _ h => h)
    intro e _ he
    exact ⟨he.1, he.2.tight⟩

/-- What `malloc` leaves. -/
structure Allocated (W : World) (L : ℕ → List ℕ) (x : ℕ × Word) (A' : Allocator)
    (L' objs' : ℕ → List ℕ) : Prop where
  sound : Sound ⟨A', x :: W.objects⟩ L' objs'
  grown : Grown W.alloc A' L L'

theorem takeObject_same (d : ℕ) (A : Allocator) : wp (takeObject d) (fun _ A' => A'.descPages = A.descPages ∧
      ∀ e, (A'.desc e).page = (A.desc e).page) (fun _ _ => False) A := by
  rw [takeObject, wp_bind, wp_get, wp_bind, wp_modify, wp_pure]
  refine ⟨rfl, ?_⟩
  intro e
  rw [setDesc_desc]
  split
  · rename_i hed
    rw [hed]
  · rfl

theorem HasRoom.take {A' : Allocator} {L' objs' : ℕ → List ℕ}
    (R : HasRoom W A' L L' objs' (findBucket len) d) (hlen : len.toNat ≤ 4096) :
    wp (takeObject d) (fun o B => ∃ L' objs', Allocated W L (o, len) B L' objs') (fun _ _ => False)
      A' := by
  apply wp_mono (wp_and (R.ordered.take hlen R.listed R.room R.used) (takeObject_same d A'))
    _ (fun _ _ h => h.1)
  intro o B hB
  obtain ⟨⟨objs'', hsound⟩, htables, hpages⟩ := hB
  refine ⟨L', objs'', hsound, R.grown.longer, ?_, ?_⟩
  · intro j hj e he
    rw [hpages]
    exact R.grown.pages j hj e he
  · intro p hp
    rw [htables]
    exact R.grown.tables p hp

/-- `malloc` takes an object from the first bucket of its chain that has one, or from a new bucket. -/
theorem Sound.wp_malloc {Q : ℕ → Allocator → Prop} {E : Stop → Allocator → Prop} (h : Sound W L objs)
    (hlen : len.toNat ≤ 4096) : wp (malloc len) Q E W.alloc ↔
      wp (match (L (findBucket len)).find? fun d => (W.alloc.desc d).freeptr ≠ 0 with
        | none => Malloc.newBucket (findBucket len) >>= takeObject
        | some d => takeObject d) Q E W.alloc := by
  have hi := (findBucket_spec hlen).1
  have hlinked := h.lists.linked (findBucket len)
  rw [head_chain hi] at hlinked
  have hwalk := walk_eq (fun d => (W.alloc.desc d).freeptr ≠ 0) (n := addresses) hlinked
    (by have := h.toOrdered.length_lt (findBucket len); rw [addresses]; omega)
  rw [Malloc.malloc, if_neg (Nat.pos_iff_ne_zero.1 (bucketSize_pos hi)), wp_bind, wp_get, hwalk]
  cases hfind : (L (findBucket len)).find? (fun d => (W.alloc.desc d).freeptr ≠ 0) with
  | none => exact Iff.rfl
  | some d =>
    have hd0 : d ≠ 0 := hlinked.ne_zero (List.mem_of_find?_eq_some hfind)
    show wp (if d = 0 then Malloc.newBucket (findBucket len) >>= takeObject else takeObject d) _ _ _ ↔ _
    rw [if_neg hd0]

/-- `malloc` needs no page when a bucket has room. -/
theorem Sound.malloc_room (h : Sound W L objs) (hlen : len.toNat ≤ 4096)
    (hroom : ∃ d ∈ L (findBucket len), (W.alloc.desc d).freeptr ≠ 0) :
    wp (malloc len) (fun o A' => ∃ L' objs', Allocated W L (o, len) A' L' objs')
    (fun _ _ => False) W.alloc := by
  rw [h.wp_malloc hlen]
  cases hfind : (L (findBucket len)).find? (fun d => (W.alloc.desc d).freeptr ≠ 0) with
  | none =>
    obtain ⟨d, hd, hfree⟩ := hroom
    have hfull := List.find?_eq_none.1 hfind d hd
    exact absurd (decide_eq_true hfree) hfull
  | some d =>
    have hfree := List.find?_some hfind
    rw [decide_eq_true_eq] at hfree
    have R : HasRoom W W.alloc L L objs (findBucket len) d :=
      ⟨h.toOrdered, List.mem_of_find?_eq_some hfind, hfree, fun j hj e he _ => h.used j hj e he, Grown.refl _ _⟩
    exact R.take hlen

/-- **`malloc`** hands out an object, unless there is at most one free page. -/
theorem Sound.malloc (h : Sound W L objs) (hlen : len.toNat ≤ 4096) :
    wp (malloc len) (fun o A' => ∃ L' objs', Allocated W L (o, len) A' L' objs')
      (fun e _ => (∃ message, e = .trap (.panic message)) ∧ W.alloc.mm.Tight) W.alloc := by
  by_cases hroom : ∃ d ∈ L (findBucket len), (W.alloc.desc d).freeptr ≠ 0
  · exact wp_mono (h.malloc_room hlen hroom) (fun _ _ h => h) fun _ _ h => h.elim
  · have hnone : (L (findBucket len)).find? (fun d => (W.alloc.desc d).freeptr ≠ 0) = none :=
      List.find?_eq_none.2 fun d hd hfree => hroom ⟨d, hd, of_decide_eq_true hfree⟩
    rw [h.wp_malloc hlen, hnone]
    simp only
    rw [wp_bind]
    apply wp_mono (h.newBucket (findBucket_spec hlen).1) _ (fun _ _ h => h)
    intro d A1 hA1
    obtain ⟨L1, objs1, R⟩ := hA1
    exact wp_mono (R.take hlen) (fun _ _ h => h) (fun _ _ h => h.elim)

end OldLinux.Malloc
