import OldLinux.Malloc.Machine
import OldLinux.Memory.Operations

/-!
# The invariant of the allocator

Ten lists share the descriptors: the nine chains of `bucket_dir` and `free_bucket_desc`.  A
descriptor on a chain has a page of its own and the chain of the free objects in it; `refcnt` counts
the objects of the page that are allocated.  The users' objects are slots of these pages that are not
free, which keeps them apart from each other, from the free chains and from the descriptors.
-/

namespace OldLinux.Malloc

open OldLinux.Lib OldLinux.Memory

variable {A A' : Allocator} {W : World} {L : ℕ → List ℕ} {objs : ℕ → List ℕ} {i d page size o o' : ℕ}

/-! ### Sizes -/

theorem bucketSize_pos (hi : i < 9) : 0 < bucketSize i := by
  have h : ∀ i < 9, 0 < bucketSize i := by decide
  exact h i hi

theorem bucketSize_dvd (hi : i < 9) : 4096 / bucketSize i * bucketSize i = 4096 := by
  have h : ∀ i < 9, 4096 / bucketSize i * bucketSize i = 4096 := by decide
  exact h i hi

theorem bucketSize_align (hi : i < 9) : bucketSize i % 16 = 0 := by
  have h : ∀ i < 9, bucketSize i % 16 = 0 := by decide
  exact h i hi

theorem bucketSize_mono {j : ℕ} (hij : i ≤ j) (hj : j < 9) : bucketSize i ≤ bucketSize j := by
  have h : ∀ j < 9, ∀ i ≤ j, bucketSize i ≤ bucketSize j := by decide
  exact h j hj i hij

theorem slots_le (hi : i < 9) : 0 < 4096 / bucketSize i ∧ 4096 / bucketSize i ≤ 256 := by
  have h : ∀ i < 9, 0 < 4096 / bucketSize i ∧ 4096 / bucketSize i ≤ 256 := by decide
  exact h i hi

/-- **The search of `malloc` in `bucket_dir`** finds a bucket whose objects are large enough. -/
theorem findBucket_spec {len : Word} (h : len.toNat ≤ 4096) :
    findBucket len < 9 ∧ len.toNat ≤ capacity len := by
  have hint : len.toInt = len.toNat := by
    rw [BitVec.toInt_eq_toNat_of_lt (by omega)]
  have hlt : findBucket len < bucketDir.length := by
    apply List.findIdx_lt_length_of_exists
    exact ⟨4096, by decide, by simp [hint]; omega⟩
  have hspec : decide (bucketDir[findBucket len] = 0 ∨ len.toInt ≤ (bucketDir[findBucket len] : ℤ)) =
      true := List.findIdx_getElem (w := hlt)
  have hget : bucketDir[findBucket len] = bucketSize (findBucket len) := by
    rw [bucketSize, List.getD_eq_getElem?_getD, List.getElem?_eq_getElem hlt]
    rfl
  rw [hget, decide_eq_true_eq] at hspec
  have hle : findBucket len ≤ 8 := by
    by_contra hnot
    have h8 := List.not_of_lt_findIdx (show 8 < findBucket len by omega)
    simp [bucketDir, hint] at h8
    omega
  have hpos := bucketSize_pos (show findBucket len < 9 by omega)
  refine ⟨by omega, ?_⟩
  rw [capacity]
  omega

/-! ### Slots -/

/-- `o` is one of the objects a page is divided into. -/
def Slot (page size o : ℕ) : Prop := ∃ k < 4096 / size, o = page + k * size

theorem Slot.range (h : Slot page (bucketSize i) o) (hi : i < 9) :
    page ≤ o ∧ o + bucketSize i ≤ page + 4096 := by
  obtain ⟨k, hk, ho⟩ := h
  have hdvd := bucketSize_dvd hi
  have hle : (k + 1) * bucketSize i ≤ 4096 / bucketSize i * bucketSize i :=
    Nat.mul_le_mul_right _ hk
  rw [Nat.add_mul, Nat.one_mul] at hle
  omega

theorem Slot.align (h : Slot page (bucketSize i) o) (hi : i < 9) (hp : page % 4096 = 0) :
    o % 16 = 0 := by
  obtain ⟨k, -, ho⟩ := h
  have hsize := bucketSize_align hi
  have hmul : k * bucketSize i % 16 = 0 := by
    rw [Nat.mul_mod, hsize, Nat.mul_zero, Nat.zero_mod]
  omega

/-- Two slots of a page do not overlap. -/
theorem Slot.apart (h : Slot page size o) (h' : Slot page size o') (hne : o ≠ o') :
    o + size ≤ o' ∨ o' + size ≤ o := by
  obtain ⟨k, -, ho⟩ := h
  obtain ⟨k', -, ho'⟩ := h'
  rcases Nat.lt_trichotomy k k' with hlt | heq | hgt
  · have hle : (k + 1) * size ≤ k' * size := Nat.mul_le_mul_right _ hlt
    rw [Nat.add_mul, Nat.one_mul] at hle
    omega
  · rw [heq] at ho
    exact absurd (ho.trans ho'.symm) hne
  · have hle : (k' + 1) * size ≤ k * size := Nat.mul_le_mul_right _ hgt
    rw [Nat.add_mul, Nat.one_mul] at hle
    omega

/-! ### Words -/

theorem word_store (A : Allocator) {a v : ℕ} (hv : v < 2 ^ 32) (b : ℕ) :
    (A.store a v).word b = if b / 4 = a / 4 then v else A.word b := by
  have hcell : (b / 4096 = a / 4096 ∧ b % 4096 / 4 = a % 4096 / 4) ↔ b / 4 = a / 4 := by omega
  rw [Allocator.word, Allocator.store]
  simp only [store_mem, hcell]
  split
  · rw [BitVec.toNat_ofNat, Nat.mod_eq_of_lt hv]
  · rfl

theorem word_store_of_ne (A : Allocator) {a v b : ℕ} (h : b / 4 ≠ a / 4) :
    (A.store a v).word b = A.word b := by
  rw [Allocator.word, Allocator.store]
  simp only [store_mem]
  rw [if_neg (by omega)]
  rfl

@[simp]
theorem store_desc (A : Allocator) (a v : ℕ) : (A.store a v).desc = A.desc := rfl

@[simp]
theorem store_chain (A : Allocator) (a v : ℕ) : (A.store a v).chain = A.chain := rfl

@[simp]
theorem store_freeBucketDesc (A : Allocator) (a v : ℕ) :
    (A.store a v).freeBucketDesc = A.freeBucketDesc := rfl

@[simp]
theorem store_descPages (A : Allocator) (a v : ℕ) : (A.store a v).descPages = A.descPages := rfl

theorem setDesc_desc (A : Allocator) (d : ℕ) (b : BucketDesc) (e : ℕ) :
    (A.setDesc d b).desc e = if e = d then b else A.desc e := by
  show Function.update A.desc d b e = _
  rw [Function.update_apply]

@[simp]
theorem setDesc_self (A : Allocator) (d : ℕ) (b : BucketDesc) : (A.setDesc d b).desc d = b := by
  rw [setDesc_desc, if_pos rfl]

@[simp]
theorem setDesc_mm (A : Allocator) (d : ℕ) (b : BucketDesc) : (A.setDesc d b).mm = A.mm := rfl

@[simp]
theorem setDesc_chain (A : Allocator) (d : ℕ) (b : BucketDesc) : (A.setDesc d b).chain = A.chain := rfl

@[simp]
theorem setDesc_freeBucketDesc (A : Allocator) (d : ℕ) (b : BucketDesc) :
    (A.setDesc d b).freeBucketDesc = A.freeBucketDesc := rfl

@[simp]
theorem setDesc_descPages (A : Allocator) (d : ℕ) (b : BucketDesc) :
    (A.setDesc d b).descPages = A.descPages := rfl

theorem setNext_next (A : Allocator) (d b e : ℕ) :
    (A.setNext d b).next e = if e = d then b else A.next e := by
  rw [Allocator.next, Allocator.setNext, setDesc_desc]
  split <;> rfl

/-! ### The ten lists -/

/-- The heads of the chains of `bucket_dir`, and of `free_bucket_desc` at 9. -/
def Allocator.head (A : Allocator) (i : ℕ) : ℕ :=
  if i < 9 then A.chain i else if i = 9 then A.freeBucketDesc else 0

theorem head_chain (hi : i < 9) : A.head i = A.chain i := by rw [Allocator.head, if_pos hi]

theorem head_free : A.head 9 = A.freeBucketDesc := by
  rw [Allocator.head, if_neg (by omega), if_pos rfl]

/-- A descriptor that `init_bucket_desc` has made. -/
def Allocator.IsDesc (A : Allocator) (d : ℕ) : Prop := ∃ p ∈ A.descPages, ∃ k < 256, d = p + 16 * k

/-- The frame belongs to the allocator. -/
def Held (s : Mm) (f : ℕ) : Prop :=
  256 ≤ f ∧ f < 4096 ∧ s.memMap (f - 256) = 1 ∧ f * 4096 < s.highMemory

/-- What a descriptor on the chain of bucket `i` says of its page. -/
structure Bucket (A : Allocator) (objects : List (ℕ × Word)) (i d : ℕ) (objs : List ℕ) : Prop where
  page : ∃ f, Held A.mm f ∧ (A.desc d).page = f * 4096
  size : (A.desc d).bucketSize.toNat = bucketSize i
  chain : Linked A.word (A.desc d).freeptr objs
  nodup : objs.Nodup
  slots : ∀ o ∈ objs, Slot (A.desc d).page (bucketSize i) o
  count : (A.desc d).refcnt.toNat + objs.length = 4096 / bucketSize i
  live : (A.desc d).refcnt.toNat = objects.countP fun x => pageOf x.1 = (A.desc d).page

/-- An object of the users is a slot of a page of its bucket, and not free. -/
structure Placed (A : Allocator) (L : ℕ → List ℕ) (objs : ℕ → List ℕ) (x : ℕ × Word) (d : ℕ) :
    Prop where
  length : x.2.toNat ≤ 4096
  listed : d ∈ L (findBucket x.2)
  slot : Slot (A.desc d).page (capacity x.2) x.1
  taken : x.1 ∉ objs d

/-- The allocator in order, but for descriptors on chains that count no objects. -/
structure Ordered (W : World) (L : ℕ → List ℕ) (objs : ℕ → List ℕ) : Prop where
  lists : Lists W.alloc.next W.alloc.head L
  empty : ∀ i, 9 < i → L i = []
  descs : ∀ d, W.alloc.IsDesc d ↔ ∃ i, d ∈ L i
  tables : ∀ p ∈ W.alloc.descPages, ∃ f, Held W.alloc.mm f ∧ p = f * 4096
  buckets : ∀ i < 9, ∀ d ∈ L i, Bucket W.alloc W.objects i d (objs d)
  distinct : ∀ i < 9, ∀ d ∈ L i, ∀ j < 9, ∀ e ∈ L j,
    (W.alloc.desc d).page = (W.alloc.desc e).page → d = e
  noTable : ∀ i < 9, ∀ d ∈ L i, (W.alloc.desc d).page ∉ W.alloc.descPages
  placed : ∀ x ∈ W.objects, ∃ d, Placed W.alloc L objs x d
  single : (W.objects.map Prod.fst).Nodup
  pool : ∀ k < 3840, W.alloc.mm.memMap k = 0 → (256 + k) * 4096 < W.alloc.mm.highMemory

/-- **The allocator is in order.** -/
structure Sound (W : World) (L : ℕ → List ℕ) (objs : ℕ → List ℕ) : Prop extends
    Ordered W L objs where
  used : ∀ i < 9, ∀ d ∈ L i, (W.alloc.desc d).refcnt ≠ 0

/-! ### What follows at once -/

theorem pageOf_slot (h : Slot page (bucketSize i) o) (hi : i < 9) (hp : page % 4096 = 0) :
    pageOf o = page := by
  have hr := h.range hi
  have hpos := bucketSize_pos hi
  rw [pageOf]
  omega

theorem Bucket.page_mod {objects : List (ℕ × Word)} {l : List ℕ} (h : Bucket A objects i d l) :
    (A.desc d).page % 4096 = 0 := by
  obtain ⟨f, -, hf⟩ := h.page
  omega

theorem Ordered.placed_page {x : ℕ × Word} (h : Ordered W L objs) (hx : Placed W.alloc L objs x d) :
    pageOf x.1 = (W.alloc.desc d).page := by
  have hi := (findBucket_spec hx.length).1
  exact pageOf_slot hx.slot hi (h.buckets _ hi d hx.listed).page_mod

/-- The descriptor of an object is determined by its page. -/
theorem Ordered.desc_eq {x : ℕ × Word} (h : Ordered W L objs) (hx : Placed W.alloc L objs x d)
    {e : ℕ} (hi : i < 9) (he : e ∈ L i) (hp : pageOf x.1 = (W.alloc.desc e).page) :
    e = d ∧ i = findBucket x.2 := by
  have hd := h.distinct i hi e he _ (findBucket_spec hx.length).1 d hx.listed
    (hp.symm.trans (h.placed_page hx))
  refine ⟨hd, h.lists.apart i _ e he ?_⟩
  rw [hd]
  exact hx.listed

/-- **The objects do not overlap.** -/
theorem Ordered.disjoint {x y : ℕ × Word} (h : Ordered W L objs) (hx : x ∈ W.objects)
    (hy : y ∈ W.objects) (hne : x.1 ≠ y.1) :
    x.1 + capacity x.2 ≤ y.1 ∨ y.1 + capacity y.2 ≤ x.1 := by
  obtain ⟨d, hd⟩ := h.placed x hx
  obtain ⟨e, he⟩ := h.placed y hy
  have hi := (findBucket_spec hd.length).1
  have hj := (findBucket_spec he.length).1
  have hxr := hd.slot.range hi
  have hyr := he.slot.range hj
  by_cases hpage : (W.alloc.desc d).page = (W.alloc.desc e).page
  · have hde := h.distinct _ hi d hd.listed _ hj e he.listed hpage
    have hij := h.lists.apart _ _ d hd.listed (by rw [hde]; exact he.listed)
    have hslot := hd.slot
    rw [capacity, hij, hde] at hslot
    have := hslot.apart he.slot hne
    rw [capacity, capacity, hij]
    exact this
  · obtain ⟨f, -, hf⟩ := (h.buckets _ hi d hd.listed).page
    obtain ⟨g, -, hg⟩ := (h.buckets _ hj e he.listed).page
    rw [capacity, capacity]
    omega

/-- Cells of a list are addresses. -/
theorem Ordered.desc_lt (h : Ordered W L objs) (hd : d ∈ L i) : 0 < d ∧ d < 2 ^ 24 := by
  obtain ⟨p, hp, k, hk, hdp⟩ := (h.descs d).2 ⟨i, hd⟩
  obtain ⟨f, hf, hpf⟩ := h.tables p hp
  have h1 := hf.1
  have h2 := hf.2.1
  omega

theorem Ordered.length_lt (h : Ordered W L objs) (i : ℕ) : (L i).length < 2 ^ 24 :=
  length_lt_of_nodup (h.lists.nodup i) (by omega) (fun _ hd => h.desc_lt hd)

/-- A user's word is in no free object. -/
theorem Ordered.outside {x : ℕ × Word} (h : Ordered W L objs) (hx : x ∈ W.objects) {a : ℕ}
    (h1 : x.1 ≤ a) (h2 : a < x.1 + capacity x.2) (hi : i < 9) (hd : d ∈ L i) (ho : o ∈ objs d) :
    o / 4 ≠ a / 4 := by
  obtain ⟨e, he⟩ := h.placed x hx
  have hj := (findBucket_spec he.length).1
  have hslot := (h.buckets i hi d hd).slots o ho
  have hmod := (h.buckets i hi d hd).page_mod
  have hor := hslot.range hi
  have hxr := he.slot.range hj
  have halign := hslot.align hi hmod
  have hxalign := he.slot.align hj (h.buckets _ hj e he.listed).page_mod
  by_cases hpage : (W.alloc.desc d).page = (W.alloc.desc e).page
  · have hde := h.distinct i hi d hd _ hj e he.listed hpage
    have hij := h.lists.apart i _ d hd (by rw [hde]; exact he.listed)
    have hne : o ≠ x.1 := by
      intro heq
      rw [heq, hde] at ho
      exact he.taken ho
    have hslot' := he.slot
    rw [capacity, ← hij, ← hde] at hslot'
    have hap := hslot.apart hslot' hne
    have hpos := bucketSize_align hi
    rw [capacity, ← hij] at h2
    omega
  · obtain ⟨f, -, hf⟩ := (h.buckets i hi d hd).page
    obtain ⟨g, -, hg⟩ := (h.buckets _ hj e he.listed).page
    have hpos := bucketSize_pos hi
    rw [capacity] at h2
    omega

end OldLinux.Malloc
