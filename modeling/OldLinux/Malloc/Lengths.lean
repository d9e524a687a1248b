import OldLinux.Malloc.Runs

/-!
# The lengths that `malloc` accepts

The search of `bucket_dir` compares its sizes with the length as a signed number.  Up to `INT_MAX` an
object is in the smallest bucket with room for it, or there is no such bucket and `malloc` panics; above
that the length is negative, and the object is one of the 16 bytes of the first bucket.
-/

namespace OldLinux.Malloc

open Lib Memory

variable {W : World} {M : MainMemory} {m : ℕ → ℕ → Word} {garbage : ℕ → BucketDesc} {len : Word}

/-- The object is in bucket `i`. -/
def Allocator.InBucket (A : Allocator) (i o : ℕ) : Prop :=
  ∃ d, A.On i d ∧ (A.desc d).bucketSize.toNat = bucketSize i ∧ Slot (A.desc d).page (bucketSize i) o

/-- `malloc` returns an object of the smallest bucket with room for `len` bytes, or says that there is
no such bucket, or there is no memory. -/
def Allocator.GivesRoom (A : Allocator) (len : Word) : Prop :=
  wp (malloc len)
    (fun o A' => ∃ i < 9, A'.InBucket i o ∧ len.toNat ≤ bucketSize i ∧ ∀ j < i, bucketSize j < len.toNat)
    (fun e _ => e = .trap (.panic "malloc: bad arg") ∧ 4096 < len.toNat ∨
      (∃ message, e = .trap (.panic message)) ∧ len.toNat ≤ 4096 ∧ A.mm.Tight) A

/-! ### The bucket of a length -/

theorem findBucket_least (h : len.toNat < 2 ^ 31) : ∀ j < findBucket len, j < 9 → bucketSize j < len.toNat := by
  intro j hj hj9
  have hint : len.toInt = len.toNat := BitVec.toInt_eq_toNat_of_lt (by omega)
  have hno := List.not_of_lt_findIdx hj
  have hlt : j < bucketDir.length := hj9.trans (by decide)
  have hget : bucketDir[j] = bucketSize j := by
    rw [bucketSize, List.getD_eq_getElem?_getD, List.getElem?_eq_getElem hlt]
    rfl
  rw [hget, hint, decide_eq_false_iff_not, not_or] at hno
  omega

theorem findBucket_none (hlow : 4096 < len.toNat) (h : len.toNat < 2 ^ 31) : findBucket len = 9 := by
  have hint : len.toInt = len.toNat := BitVec.toInt_eq_toNat_of_lt (by omega)
  have hlt : findBucket len < bucketDir.length :=
    List.findIdx_lt_length_of_exists ⟨0, by decide, by simp⟩
  have hspec : decide (bucketDir[findBucket len] = 0 ∨ len.toInt ≤ (bucketDir[findBucket len] : ℤ)) =
      true := List.findIdx_getElem (w := hlt)
  have hget : bucketDir[findBucket len] = bucketSize (findBucket len) := by
    rw [bucketSize, List.getD_eq_getElem?_getD, List.getElem?_eq_getElem hlt]
    rfl
  rw [hget, decide_eq_true_eq, hint] at hspec
  have hlen : bucketDir.length = 10 := rfl
  by_contra hne
  have hi : findBucket len < 9 := by omega
  have hpos := bucketSize_pos hi
  have hmax : bucketSize (findBucket len) ≤ bucketSize 8 := bucketSize_mono (by omega) (by decide)
  have h8 : bucketSize 8 = 4096 := rfl
  omega

theorem findBucket_negative (h : 2 ^ 31 ≤ len.toNat) : findBucket len = 0 := by
  have hneg : len.toInt < 0 := BitVec.toInt_neg_iff.2 (by omega)
  rw [findBucket, bucketDir, List.findIdx_cons, decide_eq_true (by right; push_cast; omega)]
  rfl

theorem malloc_congr {len' : Word} (h : findBucket len = findBucket len') : malloc len = malloc len' := by
  rw [malloc, malloc, h]

/-! ### What `malloc` returns -/

theorem Sound.inBucket {L objs : ℕ → List ℕ} (h : Sound W L objs) {o : ℕ} (ho : (o, len) ∈ W.objects) :
    W.alloc.InBucket (findBucket len) o := by
  obtain ⟨d, hd⟩ := h.placed (o, len) ho
  have hi := (findBucket_spec hd.length).1
  exact ⟨d, ⟨_, h.lists.linked _, hd.listed⟩, (h.buckets _ hi d hd.listed).size, hd.slot⟩

/-- An object of the bucket of a length up to 4096. -/
theorem Sound.malloc_bucket {L objs : ℕ → List ℕ} (h : Sound W L objs) (hlen : len.toNat ≤ 4096) :
    wp (Malloc.malloc len) (fun o A' => A'.InBucket (findBucket len) o)
      (fun e _ => (∃ message, e = .trap (.panic message)) ∧ W.alloc.mm.Tight) W.alloc := by
  refine wp_mono (h.malloc hlen) ?_ fun _ _ h => h
  rintro o A' ⟨L', objs', hA⟩
  exact hA.sound.inBucket List.mem_cons_self

theorem Sound.gives_room {L objs : ℕ → List ℕ} (h : Sound W L objs) (hlen : len.toNat < 2 ^ 31) :
    W.alloc.GivesRoom len := by
  rw [Allocator.GivesRoom]
  rcases Nat.lt_or_ge 4096 len.toNat with hbig | hsmall
  · rw [Malloc.malloc, findBucket_none hbig hlen]
    exact .inl ⟨rfl, hbig⟩
  · have hspec := findBucket_spec hsmall
    refine wp_mono (h.malloc_bucket hsmall) ?_ ?_
    · intro o A' ho
      exact ⟨findBucket len, hspec.1, ho, hspec.2, fun j hj => findBucket_least hlen j hj (hj.trans hspec.1)⟩
    · intro e _ he
      exact .inr ⟨he.1, hsmall, he.2⟩

/-- A length above `INT_MAX` gets an object wherever one byte would. -/
theorem gives_room_bound (hroom : ¬W.alloc.mm.Tight) {L objs : ℕ → List ℕ} (h : Sound W L objs)
    (hgives : W.alloc.GivesRoom len) : len.toNat < 2 ^ 31 := by
  by_contra hlarge
  have hsame : findBucket len = findBucket 1 := (findBucket_negative (by omega)).trans rfl
  have hone : wp (malloc 1) (fun _ _ => True) (fun _ _ => False) W.alloc :=
    wp_mono (h.malloc (show (1 : Word).toNat ≤ 4096 by decide)) (fun _ _ _ => trivial) fun _ _ he => hroom he.2
  obtain ⟨o, A', hrun, -⟩ := ok_of_wp hone
  rw [Allocator.GivesRoom, malloc_congr hsame] at hgives
  obtain ⟨i, hi, -, hle, -⟩ := wp_ok hgives hrun
  have hmax : bucketSize i ≤ bucketSize 8 := bucketSize_mono (by omega) (by decide)
  have h8 : bucketSize 8 = 4096 := rfl
  omega

/-- **`malloc` gives enough room or panics**, in whatever state, for the lengths that are not negative as
an `int`, and for these only. -/
theorem malloc_gives_room (len : Word) :
    (∀ M m garbage W, Reached M m garbage W → W.alloc.GivesRoom len) ↔ len.toNat < 2 ^ 31 := by
  constructor
  · intro h
    have hroom := boot_not_tight (M := sixteenMegabytes) (m := fun _ _ => 0) (show 1024 + 1 < 4096 by omega)
    have hboot := boot_sound sixteenMegabytes (fun _ _ => 0) fun _ => BucketDesc.zero
    exact gives_room_bound hroom hboot (h sixteenMegabytes _ _ _ (Reach.start rfl))
  · intro hlen M m garbage W hW
    obtain ⟨L, objs, hs⟩ := Reached.sound hW
    exact hs.gives_room hlen

/-- `malloc(0x80000000)` after boot. -/
theorem huge_object_has_sixteen_bytes :
    ¬(World.boot sixteenMegabytes (fun _ _ => 0) fun _ => BucketDesc.zero).alloc.GivesRoom 0x80000000 := by
  intro h
  have hroom := boot_not_tight (M := sixteenMegabytes) (m := fun _ _ => 0) (show 1024 + 1 < 4096 by omega)
  have hbound := gives_room_bound hroom (boot_sound sixteenMegabytes (fun _ _ => 0) fun _ => BucketDesc.zero) h
  exact absurd hbound (by decide)

end OldLinux.Malloc
