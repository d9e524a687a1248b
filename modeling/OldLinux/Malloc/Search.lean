import OldLinux.Malloc.NewBuckets

/-!
# The search of `free_s`

The descriptor of an object stays on the chain of its bucket for as long as the object is allocated.
Until the search has found it, it is on the chain of a later bucket, or on that part of the chain the
search is on that lies ahead.  The rank counts the steps that are left at most.
-/

namespace OldLinux.Malloc

open Lib Memory

variable {A A' : Allocator} {W : World} {L : ℕ → List ℕ} {objs : ℕ → List ℕ} {i d r n page : ℕ}
  {size : ℤ} {s : Search} {x : ℕ × Word}

/-- More steps than the search takes along one chain. -/
def perBucket : ℕ := 2 ^ 26

/-- A value of `prev` that `free_s` can make accurate. -/
def PrevOk (A : Allocator) (prev : ℕ) : Prop := prev = 0 ∨ A.IsDesc prev

/-- **The search is on the way** to the descriptor `d` on the chain of bucket `i`, with at most `r`
steps to go. -/
def Tracks (A : Allocator) (L : ℕ → List ℕ) (i d r : ℕ) : Search → Prop
  | .dir j => j ≤ i ∧ (10 - j) * perBucket ≤ r
  | .look j prev b => j ≤ i ∧ PrevOk A prev ∧ ∃ l₁ l₂, L j = l₁ ++ l₂ ∧ b = l₂.headD 0 ∧
      (j = i → d ∈ l₂) ∧ (9 - j) * perBucket + 2 * l₂.length + 1 ≤ r
  | .advance j b => j ≤ i ∧ ∃ l₁ l₂, L j = l₁ ++ b :: l₂ ∧ (j = i → d ∈ l₂) ∧
      (9 - j) * perBucket + 2 * l₂.length + 2 ≤ r
  | .found j prev b => j = i ∧ b = d ∧ PrevOk A prev
  | .lost => False

/-- What the search looks for is there. -/
structure Sought (W : World) (L : ℕ → List ℕ) (objs : ℕ → List ℕ) (i d page : ℕ) (size : ℤ) : Prop where
  ordered : Ordered W L objs
  bucket : i < 9
  listed : d ∈ L i
  page : (W.alloc.desc d).page = page
  size : size ≤ bucketSize i

theorem headD_of_linked {next : ℕ → ℕ} {p : ℕ} {l : List ℕ} (h : Linked next p l) : p = l.headD 0 := by
  cases l with
  | nil => exact h
  | cons a l => exact h.1

/-- **A step of the search.** -/
theorem Sought.step (h : Sought W L objs i d page size) (ht : Tracks W.alloc L i d (r + 1) s) :
    Tracks W.alloc L i d r (W.alloc.searchStep page size s) := by
  have hlists := h.ordered.lists
  have hi := h.bucket
  have hbig : 2 * 2 ^ 24 + 1 < perBucket := by decide
  cases s with
  | dir j =>
    obtain ⟨hj, hr⟩ := ht
    have hmul : (10 - j) * perBucket = (9 - j) * perBucket + perBucket := by
      rw [show 10 - j = 9 - j + 1 from by omega, Nat.add_mul, Nat.one_mul]
    have hlen := h.ordered.length_lt j
    rw [Allocator.searchStep, if_neg (Nat.pos_iff_ne_zero.1 (bucketSize_pos (by omega)))]
    split
    · rename_i hsmall
      have hji : j ≠ i := by
        intro hji
        have hsize := h.size
        rw [hji] at hsmall
        omega
      refine ⟨by omega, ?_⟩
      rw [show 10 - (j + 1) = 9 - j from by omega]
      omega
    · have hlinked := hlists.linked j
      rw [head_chain (by omega)] at hlinked
      refine ⟨hj, Or.inl rfl, [], L j, rfl, headD_of_linked hlinked, ?_, by omega⟩
      intro hji
      rw [hji]
      exact h.listed
  | look j prev b =>
    obtain ⟨hj, hprev, l₁, l₂, hl, hb, hd, hr⟩ := ht
    have hlinked := hlists.linked j
    rw [hl] at hlinked
    rw [Allocator.searchStep]
    split
    · rename_i h0
      have hji : j ≠ i := by
        intro hji
        cases l₂ with
        | nil => exact absurd (hd hji) List.not_mem_nil
        | cons a l₂ =>
          have ha : a = 0 := hb.symm.trans h0
          exact (hlists.linked j).ne_zero (by rw [hl]; exact List.mem_append_right l₁ List.mem_cons_self) ha
      refine ⟨by omega, ?_⟩
      rw [show 10 - (j + 1) = 9 - j from by omega]
      omega
    · rename_i hb0
      cases l₂ with
      | nil => exact absurd hb hb0
      | cons a l₂ =>
        have hab : b = a := hb
        have hbj : b ∈ L j := by
          rw [hl, hab]
          exact List.mem_append_right l₁ List.mem_cons_self
        rw [List.length_cons] at hr
        split
        · rename_i hpage
          have hbd := h.ordered.distinct j (by omega) b hbj i hi d h.listed (hpage.trans h.page.symm)
          exact ⟨hlists.apart j i d (by rw [← hbd]; exact hbj) h.listed, hbd, hprev⟩
        · rename_i hpage
          refine ⟨hj, l₁, l₂, by rw [hl, hab], ?_, by omega⟩
          intro hji
          rcases List.mem_cons.1 (hd hji) with hda | hda
          · rw [hab, ← hda] at hpage
            exact absurd h.page hpage
          · exact hda
  | advance j b =>
    obtain ⟨hj, l₁, l₂, hl, hd, hr⟩ := ht
    have hlinked := hlists.linked j
    rw [hl] at hlinked
    have hbj : b ∈ L j := by
      rw [hl]
      exact List.mem_append_right l₁ List.mem_cons_self
    refine ⟨hj, Or.inr ((h.ordered.descs b).2 ⟨j, hbj⟩), l₁ ++ [b], l₂, ?_, ?_, hd, by omega⟩
    · rw [hl, List.append_assoc, List.singleton_append]
    · exact headD_of_linked hlinked.after
  | found j prev b => exact ht
  | lost => exact ht

theorem Tracks.done (ht : Tracks A L i d 0 s) (hi : i < 9) : ∃ prev, s = .found i prev d ∧ PrevOk A prev := by
  have hbig : 0 < perBucket := by decide
  cases s with
  | dir j =>
    obtain ⟨hj, hr⟩ := ht
    have : 0 < (10 - j) * perBucket := Nat.mul_pos (by omega) hbig
    omega
  | look j prev b =>
    obtain ⟨-, -, l₁, l₂, -, -, -, hr⟩ := ht
    omega
  | advance j b =>
    obtain ⟨-, l₁, l₂, -, -, hr⟩ := ht
    omega
  | found j prev b =>
    obtain ⟨hj, hb, hprev⟩ := ht
    exact ⟨prev, by rw [hj, hb], hprev⟩
  | lost => exact ht.elim

/-- **The search without interruption** finds the descriptor. -/
theorem Sought.search (h : Sought W L objs i d page size) (ht : Tracks W.alloc L i d r s) (hn : r < n) :
    ∃ prev, W.alloc.search page size n s = some (.found i prev d) ∧ PrevOk W.alloc prev := by
  induction n generalizing r s with
  | zero => omega
  | succ n ih =>
    rw [Allocator.search]
    split
    · rename_i hdone
      cases s with
      | found j prev b =>
        obtain ⟨hj, hb, hprev⟩ := ht
        exact ⟨prev, by rw [hj, hb], hprev⟩
      | lost => exact ht.elim
      | dir j => exact hdone.elim
      | look j prev b => exact hdone.elim
      | advance j b => exact hdone.elim
    · rename_i hnot
      cases r with
      | zero =>
        obtain ⟨prev, hs, -⟩ := ht.done h.bucket
        rw [hs] at hnot
        exact absurd trivial hnot
      | succ r => exact ih (h.step ht) (by omega)

/-- The object of `free_s` is sought. -/
theorem Ordered.sought (h : Ordered W L objs) (hp : Placed W.alloc L objs x d)
    (hsize : size = 0 ∨ size = x.2.toNat) :
    Sought W L objs (findBucket x.2) d (pageOf x.1) size where
  ordered := h
  bucket := (findBucket_spec hp.length).1
  listed := hp.listed
  page := (h.placed_page hp).symm
  size := by
    have hle := (findBucket_spec hp.length).2
    rw [capacity] at hle
    rcases hsize with hsize | hsize <;> rw [hsize] <;> omega

theorem tracks_start (A : Allocator) (L : ℕ → List ℕ) (i d : ℕ) :
    Tracks A L i d (10 * perBucket) (.dir 0) := ⟨Nat.zero_le i, le_rfl⟩

/-- **`free_s`** of an object that is allocated. -/
theorem Sound.free (h : Sound W L objs) (hx : x ∈ W.objects) (hsize : size = 0 ∨ size = x.2.toNat) :
    wp (freeS x.1 size) (fun _ A' => ∃ d L' objs', Placed W.alloc L objs x d ∧ Released W L x d A' L' objs')
      (fun _ _ => False) W.alloc := by
  obtain ⟨d, hd⟩ := h.placed x hx
  have hfuel : 10 * perBucket < searchSteps := by decide
  obtain ⟨prev, hsearch, hprev⟩ := (h.toOrdered.sought hd hsize).search (tracks_start W.alloc L _ d) hfuel
  rw [freeS, wp_bind, wp_get, hsearch]
  apply wp_mono (h.release hx hd hprev) _ (fun _ _ h => h)
  intro _ A' hA'
  obtain ⟨L', objs', R⟩ := hA'
  exact ⟨d, L', objs', hd, R⟩

end OldLinux.Malloc
