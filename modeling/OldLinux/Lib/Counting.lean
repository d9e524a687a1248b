import OldLinux.Lib.Numerals
import Mathlib.Algebra.Order.BigOperators.Group.Finset
import Mathlib.Data.Fintype.Prod
import Mathlib.Order.Interval.Finset.Nat

/-!
# Counting the places that satisfy a predicate

A reference count is the number of places that name an object.  An operation rewrites one place at
a time, so the whole bookkeeping rests on one exchange law: two predicates that agree away from `a`
have counts that differ by what they say at `a`.

A table of references has a place for each reference, which names an object or nothing.  Where a place
holds several references, the count is a sum.
-/

namespace OldLinux.Lib

open Function

variable {ι : Type*}

/-- The number of places in `S` that satisfy `P`. -/
def countIn (S : Finset ι) (P : ι → Prop) [DecidablePred P] : ℕ := (S.filter P).card

theorem countIn_congr {S : Finset ι} {P Q : ι → Prop} [DecidablePred P] [DecidablePred Q]
    (h : ∀ x ∈ S, P x ↔ Q x) : countIn S P = countIn S Q := by
  unfold countIn
  rw [Finset.filter_congr h]

theorem countIn_eq_zero {S : Finset ι} {P : ι → Prop} [DecidablePred P] : countIn S P = 0 ↔ ∀ x ∈ S, ¬P x := by
  unfold countIn
  rw [Finset.card_eq_zero, Finset.filter_eq_empty_iff]

theorem countIn_pos {S : Finset ι} {P : ι → Prop} [DecidablePred P] {x : ι}
    (hx : x ∈ S) (hP : P x) : 0 < countIn S P := by
  refine Nat.pos_of_ne_zero ?_
  intro h
  exact countIn_eq_zero.1 h x hx hP

theorem exists_of_countIn {S : Finset ι} {P : ι → Prop} [DecidablePred P] (h : countIn S P ≠ 0) :
    ∃ x ∈ S, P x := by
  by_contra hnone
  apply h
  rw [countIn_eq_zero]
  intro x hx hP
  exact hnone ⟨x, hx, hP⟩

/-- **The exchange law.**  Away from `a` nothing changes, so the counts differ by what the two
predicates say at `a`. -/
theorem countIn_exchange [DecidableEq ι] {S : Finset ι} {P Q : ι → Prop} [DecidablePred P]
    [DecidablePred Q] {a : ι} (ha : a ∈ S) (h : ∀ x ∈ S, x ≠ a → (P x ↔ Q x)) :
    countIn S Q + (if P a then 1 else 0) = countIn S P + (if Q a then 1 else 0) := by
  unfold countIn
  have hrest : (S.erase a).filter Q = (S.erase a).filter P := by
    refine Finset.filter_congr ?_
    intro x hx
    exact (h x (Finset.mem_of_mem_erase hx) (Finset.ne_of_mem_erase hx)).symm
  have hsplit : ∀ (R : ι → Prop) [DecidablePred R],
      (S.filter R).card = ((S.erase a).filter R).card + (if R a then 1 else 0) := by
    intro R _
    rw [← Finset.insert_erase ha, Finset.filter_insert]
    rw [Finset.erase_insert_eq_erase, Finset.erase_idem]
    split
    · rw [Finset.card_insert_of_notMem (by simp)]
    · rfl
  rw [hsplit P, hsplit Q, hrest]
  omega

/-- One place alone satisfies the predicate when the count is one. -/
theorem eq_of_countIn_le_one {S : Finset ι} {P : ι → Prop} [DecidablePred P] {x y : ι}
    (h : countIn S P ≤ 1) (hx : x ∈ S) (hy : y ∈ S) (hPx : P x) (hPy : P y) : x = y := by
  unfold countIn at h
  rw [Finset.card_le_one] at h
  exact h x (Finset.mem_filter.2 ⟨hx, hPx⟩) y (Finset.mem_filter.2 ⟨hy, hPy⟩)

/-! ### Tables of references -/

variable {α β : Type*} [Fintype α] [DecidableEq β] {D : α → Option β} {a a' : α} {b : β}

/-- The number of places that name `b`. -/
def refs (D : α → Option β) (b : β) : ℕ := countIn Finset.univ fun a => D a = some b

theorem refs_le_card : refs D b ≤ Fintype.card α := Finset.card_le_univ _

theorem refs_eq_zero : refs D b = 0 ↔ ∀ a, D a ≠ some b := by
  rw [refs, countIn_eq_zero]
  simp

theorem refs_pos (ha : D a = some b) : 0 < refs D b := countIn_pos (Finset.mem_univ a) ha

/-- What is named once is named by one place. -/
theorem eq_of_refs_eq_one (h : refs D b = 1) (ha : D a = some b) (ha' : D a' = some b) : a = a' :=
  eq_of_countIn_le_one (Nat.le_of_eq h) (Finset.mem_univ a) (Finset.mem_univ a') ha ha'

variable [DecidableEq α]

theorem refs_update (D : α → Option β) (a : α) (x : Option β) (b : β) :
    refs (update D a x) b + (if D a = some b then 1 else 0) = refs D b + if x = some b then 1 else 0 := by
  have h := countIn_exchange (P := fun a => D a = some b)
    (Q := fun a' => update D a x a' = some b) (Finset.mem_univ a) ?_
  · simp only [update_self] at h
    exact h
  · intro y _ hy
    rw [update_of_ne hy]

/-- A place that named nothing names `b'`. -/
theorem refs_update_some (ha : D a = none) (b' b : β) :
    refs (update D a (some b')) b = refs D b + if b = b' then 1 else 0 := by
  have h := refs_update D a (some b') b
  simp only [ha, reduceCtorEq, if_false, Option.some.injEq, Nat.add_zero] at h
  rw [h]
  simp only [eq_comm]

/-- A place that named `b'` names nothing. -/
theorem refs_update_none {b' : β} (ha : D a = some b') (b : β) :
    refs (update D a none) b + (if b = b' then 1 else 0) = refs D b := by
  have h := refs_update D a none b
  simp only [ha, reduceCtorEq, if_false, Option.some.injEq, Nat.add_zero] at h
  rw [← h]
  simp only [eq_comm]

/-- One summand is replaced. -/
theorem sum_replace {γ : Type*} (f : γ → ℕ) (g : α → γ) (a : α) (c : γ) :
    ∑ x, f (update g a c x) + f (g a) = ∑ x, f (g x) + f c := by
  have hrest : ∑ x ∈ Finset.univ.erase a, f (update g a c x) = ∑ x ∈ Finset.univ.erase a, f (g x) := by
    refine Finset.sum_congr rfl ?_
    intro x hx
    rw [update_of_ne (Finset.ne_of_mem_erase hx)]
  rw [← Finset.add_sum_erase _ _ (Finset.mem_univ a), ← Finset.add_sum_erase _ _ (Finset.mem_univ a),
    hrest, update_self]
  omega

omit [DecidableEq α] in
/-- A summand is at most the sum. -/
theorem le_sum_univ (f : α → ℕ) (a : α) : f a ≤ ∑ x, f x :=
  Finset.single_le_sum (fun _ _ => Nat.zero_le _) (Finset.mem_univ a)

/-- Two summands are at most the sum. -/
theorem add_le_sum_univ (f : α → ℕ) {a a' : α} (h : a ≠ a') : f a + f a' ≤ ∑ x, f x := by
  rw [← Finset.add_sum_erase _ _ (Finset.mem_univ a)]
  have hmem : a' ∈ Finset.univ.erase a := Finset.mem_erase.2 ⟨Ne.symm h, Finset.mem_univ a'⟩
  have hle := Finset.single_le_sum (f := f) (fun _ _ => Nat.zero_le _) hmem
  omega

end OldLinux.Lib
