import OldLinux.Lib.Numerals
import Mathlib.Data.Finset.Interval
import Mathlib.Order.Interval.Finset.Nat

/-!
# Singly linked lists in memory

A cell is a number, `next` says where the next cell is, and 0 ends a list.  `Linked next p l` says
that the cells met from `p` on are those of `l`.  The lemmas say what a store into one `next` field
does to a list, and where a loop along a list stops.
-/

namespace OldLinux.Lib

open Function

variable {next next' : ℕ → ℕ} {p a b N : ℕ} {l l₁ l₂ : List ℕ}

/-- The cells from `p` on are those of the list. -/
def Linked (next : ℕ → ℕ) : ℕ → List ℕ → Prop
  | p, [] => p = 0
  | p, a :: l => p = a ∧ a ≠ 0 ∧ Linked next (next a) l

@[simp]
theorem linked_nil : Linked next p [] ↔ p = 0 := Iff.rfl

@[simp]
theorem linked_cons : Linked next p (a :: l) ↔ p = a ∧ a ≠ 0 ∧ Linked next (next a) l := Iff.rfl

theorem Linked.unique (h : Linked next p l₁) (h' : Linked next p l₂) : l₁ = l₂ := by
  induction l₁ generalizing p l₂ with
  | nil =>
    cases l₂ with
    | nil => rfl
    | cons b l₂ =>
      rw [linked_nil] at h
      exact absurd (h'.1.symm.trans h) h'.2.1
  | cons a l₁ ih =>
    cases l₂ with
    | nil =>
      rw [linked_nil] at h'
      exact absurd (h.1.symm.trans h') h.2.1
    | cons b l₂ =>
      have hab : a = b := h.1.symm.trans h'.1
      subst hab
      rw [ih h.2.2 h'.2.2]

theorem Linked.congr (h : Linked next p l) (heq : ∀ a ∈ l, next' a = next a) : Linked next' p l := by
  induction l generalizing p with
  | nil => exact h
  | cons a l ih =>
    refine ⟨h.1, h.2.1, ?_⟩
    rw [heq a List.mem_cons_self]
    exact ih h.2.2 (fun b hb => heq b (List.mem_cons_of_mem a hb))

theorem Linked.ne_zero (h : Linked next p l) (ha : a ∈ l) : a ≠ 0 := by
  induction l generalizing p with
  | nil => exact absurd ha List.not_mem_nil
  | cons b l ih =>
    rcases List.mem_cons.1 ha with hab | ha
    · rw [hab]
      exact h.2.1
    · exact ih h.2.2 ha

/-- The list is empty when its first pointer is null. -/
theorem Linked.eq_nil (h : Linked next 0 l) : l = [] := by
  cases l with
  | nil => rfl
  | cons a l => exact absurd h.1.symm h.2.1

theorem Linked.eq_cons (h : Linked next p l) (hp : p ≠ 0) : ∃ l', l = p :: l' ∧ Linked next (next p) l' := by
  cases l with
  | nil => exact absurd h hp
  | cons a l =>
    refine ⟨l, by rw [h.1], ?_⟩
    rw [h.1]
    exact h.2.2

theorem Linked.after (h : Linked next p (l₁ ++ a :: l₂)) : Linked next (next a) l₂ := by
  induction l₁ generalizing p with
  | nil => exact h.2.2
  | cons b l₁ ih => exact ih h.2.2

/-- A cell after which `b` comes stands directly before `b`. -/
theorem Linked.before (h : Linked next p l) (ha : a ∈ l) (hb : b ≠ 0) (hab : next a = b) :
    ∃ l₁ l₂, l = l₁ ++ a :: b :: l₂ := by
  obtain ⟨l₁, l₂, hl⟩ := List.append_of_mem ha
  rw [hl] at h
  obtain ⟨l₃, hl₂, -⟩ := h.after.eq_cons (by rw [hab]; exact hb)
  rw [hab] at hl₂
  exact ⟨l₁, l₃, by rw [hl, hl₂]⟩

/-- Cells at equal distances. -/
theorem linked_range' {s n step : ℕ} (hs : s ≠ 0) (hnext : ∀ a ∈ List.range' s n step, next a = a + step)
    (hl : Linked next (s + n * step) l) : Linked next s (List.range' s n step ++ l) := by
  induction n generalizing s with
  | zero =>
    rw [Nat.zero_mul, Nat.add_zero] at hl
    exact hl
  | succ n ih =>
    rw [List.range'_succ] at hnext ⊢
    refine ⟨rfl, hs, ?_⟩
    rw [hnext s List.mem_cons_self]
    apply ih (by omega) (fun a ha => hnext a (List.mem_cons_of_mem s ha))
    rw [Nat.add_mul, Nat.one_mul] at hl
    rw [show s + step + n * step = s + (n * step + step) from by omega]
    exact hl

/-! ### Stores -/

theorem Linked.push (h : Linked next p l) (ha : a ≠ 0) (hl : a ∉ l) (hnext : next' a = p)
    (heq : ∀ b, b ≠ a → next' b = next b) : Linked next' a (a :: l) := by
  refine ⟨rfl, ha, ?_⟩
  rw [hnext]
  apply h.congr
  intro b hb
  apply heq
  intro hba
  rw [hba] at hb
  exact hl hb

/-- **Unlinking** the cell after `a`. -/
theorem Linked.unlink (h : Linked next p (l₁ ++ a :: b :: l₂)) (hnodup : (l₁ ++ a :: b :: l₂).Nodup)
    (hnext : next' a = next b) (heq : ∀ c, c ≠ a → next' c = next c) :
    Linked next' p (l₁ ++ a :: l₂) := by
  induction l₁ generalizing p with
  | nil =>
    have hnot := (List.nodup_cons.1 hnodup).1
    refine ⟨h.1, h.2.1, ?_⟩
    rw [hnext]
    apply h.2.2.2.2.congr
    intro c hc
    apply heq
    intro hca
    rw [hca] at hc
    exact hnot (List.mem_cons_of_mem b hc)
  | cons d l₁ ih =>
    have hnot := (List.nodup_cons.1 hnodup).1
    have hda : d ≠ a := by
      intro hda
      rw [hda] at hnot
      exact hnot (List.mem_append_right l₁ List.mem_cons_self)
    refine ⟨h.1, h.2.1, ?_⟩
    rw [heq d hda]
    exact ih h.2.2 (List.nodup_cons.1 hnodup).2

/-! ### Loops along a list -/

/-- `for (b = p; b; b = b->next) if (stop(b)) break;`, for at most `n` cells; the value of `b` after
the loop. -/
def walk (next : ℕ → ℕ) (stop : ℕ → Bool) : ℕ → ℕ → Option ℕ
  | 0, _ => none
  | n + 1, b => if b = 0 then some 0 else if stop b then some b else walk next stop n (next b)

theorem walk_eq (stop : ℕ → Bool) {n : ℕ} (h : Linked next p l) (hn : l.length < n) :
    walk next stop n p = some ((l.find? stop).getD 0) := by
  induction n generalizing p l with
  | zero => omega
  | succ n ih =>
    rw [walk]
    by_cases hp : p = 0
    · rw [if_pos hp]
      rw [hp] at h
      rw [h.eq_nil]
      rfl
    · obtain ⟨l', hl, h'⟩ := h.eq_cons hp
      rw [if_neg hp, hl]
      rw [hl, List.length_cons] at hn
      cases hs : stop p with
      | true => simp [hs]
      | false =>
        rw [List.find?_cons_of_neg (by rw [hs]; exact Bool.false_ne_true)]
        simp only [Bool.false_eq_true, if_false]
        exact ih h' (by omega)

/-- The loop that looks for the cell before `b`. -/
theorem find_before (h : Linked next p (l₁ ++ a :: b :: l₂)) (hnodup : (l₁ ++ a :: b :: l₂).Nodup) :
    (l₁ ++ a :: b :: l₂).find? (fun c => next c = b) = some a := by
  induction l₁ generalizing p with
  | nil => simp [h.2.2.1]
  | cons d l₁ ih =>
    have hd : ¬next d = b := by
      intro hd
      cases l₁ with
      | nil =>
        have hab : a = b := h.2.2.1.symm.trans hd
        have := (List.nodup_cons.1 (List.nodup_cons.1 hnodup).2).1
        rw [hab] at this
        exact this List.mem_cons_self
      | cons e l₁ =>
        have heb : e = b := h.2.2.1.symm.trans hd
        have := (List.nodup_cons.1 (List.nodup_cons.1 hnodup).2).1
        rw [heb] at this
        exact this (List.mem_append_right l₁ (List.mem_cons_of_mem a List.mem_cons_self))
    rw [List.cons_append, List.find?_cons_of_neg (by simpa using hd)]
    exact ih h.2.2 (List.nodup_cons.1 hnodup).2

/-- No cell stands before the first. -/
theorem find_before_first (h : Linked next p (b :: l)) (hnodup : (b :: l).Nodup) :
    (b :: l).find? (fun c => next c = b) = none := by
  rw [List.find?_eq_none]
  intro c hc hcb
  obtain ⟨l₁, l₂, hl⟩ := h.before hc h.2.1 (by simpa using hcb)
  have hb : b ∈ l := by
    cases l₁ with
    | nil =>
      have heq := (List.cons.inj hl).2
      rw [heq]
      exact List.mem_cons_self
    | cons d l₁ =>
      have heq := (List.cons.inj hl).2
      rw [heq]
      exact List.mem_append_right l₁ (List.mem_cons_of_mem c List.mem_cons_self)
  exact (List.nodup_cons.1 hnodup).1 hb

/-- A list without repetition is shorter than the range of its cells. -/
theorem length_lt_of_nodup (h : l.Nodup) (hpos : 0 < N) (hl : ∀ a ∈ l, 0 < a ∧ a < N) : l.length < N := by
  have hsub : l.toFinset ⊆ Finset.Ico 1 N := by
    intro a ha
    have := hl a (List.mem_toFinset.1 ha)
    rw [Finset.mem_Ico]
    omega
  have hcard := Finset.card_le_card hsub
  rw [List.toFinset_card_of_nodup h, Nat.card_Ico] at hcard
  omega

/-! ### Lists that share the cells -/

section Lists

variable {ι : Type*} {head head' : ι → ℕ} {L : ι → List ℕ} {i j : ι} {d : ℕ}

/-- One list for each index, no cell on two of them and none twice on one. -/
structure Lists (next : ℕ → ℕ) (head : ι → ℕ) (L : ι → List ℕ) : Prop where
  linked : ∀ i, Linked next (head i) (L i)
  nodup : ∀ i, (L i).Nodup
  apart : ∀ i j d, d ∈ L i → d ∈ L j → i = j

/-- New cells before those of list `j`. -/
theorem Lists.extend [DecidableEq ι] (h : Lists next head L) (new : List ℕ)
    (hnew : Linked next' (head' j) (new ++ L j)) (hnodup : new.Nodup)
    (hfresh : ∀ i, ∀ d ∈ new, d ∉ L i) (hnext : ∀ i, ∀ d ∈ L i, next' d = next d)
    (hhead : ∀ i, i ≠ j → head' i = head i) :
    Lists next' head' (update L j (new ++ L j)) := by
  have hmem : ∀ i d, d ∈ update L j (new ++ L j) i → d ∈ L i ∨ d ∈ new ∧ i = j := by
    intro i d hd
    by_cases hij : i = j
    · rw [hij, update_self] at hd
      rcases List.mem_append.1 hd with hd | hd
      · exact Or.inr ⟨hd, hij⟩
      · rw [hij]
        exact Or.inl hd
    · rw [update_of_ne hij] at hd
      exact Or.inl hd
  constructor
  · intro i
    by_cases hij : i = j
    · rw [hij, update_self]
      exact hnew
    · rw [update_of_ne hij, hhead i hij]
      exact (h.linked i).congr (hnext i)
  · intro i
    by_cases hij : i = j
    · rw [hij, update_self]
      exact List.nodup_append.2 ⟨hnodup, h.nodup j, fun a ha b hb hab =>
        hfresh j a ha (by rw [hab]; exact hb)⟩
    · rw [update_of_ne hij]
      exact h.nodup i
  · intro i k d hi hk
    rcases hmem i d hi with hi | ⟨hi, hij⟩
    · rcases hmem k d hk with hk | ⟨hk, -⟩
      · exact h.apart i k d hi hk
      · exact absurd hi (hfresh i d hk)
    · rcases hmem k d hk with hk | ⟨-, hkj⟩
      · exact absurd hk (hfresh k d hi)
      · exact hij.trans hkj.symm

/-- The cells of list `i` are some of those it had. -/
theorem Lists.shrink [DecidableEq ι] {l : List ℕ} (h : Lists next head L) (hl : l.Sublist (L i))
    (hlinked : Linked next' (head' i) l) (hnext : ∀ j, j ≠ i → ∀ d ∈ L j, next' d = next d)
    (hhead : ∀ j, j ≠ i → head' j = head j) : Lists next' head' (update L i l) := by
  have hmem : ∀ j d, d ∈ update L i l j → d ∈ L j := by
    intro j d hd
    by_cases hji : j = i
    · rw [hji, update_self] at hd
      rw [hji]
      exact hl.subset hd
    · rw [update_of_ne hji] at hd
      exact hd
  constructor
  · intro j
    by_cases hji : j = i
    · rw [hji, update_self]
      exact hlinked
    · rw [update_of_ne hji, hhead j hji]
      exact (h.linked j).congr (hnext j hji)
  · intro j
    by_cases hji : j = i
    · rw [hji, update_self]
      exact hl.nodup (h.nodup i)
    · rw [update_of_ne hji]
      exact h.nodup j
  · intro j k d hj hk
    exact h.apart j k d (hmem j d hj) (hmem k d hk)

/-- A cell on no list goes to the front of list `j`. -/
theorem Lists.push [DecidableEq ι] (h : Lists next head L) (hd : d ≠ 0) (hfresh : ∀ i, d ∉ L i)
    (hdnext : next' d = head j) (hnext : ∀ c, c ≠ d → next' c = next c) (hj : head' j = d)
    (hhead : ∀ i, i ≠ j → head' i = head i) :
    Lists next' head' (update L j (d :: L j)) := by
  have hold : ∀ i, ∀ c ∈ L i, next' c = next c := by
    intro i c hc
    apply hnext
    intro hcd
    rw [hcd] at hc
    exact hfresh i hc
  refine h.extend [d] ?_ (List.nodup_singleton d) ?_ hold hhead
  · rw [hj]
    exact (h.linked j).push hd (hfresh j) hdnext hnext
  · intro i c hc
    rw [List.mem_singleton.1 hc]
    exact hfresh i

/-- The first cell of a list is taken off. -/
theorem Lists.pop [DecidableEq ι] {l : List ℕ} (h : Lists next head L) (hl : L i = d :: l)
    (hi : head' i = next d) (hhead : ∀ j, j ≠ i → head' j = head j) :
    Lists next head' (update L i l) := by
  have hlinked := h.linked i
  rw [hl] at hlinked
  refine h.shrink (by rw [hl]; exact List.sublist_cons_self d l) ?_ (fun _ _ _ _ => rfl) hhead
  rw [hi]
  exact hlinked.2.2

/-- A cell that is not the first is taken off. -/
theorem Lists.unlink [DecidableEq ι] (h : Lists next head L) (hl : L i = l₁ ++ a :: d :: l₂)
    (ha : next' a = next d) (hnext : ∀ c, c ≠ a → next' c = next c)
    (hhead : ∀ j, head' j = head j) :
    Lists next' head' (update L i (l₁ ++ a :: l₂)) := by
  have hlinked := h.linked i
  have hnodup := h.nodup i
  have hmem : a ∈ L i := by
    rw [hl]
    exact List.mem_append_right l₁ List.mem_cons_self
  rw [hl] at hlinked hnodup
  refine h.shrink ?_ ?_ ?_ (fun j _ => hhead j)
  · rw [hl]
    exact ((List.sublist_cons_self d l₂).cons_cons a).append_left l₁
  · rw [hhead]
    exact hlinked.unlink hnodup ha hnext
  · intro j hji c hc
    apply hnext
    intro hca
    rw [hca] at hc
    exact hji (h.apart j i a hc hmem)

/-- A cell is on one list only. -/
theorem Lists.existsUnique (h : Lists next head L) (hd : d ∈ L i) :
    ∃! i, ∃ l, Linked next (head i) l ∧ d ∈ l := by
  refine ⟨i, ⟨L i, h.linked i, hd⟩, ?_⟩
  intro j hj
  obtain ⟨l, hl, hdl⟩ := hj
  rw [hl.unique (h.linked j)] at hdl
  exact h.apart j i d hdl hd

end Lists

end OldLinux.Lib
