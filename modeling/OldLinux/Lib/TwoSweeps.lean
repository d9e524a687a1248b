import OldLinux.Lib.Numerals
import Mathlib.Data.List.Chain

/-!
# Lists of two ascending runs

An elevator goes up, comes back to the beginning and goes up again: the keys of those who wait are two
ascending runs.  A new one is put where it is on the way, or at the wrap, or at the end; and the two runs
stay two.
-/

namespace OldLinux.Lib

variable {α β : Type*} [LinearOrder β] {key key' : α → β} {x t u : α} {l l₁ l₂ : List α}

/-- The keys go up. -/
abbrev Ascending (key : α → β) (l : List α) : Prop := l.IsChain fun a b => key a < key b

/-- At most one time, the keys go down. -/
def TwoSweeps (key : α → β) (l : List α) : Prop := ∃ l₁ l₂, l = l₁ ++ l₂ ∧ Ascending key l₁ ∧ Ascending key l₂

/-- The new one goes behind the first from which it is on the way up to the next, or behind the one at
the top if it is below all of the next run, and else to the end. -/
def place (key : α → β) (x : α) : List α → List α
  | [] => [x]
  | [t] => [t, x]
  | t :: u :: l =>
    if (key t < key x ∨ ¬key t < key u) ∧ key x < key u then t :: x :: u :: l
    else t :: place key x (u :: l)

theorem Ascending.two (h : Ascending key l) : TwoSweeps key l := ⟨l, [], (List.append_nil l).symm, h, .nil⟩

/-- The first run is not empty, unless both are. -/
theorem TwoSweeps.cons (h : TwoSweeps key (t :: l)) :
    ∃ l₁ l₂, l = l₁ ++ l₂ ∧ Ascending key (t :: l₁) ∧ Ascending key l₂ := by
  obtain ⟨l₁, l₂, heq, h1, h2⟩ := h
  cases l₁ with
  | nil =>
    rw [List.nil_append] at heq
    exact ⟨l, [], (List.append_nil l).symm, heq ▸ h2, .nil⟩
  | cons a l₁ =>
    obtain ⟨rfl, rfl⟩ := List.cons.inj heq
    exact ⟨l₁, l₂, rfl, h1, h2⟩

theorem twoSweeps_cons (h1 : Ascending key (t :: l₁)) (h2 : Ascending key l₂) :
    TwoSweeps key (t :: (l₁ ++ l₂)) := ⟨t :: l₁, l₂, rfl, h1, h2⟩

theorem TwoSweeps.tail (h : TwoSweeps key (t :: l)) : TwoSweeps key l := by
  obtain ⟨l₁, l₂, rfl, h1, h2⟩ := h.cons
  exact ⟨l₁, l₂, rfl, h1.tail, h2⟩

/-! ### Placing -/

theorem place_cons (key : α → β) (x t : α) (l : List α) : ∃ l', place key x (t :: l) = t :: l' := by
  cases l with
  | nil => exact ⟨[x], rfl⟩
  | cons u l =>
    rw [place]
    split
    · exact ⟨x :: u :: l, rfl⟩
    · exact ⟨place key x (u :: l), rfl⟩

theorem place_perm (key : α → β) (x : α) (l : List α) : (place key x l).Perm (x :: l) := by
  induction l with
  | nil => exact List.Perm.refl _
  | cons t l ih =>
    cases l with
    | nil => exact List.Perm.swap x t []
    | cons u l =>
      rw [place]
      split
      · exact List.Perm.swap x t _
      · exact (ih.cons t).trans (List.Perm.swap x t _)

/-- In one run the new one is put where it belongs, or at the end. -/
theorem place_ascending (h : Ascending key l) (hne : l ≠ []) :
    Ascending key (place key x l) ∨ place key x l = l ++ [x] := by
  induction l with
  | nil => exact absurd rfl hne
  | cons t l ih =>
    cases l with
    | nil => exact .inr rfl
    | cons u l =>
      obtain ⟨htu, htail⟩ := List.isChain_cons_cons.1 h
      rw [place]
      split
      · rename_i hx
        have htx : key t < key x := hx.1.resolve_right fun hnot => hnot htu
        exact .inl (List.isChain_cons_cons.2 ⟨htx, List.isChain_cons_cons.2 ⟨hx.2, htail⟩⟩)
      · obtain ⟨l', hl'⟩ := place_cons key x u l
        rcases ih htail (List.cons_ne_nil u l) with hplace | hplace
        · rw [hl'] at hplace ⊢
          exact .inl (List.isChain_cons_cons.2 ⟨htu, hplace⟩)
        · exact .inr (by rw [hplace]; rfl)

/-- Above the first of a run, it is on the way or at the end. -/
theorem place_above (h : Ascending key (t :: l)) (htx : key t < key x) (hne : ∀ y ∈ l, key y ≠ key x) :
    Ascending key (place key x (t :: l)) := by
  induction l generalizing t with
  | nil => exact List.isChain_pair.2 htx
  | cons u l ih =>
    obtain ⟨htu, htail⟩ := List.isChain_cons_cons.1 h
    rw [place]
    split
    · rename_i hx
      exact List.isChain_cons_cons.2 ⟨htx, List.isChain_cons_cons.2 ⟨hx.2, htail⟩⟩
    · rename_i hx
      have hux : key u < key x := by
        refine lt_of_le_of_ne (not_lt.1 fun hlt => hx ⟨.inl htx, hlt⟩) ?_
        exact hne u List.mem_cons_self
      obtain ⟨l', hl'⟩ := place_cons key x u l
      have hplace := ih htail hux fun y hy => hne y (List.mem_cons_of_mem u hy)
      rw [hl'] at hplace ⊢
      exact List.isChain_cons_cons.2 ⟨htu, hplace⟩

theorem place_runs (h1 : Ascending key (t :: l₁)) (h2 : Ascending key l₂)
    (hne : ∀ y ∈ t :: (l₁ ++ l₂), key y ≠ key x) :
    ∃ m₁ m₂, place key x (t :: (l₁ ++ l₂)) = t :: (m₁ ++ m₂) ∧ Ascending key (t :: m₁) ∧ Ascending key m₂ := by
  induction l₁ generalizing t with
  | nil =>
    cases l₂ with
    | nil => exact ⟨[], [x], rfl, h1, List.isChain_singleton x⟩
    | cons u l₂ =>
      rw [List.nil_append, place]
      split
      · rename_i hx
        exact ⟨[], x :: u :: l₂, rfl, h1, List.isChain_cons_cons.2 ⟨hx.2, h2⟩⟩
      · rename_i hx
        rcases lt_or_ge (key x) (key u) with hxu | hux
        · -- below `u`, and not on the way to it: `t` is above the new one and below `u`
          have htu : key t < key u := by
            by_contra hnot
            exact hx ⟨.inr hnot, hxu⟩
          rcases place_ascending (x := x) h2 (List.cons_ne_nil u l₂) with hplace | hplace
          · exact ⟨[], _, rfl, h1, hplace⟩
          · refine ⟨u :: l₂, [x], by rw [hplace], List.isChain_cons_cons.2 ⟨htu, h2⟩, ?_⟩
            exact List.isChain_singleton x
        · have hux' : key u < key x := by
            refine lt_of_le_of_ne hux (hne u ?_)
            exact List.mem_cons_of_mem t List.mem_cons_self
          refine ⟨[], _, rfl, h1, place_above h2 hux' fun y hy => hne y ?_⟩
          exact List.mem_cons_of_mem t (List.mem_cons_of_mem u hy)
  | cons u l₁ ih =>
    obtain ⟨htu, htail⟩ := List.isChain_cons_cons.1 h1
    rw [List.cons_append, place]
    split
    · rename_i hx
      have htx : key t < key x := hx.1.resolve_right fun hnot => hnot htu
      refine ⟨x :: u :: l₁, l₂, rfl, ?_, h2⟩
      exact List.isChain_cons_cons.2 ⟨htx, List.isChain_cons_cons.2 ⟨hx.2, htail⟩⟩
    · obtain ⟨m₁, m₂, hm, hm1, hm2⟩ := ih htail fun y hy => hne y (List.mem_cons_of_mem t hy)
      refine ⟨u :: m₁, m₂, ?_, List.isChain_cons_cons.2 ⟨htu, hm1⟩, hm2⟩
      rw [hm, List.cons_append]

/-- **Placing keeps the two runs.** -/
theorem TwoSweeps.place (h : TwoSweeps key l) (hne : ∀ y ∈ l, key y ≠ key x) :
    TwoSweeps key (place key x l) := by
  cases l with
  | nil => exact Ascending.two (List.isChain_singleton x)
  | cons t l =>
    obtain ⟨l₁, l₂, rfl, h1, h2⟩ := h.cons
    obtain ⟨m₁, m₂, hm, hm1, hm2⟩ := place_runs h1 h2 hne
    rw [hm]
    exact twoSweeps_cons hm1 hm2

/-! ### Other keys -/

theorem Ascending.congr (h : Ascending key l) (heq : ∀ y ∈ l, key' y = key y) : Ascending key' l := by
  induction l with
  | nil => exact .nil
  | cons t l ih =>
    cases l with
    | nil => exact List.isChain_singleton t
    | cons u l =>
      obtain ⟨htu, htail⟩ := List.isChain_cons_cons.1 h
      refine List.isChain_cons_cons.2 ⟨?_, ih htail fun y hy => heq y (List.mem_cons_of_mem t hy)⟩
      rw [heq t List.mem_cons_self, heq u (List.mem_cons_of_mem t List.mem_cons_self)]
      exact htu

theorem TwoSweeps.congr (h : TwoSweeps key l) (heq : ∀ y ∈ l, key' y = key y) : TwoSweeps key' l := by
  obtain ⟨l₁, l₂, rfl, h1, h2⟩ := h
  exact ⟨l₁, l₂, rfl, h1.congr fun y hy => heq y (List.mem_append_left l₂ hy),
    h2.congr fun y hy => heq y (List.mem_append_right l₁ hy)⟩

/-- The first one changes its key, and stays below those that it was below. -/
theorem TwoSweeps.first (h : TwoSweeps key (t :: l)) (heq : ∀ y ∈ l, key' y = key y)
    (hfirst : ∀ y ∈ l, key t < key y → key' t < key' y) : TwoSweeps key' (t :: l) := by
  obtain ⟨l₁, l₂, rfl, h1, h2⟩ := h.cons
  refine twoSweeps_cons ?_ (h2.congr fun y hy => heq y (List.mem_append_right l₁ hy))
  cases l₁ with
  | nil => exact List.isChain_singleton t
  | cons u l₁ =>
    obtain ⟨htu, htail⟩ := List.isChain_cons_cons.1 h1
    have hmem : ∀ y ∈ u :: l₁, y ∈ u :: l₁ ++ l₂ := fun y hy => List.mem_append_left l₂ hy
    refine List.isChain_cons_cons.2 ⟨hfirst u (hmem u List.mem_cons_self) htu, ?_⟩
    exact Ascending.congr htail fun y hy => heq y (hmem y hy)

end OldLinux.Lib
