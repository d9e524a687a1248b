import OldLinux.Lib.Numerals
import Mathlib.Algebra.BigOperators.Group.List.Basic
import Mathlib.Data.List.DropRight
import Mathlib.Data.List.Infix

/-!
# A line editor

A text is a list of characters, and some characters end a line.  What comes after the last of those is
the line that is being typed: a key may take off its last character, or all of it.

* `press`, `typeKeys`: what keys make of a text.
* `trail`: the characters that have been typed and removed, in order.
* `finished_typeKeys`: no key changes a finished line.
* `trail_balance`, `trail_level`: if a typed character adds to a position and a removed one takes away
  from it, the position is that of the current line but for the characters whose two amounts differ.
-/

namespace OldLinux.Lib

/-- What a key asks for. -/
inductive Key (α : Type*)
  | put (c : α)
  | erase
  | kill
  | drop

/-- A character has been typed, or removed. -/
inductive Mark (α : Type*)
  | typed (c : α)
  | removed (c : α)

variable {α : Type*} (ends : α → Bool)

/-- The finished lines of a text. -/
def finished (text : List α) : List α := text.rdropWhile fun c => !ends c

/-- The line that is being typed. -/
def current (text : List α) : List α := text.rtakeWhile fun c => !ends c

def press (text : List α) : Key α → List α
  | .put c => text ++ [c]
  | .erase => finished ends text ++ (current ends text).dropLast
  | .kill => finished ends text
  | .drop => text

def typeKeys (text : List α) (keys : List (Key α)) : List α := keys.foldl (press ends) text

/-- What a key types or removes: a line is removed from its end. -/
def marks (text : List α) : Key α → List (Mark α)
  | .put c => [.typed c]
  | .erase => ((current ends text).getLast?.map .removed).toList
  | .kill => (current ends text).reverse.map .removed
  | .drop => []

def trail (text : List α) : List (Key α) → List (Mark α)
  | [] => []
  | k :: ks => marks ends text k ++ trail (press ends text k) ks

variable {ends} {text line : List α} {c : α}

/-! ### Finished lines -/

theorem finished_append_current (ends : α → Bool) (text : List α) :
    finished ends text ++ current ends text = text :=
  List.rdropWhile_append_rtakeWhile

theorem finished_start (text : List α) : finished ends text <+: text :=
  List.rdropWhile_prefix _ text

theorem ends_of_mem_current (h : c ∈ current ends text) : ends c = false := by
  have hc := List.mem_rtakeWhile_imp h
  simpa using hc

/-- A character that ends a line finishes it. -/
theorem concat_ends (h : ends c = true) (text : List α) :
    finished ends (text ++ [c]) = text ++ [c] ∧ current ends (text ++ [c]) = [] :=
  ⟨List.rdropWhile_concat_neg _ _ _ (by simp [h]), List.rtakeWhile_concat_neg _ _ _ (by simp [h])⟩

/-- Another one is appended to the current line. -/
theorem concat_current (h : ends c = false) (text : List α) :
    finished ends (text ++ [c]) = finished ends text ∧ current ends (text ++ [c]) = current ends text ++ [c] :=
  ⟨List.rdropWhile_concat_pos _ _ _ (by simp [h]), List.rtakeWhile_concat_pos _ _ _ (by simp [h])⟩

theorem finished_finished (text : List α) : finished ends (finished ends text) = finished ends text :=
  List.rdropWhile_idempotent _ _

theorem current_finished (text : List α) : current ends (finished ends text) = [] := by
  have h := finished_append_current ends (finished ends text)
  rw [finished_finished] at h
  exact List.append_right_eq_self.1 h

/-- A line behind finished lines. -/
theorem finished_append (h : ∀ c ∈ line, ends c = false) (text : List α) :
    finished ends (finished ends text ++ line) = finished ends text ∧
      current ends (finished ends text ++ line) = line := by
  induction line using List.reverseRecOn with
  | nil =>
    rw [List.append_nil]
    exact ⟨finished_finished text, current_finished text⟩
  | append_singleton line c ih =>
    have hc : ends c = false := h c (List.mem_append_right _ List.mem_cons_self)
    obtain ⟨h1, h2⟩ := ih fun x hx => h x (List.mem_append_left _ hx)
    obtain ⟨h3, h4⟩ := concat_current hc (finished ends text ++ line)
    rw [← List.append_assoc]
    exact ⟨h3.trans h1, h4.trans (by rw [h2])⟩

/-- A prefix that ends with the end of a line is finished. -/
theorem finished_of_ends (hc : ends c = true) (h : line ++ [c] <+: text) :
    line ++ [c] <+: finished ends text := by
  obtain ⟨rest, rfl⟩ := h
  induction rest using List.reverseRecOn with
  | nil =>
    rw [List.append_nil, (concat_ends hc _).1]
  | append_singleton rest x ih =>
    rw [← List.append_assoc]
    cases hx : ends x with
    | true =>
      rw [(concat_ends hx _).1, List.append_assoc]
      exact List.prefix_append _ _
    | false =>
      rw [(concat_current hx _).1]
      exact ih

/-! ### Keys -/

theorem press_erase (text : List α) : finished ends (press ends text .erase) = finished ends text ∧
    current ends (press ends text .erase) = (current ends text).dropLast :=
  finished_append (fun _ hx => ends_of_mem_current (List.mem_of_mem_dropLast hx)) text

/-- Nothing is left of the current line: it cannot be erased. -/
theorem press_erase_nil (h : current ends text = []) : press ends text .erase = text := by
  have hall := finished_append_current ends text
  rw [press, h, List.dropLast_nil, List.append_nil]
  rw [h, List.append_nil] at hall
  exact hall

/-- **No key changes a finished line.** -/
theorem finished_press (text : List α) (k : Key α) :
    finished ends text <+: finished ends (press ends text k) := by
  cases k with
  | put c =>
    cases hc : ends c with
    | true =>
      rw [press, (concat_ends hc _).1]
      exact (finished_start text).trans (List.prefix_append _ _)
    | false =>
      rw [press, (concat_current hc _).1]
  | erase => rw [(press_erase text).1]
  | kill => rw [press, finished_finished]
  | drop => exact List.prefix_rfl

theorem finished_typeKeys (text : List α) (keys : List (Key α)) :
    finished ends text <+: finished ends (typeKeys ends text keys) := by
  induction keys generalizing text with
  | nil => exact List.prefix_rfl
  | cons k keys ih => exact (finished_press text k).trans (ih (press ends text k))

theorem finished_typeKeys_text (text : List α) (keys : List (Key α)) :
    finished ends text <+: typeKeys ends text keys :=
  (finished_typeKeys text keys).trans (finished_start _)

/-! ### What is typed and what is removed -/

def Mark.removal? : Mark α → Option α
  | .typed _ => none
  | .removed c => some c

/-- The removed characters. -/
def removals (ms : List (Mark α)) : List α := ms.filterMap Mark.removal?

/-- By how much a mark moves the position. -/
def Mark.moves (p q : α → ℤ) : Mark α → ℤ
  | .typed c => p c
  | .removed c => -q c

@[simp] theorem removals_nil : removals ([] : List (Mark α)) = [] := rfl

@[simp] theorem removals_typed (c : α) (ms : List (Mark α)) : removals (.typed c :: ms) = removals ms := rfl

@[simp] theorem removals_cons (c : α) (ms : List (Mark α)) :
    removals (.removed c :: ms) = c :: removals ms := rfl

theorem removals_append (ms ms' : List (Mark α)) :
    removals (ms ++ ms') = removals ms ++ removals ms' := List.filterMap_append

theorem removals_removed (cs : List α) : removals (cs.map Mark.removed) = cs := by
  induction cs with
  | nil => rfl
  | cons c cs ih => exact congrArg (c :: ·) ih

theorem moves_removed (p q : α → ℤ) (cs : List α) :
    ((cs.map Mark.removed).map (Mark.moves p q)).sum + (cs.map p).sum = (cs.map fun c => p c - q c).sum := by
  induction cs with
  | nil => rfl
  | cons c cs ih =>
    simp only [List.map_cons, List.sum_cons, Mark.moves] at ih ⊢
    omega

theorem sum_reverse_map (p : α → ℤ) (cs : List α) : (cs.reverse.map p).sum = (cs.map p).sum := by
  rw [List.map_reverse, List.sum_reverse]

/-- What one key does to the books. -/
theorem marks_balance (ends : α → Bool) (p q : α → ℤ) {k : Key α} (hk : ∀ c, k = .put c → ends c = false)
    (text : List α) :
    ((marks ends text k).map (Mark.moves p q)).sum + ((current ends text).map p).sum =
      ((current ends (press ends text k)).map p).sum +
        ((removals (marks ends text k)).map fun c => p c - q c).sum := by
  cases k with
  | put c =>
    rw [press, (concat_current (hk c rfl) text).2]
    simp [marks, Mark.moves, add_comm]
  | erase =>
    rw [(press_erase text).2, marks]
    rcases List.eq_nil_or_concat (current ends text) with h | ⟨l, c, h⟩
    · rw [h]
      rfl
    · rw [h, List.concat_eq_append, List.getLast?_concat, List.dropLast_concat]
      simp only [Option.map_some, Option.toList_some, List.map_cons, List.map_nil, List.sum_cons,
        List.sum_nil, Mark.moves, removals_cons, removals_nil, List.map_append, List.sum_append]
      omega
  | kill =>
    rw [press, current_finished, marks, removals_removed, ← sum_reverse_map p]
    rw [moves_removed]
    simp
  | drop =>
    rw [press, marks]
    simp

/-- **The books.** -/
theorem trail_balance (p q : α → ℤ) {keys : List (Key α)} (hkeys : ∀ c, .put c ∈ keys → ends c = false)
    (text : List α) :
    ((trail ends text keys).map (Mark.moves p q)).sum + ((current ends text).map p).sum =
      ((current ends (typeKeys ends text keys)).map p).sum +
        ((removals (trail ends text keys)).map fun c => p c - q c).sum := by
  induction keys generalizing text with
  | nil => simp [trail, typeKeys]
  | cons k keys ih =>
    have hfirst := marks_balance ends p q (fun c (hc : k = .put c) => hkeys c (hc ▸ List.mem_cons_self)) text
    have hrest := ih (fun c hc => hkeys c (List.mem_cons_of_mem _ hc)) (press ends text k)
    rw [trail, removals_append, List.map_append, List.map_append, List.sum_append, List.sum_append]
    show _ = ((current ends (typeKeys ends (press ends text k) keys)).map p).sum + _
    omega

/-- If every removed character takes away what it has added, the position is that of the line. -/
theorem trail_level {p q : α → ℤ} {keys : List (Key α)} (hkeys : ∀ c, .put c ∈ keys → ends c = false)
    (hsame : ∀ c ∈ removals (trail ends text keys), p c = q c) :
    ((trail ends text keys).map (Mark.moves p q)).sum =
      ((current ends (typeKeys ends text keys)).map p).sum - ((current ends text).map p).sum := by
  have hbal := trail_balance p q hkeys text
  have hzero : ((removals (trail ends text keys)).map fun c => p c - q c).sum = 0 := by
    have hmap : (removals (trail ends text keys)).map (fun c => p c - q c) =
        (removals (trail ends text keys)).map fun _ => 0 :=
      List.map_congr_left fun c hc => by rw [hsame c hc, sub_self]
    rw [hmap]
    simp
  omega

/-- A character that is removed has been in a line that was being typed. -/
theorem ends_of_mem_removals {keys : List (Key α)} (h : c ∈ removals (trail ends text keys)) :
    ends c = false := by
  induction keys generalizing text with
  | nil => cases h
  | cons k keys ih =>
    rw [trail, removals_append] at h
    rcases List.mem_append.1 h with h | h
    · cases k with
      | put x => cases h
      | drop => cases h
      | kill =>
        rw [marks, removals_removed] at h
        exact ends_of_mem_current (List.mem_reverse.1 h)
      | erase =>
        rw [marks] at h
        cases hlast : (current ends text).getLast? with
        | none =>
          rw [hlast] at h
          cases h
        | some x =>
          rw [hlast] at h
          obtain rfl : c = x := List.mem_singleton.1 h
          exact ends_of_mem_current (List.mem_of_getLast? hlast)
    · exact ih h

end OldLinux.Lib
