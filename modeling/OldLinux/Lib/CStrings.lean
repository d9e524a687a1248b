import OldLinux.Lib.Numerals
import Mathlib.Algebra.BigOperators.Group.List.Basic

/-!
# Strings in a memory

Strings that end with a zero, one after the other in a memory of bytes, and tables of pointers to them.
A string does not contain a zero, so that what is at an address is one string at most.
-/

namespace OldLinux.Lib

variable {m m' : ℕ → ℕ} {a b p : ℕ} {s t : List ℕ} {ss ts : List (List ℕ)} {ptr : ℕ → ℕ}

/-! ### One string -/

/-- The string `s` is at `a`, with the zero after it. -/
def CString (m : ℕ → ℕ) (a : ℕ) : List ℕ → Prop
  | [] => m a = 0
  | c :: s => c ≠ 0 ∧ m a = c ∧ CString m (a + 1) s

theorem CString.unique (h : CString m a s) (h' : CString m a t) : s = t := by
  induction s generalizing a t with
  | nil =>
    cases t with
    | nil => rfl
    | cons c t => exact absurd (h'.2.1.symm.trans h) h'.1
  | cons c s ih =>
    cases t with
    | nil => exact absurd (h.2.1.symm.trans h') h.1
    | cons e t => rw [← h.2.1, ← h'.2.1, ih h.2.2 h'.2.2]

/-- The string is also in a memory that agrees on its bytes, wherever it is there. -/
theorem CString.moved (h : CString m a s) (heq : ∀ i ≤ s.length, m' (b + i) = m (a + i)) : CString m' b s := by
  induction s generalizing a b with
  | nil => exact (heq 0 (Nat.le_refl 0)).trans h
  | cons c s ih =>
    refine ⟨h.1, (heq 0 (Nat.zero_le _)).trans h.2.1, ih h.2.2 fun i hi => ?_⟩
    have hnext := heq (i + 1) (Nat.succ_le_succ hi)
    rwa [← Nat.add_assoc, ← Nat.add_assoc, Nat.add_right_comm b, Nat.add_right_comm a] at hnext

theorem CString.congr (h : CString m a s) (heq : ∀ b, a ≤ b → b ≤ a + s.length → m' b = m b) : CString m' a s :=
  h.moved fun i hi => heq (a + i) (Nat.le_add_right a i) (Nat.add_le_add_left hi a)

theorem CString.suffix (h : CString m a (s ++ t)) : CString m (a + s.length) t := by
  induction s generalizing a with
  | nil => exact h
  | cons c s ih =>
    rw [List.length_cons, ← Nat.add_assoc, Nat.add_right_comm]
    exact ih h.2.2

/-- The string ends at a zero that is stored in it. -/
theorem CString.cut (h : CString m a (s ++ t)) (hin : ∀ i < s.length, m' (a + i) = m (a + i))
    (hzero : m' (a + s.length) = 0) : CString m' a s := by
  induction s generalizing a with
  | nil => exact hzero
  | cons c s ih =>
    rw [List.length_cons] at hin hzero
    refine ⟨h.1, (hin 0 (Nat.succ_pos _)).trans h.2.1, ih h.2.2 (fun i hi => ?_) ?_⟩
    · have hnext := hin (i + 1) (by omega)
      rwa [← Nat.add_assoc, Nat.add_right_comm] at hnext
    · rwa [← Nat.add_assoc, Nat.add_right_comm] at hzero

/-- What is there up to a zero is a string. -/
theorem CString.exists (n : ℕ) (hne : ∀ i < n, m (a + i) ≠ 0) (hzero : m (a + n) = 0) :
    ∃ s, s.length = n ∧ CString m a s := by
  induction n generalizing a with
  | zero => exact ⟨[], rfl, hzero⟩
  | succ n ih =>
    have hrest := ih (a := a + 1) (fun i hi => ?_) ?_
    · obtain ⟨s, hlen, hs⟩ := hrest
      exact ⟨m a :: s, by rw [List.length_cons, hlen], hne 0 (Nat.succ_pos n), rfl, hs⟩
    · have h := hne (i + 1) (by omega)
      rwa [show a + (i + 1) = a + 1 + i from by omega] at h
    · rwa [show a + (n + 1) = a + 1 + n from by omega] at hzero

/-! ### Strings one after the other -/

/-- The bytes of the strings with their zeros. -/
def size (ss : List (List ℕ)) : ℕ := (ss.map fun s => s.length + 1).sum

@[simp]
theorem size_nil : size [] = 0 := rfl

@[simp]
theorem size_cons : size (s :: ss) = s.length + 1 + size ss := List.sum_cons

@[simp]
theorem size_append : size (ss ++ ts) = size ss + size ts := by
  induction ss with
  | nil => simp
  | cons s ss ih => simp [ih, Nat.add_assoc]

/-- The strings are there from `p` on. -/
def Holds (m : ℕ → ℕ) (p : ℕ) : List (List ℕ) → Prop
  | [] => True
  | s :: ss => CString m p s ∧ Holds m (p + s.length + 1) ss

theorem Holds.append : Holds m p (ss ++ ts) ↔ Holds m p ss ∧ Holds m (p + size ss) ts := by
  induction ss generalizing p with
  | nil => simp [Holds]
  | cons s ss ih => simp [Holds, ih, and_assoc, Nat.add_assoc]

theorem Holds.moved {q : ℕ} (h : Holds m p ss) (heq : ∀ i < size ss, m' (q + i) = m (p + i)) :
    Holds m' q ss := by
  induction ss generalizing p q with
  | nil => trivial
  | cons s ss ih =>
    rw [size_cons] at heq
    refine ⟨h.1.moved fun i hi => heq i (by omega), ih h.2 fun i hi => ?_⟩
    have hnext := heq (s.length + 1 + i) (by omega)
    rwa [← Nat.add_assoc, ← Nat.add_assoc, ← Nat.add_assoc, ← Nat.add_assoc] at hnext

theorem Holds.congr (h : Holds m p ss) (heq : ∀ b, p ≤ b → b < p + size ss → m' b = m b) : Holds m' p ss :=
  h.moved fun i hi => heq (p + i) (Nat.le_add_right p i) (Nat.add_lt_add_left hi p)

/-! ### Pointers to strings -/

/-- The long at an address. -/
def long (m : ℕ → ℕ) (a : ℕ) : ℕ := m a + 256 * m (a + 1) + 65536 * m (a + 2) + 16777216 * m (a + 3)

/-- The pointers are not null and point to the strings. -/
def Strings (m ptr : ℕ → ℕ) (ss : List (List ℕ)) : Prop :=
  ∀ i s, ss[i]? = some s → ptr i ≠ 0 ∧ CString m (ptr i) s

theorem Strings.nil : Strings m ptr [] := fun i s h => by simp at h

theorem Strings.snoc :
    Strings m ptr (ss ++ [s]) ↔ Strings m ptr ss ∧ ptr ss.length ≠ 0 ∧ CString m (ptr ss.length) s := by
  constructor
  · intro h
    refine ⟨fun i t ht => h i t ?_, h ss.length s (by simp)⟩
    rw [List.getElem?_append_left (List.getElem?_eq_some_iff.1 ht).1]
    exact ht
  · rintro ⟨h, hs⟩ i t ht
    rcases Nat.lt_or_ge i ss.length with hlt | hge
    · rw [List.getElem?_append_left hlt] at ht
      exact h i t ht
    · rw [List.getElem?_append_right hge] at ht
      obtain ⟨hi, rfl⟩ := List.getElem?_eq_some_iff.1 ht
      rw [List.length_singleton] at hi
      obtain rfl : i = ss.length := by omega
      simpa using hs

/-- The last string is the one that its pointer shows. -/
theorem Strings.last {n : ℕ} (h : Strings m ptr ss) (hlen : ss.length = n + 1) (hs : CString m (ptr n) s) :
    ∃ ts, ss = ts ++ [s] ∧ ts.length = n ∧ Strings m ptr ts := by
  rcases List.eq_nil_or_concat ss with rfl | ⟨ts, t, rfl⟩
  · cases hlen
  · rw [List.concat_eq_append] at h hlen ⊢
    obtain ⟨hts, -, ht⟩ := Strings.snoc.1 h
    have hn : ts.length = n := by simpa using hlen
    rw [hn] at ht
    rw [ht.unique hs]
    exact ⟨ts, rfl, hn, hts⟩

theorem Strings.cons :
    Strings m ptr (s :: ss) ↔ (ptr 0 ≠ 0 ∧ CString m (ptr 0) s) ∧ Strings m (fun i => ptr (i + 1)) ss := by
  constructor
  · intro h
    exact ⟨h 0 s rfl, fun i t ht => h (i + 1) t ht⟩
  · rintro ⟨hs, h⟩ i t ht
    cases i with
    | zero =>
      cases ht
      exact hs
    | succ i => exact h i t ht

theorem Strings.unique (h : Strings m ptr ss) (h' : Strings m ptr ts) (hlen : ss.length = ts.length) :
    ss = ts := by
  induction ss generalizing ts ptr with
  | nil => exact (List.length_eq_zero_iff.1 hlen.symm).symm
  | cons s ss ih =>
    cases ts with
    | nil => cases hlen
    | cons t ts =>
      obtain ⟨⟨-, hs⟩, hss⟩ := Strings.cons.1 h
      obtain ⟨⟨-, ht⟩, hts⟩ := Strings.cons.1 h'
      rw [hs.unique ht, ih hss hts (Nat.succ.inj hlen)]

theorem Strings.one {v : ℕ} (hv : v ≠ 0) (hs : CString m v s) : Strings m (fun _ => v) [s] := by
  intro i t ht
  obtain ⟨hlt, rfl⟩ := List.getElem?_eq_some_iff.1 ht
  rw [List.getElem_singleton]
  exact ⟨hv, hs⟩

theorem Strings.single {v : ℕ} (h : Strings m (fun _ => v) ss) (hlen : ss.length = 1) :
    ∃ s, ss = [s] ∧ CString m v s := by
  obtain ⟨s, rfl⟩ := List.length_eq_one_iff.1 hlen
  exact ⟨s, rfl, (h 0 s rfl).2⟩

theorem Strings.tail (h : Strings m ptr ss) : Strings m (fun i => ptr (i + 1)) ss.tail := by
  cases ss with
  | nil => exact Strings.nil
  | cons s ss => exact (Strings.cons.1 h).2

/-- A table of pointers to the strings, with a null pointer at its end. -/
def Table (m : ℕ → ℕ) (a : ℕ) (ss : List (List ℕ)) : Prop :=
  Strings m (fun i => long m (a + 4 * i)) ss ∧ long m (a + 4 * ss.length) = 0

end OldLinux.Lib
