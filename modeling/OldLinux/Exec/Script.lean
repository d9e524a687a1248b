import OldLinux.Exec.Machine
import OldLinux.Lib.CStrings

/-!
# The first line of a script

What `parse` takes from the line is what one would say of its text: the blanks before the interpreter's
name are skipped, the first argument is the last component of that name, and what follows the blank
after it is the second one.
-/

namespace OldLinux.Exec

open Function Lib

variable {b data m m' : Space} {a c n cp : ℕ} {s text : List ℕ} {line : Line}

/-! ### What the line says -/

/-- The bytes from `a` to the end of the line, without zeros. -/
def LineAt (m : Space) (a : ℕ) : List ℕ → Prop
  | [] => m a = 10
  | c :: s => c ≠ 0 ∧ c ≠ 10 ∧ m a = c ∧ LineAt m (a + 1) s

/-- What comes after the last slash. -/
def lastComponent : List ℕ → List ℕ
  | [] => []
  | c :: s => if 47 ∈ s then lastComponent s else if c = 47 then s else c :: s

/-- The line from the interpreter's name on, and the name. -/
def command (text : List ℕ) : List ℕ := text.dropWhile blank

def interpreter (text : List ℕ) : List ℕ := (command text).takeWhile fun c => !blank c

/-- The arguments that come from the line. -/
def lineArgs (text : List ℕ) : List (List ℕ) :=
  lastComponent (interpreter text) :: match (command text).dropWhile fun c => !blank c with
    | [] => []
    | _ :: arg => [arg]

theorem LineAt.ne_zero (h : LineAt m a s) {i : ℕ} (hi : i ≤ s.length) : m (a + i) ≠ 0 := by
  induction s generalizing a i with
  | nil =>
    obtain rfl : i = 0 := by simpa using hi
    rw [Nat.add_zero, show m a = 10 from h]
    decide
  | cons c s ih =>
    cases i with
    | zero =>
      rw [Nat.add_zero, h.2.2.1]
      exact h.1
    | succ i =>
      have hnext := ih h.2.2.2 (Nat.le_of_succ_le_succ hi)
      rwa [Nat.add_right_comm, Nat.add_assoc] at hnext

theorem LineAt.unique {t : List ℕ} (h : LineAt m a s) (h' : LineAt m a t) : s = t := by
  induction s generalizing a t with
  | nil =>
    cases t with
    | nil => rfl
    | cons c t => exact absurd (h'.2.2.1.symm.trans h) h'.2.1
  | cons c s ih =>
    cases t with
    | nil => exact absurd (h.2.2.1.symm.trans h') h.2.1
    | cons e t => rw [← h.2.2.1, ← h'.2.2.1, ih h.2.2.2 h'.2.2.2]

theorem LineAt.moved {a' : ℕ} (h : LineAt m a s) (heq : ∀ i ≤ s.length, m' (a' + i) = m (a + i)) :
    LineAt m' a' s := by
  induction s generalizing a a' with
  | nil => exact (heq 0 (Nat.le_refl 0)).trans h
  | cons c s ih =>
    refine ⟨h.1, h.2.1, (heq 0 (Nat.zero_le _)).trans h.2.2.1, ih h.2.2.2 fun i hi => ?_⟩
    have hnext := heq (i + 1) (Nat.succ_le_succ hi)
    rwa [← Nat.add_assoc, ← Nat.add_assoc, Nat.add_right_comm a', Nat.add_right_comm a] at hnext

/-- The end of the line becomes the end of a string. -/
theorem LineAt.cstring (h : LineAt m a s) (hin : ∀ i < s.length, m' (a + i) = m (a + i))
    (hzero : m' (a + s.length) = 0) : CString m' a s := by
  induction s generalizing a with
  | nil => exact hzero
  | cons c s ih =>
    rw [List.length_cons] at hin hzero
    refine ⟨h.1, (hin 0 (Nat.succ_pos _)).trans h.2.2.1, ih h.2.2.2 (fun i hi => ?_) ?_⟩
    · have hnext := hin (i + 1) (by omega)
      rwa [← Nat.add_assoc, Nat.add_right_comm] at hnext
    · rwa [← Nat.add_assoc, Nat.add_right_comm] at hzero

/-! ### The loops -/

theorem strncpy_of_ne (h : strncpy b n ≠ 0) : strncpy b n = b n := by
  rw [strncpy] at h ⊢
  split_ifs at h ⊢ with hzero
  · exact absurd rfl h
  · rfl

theorem strchr_spec (h : strchr b 10 n a = some cp) :
    ∃ text, LineAt b a text ∧ cp = a + text.length ∧ text.length < n := by
  induction n generalizing a with
  | zero => cases h
  | succ n ih =>
    rw [strchr] at h
    split_ifs at h with hend hzero
    · cases h
      exact ⟨[], hend, rfl, Nat.succ_pos n⟩
    · obtain ⟨text, htext, hcp, hlt⟩ := ih h
      refine ⟨b a :: text, ⟨hzero, hend, rfl, htext⟩, ?_, ?_⟩
      · rw [hcp, List.length_cons]
        omega
      · rw [List.length_cons]
        omega

theorem skip_blanks_spec (h : CString b cp s) (hn : s.length < n) :
    CString b (skip_blanks b n cp) (s.dropWhile blank) ∧
      skip_blanks b n cp + (s.dropWhile blank).length = cp + s.length := by
  induction n generalizing cp s with
  | zero => omega
  | succ n ih =>
    rw [skip_blanks]
    cases s with
    | nil =>
      have hzero : b cp = 0 := h
      rw [hzero, if_neg (by decide)]
      exact ⟨h, rfl⟩
    | cons c s =>
      rw [h.2.1, List.dropWhile_cons]
      split_ifs with hblank
      · obtain ⟨h1, h2⟩ := ih h.2.2 (Nat.lt_of_succ_lt_succ hn)
        refine ⟨h1, ?_⟩
        rw [h2, List.length_cons]
        omega
      · exact ⟨h, rfl⟩

theorem find_name_spec (i_name : ℕ) (h : CString b cp s) (hn : s.length < n) :
    (find_name b n cp i_name).1 = cp + (s.takeWhile fun c => !blank c).length ∧
      (find_name b n cp i_name).2 = if 47 ∈ s.takeWhile fun c => !blank c
        then cp + (s.takeWhile fun c => !blank c).length
          - (lastComponent (s.takeWhile fun c => !blank c)).length
        else i_name := by
  induction n generalizing cp i_name s with
  | zero => omega
  | succ n ih =>
    rw [find_name]
    cases s with
    | nil =>
      have hzero : b cp = 0 := h
      rw [hzero, if_neg (fun h => h.1 rfl)]
      exact ⟨rfl, rfl⟩
    | cons c s =>
      rw [h.2.1, List.takeWhile_cons]
      cases hblank : blank c with
      | true =>
        rw [if_neg (by simp)]
        exact ⟨rfl, rfl⟩
      | false =>
        rw [if_pos ⟨h.1, rfl⟩]
        obtain ⟨h1, h2⟩ := ih (if c = 47 then cp + 1 else i_name) h.2.2 (Nat.lt_of_succ_lt_succ hn)
        rw [h1, h2]
        simp only [Bool.not_false, if_true, List.length_cons, List.mem_cons, lastComponent]
        refine ⟨by omega, ?_⟩
        by_cases hmem : 47 ∈ s.takeWhile fun c => !blank c
        · rw [if_pos hmem, if_pos (.inr hmem), if_pos hmem]
          omega
        · rw [if_neg hmem, if_neg hmem]
          by_cases hc : c = 47
          · rw [if_pos hc, if_pos (.inl hc.symm), if_pos hc]
            omega
          · rw [if_neg hc, if_neg (by rintro (h | h) <;> simp_all)]

theorem lastComponent_suffix (s : List ℕ) : ∃ t, s = t ++ lastComponent s := by
  induction s with
  | nil => exact ⟨[], rfl⟩
  | cons c s ih =>
    rw [lastComponent]
    split_ifs
    · obtain ⟨t, ht⟩ := ih
      exact ⟨c :: t, congrArg (c :: ·) ht⟩
    · exact ⟨[c], rfl⟩
    · exact ⟨[], rfl⟩

theorem lastComponent_of_not_mem (h : 47 ∉ s) : lastComponent s = s := by
  cases s with
  | nil => rfl
  | cons c s =>
    rw [List.mem_cons, not_or] at h
    rw [lastComponent, if_neg h.2, if_neg (Ne.symm h.1)]

theorem lineArgs_short (h : s ∈ lineArgs text) : s.length ≤ text.length := by
  have hcommand : (command text).length ≤ text.length := (List.dropWhile_sublist _).length_le
  rw [lineArgs, List.mem_cons] at h
  rcases h with rfl | h
  · obtain ⟨t, ht⟩ := lastComponent_suffix (interpreter text)
    have hlen := congrArg List.length ht
    rw [List.length_append] at hlen
    have hname : (interpreter text).length ≤ (command text).length := (List.takeWhile_sublist _).length_le
    omega
  · cases hcase : (command text).dropWhile fun c => !blank c with
    | nil =>
      rw [hcase] at h
      cases h
    | cons c arg =>
      rw [hcase, List.mem_singleton] at h
      have hlen := congrArg List.length hcase
      rw [List.length_cons] at hlen
      have hdrop := (List.dropWhile_sublist (fun c => !blank c) (l := command text)).length_le
      rw [h]
      omega

/-! ### The line -/

/-- What a script gives: the interpreter's name and its argument are strings of the buffer. -/
structure Parsed (data : Space) (line : Line) (text : List ℕ) : Prop where
  line_at : LineAt data 2 text
  short : text.length < 1022
  name : CString line.buf line.i_name (lastComponent (interpreter text))
  arg : ∀ a, line.i_arg = some a →
    ∃ arg, CString line.buf a arg ∧ lineArgs text = [lastComponent (interpreter text), arg]
  no_arg : line.i_arg = none → lineArgs text = [lastComponent (interpreter text)]

/-- The text of the line, and its copy in the buffer with a zero at its end. -/
theorem line_text (h : strchr (update (strncpy fun i => data (i + 2)) 1022 0) 10 1023 0 = some cp) :
    ∃ text, LineAt data 2 text ∧ cp = text.length ∧ text.length < 1022 ∧
      CString (update (update (strncpy fun i => data (i + 2)) 1022 0) cp 0) 0 text := by
  obtain ⟨text, htext, hcp, hlt⟩ := strchr_spec h
  rw [Nat.zero_add] at hcp
  have hne : text.length ≠ 1022 := by
    intro heq
    refine htext.ne_zero (Nat.le_refl _) ?_
    rw [Nat.zero_add, heq, update_self]
  refine ⟨text, htext.moved fun i hi => ?_, hcp, by omega, htext.cstring (fun i hi => ?_) ?_⟩
  · have hzero := htext.ne_zero hi
    rw [Nat.zero_add, update_of_ne (by omega)] at hzero ⊢
    rw [strncpy_of_ne hzero, Nat.add_comm]
  · exact update_of_ne (by omega) ..
  · rw [Nat.zero_add, hcp, update_self]

/-- The interpreter's name ends where the loop stops, and its last component begins at `i_name`. -/
theorem name_string (h : CString b cp s) (hn : s.length < n)
    (hin : ∀ i < (s.takeWhile fun c => !blank c).length, m (cp + i) = b (cp + i))
    (hzero : m (find_name b n cp cp).1 = 0) :
    CString m (find_name b n cp cp).2 (lastComponent (s.takeWhile fun c => !blank c)) := by
  obtain ⟨h1, h2⟩ := find_name_spec cp h hn
  rw [← List.takeWhile_append_dropWhile (p := fun c => !blank c) (l := s)] at h
  rw [h1] at hzero
  have hname := h.cut hin hzero
  obtain ⟨t, ht⟩ := lastComponent_suffix (s.takeWhile fun c => !blank c)
  have hlen := congrArg List.length ht
  rw [List.length_append] at hlen
  have hplace : (find_name b n cp cp).2 = cp + t.length := by
    rw [h2]
    split_ifs with hslash
    · omega
    · rw [lastComponent_of_not_mem hslash] at hlen
      omega
  rw [hplace]
  exact CString.suffix (ht ▸ hname)

theorem parse_spec (h : parse data = some line) : ∃ text, Parsed data line text := by
  rw [parse] at h
  split at h
  · cases h
  · rename_i cp hcp
    obtain ⟨text, htext, hlen, hlt, hstring⟩ := line_text hcp
    refine ⟨text, ?_⟩
    dsimp only at h
    generalize update (update (strncpy fun i => data (i + 2)) 1022 0) cp 0 = b at h hstring
    obtain ⟨hcommand, hend⟩ := skip_blanks_spec hstring (n := 1023) (by omega)
    generalize skip_blanks b 1023 0 = interp at h hcommand hend
    replace hcommand : CString b interp (command text) := hcommand
    have hshort : (command text).length < 1023 := by
      rw [command]
      omega
    obtain ⟨h1, -⟩ := find_name_spec interp hcommand hshort
    have hrest : CString b (find_name b 1023 interp interp).1 ((command text).dropWhile fun c => !blank c) := by
      rw [h1]
      refine CString.suffix ?_
      rwa [List.takeWhile_append_dropWhile]
    split_ifs at h with hempty hblank
    · cases h
      refine ⟨htext, hlt, ?_, fun a ha => ?_, fun hnone => by cases hnone⟩
      · refine name_string hcommand hshort (fun i hi => update_of_ne ?_ ..) (update_self ..)
        rw [h1]
        omega
      · cases ha
        cases hcase : (command text).dropWhile fun c => !blank c with
        | nil =>
          rw [hcase] at hrest
          exact absurd hrest hblank
        | cons c arg =>
          rw [hcase] at hrest
          refine ⟨arg, hrest.2.2.congr fun a ha _ => update_of_ne (by omega) .., ?_⟩
          rw [lineArgs, hcase]
    · cases h
      rw [not_not] at hblank
      refine ⟨htext, hlt, name_string hcommand hshort (fun _ _ => rfl) hblank,
        (fun a ha => by cases ha), fun _ => ?_⟩
      cases hcase : (command text).dropWhile fun c => !blank c with
      | nil => rw [lineArgs, hcase]
      | cons c arg =>
        rw [hcase] at hrest
        exact absurd (hrest.2.1.symm.trans hblank) hrest.1

end OldLinux.Exec
