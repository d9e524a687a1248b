import OldLinux.Print.Number

/-!
# `vsprintf`

The format is read by one pointer, here the list of what it has not passed (without the closing NUL), and the
arguments by another, here the number of the next one.  The strings of `%s` do not change while they are
printed.
-/

namespace OldLinux.Print

/-- An argument on the stack, and the string at its address. -/
structure Arg where
  word : BitVec 32
  text : List Char

/-- The state of the loop. -/
structure Printer where
  /-- from `buf` to `str` -/
  out : List Char
  /-- the next argument -/
  ap : ℕ
  /-- the stores of `%n` -/
  stores : List (BitVec 32 × ℤ)

def is_digit (c : Char) : Bool := '0' ≤ c && c ≤ '9'

def skip_atoi : List Char → ℤ → ℤ × List Char
  | [], i => (i, [])
  | c :: s, i => if is_digit c then skip_atoi s (int (i * 10 + c.toNat - 48)) else (i, c :: s)

/-- The switch behind `repeat`. -/
def flag (c : Char) (flags : Flags) : Option Flags :=
  if c = '-' then some { flags with left := true }
  else if c = '+' then some { flags with plus := true }
  else if c = ' ' then some { flags with space := true }
  else if c = '#' then some { flags with special := true }
  else if c = '0' then some { flags with zeropad := true }
  else none

def read_flags : List Char → Flags → Flags × List Char
  | [], flags => (flags, [])
  | c :: fmt, flags =>
    match flag c flags with
    | some flags => read_flags fmt flags
    | none => (flags, c :: fmt)

/-- The field width and the flags, where `fmt` is then, and the next argument. -/
def read_width (args : ℕ → Arg) (fmt : List Char) (flags : Flags) (ap : ℕ) : ℤ × Flags × List Char × ℕ :=
  match fmt with
  | [] => (-1, flags, [], ap)
  | c :: rest =>
    if is_digit c then
      let (field_width, fmt) := skip_atoi (c :: rest) 0
      (field_width, flags, fmt, ap)
    else if c = '*' then
      -- `fmt` stays at the star
      let field_width := (args ap).word.toInt
      if field_width < 0 then (int (-field_width), { flags with left := true }, c :: rest, ap + 1)
      else (field_width, flags, c :: rest, ap + 1)
    else (-1, flags, c :: rest, ap)

/-- What follows the `.` of a precision. -/
def after_point (args : ℕ → Arg) (fmt : List Char) (ap : ℕ) : ℤ × List Char × ℕ :=
  match fmt with
  | [] => (-1, [], ap)
  | c :: rest =>
    if is_digit c then
      let (precision, fmt) := skip_atoi (c :: rest) 0
      (precision, fmt, ap)
    else if c = '*' then
      -- and here
      ((args ap).word.toInt, c :: rest, ap + 1)
    else (-1, c :: rest, ap)

def read_precision (args : ℕ → Arg) (fmt : List Char) (ap : ℕ) : ℤ × List Char × ℕ :=
  match fmt with
  | [] => (-1, [], ap)
  | c :: rest =>
    if c = '.' then
      let (precision, fmt, ap) := after_point args rest ap
      (if precision < 0 then 0 else precision, fmt, ap)
    else (-1, c :: rest, ap)

def read_qualifier : List Char → List Char
  | [] => []
  | c :: fmt => if c = 'h' ∨ c = 'l' ∨ c = 'L' then fmt else c :: fmt

/-- `while (--n > 0) *str++ = ' ';` with `n` decremented for the first time. -/
def pad_char (n : ℤ) : List Char × ℤ :=
  if 0 < n then
    let (out, n) := pad_char (n - 1)
    (' ' :: out, n)
  else ([], n)
termination_by n.toNat

/-- The text of `%c`. -/
def put_char (c : Char) (flags : Flags) (field_width : ℤ) : List Char :=
  let (before, field_width) := if !flags.left then pad_char (int (field_width - 1)) else ([], field_width)
  let (after, _) := pad_char (int (field_width - 1))
  before ++ [c] ++ after

/-- The text of `%s`. -/
def put_string (s : List Char) (flags : Flags) (field_width precision : ℤ) : List Char :=
  let len : ℤ := s.length
  let len := if precision < 0 then len else if precision < len then precision else len
  let (before, field_width) := if !flags.left then pad ' ' len field_width else ([], field_width)
  let (after, _) := pad ' ' len field_width
  before ++ s.take len.toNat ++ after

/-- `str = number(str, va_arg(args, unsigned long), …)`. -/
def put_arg (args : ℕ → Arg) (base : ℕ) (field_width precision : ℤ) (flags : Flags) (s : Printer) :
    Except Fault Printer :=
  match number (args s.ap).word base field_width precision flags with
  | .error e => .error e
  | .ok text => .ok { s with out := s.out ++ text, ap := s.ap + 1 }

/-- The switch on the conversion character. -/
def convert (args : ℕ → Arg) (c : Char) (flags : Flags) (field_width precision : ℤ) (s : Printer) :
    Except Fault Printer :=
  if c = 'c' then
    let ch := Char.ofNat ((args s.ap).word.toNat % 256)
    .ok { s with out := s.out ++ put_char ch flags field_width, ap := s.ap + 1 }
  else if c = 's' then
    .ok { s with out := s.out ++ put_string (args s.ap).text flags field_width precision, ap := s.ap + 1 }
  else if c = 'o' then put_arg args 8 field_width precision flags s
  else if c = 'p' then
    if field_width = -1 then put_arg args 16 8 precision { flags with zeropad := true } s
    else put_arg args 16 field_width precision flags s
  else if c = 'x' then put_arg args 16 field_width precision { flags with small := true } s
  else if c = 'X' then put_arg args 16 field_width precision flags s
  else if c = 'd' ∨ c = 'i' then put_arg args 10 field_width precision { flags with sign := true } s
  else if c = 'u' then put_arg args 10 field_width precision flags s
  else if c = 'n' then
    .ok { s with ap := s.ap + 1, stores := s.stores ++ [((args s.ap).word, (s.out.length : ℤ))] }
  else .ok { s with out := s.out ++ (if c ≠ '%' then ['%'] else []) ++ [c] }

/-- A conversion, with `fmt` behind its `%`; at the end of the format `fmt` is taken back. -/
def conversion (args : ℕ → Arg) (fmt : List Char) (s : Printer) : Except Fault (List Char × Printer) :=
  let (flags, fmt) := read_flags fmt ⟨false, false, false, false, false, false, false⟩
  let (field_width, flags, fmt, ap) := read_width args fmt flags s.ap
  let (precision, fmt, ap) := read_precision args fmt ap
  match read_qualifier fmt with
  | [] => .ok ([], { s with out := s.out ++ ['%'], ap := ap })
  | c :: fmt =>
    match convert args c flags field_width precision { s with ap := ap } with
    | .error e => .error e
    | .ok s => .ok (fmt, s)

variable {args : ℕ → Arg} {fmt rest : List Char} {flags flags' : Flags} {c : Char} {ap ap' : ℕ} {i w : ℤ}
  {s s' : Printer}

/-! ### What the pointer passes -/

/-- `fmt` has moved on to `rest`, and passed no star. -/
def Passes (fmt rest : List Char) : Prop := ∃ taken, fmt = taken ++ rest ∧ '*' ∉ taken

theorem Passes.refl (fmt : List Char) : Passes fmt fmt := ⟨[], rfl, List.not_mem_nil⟩

theorem Passes.cons (hc : c ≠ '*') (h : Passes fmt rest) : Passes (c :: fmt) rest := by
  obtain ⟨taken, rfl, htaken⟩ := h
  exact ⟨c :: taken, rfl, List.not_mem_cons_of_ne_of_not_mem hc.symm htaken⟩

theorem Passes.trans {middle : List Char} (h : Passes fmt middle) (h' : Passes middle rest) :
    Passes fmt rest := by
  obtain ⟨taken, rfl, htaken⟩ := h
  obtain ⟨taken', rfl, htaken'⟩ := h'
  exact ⟨taken ++ taken', (List.append_assoc _ _ _).symm, by
    rw [List.mem_append]; exact not_or.mpr ⟨htaken, htaken'⟩⟩

theorem Passes.length (h : Passes fmt rest) : rest.length ≤ fmt.length := by
  obtain ⟨taken, rfl, -⟩ := h
  rw [List.length_append]
  exact Nat.le_add_left _ _

theorem Passes.count (h : Passes fmt rest) : fmt.count '*' = rest.count '*' := by
  obtain ⟨taken, rfl, htaken⟩ := h
  rw [List.count_append, List.count_eq_zero.mpr htaken, zero_add]

theorem is_digit_ne_star (h : is_digit c = true) : c ≠ '*' := by
  rintro rfl
  exact absurd h (by decide)

theorem skip_atoi_passes : Passes fmt (skip_atoi fmt i).2 := by
  induction fmt generalizing i with
  | nil => exact Passes.refl _
  | cons c fmt ih =>
    rw [skip_atoi]
    split
    · rename_i hdigit
      exact ih.cons (is_digit_ne_star hdigit)
    · exact Passes.refl _

theorem flag_ne_star (h : flag c flags = some flags') : c ≠ '*' := by
  rintro rfl
  cases h

theorem read_flags_passes : Passes fmt (read_flags fmt flags).2 := by
  induction fmt generalizing flags with
  | nil => exact Passes.refl _
  | cons c fmt ih =>
    rw [read_flags]
    split
    · rename_i hflag
      exact ih.cons (flag_ne_star hflag)
    · exact Passes.refl _

theorem read_width_passes : Passes fmt (read_width args fmt flags ap).2.2.1 := by
  unfold read_width
  cases fmt with
  | nil => exact Passes.refl _
  | cons c rest =>
    simp only
    split_ifs
    · exact skip_atoi_passes
    · exact Passes.refl _
    · exact Passes.refl _
    · exact Passes.refl _

theorem after_point_passes : Passes fmt (after_point args fmt ap).2.1 := by
  unfold after_point
  cases fmt with
  | nil => exact Passes.refl _
  | cons c rest =>
    simp only
    split_ifs
    · exact skip_atoi_passes
    · exact Passes.refl _
    · exact Passes.refl _

theorem read_precision_passes : Passes fmt (read_precision args fmt ap).2.1 := by
  unfold read_precision
  cases fmt with
  | nil => exact Passes.refl _
  | cons c rest =>
    simp only
    by_cases hpoint : c = '.'
    · rw [if_pos hpoint]
      exact after_point_passes.cons (by rw [hpoint]; decide)
    · rw [if_neg hpoint]
      exact Passes.refl _

theorem read_qualifier_passes : Passes fmt (read_qualifier fmt) := by
  unfold read_qualifier
  cases fmt with
  | nil => exact Passes.refl _
  | cons c rest =>
    simp only
    split
    · rename_i hqualifier
      refine (Passes.refl rest).cons ?_
      rintro rfl
      exact absurd hqualifier (by decide)
    · exact Passes.refl _

/-- A conversion is read up to its character, which it takes, or up to the end of the format. -/
theorem conversion_cases (args : ℕ → Arg) (fmt : List Char) (s : Printer) : ∃ flags field_width precision ap,
      (Passes fmt [] ∧ conversion args fmt s = .ok ([], { s with out := s.out ++ ['%'], ap := ap })) ∨
      ∃ c rest, Passes fmt (c :: rest) ∧ conversion args fmt s =
        match convert args c flags field_width precision { s with ap := ap } with
        | .error e => .error e
        | .ok s => .ok (rest, s) := by
  rw [conversion]
  generalize hflags : read_flags fmt ⟨false, false, false, false, false, false, false⟩ = f
  generalize hwidth : read_width args f.2 f.1 s.ap = w
  generalize hprecision : read_precision args w.2.2.1 w.2.2.2 = p
  have hpasses : Passes fmt (read_qualifier p.2.1) := by
    refine Passes.trans ?_ read_qualifier_passes
    rw [← hprecision]
    refine Passes.trans ?_ read_precision_passes
    rw [← hwidth]
    refine Passes.trans ?_ read_width_passes
    rw [← hflags]
    exact read_flags_passes
  simp only [hwidth, hprecision]
  cases hmore : read_qualifier p.2.1 with
  | nil =>
    rw [hmore] at hpasses
    exact ⟨f.1, 0, 0, p.2.2, Or.inl ⟨hpasses, rfl⟩⟩
  | cons c rest =>
    rw [hmore] at hpasses
    exact ⟨w.2.1, w.1, p.1, p.2.2, Or.inr ⟨c, rest, hpasses, rfl⟩⟩

theorem conversion_length (h : conversion args fmt s = .ok (rest, s')) : rest.length ≤ fmt.length := by
  obtain ⟨_, _, _, _, ⟨-, heq⟩ | ⟨c, rest', hpasses, heq⟩⟩ := conversion_cases args fmt s
  · rw [heq] at h
    cases h
    exact Nat.zero_le _
  · rw [heq] at h
    split at h
    · cases h
    · cases h
      exact le_trans (Nat.le_succ _) hpasses.length

/-- The loop over the format. -/
def print (args : ℕ → Arg) (fmt : List Char) (s : Printer) : Except Fault Printer :=
  match fmt with
  | [] => .ok s
  | c :: fmt =>
    if c ≠ '%' then print args fmt { s with out := s.out ++ [c] }
    else
      match _h : conversion args fmt s with
      | .error e => .error e
      | .ok (rest, s) => print args rest s
termination_by fmt.length
decreasing_by
  · exact Nat.lt_succ_self _
  · exact Nat.lt_succ_of_le (conversion_length _h)

/-- What is in `buf` in the end, what is returned, and the stores of `%n`. -/
def vsprintf (fmt : List Char) (args : ℕ → Arg) : Except Fault (List Char × ℤ × List (BitVec 32 × ℤ)) :=
  match print args fmt ⟨[], 0, []⟩ with
  | .error e => .error e
  | .ok s => .ok (s.out, (s.out.length : ℤ), s.stores)

end OldLinux.Print
