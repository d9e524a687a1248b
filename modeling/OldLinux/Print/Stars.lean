import OldLinux.Print.Format

/-!
# A starred width or precision

After `va_arg` the pointer of `vsprintf` is still at the `*`, which is then taken for the conversion character
and printed.  So every `*` of a format is printed, and a literal width or precision never is.
-/

namespace OldLinux.Print

variable {args : ℕ → Arg} {fmt rest : List Char} {flags : Flags} {c x : Char} {s s' : Printer}
  {num : BitVec 32} {base : ℕ} {len n size precision field_width : ℤ}

/-- No `*` comes from the argument. -/
def Arg.Plain (a : Arg) : Prop := '*' ∉ a.text ∧ Char.ofNat (a.word.toNat % 256) ≠ '*'

/-! ### The characters of a number -/

theorem mem_pad (hx : x ∈ (pad c len n).1) : x = c := by
  induction h : (n - len).toNat generalizing n with
  | zero =>
    rw [pad, if_neg (by omega)] at hx
    cases hx
  | succ k ih =>
    rw [pad, if_pos (by omega)] at hx
    rcases List.mem_cons.mp hx with hx | hx
    · exact hx
    · exact ih hx (by omega)

theorem mem_pad_char (hx : x ∈ (pad_char n).1) : x = ' ' := by
  induction h : n.toNat generalizing n with
  | zero =>
    rw [pad_char, if_neg (by omega)] at hx
    cases hx
  | succ k ih =>
    rw [pad_char, if_pos (by omega)] at hx
    rcases List.mem_cons.mp hx with hx | hx
    · exact hx
    · exact ih hx (by omega)

theorem star_not_mem_blanks : '*' ∉ (pad ' ' len n).1 := fun h => absurd (mem_pad h) (by decide)

theorem star_not_mem_zeros : '*' ∉ (pad '0' len n).1 := fun h => absurd (mem_pad h) (by decide)

theorem star_not_mem_pad_char : '*' ∉ (pad_char n).1 := fun h => absurd (mem_pad_char h) (by decide)

theorem star_not_mem_append {l₁ l₂ : List Char} (h₁ : '*' ∉ l₁) (h₂ : '*' ∉ l₂) : '*' ∉ l₁ ++ l₂ := by
  rw [List.mem_append]
  exact not_or.mpr ⟨h₁, h₂⟩

theorem star_not_mem_put_number {sign special tmp : List Char} (hsign : '*' ∉ sign) (hspecial : '*' ∉ special)
    (htmp : '*' ∉ tmp) : '*' ∉ put_number flags sign special tmp size precision := by
  have htmp' : '*' ∉ tmp.reverse := fun h => htmp (List.mem_reverse.mp h)
  rw [put_number]
  refine star_not_mem_append (star_not_mem_append (star_not_mem_append (star_not_mem_append
    (star_not_mem_append (star_not_mem_append ?_ hsign) hspecial) ?_) star_not_mem_zeros) htmp')
    star_not_mem_blanks
  · cases flags.zeropad || flags.left
    · exact star_not_mem_blanks
    · exact List.not_mem_nil
  · cases flags.left
    · cases flags.zeropad
      · exact star_not_mem_blanks
      · exact star_not_mem_zeros
    · exact List.not_mem_nil

theorem digitOf_ne_star (d : ℕ) : digitOf flags d ≠ '*' := by
  rw [digitOf]
  generalize hl : (if flags.small then lower else upper) = l
  have hstar : '*' ∉ l := by
    rw [← hl]
    split <;> decide
  rw [List.getD_eq_getElem?_getD]
  cases hd : l[d]? with
  | none => decide
  | some y =>
    rintro rfl
    exact hstar (List.mem_of_getElem? hd)

/-- With any width and precision a number is printed, and has no `*`. -/
theorem number_plain (num : BitVec 32) (size precision : ℤ) (flags : Flags) (hbase : 2 ≤ base ∧ base ≤ 36) :
    ∃ out, number num base size precision flags = .ok out ∧ '*' ∉ out := by
  obtain ⟨room, hput, -⟩ := number_put num size precision flags hbase
  refine ⟨_, hput, star_not_mem_put_number ?_ ?_ ?_⟩
  · unfold signOf
    split_ifs <;> decide
  · unfold specialOf
    split_ifs <;> decide
  · intro h
    obtain ⟨d, -, hd⟩ := List.mem_map.mp h
    exact digitOf_ne_star d hd

/-! ### The stars of a format are printed -/

/-- `n` stars are printed between `s` and `s'`, and more only if they come from the arguments. -/
def Printed (args : ℕ → Arg) (n : ℕ) (s s' : Printer) : Prop :=
  s.out.count '*' + n ≤ s'.out.count '*' ∧ ((∀ i, (args i).Plain) → s'.out.count '*' = s.out.count '*' + n)

theorem Printed.trans {m n : ℕ} {s₁ s₂ s₃ : Printer} (h : Printed args m s₁ s₂) (h' : Printed args n s₂ s₃) :
    Printed args (m + n) s₁ s₃ := by
  refine ⟨?_, fun hplain => ?_⟩
  · have h1 := h.1
    have h2 := h'.1
    omega
  · rw [h'.2 hplain, h.2 hplain, add_assoc]

/-- A text with exactly `n` stars is put behind the others. -/
theorem printed_text {n : ℕ} {text : List Char} (htext : text.count '*' = n) (hout : s'.out = s.out ++ text) :
    Printed args n s s' := by
  have hcount : s'.out.count '*' = s.out.count '*' + n := by
    rw [hout, List.count_append, htext]
  exact ⟨le_of_eq hcount.symm, fun _ => hcount⟩

/-- A text that comes from an argument. -/
theorem printed_argument {text : List Char} (htext : (∀ i, (args i).Plain) → '*' ∉ text)
    (hout : s'.out = s.out ++ text) : Printed args 0 s s' := by
  refine ⟨?_, fun hplain => ?_⟩
  · rw [hout, List.count_append]
    exact Nat.le_add_right _ _
  · rw [hout, List.count_append, List.count_eq_zero.mpr (htext hplain)]

theorem put_arg_prints (base : ℕ) (field_width precision : ℤ) (flags : Flags) (hbase : 2 ≤ base ∧ base ≤ 36) :
    ∃ s', put_arg args base field_width precision flags s = .ok s' ∧ Printed args 0 s s' := by
  obtain ⟨out, hnumber, hout⟩ := number_plain (args s.ap).word field_width precision flags hbase
  refine ⟨{ s with out := s.out ++ out, ap := s.ap + 1 }, ?_, printed_text (List.count_eq_zero.mpr hout) rfl⟩
  rw [put_arg, hnumber]

theorem star_not_mem_put_char (hc : c ≠ '*') : '*' ∉ put_char c flags field_width := by
  rw [put_char]
  refine star_not_mem_append (star_not_mem_append ?_ fun h => hc (List.mem_singleton.mp h).symm)
    star_not_mem_pad_char
  cases flags.left
  · exact star_not_mem_pad_char
  · exact List.not_mem_nil

theorem star_not_mem_put_string {text : List Char} (htext : '*' ∉ text) :
    '*' ∉ put_string text flags field_width precision := by
  rw [put_string]
  refine star_not_mem_append (star_not_mem_append ?_ fun h => htext (List.mem_of_mem_take h))
    star_not_mem_blanks
  cases flags.left
  · exact star_not_mem_blanks
  · exact List.not_mem_nil

/-- A conversion character prints a star exactly when it is one. -/
theorem convert_prints (args : ℕ → Arg) (c : Char) (flags : Flags) (field_width precision : ℤ) (s : Printer) :
    ∃ s', convert args c flags field_width precision s = .ok s' ∧ Printed args ([c].count '*') s s' := by
  by_cases hstar : c = '*'
  · subst hstar
    refine ⟨_, rfl, printed_text (show ['%', '*'].count '*' = 1 by decide) ?_⟩
    exact List.append_assoc s.out ['%'] ['*']
  · rw [show [c].count '*' = 0 from List.count_eq_zero.mpr fun h => hstar (List.mem_singleton.mp h).symm]
    rw [convert]
    by_cases hc : c = 'c'
    · rw [if_pos hc]
      exact ⟨_, rfl, printed_argument (fun hplain => star_not_mem_put_char (hplain s.ap).2) rfl⟩
    rw [if_neg hc]
    by_cases hs : c = 's'
    · rw [if_pos hs]
      exact ⟨_, rfl, printed_argument (fun hplain => star_not_mem_put_string (hplain s.ap).1) rfl⟩
    rw [if_neg hs]
    by_cases ho : c = 'o'
    · rw [if_pos ho]
      exact put_arg_prints 8 _ _ _ (by decide)
    rw [if_neg ho]
    by_cases hp : c = 'p'
    · rw [if_pos hp]
      by_cases hnone : field_width = -1
      · rw [if_pos hnone]
        exact put_arg_prints 16 _ _ _ (by decide)
      · rw [if_neg hnone]
        exact put_arg_prints 16 _ _ _ (by decide)
    rw [if_neg hp]
    by_cases hx : c = 'x'
    · rw [if_pos hx]
      exact put_arg_prints 16 _ _ _ (by decide)
    rw [if_neg hx]
    by_cases hX : c = 'X'
    · rw [if_pos hX]
      exact put_arg_prints 16 _ _ _ (by decide)
    rw [if_neg hX]
    by_cases hd : c = 'd' ∨ c = 'i'
    · rw [if_pos hd]
      exact put_arg_prints 10 _ _ _ (by decide)
    rw [if_neg hd]
    by_cases hu : c = 'u'
    · rw [if_pos hu]
      exact put_arg_prints 10 _ _ _ (by decide)
    rw [if_neg hu]
    by_cases hn : c = 'n'
    · rw [if_pos hn]
      exact ⟨_, rfl, printed_text rfl (List.append_nil _).symm⟩
    rw [if_neg hn]
    refine ⟨_, rfl, printed_text (List.count_eq_zero.mpr ?_) (List.append_assoc _ _ _)⟩
    refine star_not_mem_append ?_ fun h => hstar (List.mem_singleton.mp h).symm
    split <;> decide

/-- A conversion prints the stars it passes. -/
theorem conversion_prints (args : ℕ → Arg) (fmt : List Char) (s : Printer) :
    ∃ rest s' n, conversion args fmt s = .ok (rest, s') ∧ Printed args n s s' ∧
      n + rest.count '*' = fmt.count '*' := by
  obtain ⟨flags, field_width, precision, ap, ⟨hpasses, heq⟩ | ⟨c, rest, hpasses, heq⟩⟩ :=
    conversion_cases args fmt s
  · exact ⟨[], _, 0, heq, printed_text (show ['%'].count '*' = 0 by decide) rfl, hpasses.count.symm⟩
  · obtain ⟨s', hconvert, hprinted⟩ := convert_prints args c flags field_width precision { s with ap := ap }
    refine ⟨rest, s', [c].count '*', ?_, hprinted, ?_⟩
    · rw [heq, hconvert]
    · rw [hpasses.count, ← List.count_append, List.singleton_append]

/-- The loop gets to the end of every format and prints its stars. -/
theorem print_prints (args : ℕ → Arg) : ∀ (k : ℕ) (fmt : List Char) (s : Printer), fmt.length ≤ k →
      ∃ s', print args fmt s = .ok s' ∧ Printed args (fmt.count '*') s s' := by
  intro k
  induction k with
  | zero =>
    intro fmt s hk
    rw [List.length_eq_zero_iff.mp (Nat.le_zero.mp hk)]
    refine ⟨s, ?_, le_refl _, fun _ => rfl⟩
    rw [print]
  | succ k ih =>
    intro fmt s hk
    cases fmt with
    | nil =>
      refine ⟨s, ?_, le_refl _, fun _ => rfl⟩
      rw [print]
    | cons c fmt =>
      rw [List.length_cons] at hk
      rw [print]
      by_cases hc : c = '%'
      · rw [if_neg (not_not.mpr hc)]
        obtain ⟨rest, s₁, n, hconversion, hprinted, hcount⟩ := conversion_prints args fmt s
        have hlength := conversion_length hconversion
        obtain ⟨s', hprint, hprinted'⟩ := ih rest s₁ (by omega)
        refine ⟨s', ?_, ?_⟩
        · split
          · rename_i he
            rw [hconversion] at he
            cases he
          · rename_i he
            rw [hconversion] at he
            cases he
            exact hprint
        · rw [hc, List.count_cons_of_ne (by decide), ← hcount]
          exact hprinted.trans hprinted'
      · rw [if_pos hc]
        obtain ⟨s', hprint, hprinted⟩ := ih fmt { s with out := s.out ++ [c] } (by omega)
        refine ⟨s', hprint, ?_⟩
        have hone : Printed args ([c].count '*') s { s with out := s.out ++ [c] } := printed_text rfl rfl
        rw [← List.singleton_append, List.count_append]
        exact hone.trans hprinted

/-! ### Replacing a literal by a star -/

/-- Decimal digits that stand for `n`. -/
def Numeral (ds : List Char) (n : ℕ) : Prop :=
  ds ≠ [] ∧ (∀ c ∈ ds, is_digit c = true) ∧ ds.foldl (fun m c => 10 * m + (c.toNat - 48)) 0 = n

/-- `va_arg(args, int)` finds `v` at place `k`. -/
def insertArg (args : ℕ → Arg) (k : ℕ) (v : ℤ) : ℕ → Arg := fun i =>
  if i < k then args i else if i = k then ⟨BitVec.ofInt 32 v, []⟩ else args (i - 1)

/-- A format with a literal width or precision, the format with a star in its place, and the argument. -/
inductive Replaced : List Char → List Char → ℤ → Prop where
  | width (before flags ds after : List Char) (w : ℕ) (hflags : ∀ c ∈ flags, c ∈ ['-', '+', ' ', '#', '0'])
      (hw : 1 ≤ w ∧ w < 2 ^ 31) (hds : Numeral ds w ∧ ds.head? ≠ some '0') :
      Replaced (before ++ '%' :: flags ++ ds ++ after) (before ++ '%' :: flags ++ '*' :: after) w
  | left (before flags ds after : List Char) (w : ℕ) (hflags : ∀ c ∈ flags, c ∈ ['-', '+', ' ', '#', '0'])
      (hw : 1 ≤ w ∧ w < 2 ^ 31) (hds : Numeral ds w ∧ ds.head? ≠ some '0') :
      Replaced (before ++ '%' :: flags ++ '-' :: ds ++ after) (before ++ '%' :: flags ++ '*' :: after) (-w)
  | precision (before flags width ds after : List Char) (p : ℕ)
      (hflags : ∀ c ∈ flags, c ∈ ['-', '+', ' ', '#', '0'])
      (hwidth : width = [] ∨ width = ['*'] ∨ ∃ w, Numeral width w)
      (hp : p < 2 ^ 31) (hds : Numeral ds p) :
      Replaced (before ++ '%' :: flags ++ width ++ '.' :: ds ++ after)
        (before ++ '%' :: flags ++ width ++ '.' :: '*' :: after) p

/-- The string and the value are the same. -/
def Same (r r' : Except Fault (List Char × ℤ × List (BitVec 32 × ℤ))) : Prop :=
  r.map (fun x => (x.1, x.2.1)) = r'.map (fun x => (x.1, x.2.1))

theorem Numeral.count {ds : List Char} {m : ℕ} (h : Numeral ds m) : ds.count '*' = 0 :=
  List.count_eq_zero.mpr fun hstar => is_digit_ne_star (h.2.1 '*' hstar) rfl

theorem Replaced.count {literal starred : List Char} {v : ℤ} (h : Replaced literal starred v) :
    starred.count '*' = literal.count '*' + 1 := by
  cases h with
  | width before flags ds after w hflags hw hds =>
    simp only [List.count_append, hds.1.count, List.count_cons_self]
    omega
  | left before flags ds after w hflags hw hds =>
    have hminus : ('-' :: ds).count '*' = 0 := by
      rw [List.count_cons_of_ne (by decide), hds.1.count]
    simp only [List.count_append, hminus, List.count_cons_self]
    omega
  | precision before flags width ds after p hflags hwidth hp hds =>
    have hpoint : ('.' :: ds).count '*' = 0 := by
      rw [List.count_cons_of_ne (by decide), hds.count]
    have hstar : ('.' :: '*' :: after).count '*' = after.count '*' + 1 := by
      rw [List.count_cons_of_ne (by decide), List.count_cons_self]
    simp only [List.count_append, hpoint, hstar]
    omega

/-- Formats with different numbers of stars print different strings. -/
theorem not_same {literal starred : List Char} {args' : ℕ → Arg}
    (hcount : literal.count '*' < starred.count '*')
    (hplain : ∀ i, (args i).Plain) : ¬Same (vsprintf literal args) (vsprintf starred args') := by
  obtain ⟨s, hprint, hprinted⟩ := print_prints args _ literal ⟨[], 0, []⟩ (le_refl _)
  obtain ⟨s', hprint', hprinted'⟩ := print_prints args' _ starred ⟨[], 0, []⟩ (le_refl _)
  rw [vsprintf, hprint, vsprintf, hprint']
  intro hsame
  have hout : s.out = s'.out := congrArg Prod.fst (Except.ok.inj hsame)
  have h1 := hprinted.2 hplain
  have h2 := hprinted'.1
  rw [hout] at h1
  simp only [List.count_nil, zero_add] at h1 h2
  omega

/-- No format prints the same with a star for a width or a precision, unless the arguments bring in the star
that is printed in place of the conversion. -/
theorem star_not_same {literal starred : List Char} {v : ℤ} (h : Replaced literal starred v) (k : ℕ) :
    (∀ args : ℕ → Arg, (∀ i, (args i).Plain) → ¬Same (vsprintf literal args)
    (vsprintf starred (insertArg args k v))) ∧
      ¬∀ args : ℕ → Arg, Same (vsprintf literal args) (vsprintf starred (insertArg args k v)) := by
  have hcount : literal.count '*' < starred.count '*' := by
    rw [h.count]
    exact Nat.lt_succ_self _
  refine ⟨fun args hplain => not_same hcount hplain, fun hall => ?_⟩
  exact not_same hcount (fun _ => ⟨List.not_mem_nil, by decide⟩) (hall fun _ => ⟨0, []⟩)

theorem star_not_same_five : Replaced ['%', '5', 'd'] ['%', '*', 'd'] 5 ∧
        (∀ args : ℕ → Arg, (∀ i, (args i).Plain) →
        ¬Same (vsprintf ['%', '5', 'd'] args) (vsprintf ['%', '*', 'd'] (insertArg args 0 5))) ∧
      ¬∀ args : ℕ → Arg, Same (vsprintf ['%', '5', 'd'] args) (vsprintf ['%', '*', 'd'] (insertArg args 0 5)) :=
  have h : Replaced ['%', '5', 'd'] ['%', '*', 'd'] 5 :=
    .width [] [] ['5'] ['d'] 5 (List.forall_mem_nil _) (by decide)
      ⟨⟨by decide, List.forall_mem_singleton.2 rfl, rfl⟩, by decide⟩
  ⟨h, star_not_same h 0⟩

/-- `%*d` with 5 and 7 does not print what `%5d` prints with 7. -/
theorem starred_five_differs : ¬Same (vsprintf ['%', '5', 'd'] fun _ => ⟨7#32, []⟩)
      (vsprintf ['%', '*', 'd'] (insertArg (fun _ => ⟨7#32, []⟩) 0 5)) :=
  not_same (by decide) fun _ => ⟨List.not_mem_nil, by decide⟩

end OldLinux.Print
