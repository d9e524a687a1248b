import OldLinux.Lib.Numerals
import Mathlib.Data.BitVec
import Mathlib.Data.Nat.Digits.Lemmas

/-!
# Printing a number

`number` of `vsprintf`: the characters it puts at `str`, or how it fails.  A character stands for the byte of
its code, and `tmp` is the list of what has been stored in it.
-/

namespace OldLinux.Print

/-- The value of an `int` after arithmetic. -/
def int (x : ℤ) : ℤ := x.bmod (2 ^ 32)

/-- The bits of `type`. -/
structure Flags where
  zeropad : Bool
  sign : Bool
  plus : Bool
  space : Bool
  left : Bool
  special : Bool
  small : Bool
deriving DecidableEq

inductive Fault where
  /-- `number` returns 0 in place of `str`. -/
  | null
  /-- A store behind the end of `tmp`. -/
  | overrun
deriving DecidableEq

def upper : List Char :=
  ['0', '1', '2', '3', '4', '5', '6', '7', '8', '9', 'A', 'B', 'C', 'D', 'E', 'F', 'G', 'H',
    'I', 'J', 'K', 'L', 'M', 'N', 'O', 'P', 'Q', 'R', 'S', 'T', 'U', 'V', 'W', 'X', 'Y', 'Z']

def lower : List Char :=
  ['0', '1', '2', '3', '4', '5', '6', '7', '8', '9', 'a', 'b', 'c', 'd', 'e', 'f', 'g', 'h',
    'i', 'j', 'k', 'l', 'm', 'n', 'o', 'p', 'q', 'r', 's', 't', 'u', 'v', 'w', 'x', 'y', 'z']

/-- `while (num!=0) tmp[i++]=digits[do_div(num,base)];`, where `divl` takes `num` as unsigned. -/
def digit_loop (digits : List Char) (base : ℕ) (num : BitVec 32) (tmp : List Char) : Except Fault (List Char) :=
  if num = 0 then .ok tmp
  else if _hroom : tmp.length < 36 then
    digit_loop digits base (num / BitVec.ofNat 32 base)
    (tmp ++ [digits.getD (num % BitVec.ofNat 32 base).toNat ' '])
  else .error .overrun
termination_by 36 - tmp.length
decreasing_by
  rw [List.length_append, List.length_singleton]
  omega

/-- `while (len < n--) *str++ = c;` and what `n` is then. -/
def pad (c : Char) (len n : ℤ) : List Char × ℤ :=
  if len < n then
    let (out, n) := pad c len (n - 1)
    (c :: out, n)
  else ([], int (n - 1))
termination_by (n - len).toNat

/-- The second half of `number`: `tmp` holds the digits, and `size` is what is left of the width. -/
def put_number (type : Flags) (sign special tmp : List Char) (size precision : ℤ) : List Char :=
  let c := if type.zeropad then '0' else ' '
  let i : ℤ := tmp.length
  let precision := if precision < i then i else precision
  let size := int (size - precision)
  let (blanks, size) := if !(type.zeropad || type.left) then pad ' ' 0 size else ([], size)
  let (fill, size) := if !type.left then pad c 0 size else ([], size)
  let (zeros, _) := pad '0' i precision
  let (rest, _) := pad ' ' 0 size
  blanks ++ sign ++ special ++ fill ++ zeros ++ tmp.reverse ++ rest

def number (num : BitVec 32) (base : ℕ) (size precision : ℤ) (type : Flags) : Except Fault (List Char) :=
  let digits := if type.small then lower else upper
  let type := if type.left then { type with zeropad := false } else type
  if base < 2 ∨ 36 < base then .error .null
  else
    let negative := type.sign && num.slt 0
    let num := if negative then -num else num
    let sign := if negative then ['-'] else if type.plus then ['+'] else if type.space then [' '] else []
    let size := if sign ≠ [] then int (size - 1) else size
    let special :=
      if type.special then
        if base = 8 then ['0'] else if base = 16 then ['0', digits.getD 33 ' '] else []
      else []
    let size :=
      if type.special then
        if base = 16 then int (size - 2) else if base = 8 then int (size - 1) else size
      else size
    match if num = 0 then .ok ['0'] else digit_loop digits base num [] with
    | .error e => .error e
    | .ok tmp => .ok (put_number type sign special tmp size precision)

/-! ### What is to be printed -/

/-- The number that the digits stand for. -/
def magnitude (num : BitVec 32) (type : Flags) : ℕ :=
  if type.sign ∧ num.toInt < 0 then num.toInt.natAbs else num.toNat

def signOf (num : BitVec 32) (type : Flags) : List Char :=
  if type.sign ∧ num.toInt < 0 then ['-'] else if type.plus then ['+'] else if type.space then [' '] else []

def specialOf (base : ℕ) (type : Flags) : List Char :=
  if type.special ∧ base = 8 then ['0']
  else if type.special ∧ base = 16 then ['0', if type.small then 'x' else 'X']
  else []

/-- The character of a digit. -/
def digitOf (type : Flags) (d : ℕ) : Char := (if type.small then lower else upper).getD d ' '

/-- The parts of the output that are not given by the sign and the base. -/
structure Layout where
  blanks : ℕ
  zeros : ℕ
  digits : List ℕ
  rest : ℕ

def Layout.text (l : Layout) (num : BitVec 32) (base : ℕ) (type : Flags) : List Char :=
  List.replicate l.blanks ' ' ++ signOf num type ++ specialOf base type ++ List.replicate l.zeros '0' ++
    l.digits.map (digitOf type) ++ List.replicate l.rest ' '

/-- The parts are right for the number, the width and the precision. -/
structure Layout.Prints (l : Layout) (num : BitVec 32) (base : ℕ) (size precision : ℤ) (type : Flags) :
    Prop where
  below : ∀ d ∈ l.digits, d < base
  value : Nat.ofDigits base l.digits.reverse = magnitude num type
  /-- no digit is a leading zero -/
  leading : l.digits = [0] ∨ ∃ d ds, l.digits = d :: ds ∧ d ≠ 0
  length : ((l.text num base type).length : ℤ) =
    max size ((signOf num type).length + (specialOf base type).length + max (l.digits.length : ℤ) precision)
  right : type.left = false → l.rest = 0
  left : type.left = true → l.blanks = 0
  zeropad : type.zeropad = true → l.blanks = 0
  /-- the zeros that the precision asks for -/
  required : ¬(type.zeropad = true ∧ type.left = false) → (l.zeros : ℤ) =
    max (l.digits.length : ℤ) precision - l.digits.length

/-! ### The loops -/

variable {num : BitVec 32} {base : ℕ} {size precision : ℤ} {type : Flags} {digits tmp : List Char} {c : Char}
  {len n : ℤ}

theorem int_eq_self {x : ℤ} (h1 : -2 ^ 31 ≤ x) (h2 : x < 2 ^ 31) : int x = x :=
  Int.bmod_eq_of_le (by omega) (by omega)

theorem pad_eq (hlen : -2 ^ 31 < len ∧ len < 2 ^ 31) : ∀ k : ℕ, ∀ n : ℤ, -2 ^ 31 < n → (n - len).toNat = k →
      pad c len n = (List.replicate k c, min n len - 1) := by
  intro k
  induction k with
  | zero =>
    intro n hn hk
    rw [pad, if_neg (by omega), int_eq_self (by omega) (by omega), min_eq_left (by omega)]
    rfl
  | succ k ih =>
    intro n hn hk
    rw [pad, if_pos (by omega), ih (n - 1) (by omega) (by omega), min_eq_right (by omega),
      min_eq_right (by omega), List.replicate_succ]

theorem digit_loop_eq (hbase : 2 ≤ base ∧ base ≤ 36) :
    ∀ (k : ℕ) (num : BitVec 32) (tmp : List Char), (Nat.digits base num.toNat).length = k →
    tmp.length + k ≤ 36 →
      digit_loop digits base num tmp =
      .ok (tmp ++ (Nat.digits base num.toNat).map fun d => digits.getD d ' ') := by
  have hofNat : (BitVec.ofNat 32 base).toNat = base := Nat.mod_eq_of_lt (by omega)
  intro k
  induction k with
  | zero =>
    intro num tmp hk _
    have hnum : num.toNat = 0 := by
      by_contra hne
      rw [Nat.digits_def' (by omega) (by omega)] at hk
      cases hk
    have hzero : num = 0 := BitVec.eq_of_toNat_eq hnum
    rw [digit_loop, if_pos hzero, List.length_eq_zero_iff.mp hk, List.map_nil, List.append_nil]
  | succ k ih =>
    intro num tmp hk hroom
    have hpos : 0 < num.toNat := by
      by_contra hne
      rw [show num.toNat = 0 by omega, Nat.digits_zero] at hk
      cases hk
    have hne : num ≠ 0 := fun h => by
      rw [h] at hpos
      exact absurd hpos (by decide)
    have hdigits := Nat.digits_def' (b := base) (by omega) hpos
    have hquotient : (num / BitVec.ofNat 32 base).toNat = num.toNat / base := by
      rw [BitVec.toNat_udiv, hofNat]
    have hremainder : (num % BitVec.ofNat 32 base).toNat = num.toNat % base := by
      rw [BitVec.toNat_umod, hofNat]
    rw [hdigits, List.length_cons] at hk
    rw [digit_loop, if_neg hne, dif_pos (by omega), hremainder,
      ih _ _ (by rw [hquotient]; omega) (by rw [List.length_append, List.length_singleton]; omega),
      hquotient, hdigits, List.map_cons, List.append_assoc, List.singleton_append]

/-- A 32-bit number has at most 32 digits, so `tmp` is long enough. -/
theorem digits_length (hbase : 2 ≤ base) (num : BitVec 32) : (Nat.digits base num.toNat).length ≤ 32 := by
  rw [Nat.digits_length_le_iff (by omega)]
  calc num.toNat < 2 ^ 32 := num.isLt
    _ ≤ base ^ 32 := Nat.pow_le_pow_left hbase 32

/-! ### The number is printed -/

/-- The digits that stand for `n`, the last one first. -/
def places (base n : ℕ) : List ℕ := if n = 0 then [0] else Nat.digits base n

theorem places_length (hbase : 2 ≤ base) (num : BitVec 32) :
    1 ≤ (places base num.toNat).length ∧ (places base num.toNat).length ≤ 32 := by
  rw [places]
  split
  · exact ⟨le_refl 1, by decide⟩
  · rename_i hne
    refine ⟨?_, digits_length hbase num⟩
    rw [Nat.digits_def' (by omega) (by omega), List.length_cons]
    omega

theorem places_below (hbase : 2 ≤ base) {m d : ℕ} (hd : d ∈ places base m) : d < base := by
  rw [places] at hd
  split at hd
  · rw [List.mem_singleton.mp hd]
    omega
  · exact Nat.digits_lt_base (by omega) hd

theorem ofDigits_places (base m : ℕ) : Nat.ofDigits base (places base m) = m := by
  rw [places]
  split
  · rename_i hm
    rw [hm]
    rfl
  · exact Nat.ofDigits_digits base m

theorem places_leading (base m : ℕ) :
    (places base m).reverse = [0] ∨ ∃ d ds, (places base m).reverse = d :: ds ∧ d ≠ 0 := by
  rw [places]
  split
  · exact Or.inl rfl
  · rename_i hm
    right
    have hne : Nat.digits base m ≠ [] := Nat.digits_ne_nil_iff_ne_zero.mpr hm
    refine ⟨(Nat.digits base m).getLast hne, (Nat.digits base m).dropLast.reverse, ?_,
      Nat.getLast_digit_ne_zero base hm⟩
    rw [← List.reverse_concat, List.dropLast_append_getLast hne]

/-- The digits are converted without a store behind the end of `tmp`. -/
theorem converted_eq (hbase : 2 ≤ base ∧ base ≤ 36) (num : BitVec 32) (type : Flags) :
    (if num = 0 then .ok ['0'] else digit_loop (if type.small then lower else upper) base num []) =
      .ok ((places base num.toNat).map (digitOf type)) := by
  by_cases hnum : num = 0
  · subst hnum
    rw [if_pos rfl]
    cases hsmall : type.small
    · rw [show (0 : BitVec 32).toNat = 0 from rfl, places, if_pos rfl, List.map_singleton, digitOf, hsmall]
      rfl
    · rw [show (0 : BitVec 32).toNat = 0 from rfl, places, if_pos rfl, List.map_singleton, digitOf, hsmall]
      rfl
  · have hne : num.toNat ≠ 0 := fun h => hnum (BitVec.eq_of_toNat_eq h)
    have hlength := digits_length hbase.1 num
    rw [if_neg hnum, digit_loop_eq hbase _ num [] rfl (by rw [List.length_nil]; omega), places, if_neg hne,
      List.nil_append]
    rfl

theorem negative_iff (num : BitVec 32) (type : Flags) :
    (type.sign && num.slt 0) = true ↔ type.sign = true ∧ num.toInt < 0 := by
  rw [Bool.and_eq_true, BitVec.slt, decide_eq_true_eq]
  rfl

theorem magnitude_eq (num : BitVec 32) (type : Flags) :
    (if (type.sign && num.slt 0) = true then -num else num).toNat = magnitude num type := by
  rw [magnitude]
  by_cases h : type.sign = true ∧ num.toInt < 0
  · rw [if_pos h, if_pos ((negative_iff num type).mpr h), BitVec.toNat_neg]
    have hint := BitVec.toInt_eq_toNat_cond num
    have hlt := num.isLt
    split at hint <;> omega
  · rw [if_neg h, if_neg fun hn => h ((negative_iff num type).mp hn)]

/-- The padding goes where the flags say, and what is left of the width after each loop is not used again. -/
theorem put_number_eq (sign special : List Char) (hleft : type.left = true → type.zeropad = false)
    (hlength : tmp.length ≤ 36) (hsize : -4 ≤ size ∧ size ≤ 2 ^ 30)
    (hprecision : -1 ≤ precision ∧ precision ≤ 2 ^ 30) :
    put_number type sign special tmp size precision = List.replicate
          (if type.zeropad || type.left then 0 else (size - max (tmp.length : ℤ) precision).toNat) ' ' ++
        sign ++ special ++
        List.replicate ((if type.zeropad then (size - max (tmp.length : ℤ) precision).toNat else 0) +
          (max (tmp.length : ℤ) precision - tmp.length).toNat) '0' ++
        tmp.reverse ++
        List.replicate (if type.left then (size - max (tmp.length : ℤ) precision).toNat else 0) ' ' := by
  have hmax : (if precision < (tmp.length : ℤ) then (tmp.length : ℤ) else precision) =
      max (tmp.length : ℤ) precision := by
    split <;> omega
  have hzero : -2 ^ 31 < (0 : ℤ) ∧ (0 : ℤ) < 2 ^ 31 := by omega
  rw [put_number, hmax]
  generalize hm : max (tmp.length : ℤ) precision = m
  have hm1 : (tmp.length : ℤ) ≤ m := hm ▸ le_max_left _ _
  have hm2 : m ≤ 2 ^ 30 := hm ▸ max_le (by omega) hprecision.2
  have hroom : int (size - m) = size - m := int_eq_self (by omega) (by omega)
  have hzeros : (pad '0' (tmp.length : ℤ) m).1 = List.replicate (m - tmp.length).toNat '0' := by
    rw [pad_eq (by omega) _ m (by omega) rfl]
  -- with no room a loop puts nothing
  have hnone : ∀ c, ∀ n : ℤ, -2 ^ 31 < n → n ≤ 0 → pad c 0 n = ([], n - 1) := by
    intro c n hn hn0
    rw [pad_eq hzero 0 n hn (by omega), min_eq_left hn0]
    rfl
  have hpad : ∀ c, pad c 0 (size - m) = (List.replicate (size - m).toNat c, min (size - m) 0 - 1) := by
    intro c
    exact pad_eq hzero _ _ (by omega) (by rw [sub_zero])
  have hspent := hnone ' ' (min (size - m) 0 - 1) (by omega) (by omega)
  have hspent' := hnone ' ' (min (size - m) 0 - 1 - 1) (by omega) (by omega)
  cases hl : type.left
  · cases hz : type.zeropad
    · simp only [hroom, hpad, hzeros, hspent, hspent', Bool.or_false, Bool.not_false, if_true,
        Bool.false_eq_true,
        if_false, List.append_nil, List.replicate_zero, zero_add]
    · simp only [hroom, hpad, hzeros, hspent, Bool.true_or, Bool.not_true, Bool.not_false, if_true,
        Bool.false_eq_true, if_false, List.append_nil, List.nil_append, List.replicate_zero, List.replicate_add,
        List.append_assoc]
  · simp only [hleft hl, hroom, hpad, hzeros, Bool.or_true, Bool.not_true, if_true,
      Bool.false_eq_true, if_false,
      List.append_nil, List.replicate_zero, zero_add]

theorem sign_eq (num : BitVec 32) (type : Flags) :
    (if (type.sign && num.slt 0) = true then ['-'] else if type.plus then ['+'] else
    if type.space then [' '] else []) = signOf num type := by
  rw [signOf]
  by_cases h : type.sign = true ∧ num.toInt < 0
  · rw [if_pos h, if_pos ((negative_iff num type).mpr h)]
  · rw [if_neg h, if_neg fun hn => h ((negative_iff num type).mp hn)]

theorem special_eq (base : ℕ) (type : Flags) : (if type.special then (if base = 8 then ['0'] else
        if base = 16 then ['0', (if type.small then lower else upper).getD 33 ' '] else []) else []) =
      specialOf base type := by
  rw [specialOf]
  cases type.special
  · simp
  · cases type.small
    · simp [upper]
    · simp [lower]

theorem signOf_length (num : BitVec 32) (type : Flags) : (signOf num type).length ≤ 1 := by
  unfold signOf
  split_ifs <;> decide

theorem specialOf_length (base : ℕ) (type : Flags) : (specialOf base type).length ≤ 2 := by
  unfold specialOf
  split_ifs <;> simp

/-- Sign and prefix take their places from the width. -/
theorem room_eq {sign : List Char} (base : ℕ) (type : Flags) (hsign : sign.length ≤ 1)
    (hsize : -1 ≤ size ∧ size ≤ 2 ^ 30) :
    (if type.special then
        (if base = 16 then int ((if sign ≠ [] then int (size - 1) else size) - 2)
        else if base = 8 then int ((if sign ≠ [] then int (size - 1) else size) - 1)
        else if sign ≠ [] then int (size - 1) else size)
      else if sign ≠ [] then int (size - 1) else size) =
      size - sign.length - (specialOf base type).length := by
  have hafter : (if sign ≠ [] then int (size - 1) else size) = size - sign.length := by
    cases sign with
    | nil => simp
    | cons c rest =>
      rw [if_pos (List.cons_ne_nil c rest), int_eq_self (by omega) (by omega)]
      rw [List.length_cons] at hsign ⊢
      omega
  rw [hafter, specialOf]
  cases type.special
  · simp
  · by_cases h16 : base = 16
    · subst h16
      simp only [if_true, true_and, Nat.reduceEqDiff, if_false, List.length_cons, List.length_nil]
      exact int_eq_self (by omega) (by omega)
    · by_cases h8 : base = 8
      · subst h8
        simp only [if_true, true_and, Nat.reduceEqDiff, if_false, List.length_cons, List.length_nil]
        exact int_eq_self (by omega) (by omega)
      · simp [h16, h8]

/-- The layout that `number` chooses. -/
def layoutOf (num : BitVec 32) (base : ℕ) (size precision : ℤ) (type : Flags) : Layout :=
  let digits := (places base (magnitude num type)).reverse
  let wide := max (digits.length : ℤ) precision
  let room := (size - (signOf num type).length - (specialOf base type).length - wide).toNat
  { blanks := if type.zeropad || type.left then 0 else room
    zeros := (if type.zeropad && !type.left then room else 0) + (wide - digits.length).toNat
    digits := digits
    rest := if type.left then room else 0 }

/-- `number` converts the digits, with `tmp` long enough, and puts them out. -/
theorem number_put (num : BitVec 32) (size precision : ℤ) (type : Flags) (hbase : 2 ≤ base ∧ base ≤ 36) :
    ∃ room, number num base size precision type =
        .ok (put_number { type with zeropad := type.zeropad && !type.left } (signOf num type)
          (specialOf base type)
          ((places base (magnitude num type)).map (digitOf type)) room precision) ∧
      (-1 ≤ size ∧ size ≤ 2 ^ 30 → room = size - (signOf num type).length - (specialOf base type).length) := by
  have hcleared : (if type.left = true then { type with zeropad := false } else type) =
      { type with zeropad := type.zeropad && !type.left } := by
    obtain ⟨zeropad, _, _, _, left, _, _⟩ := type
    cases left
    · rw [Bool.not_false, Bool.and_true]
      rfl
    · rw [Bool.not_true, Bool.and_false]
      rfl
  refine ⟨_, ?_, fun hsize => room_eq base type (signOf_length num type) hsize⟩
  rw [number]
  simp only [hcleared, sign_eq, special_eq, converted_eq hbase, magnitude_eq]
  rw [if_neg (by omega)]

/-- `number` prints the digits of the number in its layout. -/
theorem number_eq (hbase : 2 ≤ base ∧ base ≤ 36) (hsize : -1 ≤ size ∧ size ≤ 2 ^ 30)
    (hprecision : -1 ≤ precision ∧ precision ≤ 2 ^ 30) :
    number num base size precision type = .ok ((layoutOf num base size precision type).text num base type) := by
  have hsign := signOf_length num type
  have hspecial := specialOf_length base type
  have hplaces := places_length hbase.1 (if (type.sign && num.slt 0) = true then -num else num)
  rw [magnitude_eq] at hplaces
  obtain ⟨room, hput, hroom⟩ := number_put num size precision type hbase
  rw [hput, hroom hsize, put_number_eq (signOf num type) (specialOf base type) (fun h => by
      rw [show type.left = true from h]
      exact Bool.and_false _)
    (by rw [List.length_map]; omega) (by omega) hprecision]
  simp only [Layout.text, layoutOf, List.length_map, List.length_reverse, List.map_reverse]
  cases type.left
  · simp only [Bool.not_false, Bool.and_true, Bool.or_false]
  · simp only [Bool.not_true, Bool.and_false, Bool.or_true]

theorem layoutOf_prints (num : BitVec 32) (type : Flags) (hbase : 2 ≤ base) :
    (layoutOf num base size precision type).Prints num base size precision type := by
  have hlength : (((layoutOf num base size precision type).text num base type).length : ℤ) =
      (signOf num type).length + (specialOf base type).length + (places base (magnitude num type)).length +
        (layoutOf num base size precision type).blanks + (layoutOf num base size precision type).zeros +
        (layoutOf num base size precision type).rest := by
    simp only [Layout.text, List.length_append, List.length_replicate, List.length_map, layoutOf,
      List.length_reverse]
    push_cast
    ring
  refine ⟨?_, ?_, ?_, ?_, ?_, ?_, ?_, ?_⟩
  · intro d hd
    exact places_below hbase (List.mem_reverse.mp hd)
  · rw [layoutOf, List.reverse_reverse]
    exact ofDigits_places base _
  · exact places_leading base _
  · rw [hlength]
    simp only [layoutOf, List.length_reverse]
    generalize (places base (magnitude num type)).length = i
    generalize (signOf num type).length = j
    generalize (specialOf base type).length = k
    cases type.left
    · cases type.zeropad
      · simp only [Bool.or_false, Bool.not_false, Bool.and_true, Bool.false_eq_true, if_false, zero_add]
        omega
      · simp only [Bool.true_or, Bool.not_false, Bool.and_true, Bool.false_eq_true, if_false, if_true]
        omega
    · simp only [Bool.or_true, Bool.not_true, Bool.and_false, Bool.false_eq_true, if_false, if_true, zero_add]
      omega
  · intro h
    simp only [layoutOf, h, Bool.false_eq_true, if_false]
  · intro h
    simp only [layoutOf, h, Bool.or_true, if_true]
  · intro h
    simp only [layoutOf, h, Bool.true_or, if_true]
  · intro h
    have hpad : (type.zeropad && !type.left) = false := by
      rw [Bool.and_eq_false_iff]
      by_cases hz : type.zeropad = true
      · exact Or.inr (by simpa using fun hl => h ⟨hz, hl⟩)
      · exact Or.inl (Bool.not_eq_true _ ▸ hz)
    simp only [layoutOf, hpad, List.length_reverse, Bool.false_eq_true, if_false, zero_add]
    omega

/-- `number` prints what it is given: blanks, sign, prefix, zeros, the digits of the number and blanks, as long
as the width and the precision ask for, with every digit stored inside `tmp`. -/
theorem number_prints (num : BitVec 32) (base : ℕ) (size precision : ℤ) (type : Flags)
    (hbase : 2 ≤ base ∧ base ≤ 36) (hsize : -1 ≤ size ∧ size ≤ 2 ^ 30)
    (hprecision : -1 ≤ precision ∧ precision ≤ 2 ^ 30) :
    ∃ l : Layout, number num base size precision type = .ok (l.text num base type) ∧
      l.Prints num base size precision type :=
  ⟨layoutOf num base size precision type, number_eq hbase hsize hprecision, layoutOf_prints num type hbase.1⟩

/-- The most negative number with `%-14.12d`. -/
theorem number_prints_lowest :
    (2 ≤ (10 : ℕ) ∧ 10 ≤ 36) ∧ (-1 ≤ (14 : ℤ) ∧ (14 : ℤ) ≤ 2 ^ 30) ∧ (-1 ≤ (12 : ℤ) ∧ (12 : ℤ) ≤ 2 ^ 30) ∧
      ∃ l : Layout, number 0x80000000 10 14 12 ⟨false, true, false, false, true, false, false⟩ =
          .ok (l.text 0x80000000 10 ⟨false, true, false, false, true, false, false⟩) ∧
        l.Prints 0x80000000 10 14 12 ⟨false, true, false, false, true, false, false⟩ :=
  ⟨by decide, by decide, by decide, number_prints _ _ _ _ _ (by decide) (by decide) (by decide)⟩

end OldLinux.Print
