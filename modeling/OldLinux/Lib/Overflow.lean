import OldLinux.Lib.Numerals

/-!
# Signed arithmetic in 32 bits

The value of an expression of type `int` or `long` is its wrapped value together with a flag that says
whether a step on the way to it overflowed.  `Exact c x` says that none did and that the value is `x`;
`Wrapped c x` gives the value of an expression that may have overflowed.
-/

namespace OldLinux.Lib

variable {a b : CInt} {x y : ℤ}

/-- A value of 32 bits, and whether a step overflowed. -/
structure CInt where
  val : ℤ
  overflow : Bool
deriving DecidableEq

namespace CInt

/-- The numbers from `-2^31` to `2^31 - 1`. -/
def Fits (x : ℤ) : Prop := -2 ^ 31 ≤ x ∧ x < 2 ^ 31

instance (x : ℤ) : Decidable (Fits x) := inferInstanceAs (Decidable (_ ∧ _))

/-- A step with the result `x`, after the steps of `a` and `b`. -/
def result (a b : CInt) (x : ℤ) : CInt := ⟨x.bmod (2 ^ 32), a.overflow || b.overflow || !decide (Fits x)⟩

/-- A number that a variable or a constant has. -/
def of (x : ℤ) : CInt := ⟨x.bmod (2 ^ 32), !decide (Fits x)⟩

instance : Coe ℤ CInt := ⟨of⟩

instance (n : ℕ) [OfNat ℤ n] : OfNat CInt n := ⟨of (OfNat.ofNat n)⟩

instance : Add CInt := ⟨fun a b => result a b (a.val + b.val)⟩

instance : Sub CInt := ⟨fun a b => result a b (a.val - b.val)⟩

instance : Mul CInt := ⟨fun a b => result a b (a.val * b.val)⟩

/-- Division truncates. -/
instance : Div CInt := ⟨fun a b => result a b (a.val.tdiv b.val)⟩

instance : Mod CInt := ⟨fun a b => result a b (a.val.tmod b.val)⟩

theorem bmod_of_fits (h : Fits x) : x.bmod (2 ^ 32) = x :=
  Int.bmod_eq_of_le (by have := h.1; omega) (by have := h.2; omega)

/-! ### Values without an overflow -/

/-- The value is `x`, and no step overflowed. -/
structure Exact (c : CInt) (x : ℤ) : Prop where
  val : c.val = x
  overflow : c.overflow = false
  fits : Fits x

theorem Exact.eq (h : Exact a x) : a = ⟨x, false⟩ := by
  rw [← h.val, ← h.overflow]

theorem exact_of (h : Fits x) : Exact (of x) x := by
  refine ⟨bmod_of_fits h, ?_, h⟩
  rw [of, decide_eq_true h]
  rfl

theorem exact_result {z : ℤ} (ha : Exact a x) (hb : Exact b y) (h : Fits z) : Exact (result a b z) z := by
  refine ⟨bmod_of_fits h, ?_, h⟩
  rw [result, ha.overflow, hb.overflow, decide_eq_true h]
  rfl

theorem Exact.add (ha : Exact a x) (hb : Exact b y) (h : Fits (x + y)) : Exact (a + b) (x + y) := by
  show Exact (result a b (a.val + b.val)) (x + y)
  rw [ha.val, hb.val]
  exact exact_result ha hb h

theorem Exact.sub (ha : Exact a x) (hb : Exact b y) (h : Fits (x - y)) : Exact (a - b) (x - y) := by
  show Exact (result a b (a.val - b.val)) (x - y)
  rw [ha.val, hb.val]
  exact exact_result ha hb h

/-- A difference that is taken under a condition. -/
theorem Exact.sub_if {p : Prop} [Decidable p] (ha : Exact a x) (hb : Exact b y) (h : p → Fits (x - y)) :
    Exact (if p then a - b else a) (x - if p then y else 0) := by
  split
  · rename_i hp
    exact ha.sub hb (h hp)
  · rwa [Int.sub_zero]

theorem Exact.mul (ha : Exact a x) (hb : Exact b y) (h : Fits (x * y)) : Exact (a * b) (x * y) := by
  show Exact (result a b (a.val * b.val)) (x * y)
  rw [ha.val, hb.val]
  exact exact_result ha hb h

/-- Quotients and remainders are not greater than the dividend. -/
theorem fits_of_natAbs_le {z : ℤ} (h : z.natAbs ≤ x.natAbs) (hx : Fits x) (hlow : -2 ^ 31 < x) : Fits z := by
  have hhigh := hx.2
  constructor <;> omega

theorem Exact.div (ha : Exact a x) (hb : Exact b y) (h : -2 ^ 31 < x) : Exact (a / b) (x.tdiv y) := by
  show Exact (result a b (a.val.tdiv b.val)) (x.tdiv y)
  rw [ha.val, hb.val]
  exact exact_result ha hb (fits_of_natAbs_le (Int.natAbs_tdiv_le_natAbs x y) ha.fits h)

theorem Exact.mod (ha : Exact a x) (hb : Exact b y) (h : -2 ^ 31 < x) : Exact (a % b) (x.tmod y) := by
  show Exact (result a b (a.val.tmod b.val)) (x.tmod y)
  rw [ha.val, hb.val]
  refine exact_result ha hb (fits_of_natAbs_le ?_ ha.fits h)
  rw [Int.natAbs_tmod]
  exact Nat.mod_le _ _

/-! ### Values that wrap -/

/-- The value is `x` but for a multiple of `2^32`. -/
def Wrapped (c : CInt) (x : ℤ) : Prop := c.val = x.bmod (2 ^ 32)

theorem Exact.wrapped (h : Exact a x) : Wrapped a x := h.val.trans (bmod_of_fits h.fits).symm

theorem wrapped_of (x : ℤ) : Wrapped (of x) x := rfl

theorem Wrapped.add (ha : Wrapped a x) (hb : Wrapped b y) : Wrapped (a + b) (x + y) := by
  show (a.val + b.val).bmod (2 ^ 32) = (x + y).bmod (2 ^ 32)
  rw [ha, hb, Int.bmod_add_bmod, Int.add_bmod_bmod]

theorem Wrapped.sub (ha : Wrapped a x) (hb : Wrapped b y) : Wrapped (a - b) (x - y) := by
  show (a.val - b.val).bmod (2 ^ 32) = (x - y).bmod (2 ^ 32)
  rw [ha, hb, Int.bmod_sub_bmod, Int.sub_bmod_bmod]

theorem Wrapped.sub_if {p : Prop} [Decidable p] (ha : Wrapped a x) (hb : Wrapped b y) :
    Wrapped (if p then a - b else a) (x - if p then y else 0) := by
  split
  · exact ha.sub hb
  · rwa [Int.sub_zero]

theorem Wrapped.mul (ha : Wrapped a x) (hb : Wrapped b y) : Wrapped (a * b) (x * y) := by
  show (a.val * b.val).bmod (2 ^ 32) = (x * y).bmod (2 ^ 32)
  rw [ha, hb, Int.bmod_mul_bmod, Int.mul_bmod_bmod]

/-- A wrapped value is the right one only if the difference is a multiple of `2^32`. -/
theorem Wrapped.dvd (h : Wrapped a x) (hval : a.val = y) : (2 : ℤ) ^ 32 ∣ x - y := by
  have hmod : x.bmod (2 ^ 32) = y := h.symm.trans hval
  rw [Int.bmod] at hmod
  split at hmod
  · omega
  · omega

end CInt

end OldLinux.Lib
