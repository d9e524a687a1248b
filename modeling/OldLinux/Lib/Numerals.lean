import Mathlib.Algebra.Ring.Int.Defs
import Mathlib.Algebra.Ring.Nat
import Mathlib.Order.Lattice

/-!
# Numerals

The sizes of the tables are not zero, so that their indices can be written as numerals.
-/

namespace OldLinux.Lib

instance neZero_one : NeZero 1 := ⟨Nat.succ_ne_zero 0⟩

instance neZero_two : NeZero 2 := ⟨Nat.succ_ne_zero 1⟩

instance neZero_three : NeZero 3 := ⟨Nat.succ_ne_zero 2⟩

instance neZero_eight : NeZero 8 := ⟨Nat.succ_ne_zero 7⟩

instance neZero_thirtyTwo : NeZero 32 := ⟨Nat.succ_ne_zero 31⟩

instance neZero_sixtyFour : NeZero 64 := ⟨Nat.succ_ne_zero 63⟩

instance neZero_byte : NeZero 256 := ⟨Nat.succ_ne_zero 255⟩

end OldLinux.Lib
