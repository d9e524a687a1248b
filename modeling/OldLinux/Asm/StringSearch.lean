import OldLinux.Lib.Numerals
import Mathlib.Data.List.Infix

/-!
# The string searches

`strspn`, `strcspn`, `strpbrk` and `strstr`, which are inline assembly around `repne scasb` and `repe cmpsb`.  A
string instruction that is repeated zero times leaves the flags as they are, and this is how an empty `ct` is
treated.  A read where nothing is mapped has no result.  The strings end below 2^32, so that no pointer runs
over.
-/

namespace OldLinux.Asm.Search

abbrev Memory := ℕ → Option ℕ

/-! ### Instructions -/

variable {m : Memory} {a b al fuel cs ct : ℕ} {s t : List ℕ} {again zf : Bool}

/-- Where a string is found: the first place, or nowhere. -/
def Found (t s : List ℕ) (cs r : ℕ) : Prop :=
  (∃ i ≤ s.length, r = cs + i ∧ t <+: s.drop i ∧ ∀ j < i, ¬t <+: s.drop j) ∨ r = 0 ∧ ∀ j, ¬t <+: s.drop j

end OldLinux.Asm.Search
