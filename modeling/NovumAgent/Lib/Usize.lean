import Mathlib.Algebra.GroupWithZero.Nat
import Mathlib.Order.Basic

/-!
# Machine sizes

The sizes, lengths and counters of the source are `usize` on a 64-bit target. The models carry
them as natural numbers and spell out the operations at which the width shows: the saturating
sum and product. A saturating difference is the difference of natural numbers.
-/

namespace NovumAgent

/-- `usize::MAX` on a 64-bit target. -/
def usizeMax : Nat := 2 ^ 64 - 1

/-- `isize::MAX` on a 64-bit target: no allocation of the source is longer. -/
def isizeMax : Nat := 2 ^ 63 - 1

def saturatingAdd (a b : Nat) : Nat := min (a + b) usizeMax

def saturatingMul (a b : Nat) : Nat := min (a * b) usizeMax

theorem isizeMax_lt_usizeMax : isizeMax + 4 < usizeMax := by decide

variable {a b m : Nat}

theorem saturatingAdd_of_le (h : a + b ≤ usizeMax) : saturatingAdd a b = a + b :=
  Nat.min_eq_left h

theorem saturatingAdd_le_of_le (h : saturatingAdd a b ≤ m) (hm : m < usizeMax) : a + b ≤ m := by
  unfold saturatingAdd at h
  omega

/-- Below a bound that is itself a `usize`, a saturating sum and the sum clip alike. -/
theorem min_saturatingAdd (hm : m ≤ usizeMax) : min (saturatingAdd a b) m = min (a + b) m := by
  unfold saturatingAdd
  omega

end NovumAgent
