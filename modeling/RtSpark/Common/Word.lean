import Mathlib.Data.Nat.Notation
import Mathlib.Algebra.Group.Nat.Defs
/-!
# Thirty-two bit arithmetic

What an unsigned variable of thirty-two bits keeps of a sum, a difference
or a product.
-/

namespace RtSpark

namespace Word

/-- What a thirty-two bit variable keeps of a value. -/
def u32 (n : ℕ) : ℕ := n % 2 ^ 32

/-- The difference of two thirty-two bit values. -/
def sub32 (a b : ℕ) : ℕ := u32 (a + (2 ^ 32 - b))

variable {a b : ℕ}

theorem u32_of_lt (h : a < 2 ^ 32) : u32 a = a := Nat.mod_eq_of_lt h

theorem sub32_of_le (ha : a < 2 ^ 32) (h : b ≤ a) : sub32 a b = a - b := by
  unfold sub32 u32
  omega

/-- **A difference below zero** comes out as what is missing to `2 ^ 32`. -/
theorem sub32_of_lt (hb : b < 2 ^ 32) (h : a < b) : sub32 a b = 2 ^ 32 - (b - a) := by
  unfold sub32 u32
  omega

end Word

end RtSpark
