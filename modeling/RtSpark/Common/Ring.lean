import Mathlib.Algebra.Order.Ring.Nat
import Mathlib.Algebra.Order.Group.Nat
import Mathlib.Data.Nat.Notation
import Mathlib.Data.Nat.ModEq
/-!
# Positions on a ring

A position that counts up is seen through its remainder by the length of the
ring. Two positions less than a round apart are told apart by their
remainders and by whether the later one has passed the start.
-/

namespace RtSpark

namespace Ring

variable {b m n : ℕ}

/-- Less than a round on, the quotient is the same or the next one. -/
theorem div_of_lt_round (hb : 0 < b) (hle : m ≤ n) (hlt : n < m + b) :
    n / b = m / b ∨ n / b = m / b + 1 := by
  have hlow : m / b ≤ n / b := Nat.div_le_div_right hle
  have hhigh : n / b ≤ (m + b) / b := Nat.div_le_div_right hlt.le
  rw [Nat.add_div_right m hb] at hhigh
  omega

/-- **The way round.** What lies between two positions is the difference of
their remainders, and a round more if the start was passed. -/
theorem add_mod_eq (hb : 0 < b) (hle : m ≤ n) (hlt : n < m + b) :
    m + n % b + (if n % b < m % b then b else 0) = n + m % b := by
  have hm := Nat.div_add_mod m b
  have hn := Nat.div_add_mod n b
  have hmlt := Nat.mod_lt m hb
  have hnlt := Nat.mod_lt n hb
  rcases div_of_lt_round hb hle hlt with h | h
  · rw [h] at hn
    rw [if_neg (by omega)]
    omega
  · rw [h, Nat.mul_add, Nat.mul_one] at hn
    rw [if_pos (by omega)]
    omega

/-- One step on the ring. -/
theorem succ_mod (hb : 0 < b) (n : ℕ) :
    (n + 1) % b = if n % b + 1 = b then 0 else n % b + 1 := by
  have hlt := Nat.mod_lt n hb
  rw [← Nat.mod_add_mod]
  split
  · rename_i h
    rw [h, Nat.mod_self]
  · exact Nat.mod_eq_of_lt (by omega)

/-- The step as a counter with a limit takes it. -/
theorem wrap_succ (h : n < b) : (if b ≤ n + 1 then 0 else n + 1) = (n + 1) % b := by
  split_ifs with hle
  · rw [show n + 1 = b by omega, Nat.mod_self]
  · exact (Nat.mod_eq_of_lt (by omega)).symm

/-- Less than a round on, places differ. -/
theorem add_mod_inj {i j k : ℕ} (hi : i < b) (hj : j < b) (h : (k + i) % b = (k + j) % b) :
    i = j := by
  have := Nat.ModEq.add_left_cancel' k h
  exact Nat.ModEq.eq_of_lt_of_lt this hi hj

/-- At most a round on, the end of the ring is passed or it is not. -/
theorem add_mod_split {k : ℕ} (hn : n < b) (hk : k ≤ b) :
    (n + k) % b = if n + k < b then n + k else n + k - b := by
  split_ifs with h
  · exact Nat.mod_eq_of_lt h
  · rw [Nat.mod_eq_sub_mod (by omega), Nat.mod_eq_of_lt (by omega)]

end Ring

end RtSpark
