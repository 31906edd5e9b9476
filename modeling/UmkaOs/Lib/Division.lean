import Mathlib.Data.Nat.ModEq
import Mathlib.Tactic.Ring

/-! Division by shifting and subtracting. A prefix of the numerator is what stands
above its lowest bits; the next prefix has one bit more. -/

namespace UmkaOs.Lib

variable {bit d m n t : Nat}

/-- The quotient and the remainder of a prefix give those of the next one. -/
theorem div_mod_bit (positive : 0 < d) (digit : bit < 2) :
    (2 * m + bit) / d = 2 * (m / d) + (if d ≤ 2 * (m % d) + bit then 1 else 0) ∧
      (2 * m + bit) % d = 2 * (m % d) + bit - if d ≤ 2 * (m % d) + bit then d else 0 := by
  have whole := Nat.div_add_mod m d
  have below := Nat.mod_lt m positive
  have doubled : d * (2 * (m / d)) = 2 * (d * (m / d)) := by ring
  rw [Nat.div_mod_unique positive]
  split
  · rename_i fits
    rw [Nat.mul_add, doubled]
    omega
  · rename_i small
    rw [Nat.add_zero, doubled]
    omega

theorem prefix_bit (n t : Nat) : n / 2 ^ t = 2 * (n / 2 ^ (t + 1)) + n / 2 ^ t % 2 := by
  rw [pow_succ, ← Nat.div_div_eq_div_mul, Nat.div_add_mod]

/-- The bit that a prefix gains is the highest one below it. -/
theorem highest_bit (n t : Nat) : n % 2 ^ (t + 1) = 2 ^ t * (n / 2 ^ t % 2) + n % 2 ^ t := by
  rw [Nat.mod_pow_succ, Nat.add_comm]

end UmkaOs.Lib
