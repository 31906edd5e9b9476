import Mathlib.Algebra.BigOperators.Intervals
import Mathlib.Tactic.Ring

/-! Fields of a word that are added in parallel. A number is read as fields of `v`
bits, the lowest first; a step adds the two fields of every pair, and the number it
leaves has half as many fields of twice the width with the same sum. -/

namespace UmkaOs.Lib

open Finset

variable {a b c i k m v x y : Nat}

def field (v i x : Nat) : Nat := x / 2 ^ (v * i) % 2 ^ v

/-- The sum of the lowest `m` fields. -/
def total (v m x : Nat) : Nat := ∑ i ∈ range m, field v i x

/-- The sums of the lowest `m` pairs of fields, in fields of twice the width. -/
def pairSums (v : Nat) : Nat → Nat → Nat
  | 0, _ => 0
  | m + 1, x => field v 0 x + field v 1 x + 2 ^ (2 * v) * pairSums v m (x / 2 ^ (2 * v))

/-- The mask of the lower field of each of the lowest `m` pairs. -/
def lowerFields (v : Nat) : Nat → Nat
  | 0 => 0
  | m + 1 => 2 ^ v - 1 + 2 ^ (2 * v) * lowerFields v m

/-- No field is above `b`. -/
def Bounded (v b x : Nat) : Prop := ∀ i, field v i x ≤ b

theorem double_width (v : Nat) : 2 ^ (2 * v) = 2 ^ v * 2 ^ v := by rw [Nat.two_mul, Nat.pow_add]

theorem field_zero (v x : Nat) : field v 0 x = x % 2 ^ v := by simp [field]

theorem field_one (v x : Nat) : field v 1 x = x / 2 ^ v % 2 ^ v := by simp [field]

theorem field_lt (v i x : Nat) : field v i x < 2 ^ v := Nat.mod_lt _ (Nat.two_pow_pos v)

theorem field_shift (v i k x : Nat) : field v i (x / 2 ^ (v * k)) = field v (k + i) x := by
  rw [field, field, Nat.div_div_eq_div_mul, ← Nat.pow_add, ← Nat.mul_add]

theorem Bounded.shift (bounded : Bounded v b x) (k : Nat) : Bounded v b (x / 2 ^ (v * k)) := by
  intro i
  rw [field_shift]
  exact bounded (k + i)

theorem Bounded.shift_one (bounded : Bounded v b x) : Bounded v b (x / 2 ^ v) := by
  simpa using bounded.shift 1

theorem pair_split (v x : Nat) : x = field v 0 x + 2 ^ v * field v 1 x + 2 ^ (2 * v) * (x / 2 ^ (2 * v)) := by
  have lower := Nat.mod_add_div x (2 ^ v)
  have upper := Nat.mod_add_div (x / 2 ^ v) (2 ^ v)
  rw [Nat.div_div_eq_div_mul, ← double_width] at upper
  rw [field_zero, field_one]
  calc x = x % 2 ^ v + 2 ^ v * (x / 2 ^ v) := lower.symm
    _ = x % 2 ^ v + 2 ^ v * (x / 2 ^ v % 2 ^ v + 2 ^ v * (x / 2 ^ (2 * v))) := by rw [upper]
    _ = _ := by rw [double_width]; ring

theorem pair_lt (lower : a < 2 ^ v) (upper : b < 2 ^ v) : a + 2 ^ v * b < 2 ^ (2 * v) := by
  have room := Nat.mul_le_mul_left (2 ^ v) (Nat.succ_le_of_lt upper)
  rw [Nat.mul_succ] at room
  rw [double_width]
  omega

/-- A mask of lower fields cuts off what stands in the upper ones. -/
theorem and_lowerFields (lower : a < 2 ^ v) (upper : b < 2 ^ v) :
    (a + 2 ^ v * b + 2 ^ (2 * v) * c) &&& lowerFields v (m + 1) = a + 2 ^ (2 * v) * (c &&& lowerFields v m) := by
  have pair := pair_lt lower upper
  have wider : 2 ^ v ≤ 2 ^ (2 * v) := Nat.pow_le_pow_right Nat.two_pos (by omega)
  have mask : 2 ^ v - 1 < 2 ^ (2 * v) := by omega
  apply Nat.eq_of_testBit_eq
  intro i
  rw [lowerFields, Nat.testBit_and, Nat.add_comm _ (2 ^ (2 * v) * c), Nat.testBit_two_pow_mul_add _ pair,
    Nat.add_comm _ (2 ^ (2 * v) * lowerFields v m), Nat.testBit_two_pow_mul_add _ mask,
    Nat.add_comm a (2 ^ (2 * v) * _), Nat.testBit_two_pow_mul_add _ (by omega : a < 2 ^ (2 * v))]
  split
  · rw [Nat.testBit_two_pow_sub_one, Nat.add_comm a, Nat.testBit_two_pow_mul_add _ lower]
    by_cases inner : i < v
    · simp [inner]
    · have outside : a.testBit i = false :=
        Nat.testBit_lt_two_pow (Nat.lt_of_lt_of_le lower (Nat.pow_le_pow_right Nat.two_pos (by omega)))
      simp [inner, outside]
  · rw [Nat.testBit_and]

theorem and_lowerFields_succ (v m x : Nat) :
    x &&& lowerFields v (m + 1) = field v 0 x + 2 ^ (2 * v) * (x / 2 ^ (2 * v) &&& lowerFields v m) := by
  conv_lhs => rw [pair_split v x]
  exact and_lowerFields (field_lt v 0 x) (field_lt v 1 x)

theorem and_lowerFields_shift (v m x : Nat) : x / 2 ^ v &&& lowerFields v (m + 1) =
    field v 1 x + 2 ^ (2 * v) * (x / 2 ^ (2 * v) / 2 ^ v &&& lowerFields v m) := by
  rw [and_lowerFields_succ, field_zero, ← field_one, Nat.div_div_eq_div_mul, Nat.div_div_eq_div_mul,
    Nat.mul_comm (2 ^ v)]

theorem masked_sum (v m x : Nat) : (x / 2 ^ v &&& lowerFields v m) + (x &&& lowerFields v m) = pairSums v m x := by
  induction m generalizing x with
  | zero => simp [lowerFields, pairSums]
  | succ m ih =>
    rw [and_lowerFields_shift, and_lowerFields_succ, pairSums, ← ih]
    ring

theorem masked_split (inside : x < 2 ^ (2 * v * m)) :
    x = (x &&& lowerFields v m) + 2 ^ v * (x / 2 ^ v &&& lowerFields v m) := by
  induction m generalizing x with
  | zero =>
    have none : x = 0 := by simpa using inside
    simp [none]
  | succ m ih =>
    rw [Nat.mul_succ, Nat.add_comm, Nat.pow_add] at inside
    have rest := ih (Nat.div_lt_of_lt_mul inside)
    rw [and_lowerFields_shift, and_lowerFields_succ]
    conv_lhs => rw [pair_split v x, rest]
    ring

/-- For fields of one bit the sums are a difference. -/
theorem masked_difference (inside : x < 2 ^ (2 * m)) : x - (x / 2 &&& lowerFields 1 m) = pairSums 1 m x := by
  have whole := masked_split (v := 1) (m := m) (by simpa using inside)
  have sum := masked_sum 1 m x
  simp only [Nat.pow_one] at whole sum
  omega

theorem add_div_pow (room : b + c < 2 ^ v) (first : Bounded v b x) (second : Bounded v c y) (i : Nat) :
    (x + y) / 2 ^ (v * i) = x / 2 ^ (v * i) + y / 2 ^ (v * i) := by
  induction i with
  | zero => simp
  | succ i ih =>
    have low := first i
    have low' := second i
    rw [field] at low low'
    rw [Nat.mul_succ, Nat.pow_add, ← Nat.div_div_eq_div_mul, ih, ← Nat.div_div_eq_div_mul, ← Nat.div_div_eq_div_mul,
      Nat.add_div (Nat.two_pow_pos v), if_neg (by omega), Nat.add_zero]

/-- Fields that are small enough are added without a carry. -/
theorem field_add (room : b + c < 2 ^ v) (first : Bounded v b x) (second : Bounded v c y) (i : Nat) :
    field v i (x + y) = field v i x + field v i y := by
  have low := first i
  have low' := second i
  rw [field] at low low'
  rw [field, add_div_pow room first second, Nat.add_mod, Nat.mod_eq_of_lt (by omega), field, field]

theorem Bounded.add (room : b + c < 2 ^ v) (first : Bounded v b x) (second : Bounded v c y) :
    Bounded v (b + c) (x + y) := by
  intro i
  rw [field_add room first second]
  exact Nat.add_le_add (first i) (second i)

/-- Where the sums of pairs fit into a field, one mask is enough. -/
theorem sum_masked (room : b + b < 2 ^ v) (bounded : Bounded v b x) :
    (x + x / 2 ^ v) &&& lowerFields v m = pairSums v m x := by
  induction m generalizing x with
  | zero => simp [lowerFields, pairSums]
  | succ m ih =>
    have lowest := field_add room bounded bounded.shift_one 0
    have above := add_div_pow room bounded bounded.shift_one 2
    rw [field_zero v (x / 2 ^ v), ← field_one] at lowest
    rw [Nat.mul_comm v 2, Nat.div_div_eq_div_mul, Nat.mul_comm (2 ^ v), ← Nat.div_div_eq_div_mul] at above
    have rest := bounded.shift 2
    rw [Nat.mul_comm v 2] at rest
    rw [and_lowerFields_succ, lowest, above, ih rest, pairSums]

/-- The fields of the sums of pairs. -/
theorem field_pairSums (positive : 0 < v) (m i x : Nat) :
    field (2 * v) i (pairSums v m x) = if i < m then field v (2 * i) x + field v (2 * i + 1) x else 0 := by
  induction m generalizing i x with
  | zero => simp [pairSums, field]
  | succ m ih =>
    have first := field_lt v 0 x
    have second := field_lt v 1 x
    have fits : field v 0 x + field v 1 x < 2 ^ (2 * v) := by
      have twice : 2 ^ v * 2 ≤ 2 ^ v * 2 ^ v := Nat.mul_le_mul_left _ (Nat.le_self_pow (Nat.ne_of_gt positive) 2)
      rw [double_width]
      omega
    cases i with
    | zero => rw [field_zero, pairSums, Nat.add_mul_mod_self_left, Nat.mod_eq_of_lt fits, if_pos (by omega)]
    | succ i =>
      have rest : field (2 * v) (i + 1) (pairSums v (m + 1) x) =
          field (2 * v) i (pairSums v m (x / 2 ^ (2 * v))) := by
        rw [Nat.add_comm i 1, ← field_shift, Nat.mul_one, pairSums, Nat.add_mul_div_left _ _ (Nat.two_pow_pos _),
          Nat.div_eq_of_lt fits, Nat.zero_add]
      rw [rest, ih, Nat.mul_comm 2 v, field_shift, field_shift]
      simp only [Nat.succ_lt_succ_iff, Nat.mul_succ, Nat.add_comm 2, Nat.add_right_comm _ 1 2]

theorem Bounded.pairSums (positive : 0 < v) (bounded : Bounded v b x) : Bounded (2 * v) (2 * b) (pairSums v m x) := by
  intro i
  have low := bounded (2 * i)
  have high := bounded (2 * i + 1)
  rw [field_pairSums positive]
  split <;> omega

/-- Adding in pairs keeps the sum of the fields. -/
theorem total_pairSums (positive : 0 < v) (m x : Nat) : total (2 * v) m (pairSums v m x) = total v (2 * m) x := by
  rw [total, total, sum_congr rfl fun i inside => by rw [field_pairSums positive, if_pos (mem_range.mp inside)]]
  clear positive
  induction m with
  | zero => rfl
  | succ m ih => rw [sum_range_succ, ih, Nat.mul_succ, sum_range_succ, sum_range_succ, Nat.add_assoc]

/-- Adding the upper half of the fields to the lower half. -/
theorem total_fold (room : b + b < 2 ^ v) (bounded : Bounded v b x) (m : Nat) :
    total v m (x + x / 2 ^ (v * m)) = total v (2 * m) x := by
  rw [total, total, Nat.two_mul, sum_range_add, ← sum_add_distrib]
  apply sum_congr rfl
  intro i _
  rw [field_add room bounded (bounded.shift m), field_shift]

theorem total_one (v x : Nat) : total v 1 x = x % 2 ^ v := by rw [total, sum_range_one, field_zero]

end UmkaOs.Lib
