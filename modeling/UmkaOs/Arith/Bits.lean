import UmkaOs.Arith.Model
import UmkaOs.Lib.Fields
import Mathlib.Tactic.NormNum

/-! Leading zeros, trailing zeros and the number of bits. The searches halve the part of
the word in which the outermost bit stands. -/

namespace UmkaOs.Arith

open Lib

variable {w v b k top n m : Nat} {a x : BitVec w} {s : BitVec w × Nat}

/-- The upper bits of a word are zero if it is small. -/
theorem and_upper_eq_zero (n : Nat) : x &&& BitVec.allOnes w <<< n = 0 ↔ x.toNat < 2 ^ n := by
  constructor
  · intro none
    by_contra large
    obtain ⟨i, above, bit⟩ := Nat.exists_ge_and_testBit_of_ge_two_pow (Nat.le_of_not_lt large)
    have inside : i < w := by
      by_contra outside
      have zero : x.toNat.testBit i = false := BitVec.getLsbD_of_ge x i (by omega)
      rw [zero] at bit
      cases bit
    have off := congrArg (fun y => y.getLsbD i) none
    simp only [BitVec.getLsbD_and, BitVec.getLsbD_shiftLeft, BitVec.getLsbD_allOnes] at off
    have on : x.getLsbD i = true := bit
    simp [on, inside] at off
    omega
  · intro small
    apply BitVec.eq_of_getLsbD_eq
    intro i _
    rw [BitVec.getLsbD_and, BitVec.getLsbD_shiftLeft]
    by_cases below : i < n
    · simp [below]
    · have zero : x.getLsbD i = false :=
        Nat.testBit_lt_two_pow (Nat.lt_of_lt_of_le small (Nat.pow_le_pow_right Nat.two_pos (by omega)))
      simp [zero]

/-- The word so far is the argument shifted by the count so far, with a bit among its
uppermost ones. -/
def Leading (a : BitVec w) (top : Nat) (s : BitVec w × Nat) : Prop :=
  s.1.toNat = a.toNat * 2 ^ s.2 ∧ 2 ^ (w - top) ≤ s.1.toNat

theorem leading_start (nonzero : a ≠ 0) : Leading a w (a, 0) := by
  have positive : a.toNat ≠ 0 := fun zero => nonzero (BitVec.eq_of_toNat_eq zero)
  exact ⟨by simp, by simpa using Nat.one_le_iff_ne_zero.mpr positive⟩

theorem leading_step (mask : BitVec w) (leading : Leading a (2 ^ (k + 1)) s) (fits : 2 ^ (k + 1) ≤ w)
    (upper : mask = BitVec.allOnes w <<< (w - 2 ^ k)) : Leading a (2 ^ k) (leadingStep mask k s) := by
  obtain ⟨shifted, high⟩ := leading
  have half : 2 ^ (k + 1) = 2 ^ k + 2 ^ k := by rw [pow_succ, Nat.mul_two]
  subst upper
  by_cases small : s.1.toNat < 2 ^ (w - 2 ^ k)
  · rw [leadingStep, flag, if_pos ((and_upper_eq_zero _).mpr small), Nat.one_shiftLeft]
    have room : s.1.toNat * 2 ^ 2 ^ k < 2 ^ w := by
      have grown := Nat.mul_lt_mul_of_pos_right small (Nat.two_pow_pos (2 ^ k))
      rwa [← Nat.pow_add, Nat.sub_add_cancel (by omega)] at grown
    have moved : (s.1 <<< 2 ^ k).toNat = s.1.toNat * 2 ^ 2 ^ k := by
      rw [BitVec.toNat_shiftLeft, Nat.shiftLeft_eq, Nat.mod_eq_of_lt room]
    constructor
    · rw [moved, shifted, Nat.mul_assoc, ← Nat.pow_add]
    · have grown := Nat.mul_le_mul_right (2 ^ 2 ^ k) high
      rwa [← Nat.pow_add, show w - 2 ^ (k + 1) + 2 ^ k = w - 2 ^ k by omega, ← moved] at grown
  · rw [leadingStep, flag, if_neg (mt (and_upper_eq_zero _).mp small), Nat.zero_shiftLeft]
    exact ⟨by simpa using shifted, by simpa using Nat.le_of_not_lt small⟩

theorem leading_end (leading : Leading a 1 s) : 2 ^ (w - 1) ≤ a.toNat * 2 ^ s.2 ∧ a.toNat * 2 ^ s.2 < 2 ^ w := by
  obtain ⟨shifted, high⟩ := leading
  rw [← shifted]
  exact ⟨high, s.1.isLt⟩

theorem clzsi2_spec (a : BitVec 32) (nonzero : a ≠ 0) :
    2 ^ 31 ≤ a.toNat * 2 ^ clzsi2 a ∧ a.toNat * 2 ^ clzsi2 a < 2 ^ 32 := by
  have first := leading_step (k := 4) 0xffff0000 (leading_start nonzero) (by decide) (by decide)
  have second := leading_step (k := 3) 0xff000000 first (by decide) (by decide)
  have third := leading_step (k := 2) 0xf0000000 second (by decide) (by decide)
  have fourth := leading_step (k := 1) 0xc0000000 third (by decide) (by decide)
  exact leading_end (leading_step (k := 0) 0x80000000 fourth (by decide) (by decide))

theorem clzdi2_spec (a : BitVec 64) (nonzero : a ≠ 0) :
    2 ^ 63 ≤ a.toNat * 2 ^ clzdi2 a ∧ a.toNat * 2 ^ clzdi2 a < 2 ^ 64 := by
  have first := leading_step (k := 5) 0xffffffff00000000 (leading_start nonzero) (by decide) (by decide)
  have second := leading_step (k := 4) 0xffff000000000000 first (by decide) (by decide)
  have third := leading_step (k := 3) 0xff00000000000000 second (by decide) (by decide)
  have fourth := leading_step (k := 2) 0xf000000000000000 third (by decide) (by decide)
  have fifth := leading_step (k := 1) 0xc000000000000000 fourth (by decide) (by decide)
  exact leading_end (leading_step (k := 0) 0x8000000000000000 fifth (by decide) (by decide))

/-- The argument is the word so far shifted by the count so far, and the lowest bits of
the word are not all zero. -/
def Trailing (a : BitVec w) (top : Nat) (s : BitVec w × Nat) : Prop :=
  a.toNat = s.1.toNat * 2 ^ s.2 ∧ ¬ 2 ^ top ∣ s.1.toNat

theorem trailing_start (nonzero : a ≠ 0) : Trailing a w (a, 0) := by
  have positive : a.toNat ≠ 0 := fun zero => nonzero (BitVec.eq_of_toNat_eq zero)
  exact ⟨by simp, fun divides => Nat.not_le_of_lt a.isLt (Nat.le_of_dvd (Nat.pos_of_ne_zero positive) divides)⟩

theorem and_lower_eq_zero (fits : n ≤ w) : x &&& BitVec.ofNat w (2 ^ n - 1) = 0 ↔ 2 ^ n ∣ x.toNat := by
  have narrow : 2 ^ n - 1 < 2 ^ w := by
    have wider := Nat.pow_le_pow_right Nat.two_pos fits
    have some := Nat.two_pow_pos n
    omega
  rw [← BitVec.toNat_inj, BitVec.toNat_and, BitVec.toNat_ofNat, Nat.mod_eq_of_lt narrow,
    Nat.and_two_pow_sub_one_eq_mod, Nat.dvd_iff_mod_eq_zero]
  rfl

theorem trailing_step (mask : BitVec w) (trailing : Trailing a (2 ^ (k + 1)) s) (fits : 2 ^ (k + 1) ≤ w)
    (lower : mask = BitVec.ofNat w (2 ^ 2 ^ k - 1)) : Trailing a (2 ^ k) (trailingStep mask k s) := by
  obtain ⟨shifted, low⟩ := trailing
  have half : 2 ^ (k + 1) = 2 ^ k + 2 ^ k := by rw [pow_succ, Nat.mul_two]
  subst lower
  by_cases divides : 2 ^ 2 ^ k ∣ s.1.toNat
  · rw [trailingStep, flag, if_pos ((and_lower_eq_zero (by omega)).mpr divides), Nat.one_shiftLeft]
    have moved : (s.1 >>> 2 ^ k).toNat = s.1.toNat / 2 ^ 2 ^ k := by
      rw [BitVec.toNat_ushiftRight, Nat.shiftRight_eq_div_pow]
    have back := Nat.div_mul_cancel divides
    constructor
    · rw [moved, Nat.add_comm, Nat.pow_add, ← Nat.mul_assoc, back, shifted]
    · intro again
      rw [moved] at again
      have whole := Nat.mul_dvd_mul_right again (2 ^ 2 ^ k)
      rw [back, ← Nat.pow_add, ← half] at whole
      exact low whole
  · rw [trailingStep, flag, if_neg (mt (and_lower_eq_zero (by omega)).mp divides), Nat.zero_shiftLeft]
    exact ⟨by simpa using shifted, by simpa using divides⟩

theorem trailing_end (trailing : Trailing a 1 s) : 2 ^ s.2 ∣ a.toNat ∧ ¬ 2 ^ (s.2 + 1) ∣ a.toNat := by
  obtain ⟨shifted, low⟩ := trailing
  rw [shifted]
  refine ⟨Nat.dvd_mul_left _ _, fun divides => low ?_⟩
  rw [Nat.add_comm, Nat.pow_add] at divides
  exact Nat.dvd_of_mul_dvd_mul_right (Nat.two_pow_pos s.2) divides

theorem ctzsi2_spec (a : BitVec 32) (nonzero : a ≠ 0) :
    2 ^ ctzsi2 a ∣ a.toNat ∧ ¬ 2 ^ (ctzsi2 a + 1) ∣ a.toNat := by
  have first := trailing_step (k := 4) 0x0000ffff (trailing_start nonzero) (by decide) (by decide)
  have second := trailing_step (k := 3) 0x000000ff first (by decide) (by decide)
  have third := trailing_step (k := 2) 0x0000000f second (by decide) (by decide)
  have fourth := trailing_step (k := 1) 0x00000003 third (by decide) (by decide)
  exact trailing_end (trailing_step (k := 0) 0x00000001 fourth (by decide) (by decide))

theorem ctzdi2_spec (a : BitVec 64) (nonzero : a ≠ 0) :
    2 ^ ctzdi2 a ∣ a.toNat ∧ ¬ 2 ^ (ctzdi2 a + 1) ∣ a.toNat := by
  have first := trailing_step (k := 5) 0x00000000ffffffff (trailing_start nonzero) (by decide) (by decide)
  have second := trailing_step (k := 4) 0x000000000000ffff first (by decide) (by decide)
  have third := trailing_step (k := 3) 0x00000000000000ff second (by decide) (by decide)
  have fourth := trailing_step (k := 2) 0x000000000000000f third (by decide) (by decide)
  have fifth := trailing_step (k := 1) 0x0000000000000003 fourth (by decide) (by decide)
  exact trailing_end (trailing_step (k := 0) 0x0000000000000001 fifth (by decide) (by decide))

/-- Both searches find the outermost set bit of every word but zero, and the first set
bit counts from one. -/
theorem zero_counts (a : BitVec 32) (b : BitVec 64) (some : a ≠ 0) (some' : b ≠ 0) :
    (2 ^ 31 ≤ a.toNat * 2 ^ clzsi2 a ∧ a.toNat * 2 ^ clzsi2 a < 2 ^ 32) ∧
      (2 ^ 63 ≤ b.toNat * 2 ^ clzdi2 b ∧ b.toNat * 2 ^ clzdi2 b < 2 ^ 64) ∧
      (2 ^ ctzsi2 a ∣ a.toNat ∧ ¬ 2 ^ (ctzsi2 a + 1) ∣ a.toNat) ∧
      (2 ^ ctzdi2 b ∣ b.toNat ∧ ¬ 2 ^ (ctzdi2 b + 1) ∣ b.toNat) ∧ ffsdi2 b = ctzdi2 b + 1 :=
  ⟨clzsi2_spec a some, clzdi2_spec b some', ctzsi2_spec a some, ctzdi2_spec b some', if_pos some'⟩

theorem zero_counts_ten : (2 ^ 31 ≤ 10 * 2 ^ clzsi2 10 ∧ 10 * 2 ^ clzsi2 10 < 2 ^ 32) ∧ ffsdi2 10 = ctzdi2 10 + 1 := by
  obtain ⟨leading, _, _, _, first⟩ := zero_counts 10 10 (by decide) (by decide)
  exact ⟨leading, first⟩

theorem total_bits (m : Nat) (x : BitVec w) : total 1 m x.toNat = x.cpopNatRec m 0 := by
  induction m with
  | zero => rfl
  | succ m ih =>
    have bit : field 1 m x.toNat = (x.getLsbD m).toNat := by
      rw [field, Nat.one_mul, Nat.pow_one, BitVec.getLsbD, Nat.toNat_testBit]
    rw [BitVec.cpopNatRec_succ, BitVec.cpopNatRec_eq, ← ih, total, Finset.sum_range_succ, bit, Nat.zero_add]
    rfl

/-- The lowest `m` fields add up to the count, and no field is above `b`. -/
def Counts (n v m b : Nat) (x : BitVec w) : Prop := total v m x.toNat = n ∧ Bounded v b x.toNat

/-- No carry leaves the word. -/
theorem toNat_shift_add (bounded : Bounded v b x.toNat) (small : b + b < 2 ^ v) (width : w = v * top) (m : Nat) :
    (x + x >>> (v * m)).toNat = x.toNat + x.toNat / 2 ^ (v * m) := by
  subst width
  have inside : x.toNat < 2 ^ (v * top) := x.isLt
  have none : x.toNat / 2 ^ (v * m) < 2 ^ (v * top) := Nat.lt_of_le_of_lt (Nat.div_le_self _ _) inside
  have sum := add_div_pow small bounded (bounded.shift m) top
  rw [Nat.div_eq_of_lt inside, Nat.div_eq_of_lt none] at sum
  have fits := Nat.lt_of_div_eq_zero (Nat.two_pow_pos (v * top)) sum
  rw [BitVec.toNat_add, BitVec.toNat_ushiftRight, Nat.shiftRight_eq_div_pow, Nat.mod_eq_of_lt fits]

/-- The first step: a pair of bits is a number already. -/
theorem counts_pairs (mask : BitVec w) (fields : mask.toNat = lowerFields 1 m) (width : w = 2 * m)
    (counts : Counts n 1 (2 * m) b x) : Counts n 2 m (2 * b) (x - (x >>> 1 &&& mask)) := by
  have inside : x.toNat < 2 ^ (2 * m) := width ▸ x.isLt
  have smaller : x.toNat / 2 &&& lowerFields 1 m ≤ x.toNat := Nat.le_trans Nat.and_le_left (Nat.div_le_self _ _)
  have part : (x >>> 1 &&& mask).toNat = (x.toNat / 2 &&& lowerFields 1 m) := by
    rw [BitVec.toNat_and, BitVec.toNat_ushiftRight, Nat.shiftRight_eq_div_pow, fields, Nat.pow_one]
  rw [Counts, BitVec.toNat_sub_of_le (BitVec.le_def.mpr (part ▸ smaller)), part, masked_difference inside]
  exact ⟨(total_pairSums Nat.one_pos m _).trans counts.1, counts.2.pairSums Nat.one_pos⟩

theorem counts_sum (mask : BitVec w) (positive : 0 < v) (fields : mask.toNat = lowerFields v m)
    (room : 2 * mask.toNat < 2 ^ w) (counts : Counts n v (2 * m) b x) :
    Counts n (2 * v) m (2 * b) ((x >>> v &&& mask) + (x &&& mask)) := by
  have upper : x.toNat / 2 ^ v &&& mask.toNat ≤ mask.toNat := Nat.and_le_right
  have lower : x.toNat &&& mask.toNat ≤ mask.toNat := Nat.and_le_right
  rw [Counts, BitVec.toNat_add, BitVec.toNat_and, BitVec.toNat_and, BitVec.toNat_ushiftRight, Nat.shiftRight_eq_div_pow,
    Nat.mod_eq_of_lt (by omega), fields, masked_sum]
  exact ⟨(total_pairSums positive m _).trans counts.1, counts.2.pairSums positive⟩

/-- Where the sums fit into a field, the mask is needed once. -/
theorem counts_masked (mask : BitVec w) (top : Nat) (positive : 0 < v) (fields : mask.toNat = lowerFields v m)
    (small : b + b < 2 ^ v) (width : w = v * top) (counts : Counts n v (2 * m) b x) :
    Counts n (2 * v) m (2 * b) ((x + x >>> v) &&& mask) := by
  have sum := toNat_shift_add counts.2 small width 1
  rw [Nat.mul_one] at sum
  rw [Counts, BitVec.toNat_and, sum, fields, sum_masked small counts.2]
  exact ⟨(total_pairSums positive m _).trans counts.1, counts.2.pairSums positive⟩

/-- The upper half of the fields is added to the lower half. -/
theorem counts_fold (top : Nat) (small : b + b < 2 ^ v) (width : w = v * top) (counts : Counts n v (2 * m) b x) :
    Counts n v m (b + b) (x + x >>> (v * m)) := by
  rw [Counts, toNat_shift_add counts.2 small width]
  exact ⟨(total_fold small counts.2 m).trans counts.1, counts.2.add small (counts.2.shift m)⟩

theorem counts_end (mask : BitVec w) (counts : Counts n 8 1 b x) (small : n < 2 ^ k) (inside : k ≤ 8)
    (low : mask.toNat = 2 ^ k - 1) : (x &&& mask).toNat = n := by
  have count := counts.1
  rw [total_one] at count
  rw [BitVec.toNat_and, low, Nat.and_two_pow_sub_one_eq_mod, ← Nat.mod_mod_of_dvd _ (Nat.pow_dvd_pow 2 inside), count,
    Nat.mod_eq_of_lt small]

theorem counts_bits (x : BitVec w) : Counts x.cpop.toNat 1 w 1 x :=
  ⟨by rw [total_bits, BitVec.toNat_cpop], fun i => Nat.le_of_lt_succ (field_lt 1 i _)⟩

theorem popcountsi2_eq (a : BitVec 32) : popcountsi2 a = a.cpop.toNat := by
  have pairs := counts_pairs (m := 16) 0x55555555 (by decide) rfl (counts_bits a)
  have nibbles := counts_sum (m := 8) 0x33333333 Nat.two_pos (by decide) (by decide) pairs
  have bytes := counts_masked (m := 4) 0x0F0F0F0F 8 (by decide) (by decide) (by decide) rfl nibbles
  have halves := counts_fold (m := 2) 4 (by decide) rfl bytes
  have low := counts_fold (m := 1) 4 (by decide) rfl halves
  exact counts_end (k := 6) 63 low (Nat.lt_of_le_of_lt a.toNat_cpop_le (by decide)) (by decide) rfl

theorem popcountdi2_eq (a : BitVec 64) : popcountdi2 a = a.cpop.toNat := by
  have pairs := counts_pairs (m := 32) 0x5555555555555555 (by decide) rfl (counts_bits a)
  have nibbles := counts_sum (m := 16) 0x3333333333333333 Nat.two_pos (by decide) (by decide) pairs
  have bytes := counts_masked (m := 8) 0x0F0F0F0F0F0F0F0F 16 (by decide) (by decide) (by decide) rfl
    nibbles
  have quarters := counts_fold (m := 4) 8 (by decide) rfl bytes
  have halves := counts_fold (m := 2) 8 (by decide) rfl quarters
  have low := counts_fold (m := 1) 8 (by decide) rfl halves
  exact counts_end (k := 7) 127 low (Nat.lt_of_le_of_lt a.toNat_cpop_le (by decide)) (by decide) rfl

/-- Adding fields in parallel counts the bits of every word. -/
theorem popcounts (a : BitVec 32) (b : BitVec 64) :
    popcountsi2 a = a.cpop.toNat ∧ popcountdi2 b = b.cpop.toNat :=
  ⟨popcountsi2_eq a, popcountdi2_eq b⟩

end UmkaOs.Arith
