import UmkaOs.Arith.Model
import Mathlib.Data.BitVec

namespace UmkaOs.Arith

variable (a : BitVec 64) (b : BitVec 32) {n : Nat}

/-- `b &= 63` -/
theorem toNat_low_bits : (b &&& 63).toNat = b.toNat % 64 := by
  rw [BitVec.toNat_and]
  exact Nat.and_two_pow_sub_one_eq_mod b.toNat 6

theorem getLsbD_hi (i : Nat) : (hi a).getLsbD i = (decide (i < 32) && a.getLsbD (32 + i)) :=
  BitVec.getLsbD_extractLsb' 32 32 a i

theorem getLsbD_lo (i : Nat) : (lo a).getLsbD i = (decide (i < 32) && a.getLsbD i) := by
  rw [lo, BitVec.getLsbD_extractLsb', Nat.zero_add]

theorem msb_hi : (hi a).msb = a.msb := by
  rw [BitVec.msb_eq_getLsbD_last, BitVec.msb_eq_getLsbD_last, getLsbD_hi]
  rfl

/-- What both right shifts by less than a half leave in the low half. -/
theorem getLsbD_low_half (positive : n ≠ 0) (small : n < 32) (i : Nat) :
    (hi a <<< (32 - n) ||| lo a >>> n).getLsbD i = (decide (i < 32) && a.getLsbD (n + i)) := by
  simp only [BitVec.getLsbD_or, BitVec.getLsbD_shiftLeft, BitVec.getLsbD_ushiftRight, getLsbD_lo, getLsbD_hi]
  by_cases low : i < 32 - n
  · grind
  · have place : 32 + (i - (32 - n)) = n + i := by omega
    rw [place]
    grind

theorem ashldi3_eq : ashldi3 a b = a <<< (b.toNat % 64) := by
  rw [ashldi3, toNat_low_bits]
  generalize shift : b.toNat % 64 = n
  have small : n < 64 := by omega
  apply BitVec.eq_of_getLsbD_eq
  intro i inside
  split
  · simp only [BitVec.getLsbD_append, BitVec.getLsbD_shiftLeft, getLsbD_lo, BitVec.getLsbD_zero]
    grind
  · split
    · simp only [BitVec.getLsbD_append, BitVec.getLsbD_shiftLeft, BitVec.getLsbD_or, BitVec.getLsbD_ushiftRight,
        getLsbD_lo, getLsbD_hi]
      grind
    · grind

theorem lshrdi3_eq : lshrdi3 a b = a >>> (b.toNat % 64) := by
  rw [lshrdi3, toNat_low_bits]
  generalize shift : b.toNat % 64 = n
  have small : n < 64 := by omega
  apply BitVec.eq_of_getLsbD_eq
  intro i inside
  split
  · simp only [BitVec.getLsbD_append, BitVec.getLsbD_ushiftRight, getLsbD_hi, BitVec.getLsbD_zero]
    grind
  · split
    · rename_i positive
      simp only [BitVec.getLsbD_append, BitVec.getLsbD_ushiftRight, getLsbD_hi]
      rw [getLsbD_low_half a positive (by omega)]
      grind
    · grind

theorem ashrdi3_eq : ashrdi3 a b = a.sshiftRight (b.toNat % 64) := by
  rw [ashrdi3, toNat_low_bits]
  generalize shift : b.toNat % 64 = n
  have small : n < 64 := by omega
  apply BitVec.eq_of_getLsbD_eq
  intro i inside
  rw [BitVec.getLsbD_sshiftRight]
  split
  · simp only [BitVec.getLsbD_append, BitVec.getLsbD_sshiftRight, getLsbD_hi, msb_hi]
    grind
  · split
    · rename_i positive
      simp only [BitVec.getLsbD_append, BitVec.getLsbD_sshiftRight, getLsbD_hi, msb_hi]
      rw [getLsbD_low_half a positive (by omega)]
      grind
    · grind

/-- The routines shift by the lowest six bits of the count, whichever half it reaches. -/
theorem word_shifts : ashldi3 a b = a <<< (b.toNat % 64) ∧ lshrdi3 a b = a >>> (b.toNat % 64) ∧
    ashrdi3 a b = a.sshiftRight (b.toNat % 64) :=
  ⟨ashldi3_eq a b, lshrdi3_eq a b, ashrdi3_eq a b⟩

end UmkaOs.Arith
