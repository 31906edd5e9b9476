import UmkaOs.Arith.Bits
import UmkaOs.Lib.Division
import Mathlib.Tactic.Linarith

namespace UmkaOs.Arith

open Lib

variable {a b n x : BitVec 64} {s : Division} {t : Nat}

/-- `t` bits of the numerator `n` are still to come: the remainder is that of the bits
before them, the bits to come stand at the top of `a`, and the quotient so far stands
in the low bits of `a` and in `wrap`. -/
structure Dividing (n b : BitVec 64) (t : Nat) (s : Division) : Prop where
  rem : s.rem.toNat = n.toNat / 2 ^ t % b.toNat
  a : s.a.toNat = n.toNat % 2 ^ t * 2 ^ (64 - t) + n.toNat / 2 ^ t / b.toNat / 2
  wrap : s.wrap = if n.toNat / 2 ^ t / b.toNat % 2 = 1 then BitVec.allOnes 64 else 0

theorem toNat_shift_in (x y : BitVec 64) (bit : y.toNat < 2) :
    (x <<< 1 ||| y).toNat = 2 * (x.toNat % 2 ^ 63) + y.toNat := by
  have top : x.toNat * 2 ^ 1 % 2 ^ 64 = 2 ^ 1 * (x.toNat % 2 ^ 63) := by omega
  rw [BitVec.toNat_or, BitVec.toNat_shiftLeft, Nat.shiftLeft_eq, top, ← Nat.two_pow_add_eq_or_of_lt (i := 1) (by omega)]

theorem toNat_top_bit (x : BitVec 64) : (x >>> 63).toNat = x.toNat / 2 ^ 63 := by
  rw [BitVec.toNat_ushiftRight, Nat.shiftRight_eq_div_pow]

theorem toNat_wrap_bit (p : Prop) [Decidable p] :
    ((if p then BitVec.allOnes 64 else 0) &&& 1).toNat = if p then 1 else 0 := by
  split <;> rfl

/-- `wrap` is set where the divisor fits into the remainder. -/
theorem wrap_eq (rem : BitVec 64) (twice : rem.toNat < 2 * b.toNat) (near : b.toNat ≤ 2 ^ 63 ∨ b.toNat ≤ rem.toNat) :
    (b - rem - 1).sshiftRight 63 = if b.toNat ≤ rem.toNat then BitVec.allOnes 64 else 0 := by
  have sign : (b - rem - 1).msb = decide (b.toNat ≤ rem.toNat) := by
    rw [BitVec.msb_eq_decide, BitVec.toNat_sub, BitVec.toNat_sub]
    have one : (1 : BitVec 64).toNat = 1 := rfl
    have bounds := b.isLt
    rw [one, decide_eq_decide]
    omega
  apply BitVec.eq_of_getLsbD_eq
  intro i inside
  have spread : ((b - rem - 1).sshiftRight 63).getLsbD i = decide (b.toNat ≤ rem.toNat) := by
    rw [BitVec.getLsbD_sshiftRight, ← sign]
    by_cases lowest : i = 0
    · subst lowest
      simp [BitVec.msb_eq_getLsbD_last]
    · simp [inside, show ¬ 63 + i < 64 by omega]
  rw [spread]
  split
  · rename_i fits
    rw [BitVec.getLsbD_allOnes]
    simp [fits, inside]
  · rename_i small
    simp [small]

/-- The bits to come and the quotient so far do not meet. -/
theorem dividing_room (below : t < 64) (n d : Nat) (small : n < 2 ^ 64) :
    n % 2 ^ t * 2 ^ (63 - t) + n / 2 ^ (t + 1) / d / 2 < 2 ^ 63 := by
  have parts : 2 ^ (63 - t) * 2 ^ t = 2 ^ 63 := by rw [← Nat.pow_add, Nat.sub_add_cancel (by omega)]
  have whole : 2 ^ (t + 1) * 2 ^ (63 - t) = 2 ^ 64 := by rw [← Nat.pow_add]; congr 1; omega
  have quotient : n / 2 ^ (t + 1) < 2 ^ (63 - t) := Nat.div_lt_of_lt_mul (by rwa [whole])
  have smaller : n / 2 ^ (t + 1) / d / 2 ≤ n / 2 ^ (t + 1) :=
    Nat.le_trans (Nat.div_le_self _ _) (Nat.div_le_self _ _)
  have rest := Nat.mul_le_mul_right (2 ^ (63 - t)) (Nat.succ_le_of_lt (Nat.mod_lt n (Nat.two_pow_pos t)))
  rw [Nat.succ_mul, Nat.mul_comm (2 ^ t), parts] at rest
  omega

/-- The next bit of the numerator is the top bit of `a`. -/
theorem dividing_top (below : t < 64) (dividing : Dividing n b (t + 1) s) :
    s.a.toNat / 2 ^ 63 = n.toNat / 2 ^ t % 2 ∧
      s.a.toNat % 2 ^ 63 = n.toNat % 2 ^ t * 2 ^ (63 - t) + n.toNat / 2 ^ (t + 1) / b.toNat / 2 := by
  have room := dividing_room below n.toNat b.toNat n.isLt
  have parts : 2 ^ t * 2 ^ (63 - t) = 2 ^ 63 := by rw [← Nat.pow_add, Nat.add_sub_cancel' (by omega)]
  have word : s.a.toNat = 2 ^ 63 * (n.toNat / 2 ^ t % 2) +
      (n.toNat % 2 ^ t * 2 ^ (63 - t) + n.toNat / 2 ^ (t + 1) / b.toNat / 2) := by
    rw [dividing.a, highest_bit, Nat.add_mul, Nat.mul_right_comm, Nat.add_sub_add_right 63 1 t, parts, Nat.add_assoc]
  generalize n.toNat % 2 ^ t * 2 ^ (63 - t) + n.toNat / 2 ^ (t + 1) / b.toNat / 2 = low at *
  generalize n.toNat / 2 ^ t % 2 = bit at *
  omega

theorem dividing_step (positive : 0 < b.toNat) (below : t < 64) (near : b.toNat ≤ 2 ^ 63 ∨ t = 0 ∧ b.toNat ≤ n.toNat)
    (dividing : Dividing n b (t + 1) s) : Dividing n b t (divStep b s) := by
  obtain ⟨top, rest⟩ := dividing_top below dividing
  obtain ⟨rem, _, wrap⟩ := dividing
  have grown := prefix_bit n.toNat t
  have digit : n.toNat / 2 ^ t % 2 < 2 := Nat.mod_lt _ Nat.two_pos
  have modulo := Nat.mod_lt (n.toNat / 2 ^ (t + 1)) positive
  have smaller := Nat.mod_le (n.toNat / 2 ^ (t + 1)) b.toNat
  have word : n.toNat / 2 ^ t ≤ n.toNat := Nat.div_le_self _ _
  have bound := n.isLt
  obtain ⟨quotient, remainder⟩ := div_mod_bit (m := n.toNat / 2 ^ (t + 1)) positive digit
  rw [← grown] at quotient remainder
  have shifted : (s.rem <<< 1 ||| s.a >>> 63).toNat =
      2 * (n.toNat / 2 ^ (t + 1) % b.toNat) + n.toNat / 2 ^ t % 2 := by
    rw [toNat_shift_in _ _ (by rw [toNat_top_bit, top]; exact digit), toNat_top_bit, top, rem, Nat.mod_eq_of_lt]
    omega
  have set := wrap_eq (b := b) (s.rem <<< 1 ||| s.a >>> 63) (by rw [shifted]; omega) (by
    rw [shifted]
    rcases near with half | ⟨last, large⟩
    · exact .inl half
    · subst last
      by_cases half : b.toNat ≤ 2 ^ 63
      · exact .inl half
      · rw [Nat.mod_eq_of_lt (show n.toNat / 2 ^ (0 + 1) < b.toNat by omega)]
        exact .inr (by omega))
  rw [shifted] at set
  generalize n.toNat / 2 ^ (t + 1) / b.toNat = q at *
  generalize n.toNat / 2 ^ (t + 1) % b.toNat = r at *
  generalize n.toNat / 2 ^ t % 2 = bit at *
  have kept : (divStep b s).a.toNat = n.toNat % 2 ^ t * 2 ^ (64 - t) + n.toNat / 2 ^ t / b.toNat / 2 := by
    have low : (s.wrap &&& 1).toNat = q % 2 := by
      rw [wrap, toNat_wrap_bit]
      split <;> omega
    have half : n.toNat / 2 ^ t / b.toNat / 2 = q := by
      rw [quotient]
      split <;> omega
    have place : 2 ^ (64 - t) = 2 * 2 ^ (63 - t) := by rw [← Nat.pow_succ']; congr 1; omega
    rw [divStep, toNat_shift_in _ _ (by omega), rest, low, half, place, Nat.mul_left_comm]
    omega
  by_cases fits : b.toNat ≤ 2 * r + bit
  · rw [if_pos fits] at quotient remainder set
    refine ⟨?_, kept, ?_⟩
    · rw [divStep, set, BitVec.and_allOnes, remainder,
        BitVec.toNat_sub_of_le (BitVec.le_def.mpr (by rwa [shifted])), shifted]
    · rw [divStep, set, quotient, if_pos (by omega)]
  · rw [if_neg fits] at quotient remainder set
    refine ⟨?_, kept, ?_⟩
    · rw [divStep, set, remainder, Nat.sub_zero, ← shifted]
      simp
    · rw [divStep, set, quotient, if_neg (by omega)]

theorem dividing_loop (positive : 0 < b.toNat) (below : t ≤ 64)
    (near : b.toNat ≤ 2 ^ 63 ∨ t ≤ 1 ∧ b.toNat ≤ n.toNat) (dividing : Dividing n b t s) :
    Dividing n b 0 (divLoop b t s) := by
  induction t generalizing s with
  | zero => exact dividing
  | succ t ih =>
    have step := dividing_step positive (by omega) (by omega) dividing
    exact ih (by omega) (by omega) step

/-- As many bits are iterated as the numerator is longer, and one more. -/
theorem divBits_eq (large : b.toNat ≤ a.toNat) (divisor : 1 < b.toNat) :
    divBits a b + clzdi2 a = clzdi2 b + 1 ∧ 0 < divBits a b ∧ clzdi2 b < 63 := by
  have some : b ≠ 0 := fun none => by rw [none] at divisor; cases divisor
  have some' : a ≠ 0 := fun none => by rw [none] at large; exact absurd (Nat.lt_of_lt_of_le divisor large) (by decide)
  obtain ⟨low, high⟩ := clzdi2_spec b some
  obtain ⟨low', high'⟩ := clzdi2_spec a some'
  have short : clzdi2 b < 63 := by
    by_contra long
    have twice := Nat.mul_le_mul divisor (Nat.pow_le_pow_right Nat.two_pos (Nat.le_of_not_lt long))
    omega
  have order : clzdi2 a ≤ clzdi2 b := by
    by_contra longer
    have twice := Nat.mul_le_mul large (Nat.pow_le_pow_right Nat.two_pos (Nat.succ_le_of_lt (Nat.lt_of_not_le longer)))
    rw [Nat.succ_eq_add_one, pow_succ, ← Nat.mul_assoc] at twice
    omega
  have count : divBits a b = clzdi2 b - clzdi2 a + 1 := by
    rw [divBits, BitVec.toInt_ofInt, Int.bmod_eq_of_le (by omega) (by omega)]
    omega
  omega

theorem divBits_covers (large : b.toNat ≤ a.toNat) (divisor : 1 < b.toNat) :
    a.toNat / 2 ^ divBits a b < b.toNat ∧ (b.toNat ≤ 2 ^ 63 ∨ divBits a b ≤ 1 ∧ b.toNat ≤ a.toNat) := by
  have some : b ≠ 0 := fun none => by rw [none] at divisor; cases divisor
  have some' : a ≠ 0 := fun none => by rw [none] at large; exact absurd (Nat.lt_of_lt_of_le divisor large) (by decide)
  obtain ⟨low, high⟩ := clzdi2_spec b some
  obtain ⟨low', high'⟩ := clzdi2_spec a some'
  obtain ⟨count, positive, short⟩ := divBits_eq large divisor
  constructor
  · apply Nat.div_lt_of_lt_mul
    apply Nat.lt_of_mul_lt_mul_right (a := 2 ^ clzdi2 a)
    calc a.toNat * 2 ^ clzdi2 a < 2 ^ 64 := high'
      _ ≤ b.toNat * 2 ^ clzdi2 b * 2 := by omega
      _ = 2 ^ divBits a b * b.toNat * 2 ^ clzdi2 a := by
        rw [Nat.mul_assoc, ← pow_succ, ← count, Nat.pow_add]
        ring
  · by_cases half : b.toNat ≤ 2 ^ 63
    · exact .inl half
    · have none : clzdi2 b = 0 := by
        by_contra shifted
        have twice := Nat.mul_le_mul_left b.toNat
          (Nat.pow_le_pow_right Nat.two_pos (Nat.one_le_iff_ne_zero.mpr shifted))
        omega
      exact .inr ⟨by omega, large⟩

theorem longDivision_eq (large : b.toNat ≤ a.toNat) (divisor : 1 < b.toNat) : longDivision a b = (a / b, a % b) := by
  obtain ⟨count, positive, short⟩ := divBits_eq large divisor
  obtain ⟨covers, near⟩ := divBits_covers large divisor
  have inside : divBits a b < 64 := by omega
  have start : Dividing a b (divBits a b) ⟨a <<< (64 - divBits a b), a >>> divBits a b, 0⟩ := by
    constructor
    · rw [BitVec.toNat_ushiftRight, Nat.shiftRight_eq_div_pow, Nat.mod_eq_of_lt covers]
    · have word : 2 ^ 64 = 2 ^ divBits a b * 2 ^ (64 - divBits a b) := by rw [← Nat.pow_add]; congr 1; omega
      rw [BitVec.toNat_shiftLeft, Nat.shiftLeft_eq, word, Nat.mul_mod_mul_right, Nat.div_eq_of_lt covers]
      rfl
    · rw [Nat.div_eq_of_lt covers]
      rfl
  have final := dividing_loop (by omega) (by omega) near start
  obtain ⟨rem, quotient, wrap⟩ := final
  rw [Nat.pow_zero, Nat.div_one] at rem quotient wrap
  rw [Nat.mod_one, Nat.zero_mul, Nat.zero_add] at quotient
  rw [longDivision]
  generalize divLoop b (divBits a b) ⟨a <<< (64 - divBits a b), a >>> divBits a b, 0⟩ = s at *
  have low : (s.wrap &&& 1).toNat = a.toNat / b.toNat % 2 := by
    rw [wrap, toNat_wrap_bit]
    split <;> omega
  have half : a.toNat / b.toNat < 2 ^ 64 := Nat.lt_of_le_of_lt (Nat.div_le_self _ _) a.isLt
  refine Prod.ext (BitVec.eq_of_toNat_eq ?_) (BitVec.eq_of_toNat_eq ?_)
  · rw [toNat_shift_in _ _ (by omega), low, quotient, BitVec.toNat_udiv]
    omega
  · rw [rem, BitVec.toNat_umod]

theorem hi_eq_zero : hi x = 0 ↔ x.toNat < 2 ^ 32 := by
  rw [hi, ← BitVec.toNat_inj, BitVec.extractLsb'_toNat, Nat.shiftRight_eq_div_pow]
  have bound := x.isLt
  have zero : (0 : BitVec 32).toNat = 0 := rfl
  rw [zero]
  omega

theorem toNat_lo (small : x.toNat < 2 ^ 32) : (lo x).toNat = x.toNat := by
  rw [lo, BitVec.extractLsb'_toNat, Nat.shiftRight_zero, Nat.mod_eq_of_lt small]

theorem lo_division (small : a.toNat < 2 ^ 32) (small' : b.toNat < 2 ^ 32) :
    ((lo a / lo b).setWidth 64, (lo a % lo b).setWidth 64) = (a / b, a % b) := by
  have quotient := Nat.lt_of_le_of_lt (Nat.div_le_self a.toNat b.toNat) a.isLt
  have remainder := Nat.lt_of_le_of_lt (Nat.mod_le a.toNat b.toNat) a.isLt
  refine Prod.ext (BitVec.eq_of_toNat_eq ?_) (BitVec.eq_of_toNat_eq ?_)
  · rw [BitVec.toNat_setWidth, BitVec.toNat_udiv, toNat_lo small, toNat_lo small', BitVec.toNat_udiv,
      Nat.mod_eq_of_lt quotient]
  · rw [BitVec.toNat_setWidth, BitVec.toNat_umod, toNat_lo small, toNat_lo small', BitVec.toNat_umod,
      Nat.mod_eq_of_lt remainder]

/-- The runtime divides, and traps on a zero divisor alone. -/
theorem divmoddi4_eq (a b : BitVec 64) : divmoddi4 a b = if b = 0 then none else some (a / b, a % b) := by
  rw [divmoddi4]
  by_cases zero : b = 0
  · subst zero
    have short : hi 0 = 0 := rfl
    rw [if_neg (show ¬ (0 : BitVec 64).toNat > a.toNat from Nat.not_lt_zero _), if_pos short, if_pos rfl, if_pos rfl]
  have positive : 0 < b.toNat := Nat.pos_of_ne_zero fun none => zero (BitVec.eq_of_toNat_eq none)
  rw [if_neg zero, if_neg zero]
  by_cases larger : b.toNat > a.toNat
  · rw [if_pos larger]
    congr 1
    refine Prod.ext (BitVec.eq_of_toNat_eq ?_) (BitVec.eq_of_toNat_eq ?_)
    · rw [BitVec.toNat_udiv, Nat.div_eq_of_lt larger]
      rfl
    · rw [BitVec.toNat_umod, Nat.mod_eq_of_lt larger]
  rw [if_neg larger]
  by_cases one : b = 1
  · subst one
    rw [if_pos (by decide), if_pos rfl]
    simp
  have divisor : 1 < b.toNat := by
    have other : b.toNat ≠ 1 := fun same => one (BitVec.eq_of_toNat_eq same)
    omega
  rw [if_neg one, longDivision_eq (Nat.le_of_not_lt larger) divisor]
  by_cases short : hi b = 0
  · rw [if_pos short]
    by_cases short' : hi a = 0
    · rw [if_pos short', lo_division (hi_eq_zero.mp short') (hi_eq_zero.mp short)]
    · rw [if_neg short']
  · rw [if_neg short]

theorem neg_eq (x y : BitVec 64) : neg x y = if y.msb then -x else x := by
  rw [neg]
  by_cases negative : y.toInt < 0
  · have sign : y.msb = true := by rw [BitVec.msb_eq_toInt]; exact decide_eq_true negative
    rw [flag, if_neg (by omega), flag, if_pos negative, sign, if_pos rfl, BitVec.neg_eq_not_add]
    congr 1
    exact (BitVec.xor_allOnes).trans rfl
  · have sign : y.msb = false := by rw [BitVec.msb_eq_toInt]; exact decide_eq_false negative
    rw [flag, if_pos (by omega), flag, if_neg negative, sign]
    simp

theorem abs_eq (x : BitVec 64) : abs x = if x.msb then -x else x := neg_eq x x

theorem abs_eq_zero : abs x = 0 ↔ x = 0 := by
  rw [abs_eq]
  split <;> simp

theorem divdi3_eq (a b : BitVec 64) : divdi3 a b = if b = 0 then none else some (a.sdiv b) := by
  rw [divdi3, divmoddi4_eq]
  by_cases zero : b = 0
  · rw [if_pos (abs_eq_zero.mpr zero), if_pos zero]
    rfl
  · rw [if_neg (mt abs_eq_zero.mp zero), if_neg zero, Option.map_some, neg_eq, abs_eq, abs_eq, BitVec.msb_xor,
      BitVec.sdiv]
    cases a.msb <;> cases b.msb <;> rfl

theorem moddi3_eq (a b : BitVec 64) : moddi3 a b = if b = 0 then none else some (a.srem b) := by
  rw [moddi3, divmoddi4_eq]
  by_cases zero : b = 0
  · rw [if_pos (abs_eq_zero.mpr zero), if_pos zero]
    rfl
  · rw [if_neg (mt abs_eq_zero.mp zero), if_neg zero, Option.map_some, neg_eq, abs_eq, abs_eq, BitVec.srem]
    cases a.msb <;> cases b.msb <;> rfl

theorem udivdi3_eq (a b : BitVec 64) : udivdi3 a b = if b = 0 then none else some (a / b) := by
  rw [udivdi3, divmoddi4_eq]
  split <;> rfl

theorem umoddi3_eq (a b : BitVec 64) : umoddi3 a b = if b = 0 then none else some (a % b) := by
  rw [umoddi3, divmoddi4_eq]
  split <;> rfl

/-- Unsigned division: every entry point returns the quotient, the remainder or both,
and traps exactly for a zero divisor. -/
theorem unsigned_division (a b : BitVec 64) :
    divmoddi4 a b = (if b = 0 then none else some (a / b, a % b)) ∧ udivmoddi4 a b = divmoddi4 a b ∧
      udivdi3 a b = (if b = 0 then none else some (a / b)) ∧ umoddi3 a b = if b = 0 then none else some (a % b) :=
  ⟨divmoddi4_eq a b, rfl, udivdi3_eq a b, umoddi3_eq a b⟩

/-- Signed division truncates towards zero, the remainder has the sign of the numerator,
and both trap exactly for a zero divisor. `-2^63 / -1` wraps. -/
theorem signed_division (a b : BitVec 64) :
    divdi3 a b = (if b = 0 then none else some (BitVec.ofInt 64 (a.toInt.tdiv b.toInt))) ∧
      moddi3 a b = if b = 0 then none else some (BitVec.ofInt 64 (a.toInt.tmod b.toInt)) := by
  constructor
  · have value : a.sdiv b = BitVec.ofInt 64 (a.toInt.tdiv b.toInt) := by
      rw [← BitVec.toInt_inj, BitVec.toInt_sdiv, BitVec.toInt_ofInt]
    rw [divdi3_eq, value]
  · have value : a.srem b = BitVec.ofInt 64 (a.toInt.tmod b.toInt) := by
      rw [← BitVec.toInt_srem, BitVec.ofInt_toInt]
    rw [moddi3_eq, value]

end UmkaOs.Arith
