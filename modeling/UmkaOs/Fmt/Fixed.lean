import UmkaOs.Fmt.Sinks
import UmkaOs.Fmt.Text
import Mathlib.Algebra.Order.Floor.Ring

namespace UmkaOs.Fmt

open Lib

/-- The digit of `x` that stands `i` places behind the point. -/
def decimalDigit (x : ℚ) (i : Nat) : Nat := ⌊x * 10 ^ i⌋.toNat % 10

/-- Sign, whole part, point and `p` digits. -/
def fixedText (n : ℚ) (p : Nat) (sign padsign : Bool) : List UInt8 :=
  (signWrites (n < 0) sign padsign).flatten ++ (numeralOf 10 false ⌊|n|⌋.toNat ++
    chr '.' :: (List.range p).map fun i => digitChar false (decimalDigit |n| (i + 1)))

/-- The text goes to every sink, each digit comes from an index into `"0123456789"`,
and each conversion to `int` is in range. -/
structure FixedLaw (n : ℚ) (p : Nat) (upper sign padsign : Bool) : Prop where
  written : ∃ writes, writes.flatten = fixedText n p sign padsign ∧
    ∀ s, fmtStringifyD s n upper sign p padsign = s.writeAll writes
  converted : ∀ i, 1 ≤ i → i ≤ p → ∃ k, truncInt (Int.fract |n| * 10 ^ i) = .ok k ∧ 0 ≤ Int.tmod k 10 ∧
    Int.tmod k 10 ≤ 9

variable {n frac : ℚ} {p : Nat} {upper sign padsign : Bool} {s s' : RWStream} {writes : List (List UInt8)}

theorem truncInt_nonneg (low : 0 ≤ frac) (high : frac < 2 ^ 31) : truncInt frac = .ok ⌊frac⌋ := by
  rw [truncInt, if_pos ⟨by linarith, high⟩, if_neg (not_lt.mpr low)]

theorem truncInt_ok {k : Int} (run : truncInt frac = .ok k) : frac < 2 ^ 31 := by
  rw [truncInt] at run
  split at run
  · rename_i range
    exact range.2
  · cases run

theorem decimalDigit_lt (x : ℚ) (i : Nat) : decimalDigit x i < 10 := Nat.mod_lt _ (by decide)

theorem decimalDigit_mul (x : ℚ) (i : Nat) : decimalDigit (x * 10) i = decimalDigit x (i + 1) := by
  rw [decimalDigit, decimalDigit, pow_succ', mul_assoc]

/-- The index into `"0123456789"`. -/
theorem tmod_nonneg {k : Int} (low : 0 ≤ k) : Int.tmod k 10 = (k.toNat % 10 : Nat) := by
  rw [Int.tmod_eq_emod_of_nonneg low]
  omega

/-- The digits of the fraction, as long as it fits into an `int` all along. -/
theorem fracDigits_eq (low : 0 ≤ frac) (high : frac * 10 ^ p < 2 ^ 31) :
    fracDigits s frac p = s.writeAll ((List.range p).map fun i => [digitChar false (decimalDigit frac (i + 1))]) := by
  induction p generalizing s frac with
  | zero => rfl
  | succ p ih =>
    have low' : 0 ≤ frac * 10 := by positivity
    have high' : frac * 10 * 10 ^ p < 2 ^ 31 := by rwa [pow_succ', ← mul_assoc] at high
    have small : frac * 10 < 2 ^ 31 :=
      lt_of_le_of_lt (le_mul_of_one_le_right low' (one_le_pow₀ (by norm_num))) high'
    have digit : ¬ Int.tmod ⌊frac * 10⌋ 10 < 0 := by
      rw [tmod_nonneg (Int.floor_nonneg.mpr low')]
      omega
    have char : UInt8.ofNat (48 + (Int.tmod ⌊frac * 10⌋ 10).toNat) = digitChar false (decimalDigit frac 1) := by
      rw [digitChar_decimal (decimalDigit_lt frac 1), decimalDigit, pow_one, tmod_nonneg (Int.floor_nonneg.mpr low'),
        Int.toNat_natCast]
    rw [fracDigits, truncInt_nonneg low' small, List.range_succ_eq_map, List.map_cons, List.map_map, RWStream.writeAll]
    simp only [bind, Except.bind, if_neg digit, char]
    cases s.write [digitChar false (decimalDigit frac 1)] with
    | error e => rfl
    | ok s1 =>
      simp only [ih low' high', decimalDigit_mul]
      rfl

/-- Digits that are written come from numbers within an `int`. -/
theorem fracDigits_ok (high : frac < 2 ^ 31) (run : fracDigits s frac p = .ok s') : frac * 10 ^ p < 2 ^ 31 := by
  induction p generalizing s frac with
  | zero => simpa using high
  | succ p ih =>
    rw [fracDigits] at run
    obtain ⟨i, converted, run⟩ := bind_ok run
    dsimp only at run
    split at run
    · cases run
    · obtain ⟨s1, _, run⟩ := bind_ok run
      have later := ih (truncInt_ok converted) run
      rwa [pow_succ', ← mul_assoc]

/-- The whole part does not touch the digits behind the point. -/
theorem decimalDigit_fract {x : ℚ} (low : 0 ≤ x) (i : Nat) :
    decimalDigit (Int.fract x) (i + 1) = decimalDigit x (i + 1) := by
  have whole : x * 10 ^ (i + 1) = Int.fract x * 10 ^ (i + 1) + ((⌊x⌋ * 10 ^ i * 10 : Int) : ℚ) := by
    nth_rewrite 1 [← Int.fract_add_floor x]
    push_cast
    ring
  have high : 0 ≤ ⌊x⌋ * 10 ^ i := by
    have := Int.floor_nonneg.mpr low
    positivity
  have front : 0 ≤ ⌊Int.fract x * 10 ^ (i + 1)⌋ := Int.floor_nonneg.mpr (by have := Int.fract_nonneg x; positivity)
  rw [decimalDigit, decimalDigit, whole, Int.floor_add_intCast]
  omega

theorem truncULL_eq (low : 0 ≤ n) (high : n < 2 ^ 64) : truncULL n = .ok ⌊n⌋.toNat := by
  rw [truncULL, if_pos ⟨by linarith, high⟩]

theorem abs_eq (n : ℚ) : (if n < 0 then -n else n) = |n| := by
  split
  · rename_i negative
    exact (abs_of_neg negative).symm
  · rename_i positive
    exact (abs_of_nonneg (not_lt.mp positive)).symm

theorem fract_eq (low : 0 ≤ n) : n - ((⌊n⌋.toNat : Nat) : ℚ) = Int.fract n := by
  have whole : ((⌊n⌋.toNat : Nat) : Int) = ⌊n⌋ := Int.toNat_of_nonneg (Int.floor_nonneg.mpr low)
  rw [Int.fract, ← Int.cast_natCast (R := ℚ), whole]

theorem fmtStringifyD_eq (small : |n| < 2 ^ 64) (some : 1 ≤ p) : fmtStringifyD s n upper sign p padsign = (do
    let s ← s.writeAll (signWrites (n < 0) sign padsign ++ ([numeralOf 10 upper ⌊|n|⌋.toNat] ++ [[chr '.']]))
    fracDigits s (Int.fract |n|) p) := by
  have low := abs_nonneg n
  have whole : ⌊|n|⌋.toNat < 2 ^ 64 := by
    have below : ⌊|n|⌋ < 2 ^ 64 := Int.floor_lt.mpr (by exact_mod_cast small)
    omega
  have point : ¬ (p : Int) = 0 := by omega
  rw [RWStream.writeAll_append, fmtStringifyD]
  cases s.writeAll (signWrites (n < 0) sign padsign) with
  | error e => rfl
  | ok s1 =>
    simp only [bind, Except.bind, abs_eq, truncULL_eq low small, fmtStringifyULL_eq s1 (by decide : 2 < 10) (by decide : 10 ≤ 16) whole,
      RWStream.writeAll_append, if_neg point, fract_eq low, Int.toNat_natCast, writeAll_single]
    cases s1.write (numeralOf 10 upper ⌊|n|⌋.toNat) with
    | error e => rfl
    | ok s2 => rfl

theorem numeralOf_ten (k : Nat) : numeralOf 10 upper k = numeralOf 10 false k := by
  rw [numeralOf_eq, numeralOf_eq]
  refine List.map_congr_left fun d member => ?_
  have digit : d < 10 := digitsOf_lt (by decide) d member
  rw [digitChar_decimal digit, digitChar_decimal digit]

/-- Conversions up to the last digit are in range, and give a position in the row of digits. -/
theorem digit_converted {i : Nat} (low : 0 ≤ frac) (fits : frac * 10 ^ p < 2 ^ 31) (inside : i ≤ p) :
    ∃ k, truncInt (frac * 10 ^ i) = .ok k ∧ 0 ≤ Int.tmod k 10 ∧ Int.tmod k 10 ≤ 9 := by
  have low' : 0 ≤ frac * 10 ^ i := by positivity
  have below : frac * 10 ^ i ≤ frac * 10 ^ p := mul_le_mul_of_nonneg_left (pow_le_pow_right₀ (by norm_num) inside) low
  refine ⟨_, truncInt_nonneg low' (lt_of_le_of_lt below fits), ?_⟩
  rw [tmod_nonneg (Int.floor_nonneg.mpr low')]
  omega

/-- A call that returns has converted numbers within an `int` only. -/
theorem fmtStringifyD_ok (small : |n| < 2 ^ 64) (some : 1 ≤ p)
    (run : fmtStringifyD s n upper sign p padsign = .ok s') : Int.fract |n| * 10 ^ p < 2 ^ 31 := by
  rw [fmtStringifyD_eq small some] at run
  obtain ⟨s1, _, digits⟩ := bind_ok run
  have below : Int.fract |n| < 2 ^ 31 := lt_trans (Int.fract_lt_one _) (by norm_num)
  exact fracDigits_ok below digits

/-- A fixed-point number comes out right exactly if the digits behind its point
make up an `int` when they are read as one number. -/
theorem fixed_law (small : |n| < 2 ^ 64) (some : 1 ≤ p) :
    FixedLaw n p upper sign padsign ↔ Int.fract |n| * 10 ^ p < 2 ^ 31 := by
  have low : 0 ≤ Int.fract |n| := Int.fract_nonneg _
  constructor
  · rintro ⟨⟨writes, _, run⟩, _⟩
    have sink := run (.mkStrS (fun _ => 0) 0)
    rw [RWStream.mkStrS, @RWStream.writeAll_none _ writes 0 0 (by decide)] at sink
    exact fmtStringifyD_ok small some sink
  · intro fits
    refine ⟨⟨signWrites (n < 0) sign padsign ++ ([numeralOf 10 upper ⌊|n|⌋.toNat] ++ [[chr '.']]) ++
      (List.range p).map fun i => [digitChar false (decimalDigit (Int.fract |n|) (i + 1))], ?_, fun s => ?_⟩,
      fun i _ inside => digit_converted low fits inside⟩
    · have row : ((List.range p).map fun i => [digitChar false (decimalDigit |n| (i + 1))]).flatten =
          (List.range p).map fun i => digitChar false (decimalDigit |n| (i + 1)) := by
        rw [← List.flatMap_def, ← List.map_eq_flatMap]
      simp only [fixedText, List.flatten_append, numeralOf_ten, decimalDigit_fract (abs_nonneg n), row]
      simp
    · have digits : ∀ s, fracDigits s (Int.fract |n|) p = s.writeAll ((List.range p).map fun i =>
          [digitChar false (decimalDigit (Int.fract |n|) (i + 1))]) := fun s => fracDigits_eq low fits
      have both := @RWStream.writeAll_append s
        (signWrites (n < 0) sign padsign ++ ([numeralOf 10 upper ⌊|n|⌋.toNat] ++ [[chr '.']]))
        ((List.range p).map fun i => [digitChar false (decimalDigit (Int.fract |n|) (i + 1))])
      rw [fmtStringifyD_eq small some, both]
      simp only [digits]

theorem fixed_law_quarters : FixedLaw (-5 / 4) 2 false false false :=
  (fixed_law (by norm_num [abs_of_neg]) (by decide)).mpr (by norm_num [abs_of_neg, Int.fract])

/-- The tenth digit of 0.5 comes from 5000000000, which is no `int`. -/
theorem fixed_overflow :
    (∀ s', fmtStringifyD (.mkStrS (fun _ => 0) 64) (1 / 2) false false (10 : Nat) false ≠ .ok s') ∧
    ¬ FixedLaw (1 / 2) 10 false false false := by
  have small : |(1 / 2 : ℚ)| < 2 ^ 64 := by norm_num
  have large : ¬ Int.fract |(1 / 2 : ℚ)| * 10 ^ 10 < 2 ^ 31 := by norm_num [Int.fract, abs_of_pos]
  refine ⟨fun s' run => large (fmtStringifyD_ok small (by decide) run), fun law => large ?_⟩
  obtain ⟨k, converted, _⟩ := law.converted 10 (by decide) (Nat.le_refl 10)
  exact truncInt_ok converted

end UmkaOs.Fmt
