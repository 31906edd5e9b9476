import UmkaOs.Arith.Divide
import UmkaOs.Arith.Shifts
import UmkaOs.Fmt.Numerals
import UmkaOs.Tasks.Random

namespace UmkaOs.Arith

open Fmt

variable {base ptr : Nat} {upper : Bool} {n d : BitVec 64} {digits : List UInt8}

/-- The digit loop of `fmtStringifyULL` as it is compiled; none is the trap. -/
def pushDigitsByCall (base : BitVec 64) (upper : Bool) (ptr : Nat) (n : BitVec 64) (digits : List UInt8) :
    Option (Except Fault (List UInt8)) :=
  if n = 0 then some (.ok digits)
  else
    match ptr with
    | 0 => some (.error .overrun)
    | ptr + 1 => do
      let digit ← umoddi3 n base
      let n ← udivdi3 n base
      match digitAt upper digit.toNat with
      | .error e => some (.error e)
      | .ok digit => pushDigitsByCall base upper ptr n (digit :: digits)

theorem pushDigitsByCall_eq (nonzero : d ≠ 0) :
    pushDigitsByCall d upper ptr n digits = some (pushDigits d.toNat upper ptr n.toNat digits) := by
  induction ptr generalizing n digits with
  | zero =>
    rw [pushDigitsByCall, pushDigits]
    by_cases none : n = 0
    · subst none; rfl
    · have none' : n.toNat ≠ 0 := fun same => none (BitVec.eq_of_toNat_eq same)
      rw [if_neg none, if_neg none']
  | succ ptr ih =>
    rw [pushDigitsByCall, pushDigits]
    by_cases none : n = 0
    · subst none; rfl
    · have none' : n.toNat ≠ 0 := fun same => none (BitVec.eq_of_toNat_eq same)
      rw [if_neg none, if_neg none', udivdi3_eq, umoddi3_eq, if_neg nonzero, if_neg nonzero]
      simp only [Option.bind_some, BitVec.toNat_umod, bind, Except.bind]
      cases digitAt upper (n.toNat % d.toNat) with
      | error e => rfl
      | ok digit =>
        dsimp only
        rw [ih, BitVec.toNat_udiv]

/-- The text of `fmtStringifyULL` as it is compiled. -/
def numeralByCall (n base : BitVec 64) (upper : Bool) : Option (Except Fault (List UInt8)) :=
  if n = 0 then some (.ok [zero]) else pushDigitsByCall base upper 62 n []

/-- Every numeral in a base from three to sixteen is complete and correct, and no digit traps. -/
theorem numeralByCall_eq (n base : BitVec 64) (upper : Bool) (radix : 2 < base.toNat) (high : base.toNat ≤ 16) :
    numeralByCall n base upper = some (.ok (numeralOf base.toNat upper n.toNat)) := by
  have nonzero : base ≠ 0 := fun none => by rw [none] at radix; cases radix
  rw [← numeral_eq radix high n.isLt, numeral, numeralByCall]
  by_cases none : n = 0
  · subst none; rfl
  · have none' : n.toNat ≠ 0 := fun same => none (BitVec.eq_of_toNat_eq same)
    rw [if_neg none, if_neg none', pushDigitsByCall_eq nonzero]

theorem numeralByCall_ten : 2 < (10 : BitVec 64).toNat ∧ (10 : BitVec 64).toNat ≤ 16 ∧
    numeralByCall 1990 10 false = some (.ok (numeralOf 10 false 1990)) :=
  ⟨by decide, by decide, numeralByCall_eq 1990 10 false (by decide) (by decide)⟩

/-- `xorshift64` as it is compiled. -/
def xorshift64ByCall (seed : BitVec 64) : BitVec 64 :=
  let seed := seed ^^^ ashldi3 seed 13
  let seed := seed ^^^ lshrdi3 seed 7
  seed ^^^ ashldi3 seed 17

theorem xorshift64ByCall_eq (seed : UInt64) :
    xorshift64ByCall seed.toBitVec = (Tasks.xorshift64 seed).toBitVec := by
  rw [xorshift64ByCall, ashldi3_eq, lshrdi3_eq, ashldi3_eq, Tasks.toBitVec_xorshift64]
  rfl

end UmkaOs.Arith
