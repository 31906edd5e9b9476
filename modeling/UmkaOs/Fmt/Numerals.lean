import UmkaOs.Fmt.Sinks
import Mathlib.Data.Nat.Digits.Lemmas

namespace UmkaOs.Fmt

open Lib

variable {base n ptr : Nat} {upper : Bool} {digits : List UInt8} {writes : List (List UInt8)} {mem : Mem}

/-- A digit below 16 as a character. -/
def digitChar (upper : Bool) (d : Nat) : UInt8 := (digitLiteral upper).getD d 0

/-- The numeral of `n` in a base up to 16, most significant digit first. -/
def numeralOf (base : Nat) (upper : Bool) (n : Nat) : List UInt8 :=
  if n = 0 then [zero] else (Nat.digits base n).reverse.map (digitChar upper)

theorem digitAt_eq {d : Nat} (small : d < 16) : digitAt upper d = .ok (digitChar upper d) := by
  have inside : d < (digitLiteral upper).length := by
    cases upper <;> exact Nat.lt_trans small (by decide)
  rw [digitAt, digitChar, List.getElem?_eq_getElem inside, List.getD_eq_getElem _ _ inside]

/-- Both literals begin with the decimal digits. -/
theorem digitChar_decimal {d : Nat} (small : d < 10) : digitChar upper d = UInt8.ofNat (48 + d) := by
  have all : ∀ (upper : Bool) (d : Fin 10), digitChar upper d = UInt8.ofNat (48 + d) := by decide
  exact all upper ⟨d, small⟩

theorem pushDigits_eq (radix : 1 < base) (high : base ≤ 16) (fits : n < base ^ ptr) :
    pushDigits base upper ptr n digits = .ok ((Nat.digits base n).reverse.map (digitChar upper) ++ digits) := by
  induction ptr generalizing n digits with
  | zero =>
    have none : n = 0 := by simpa using fits
    subst none
    rw [pushDigits, if_pos rfl]
    simp
  | succ ptr ih =>
    rw [pushDigits]
    by_cases none : n = 0
    · subst none
      simp
    · have digit : n % base < 16 := Nat.lt_of_lt_of_le (Nat.mod_lt n (Nat.zero_lt_of_lt radix)) high
      rw [if_neg none, digitAt_eq digit, Nat.digits_def' radix (Nat.pos_of_ne_zero none)]
      simp only [bind, Except.bind]
      rw [ih (Nat.div_lt_of_lt_mul (by rwa [Nat.pow_succ'] at fits))]
      simp

/-- A 64-bit number fits into the scratch buffer for every base from 3 on. -/
theorem numeral_eq (radix : 2 < base) (high : base ≤ 16) (small : n < 2 ^ 64) :
    numeral n base upper = .ok (numeralOf base upper n) := by
  rw [numeral, numeralOf]
  by_cases none : n = 0
  · rw [if_pos none, if_pos none]
  · have fits : n < base ^ 62 :=
      Nat.lt_of_lt_of_le small (Nat.le_trans (by decide) (Nat.pow_le_pow_left radix 62))
    rw [if_neg none, if_neg none, pushDigits_eq (Nat.lt_of_succ_lt radix) high fits, List.append_nil]

theorem numeralOf_length_pos : 0 < (numeralOf base upper n).length := by
  rw [numeralOf]
  split
  · exact Nat.one_pos
  · rename_i some
    simpa [List.length_pos_iff, Nat.digits_ne_nil_iff_ne_zero] using some

theorem numeralOf_length (radix : 8 ≤ base) (small : n < 2 ^ 64) : (numeralOf base upper n).length ≤ 22 := by
  rw [numeralOf]
  split
  · exact Nat.le_of_ble_eq_true rfl
  · have fits : n < base ^ 22 :=
      Nat.lt_of_lt_of_le small (Nat.le_trans (by decide) (Nat.pow_le_pow_left radix 22))
    rw [List.length_map, List.length_reverse, Nat.digits_length_le_iff (by omega)]
    exact fits

theorem bytes_printed : (RWStream.printed mem 0 writes.flatten.length writes).bytes 0 writes.flatten.length =
    writes.flatten := by
  apply List.ext_getElem Mem.length_bytes
  intro k inside _
  rw [Mem.getElem_bytes, Nat.zero_add]
  have below : k < writes.flatten.length := by simpa using inside
  have other : ¬ (k = writes.flatten.length ∧ writes ≠ []) := fun both => Nat.ne_of_lt below both.1
  rw [RWStream.printed, if_neg other, RWStream.filled, if_pos ⟨Nat.zero_le _, below⟩, Nat.sub_zero,
    List.getD_eq_getElem _ _ below]

/-- A number with its sign, as one row of writes. -/
def signedWrites (f : Flags) (base : Nat) (upper : Bool) (n : Int) : List (List UInt8) :=
  signWrites (n < 0) f.forcesign f.padsign ++ [numeralOf base upper (toUInt64 (if n < 0 then -n else n))]

theorem signed32_range (n : Nat) : -2 ^ 31 ≤ signed32 n ∧ signed32 n < 2 ^ 31 := by
  rw [signed32, wrap32]
  constructor <;> split <;> omega

/-- A word as a 64-bit number. -/
theorem word_lt (bits : UInt32) : bits.toNat < 2 ^ 64 := Nat.lt_of_lt_of_le bits.toNat_lt (by decide)

theorem toUInt64_lt (n : Int) : toUInt64 n < 2 ^ 64 := by
  unfold toUInt64
  omega

theorem signWrites_length (negative sign padsign : Bool) : (signWrites negative sign padsign).flatten.length ≤ 1 := by
  cases negative <;> cases sign <;> cases padsign <;> decide

theorem writeAll_single (s : RWStream) (data : List UInt8) : s.writeAll [data] = s.write data := by
  rw [RWStream.writeAll]
  cases s.write data <;> rfl

theorem fmtStringifyULL_eq (s : RWStream) (radix : 2 < base) (high : base ≤ 16) (small : n < 2 ^ 64) :
    fmtStringifyULL s n base upper = s.writeAll [numeralOf base upper n] := by
  rw [fmtStringifyULL, numeral_eq radix high small, writeAll_single]
  rfl

theorem fmtStringifyLL_eq (s : RWStream) (f : Flags) (n : Int) (radix : 2 < base) (high : base ≤ 16) :
    fmtStringifyLL s n base upper f.forcesign f.padsign = s.writeAll (signedWrites f base upper n) := by
  rw [fmtStringifyLL, signedWrites, RWStream.writeAll_append]
  congr 1
  funext s
  exact fmtStringifyULL_eq s radix high (toUInt64_lt _)

/-- What a short row of writes leaves in the fresh `numbuf`. -/
theorem numbuf_eq (short : writes.flatten.length ≤ 127) : (do
    let numstream ← (RWStream.mkStrS (fun _ => 0) 128).writeAll writes
    let numlen ← numstream.tell
    match numstream.target with
    | .str numbuf => return numbuf.bytes 0 numlen
    | .file _ _ => return [] : Except Fault (List UInt8)) = .ok writes.flatten := by
  have written := @RWStream.writeAll_str (fun _ => 0) writes 0 0 128 (by decide) (by decide)
  have whole : min (0 + writes.flatten.length) (128 - 1) = writes.flatten.length := by omega
  rw [whole] at written
  simp only [RWStream.mkStrS, written, RWStream.tell, bind, Except.bind, pure, Except.pure, bytes_printed]

theorem numText_ull (f : Flags) (precision : Int) (radix : 8 ≤ base) (high : base ≤ 16) (small : n < 2 ^ 64) :
    numText f (.ull n) (some base) upper precision = .ok (numeralOf base upper n) := by
  have length := @numeralOf_length base _ upper radix small
  have filled := @numbuf_eq [numeralOf base upper n] (by
    simp only [List.flatten_cons, List.flatten_nil, List.append_nil]
    omega)
  rw [List.flatten_cons, List.flatten_nil, List.append_nil] at filled
  simp only [numText, Option.getD_some, fmtStringifyULL_eq _ (show 2 < base by omega) high small]
  exact filled

theorem numText_ll (f : Flags) (precision : Int) (n : Int) (radix : 8 ≤ base) (high : base ≤ 16) :
    numText f (.ll n) (some base) upper precision = .ok (signedWrites f base upper n).flatten := by
  have length := @numeralOf_length base _ upper radix (toUInt64_lt (if n < 0 then -n else n))
  have sign := signWrites_length (n < 0) f.forcesign f.padsign
  have filled := @numbuf_eq (signedWrites f base upper n) (by
    simp only [signedWrites, List.flatten_append, List.flatten_cons, List.flatten_nil, List.append_nil,
      List.length_append]
    omega)
  simp only [numText, Option.getD_some, fmtStringifyLL_eq _ f n (show 2 < base by omega) high]
  exact filled

end UmkaOs.Fmt
