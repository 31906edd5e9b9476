import UmkaOs.Fmt.Number
import UmkaOs.Lib.Writes

namespace UmkaOs.Fmt

open Lib

/-- `while (n) { *--ptr = …; n /= base; }`: the stores, at their offsets from `buf`, in a base up to 16. -/
def digitStores (base : Nat) (upper : Bool) : Nat → Int → Nat → List (Int × UInt8)
  | 0, _, _ => []
  | fuel + 1, ptr, n =>
    if n = 0 then []
    else (ptr - 1, digitChar upper (n % base)) :: digitStores base upper fuel (ptr - 1) (n / base)

/-- The stores from `char *ptr = buf + 63` on; every turn of the loop makes `n` smaller. -/
def scratchStores (n base : Nat) (upper : Bool) : List (Int × UInt8) :=
  (62, 0) :: if n = 0 then [(61, zero)] else digitStores base upper n 62 n

/-- Where `ptr` ends: at the last store. -/
def scratchPtr (n base : Nat) (upper : Bool) : Int := ((scratchStores n base upper).getLast?.map Prod.fst).getD 63

/-- The `buf + 63 - ptr - 1` bytes at `ptr`. -/
def scratchText (n base : Nat) (upper : Bool) : List UInt8 :=
  let ptr := scratchPtr n base upper
  (List.range (63 - ptr - 1).toNat).map fun k : Nat => writeAll (fun _ => 0) (scratchStores n base upper) (ptr + k)

/-- No store leaves `buf[64]`, and the numeral is what goes to the stream. -/
structure ScratchLaw (n base : Nat) (upper : Bool) : Prop where
  inside : ∀ store ∈ scratchStores n base upper, 0 ≤ store.1 ∧ store.1 < 64
  text : scratchText n base upper = numeralOf base upper n
  written : ∀ s, fmtStringifyULL s n base upper = s.write (scratchText n base upper)

variable {n base fuel : Nat} {upper : Bool} {ptr : Int}

theorem digitStores_eq (radix : 1 < base) (enough : n ≤ fuel) :
    digitStores base upper fuel ptr n = descending ptr ((Nat.digits base n).map (digitChar upper)) := by
  induction fuel generalizing ptr n with
  | zero =>
    have none : n = 0 := Nat.le_zero.mp enough
    subst none
    simp [digitStores, descending]
  | succ fuel ih =>
    rw [digitStores]
    by_cases none : n = 0
    · subst none
      simp [descending]
    · have less : n / base ≤ fuel :=
        Nat.le_of_lt_succ (Nat.lt_of_lt_of_le (Nat.div_lt_self (Nat.pos_of_ne_zero none) radix) enough)
      rw [if_neg none, ih less, Nat.digits_def' radix (Nat.pos_of_ne_zero none), List.map_cons, descending]

/-- The digits, least significant first. -/
theorem scratchStores_eq (radix : 1 < base) (n : Nat) :
    scratchStores n base upper = (62, 0) :: descending 62 (numeralOf base upper n).reverse := by
  rw [scratchStores, numeralOf]
  by_cases none : n = 0
  · rw [if_pos none, if_pos none]
    rfl
  · rw [if_neg none, if_neg none, digitStores_eq radix (Nat.le_refl n), ← List.map_reverse, List.reverse_reverse]

theorem scratchPtr_eq (radix : 1 < base) (n : Nat) :
    scratchPtr n base upper = 62 - (numeralOf base upper n).length := by
  rw [scratchPtr, scratchStores_eq radix, getLast?_descending, Option.getD_some, List.length_reverse]

theorem scratchText_eq (radix : 1 < base) (n : Nat) : scratchText n base upper = numeralOf base upper n := by
  have length : (63 - scratchPtr n base upper - 1).toNat = (numeralOf base upper n).length := by
    rw [scratchPtr_eq radix]
    omega
  apply List.ext_getElem?
  intro k
  simp only [scratchText, length]
  by_cases inside : k < (numeralOf base upper n).length
  · have below : k < (numeralOf base upper n).reverse.length := by rwa [List.length_reverse]
    have whole : writeAll (fun _ => 0) (scratchStores n base upper) = writeAll (Function.update (fun _ => 0) 62 0)
        (descending 62 (numeralOf base upper n).reverse) := by
      rw [scratchStores_eq radix]
      rfl
    have stored := @writeAll_descending _ 62 _ (Function.update (fun _ => 0) 62 0) k below
    rw [List.length_reverse, List.reverse_reverse] at stored
    rw [List.getElem?_map, List.getElem?_range inside, Option.map_some, scratchPtr_eq radix, whole, stored]
  · rw [List.getElem?_eq_none (by simpa using inside), List.getElem?_eq_none (Nat.le_of_not_lt inside)]

/-- 62 digits fit below the terminator. -/
theorem scratch_inside (radix : 1 < base) (n : Nat) :
    (∀ store ∈ scratchStores n base upper, 0 ≤ store.1 ∧ store.1 < 64) ↔ (numeralOf base upper n).length ≤ 62 := by
  rw [scratchStores_eq radix]
  constructor
  · intro inside
    have last := @getLast?_descending _ 62 (numeralOf base upper n).reverse 0
    rw [List.length_reverse] at last
    obtain ⟨store, end_, lowest⟩ := Option.map_eq_some_iff.mp last
    have low := (inside store (List.mem_of_getLast? end_)).1
    omega
  · intro short store member
    rcases List.mem_cons.mp member with rfl | digit
    · decide
    · have range := mem_descending digit
      rw [List.length_reverse] at range
      omega

theorem numeralOf_fits (radix : 1 < base) (n ptr : Nat) (some : 0 < ptr) :
    (numeralOf base upper n).length ≤ ptr ↔ n < base ^ ptr := by
  rw [numeralOf]
  by_cases none : n = 0
  · subst none
    simp [Nat.pow_pos (Nat.lt_trans Nat.zero_lt_one radix)]
    omega
  · rw [if_neg none, List.length_map, List.length_reverse, Nat.digits_length_le_iff radix]

/-- One digit too many runs off the buffer. -/
theorem pushDigits_overrun {digits : List UInt8} {ptr : Nat} (radix : 1 < base) (high : base ≤ 16) (beyond : base ^ ptr ≤ n) :
    pushDigits base upper ptr n digits = .error .overrun := by
  induction ptr generalizing n digits with
  | zero =>
    have some : n ≠ 0 := by
      rw [Nat.pow_zero] at beyond
      omega
    rw [pushDigits, if_neg some]
  | succ ptr ih =>
    have some : n ≠ 0 := by
      have positive : 0 < base ^ (ptr + 1) := Nat.pow_pos (Nat.lt_trans Nat.zero_lt_one radix)
      omega
    have digit : n % base < 16 := Nat.lt_of_lt_of_le (Nat.mod_lt n (Nat.zero_lt_of_lt radix)) high
    rw [pushDigits, if_neg some, digitAt_eq digit]
    exact ih ((Nat.le_div_iff_mul_le (Nat.lt_trans Nat.zero_lt_one radix)).mpr (by rwa [← Nat.pow_succ]))

theorem numeral_of_fits (radix : 1 < base) (high : base ≤ 16) (fits : n < base ^ 62) :
    numeral n base upper = .ok (numeralOf base upper n) := by
  rw [numeral, numeralOf]
  by_cases none : n = 0
  · rw [if_pos none, if_pos none]
  · rw [if_neg none, if_neg none, pushDigits_eq radix high fits, List.append_nil]

/-- The scratch buffer suffices exactly for the numbers of at most 62 digits. -/
theorem scratch_suffices (radix : 2 ≤ base) (high : base ≤ 16) (n : Nat) (upper : Bool) :
    ScratchLaw n base upper ↔ n < base ^ 62 := by
  have fits := @numeralOf_fits base upper radix n 62 (by decide)
  constructor
  · exact fun law => fits.mp ((scratch_inside radix n).mp law.inside)
  · intro small
    refine ⟨(scratch_inside radix n).mpr (fits.mpr small), scratchText_eq radix n, fun s => ?_⟩
    rw [fmtStringifyULL, numeral_of_fits radix high small, scratchText_eq radix]
    rfl

theorem scratch_suffices_binary : 2 ≤ 2 ∧ 2 ≤ 16 ∧ ScratchLaw 0b1110001010 2 true :=
  ⟨by decide, by decide, (scratch_suffices (by decide) (by decide) _ _).mpr (by decide)⟩

/-- `ULLONG_MAX` has 64 binary digits. -/
theorem scratch_overrun : ¬ ScratchLaw (2 ^ 64 - 1) 2 false ∧ (-2, chr '1') ∈ scratchStores (2 ^ 64 - 1) 2 false ∧
    ∀ s, fmtStringifyULL s (2 ^ 64 - 1) 2 false = .error .overrun := by
  have long : ¬ (numeralOf 2 false (2 ^ 64 - 1)).length ≤ 62 := by
    rw [numeralOf_fits (by decide) _ _ (by decide)]
    decide
  refine ⟨fun law => long ((scratch_inside (by decide) _).mp law.inside), by decide +kernel, fun s => ?_⟩
  have faults : numeral (2 ^ 64 - 1) 2 false = .error .overrun := pushDigits_overrun (by decide) (by decide) (by decide)
  rw [fmtStringifyULL, faults]
  rfl

end UmkaOs.Fmt
