import UmkaOs.Fmt.Number
import UmkaOs.Fmt.RoundTrip

namespace UmkaOs.Fmt

open Lib

/-- The number, and how far behind `nptr` `*endptr` points. -/
def strtoull (nptr : Mem) (base : Nat) : Except Fault (Nat × Nat) := do
  let (stream, num) ← fmtParseULL (.mkStr nptr) base
  return (num, stream.offs)

def strtoll (nptr : Mem) (base : Nat) : Except Fault (Int × Nat) := do
  let (stream, num) ← fmtParseLL (.mkStr nptr) base
  return (num, stream.offs)

/-- `strtol`; a `long` has 32 bits. -/
def strtol (nptr : Mem) (base : Nat) : Except Fault (Int × Nat) := do
  let (stream, num) ← fmtParseLL (.mkStr nptr) base
  return (toInt32 num, stream.offs)

variable {s s' : RWStream} {size base n : Nat} {bytes text rest : List UInt8} {nptr : Mem}

theorem Limited.acceptChar {c : UInt8} {found : Bool} (limited : Limited s size)
    (run : Fmt.acceptChar s c = .ok (s', found)) : Limited s' size := by
  rw [Fmt.acceptChar] at run
  obtain ⟨⟨s1, ch⟩, peeked, run⟩ := bind_ok run
  have first := limited.peek peeked
  dsimp only at run
  split at run
  · obtain ⟨⟨s2, byte⟩, moved, run⟩ := bind_ok run
    cases run
    exact first.read moved
  · cases run
    exact first

theorem Limited.fmtParseNum (limited : Limited s size) (run : Fmt.fmtParseNum s base = .ok (s', n)) :
    Limited s' size := by
  rw [Fmt.fmtParseNum] at run
  obtain ⟨⟨s1, ahead⟩, peeked, run⟩ := bind_ok run
  obtain ⟨⟨n, count⟩, _, run⟩ := bind_ok run
  obtain ⟨⟨s2, bytes⟩, moved, run⟩ := bind_ok run
  cases run
  exact (limited.peek peeked).read moved

theorem Limited.fmtParseULL (limited : Limited s size) (run : Fmt.fmtParseULL s base = .ok (s', n)) :
    Limited s' size := by
  rw [Fmt.fmtParseULL] at run
  obtain ⟨s1, skipped, run⟩ := bind_ok run
  obtain ⟨⟨s2, plus⟩, accepted, run⟩ := bind_ok run
  exact ((limited.skipWhile skipped).acceptChar accepted).fmtParseNum run

theorem Limited.fmtParseLL {n : Int} (limited : Limited s size) (run : Fmt.fmtParseLL s base = .ok (s', n)) :
    Limited s' size := by
  rw [Fmt.fmtParseLL] at run
  obtain ⟨s1, skipped, run⟩ := bind_ok run
  obtain ⟨⟨s2, negative⟩, accepted, run⟩ := bind_ok run
  have second := (limited.skipWhile skipped).acceptChar accepted
  dsimp only at run
  split at run
  · obtain ⟨⟨s3, n⟩, parsed, run⟩ := bind_ok run
    cases run
    exact second.fmtParseNum parsed
  · obtain ⟨⟨s3, plus⟩, accepted', run⟩ := bind_ok run
    obtain ⟨⟨s4, n⟩, parsed, run⟩ := bind_ok run
    cases run
    exact (second.acceptChar accepted').fmtParseNum parsed

/-- Where `endptr` points, by what is left of the text. -/
theorem endptr_eq {α : Type} {run : Except Fault (RWStream × α)} {parsed : Except Fault (Rest × α)}
    (step : Lockstep Anyhow (Shows text.length) run parsed)
    (limited : ∀ s n, run = .ok (s, n) → Limited s size) :
    Lockstep Anyhow (fun x y => x.2 = y.2 ∧ x.1.offs = text.length - y.1.text.length) run parsed := by
  cases step with
  | fails e allowed => exact .fails e allowed
  | returns a b shows =>
    obtain ⟨mem, target⟩ := (limited a.1 a.2 rfl).1
    obtain ⟨position, told, ends⟩ := shows.1.tell
    rw [RWStream.tell_str target] at told
    cases told
    exact .returns a b ⟨shows.2, by omega⟩

theorem limited_mkStr : Limited (.mkStr nptr) (2 ^ 31) := ⟨⟨_, rfl⟩, rfl, Nat.zero_le _⟩

theorem strtoull_eq (spells : Spells nptr 0 text) (base : Nat) :
    strtoull nptr base = (⟨text, 2 ^ 31⟩ : Rest).unsigned base >>= fun x =>
      .ok (x.2, text.length - x.1.text.length) := by
  have step := endptr_eq ((faces_mkStr spells).fmtParseULL base) fun s n => limited_mkStr.fmtParseULL
  refine step.bind_eq ?_
  rintro ⟨s, n⟩ ⟨r, _⟩ ⟨rfl, position⟩
  exact congrArg (fun offs => Except.ok (n, offs)) position

theorem strtoll_eq (spells : Spells nptr 0 text) (base : Nat) :
    strtoll nptr base = (⟨text, 2 ^ 31⟩ : Rest).signed base >>= fun x =>
      .ok (x.2, text.length - x.1.text.length) := by
  have step := endptr_eq ((faces_mkStr spells).fmtParseLL base) fun s n => limited_mkStr.fmtParseLL
  refine step.bind_eq ?_
  rintro ⟨s, n⟩ ⟨r, _⟩ ⟨rfl, position⟩
  exact congrArg (fun offs => Except.ok (n, offs)) position

theorem strtol_eq (nptr : Mem) (base : Nat) :
    strtol nptr base = (strtoll nptr base).map fun x => (toInt32 x.1, x.2) := by
  rw [strtol, strtoll]
  cases fmtParseLL (.mkStr nptr) base <;> rfl

/-- The bases that the numerals are written in. -/
def Radix (base : Nat) : Prop := base = 8 ∨ base = 10 ∨ base = 16

/-- What stands behind a numeral: the end of the string, a space or a newline. -/
def Terminated (rest : List UInt8) : Prop := ∀ c ∈ rest.head?, c = chr ' ' ∨ c = chr '\n'

/-- What is written is one text, whatever the stream is, and `read` takes it back
as `value` and points `endptr` behind it. -/
def ReadBack {α : Type} (written : RWStream → Except Fault RWStream) (read : Mem → Except Fault (α × Nat))
    (value : α) : Prop :=
  ∃ writes, (∀ s, written s = s.writeAll writes) ∧
    ∀ nptr rest, Terminated rest → Spells nptr 0 (writes.flatten ++ rest) →
      read nptr = .ok (value, writes.flatten.length)

theorem Terminated.boundary (terminated : Terminated rest) : Boundary (rest.headD 0) := by
  cases rest with
  | nil => exact .inl rfl
  | cons c rest =>
    rcases terminated c rfl with same | same
    · exact .inr (by rw [same]; rfl)
    · exact .inr (by rw [same]; rfl)

theorem Radix.facts (radix : Radix base) : 1 < base ∧ 8 ≤ base ∧ base ≤ 16 := by
  rcases radix with rfl | rfl | rfl <;> decide

/-- A signed number in its three parts: a blank, a sign and the numeral of its size. -/
theorem signedWrites_parts (f : Flags) (base : Nat) (upper : Bool) {n : Int} (low : -2 ^ 63 ≤ n) (high : n < 2 ^ 63) :
    ∃ blanks sign : List UInt8,
      (signedWrites f base upper n).flatten = blanks ++ (sign ++ numeralOf base upper n.natAbs) ∧
      (∀ c ∈ blanks, isSpace c = true) ∧ (sign = [chr '-'] ∨ sign = [chr '+'] ∨ sign = []) ∧
      (sign = [chr '-'] ↔ n < 0) ∧ blanks.length + sign.length ≤ 1 := by
  have size : toUInt64 (if n < 0 then -n else n) = n.natAbs := by
    rw [toUInt64]
    split <;> omega
  rw [signedWrites, size]
  by_cases negative : n < 0
  · exact ⟨[], [chr '-'], by simp [signWrites, negative], by simp, .inl rfl, by simp [negative], by decide⟩
  · have plus : [chr '+'] ≠ [chr '-'] := by decide
    have nothing : ([] : List UInt8) ≠ [chr '-'] := by decide
    cases forced : f.forcesign with
    | true =>
      exact ⟨[], [chr '+'], by simp [signWrites, negative], by simp, .inr (.inl rfl), by simp [negative, plus],
        by decide⟩
    | false =>
      cases padded : f.padsign with
      | true =>
        exact ⟨[space], [], by simp [signWrites, negative], by decide +kernel, .inr (.inr rfl), by simp [negative],
          by decide⟩
      | false =>
        exact ⟨[], [], by simp [signWrites, negative], by simp, .inr (.inr rfl), by simp [negative], by decide⟩

/-- The value that `fmtParseLL` makes of a sign and a size. -/
theorem signed_value {n : Int} {sign : List UInt8} (low : -2 ^ 63 ≤ n) (high : n < 2 ^ 63)
    (negative : sign = [chr '-'] ↔ n < 0) :
    signed 64 (if sign = [chr '-'] then wrap64 (2 ^ 64 - wrap64 n.natAbs) else wrap64 n.natAbs) = n := by
  simp only [negative, signed, wrap64]
  split <;> omega

/-- A numeral is read back by `strtoull`, a signed one by `strtoll`. -/
theorem read_back (radix : Radix base) (upper : Bool) :
    (∀ n < 2 ^ 64, ReadBack (fun s => fmtStringifyULL s n base upper) (fun nptr => strtoull nptr base) n) ∧
    ∀ (n : Int) (sign padsign : Bool), -2 ^ 63 ≤ n → n < 2 ^ 63 →
      ReadBack (fun s => fmtStringifyLL s n base upper sign padsign) (fun nptr => strtoll nptr base) n := by
  obtain ⟨more, atLeast, atMost⟩ := radix.facts
  have some : ∀ n, numeralOf base upper n ≠ [] := fun n => List.ne_nil_of_length_pos numeralOf_length_pos
  have length : ∀ n < 2 ^ 64, (numeralOf base upper n).length ≤ 22 := fun n small => numeralOf_length atLeast small
  constructor
  · intro n small
    refine ⟨[numeralOf base upper n], fun s => fmtStringifyULL_eq s (by omega) atMost small, ?_⟩
    intro nptr rest terminated spells
    have short := length n small
    obtain ⟨stops, ascii⟩ := @Boundary.stops base rest terminated.boundary
    rw [List.flatten_singleton] at spells ⊢
    have parsed := @Rest.unsigned_run (2 ^ 31) base _ rest (by omega) (some n) (numeralOf_digits more atMost) stops
      (by omega) ascii (by omega)
    refine (strtoull_eq spells base).trans ?_
    rw [parsed, valueOf_numeralOf more atMost]
    have value : wrap64 n = n := Nat.mod_eq_of_lt small
    simp [bind, Except.bind, value]
  · intro n sign padsign low high
    refine ⟨signedWrites ⟨false, sign, padsign, false, false⟩ base upper n,
      fun s => fmtStringifyLL_eq s ⟨false, sign, padsign, false, false⟩ n (by omega) atMost, ?_⟩
    intro nptr rest terminated spells
    obtain ⟨blanks, mark, parts, blank, signs, negative, fits⟩ :=
      signedWrites_parts ⟨false, sign, padsign, false, false⟩ base upper low high
    have short := length n.natAbs (by omega)
    obtain ⟨stops, ascii⟩ := @Boundary.stops base rest terminated.boundary
    rw [parts, List.append_assoc, List.append_assoc] at spells
    have parsed := @Rest.signed_run (2 ^ 31) base _ rest blanks mark blank signs (by omega) (some n.natAbs)
      (numeralOf_digits more atMost) stops (by omega) ascii (by omega)
    refine (strtoll_eq spells base).trans ?_
    rw [parsed, valueOf_numeralOf more atMost, parts, signed_value low high negative]
    simp only [bind, Except.bind, List.length_append]
    congr 2
    omega

theorem read_back_extremes :
    ReadBack (fun s => fmtStringifyULL s (2 ^ 64 - 1) 16 true) (fun nptr => strtoull nptr 16) (2 ^ 64 - 1) ∧
    ReadBack (fun s => fmtStringifyLL s (-2 ^ 63) 10 false true false) (fun nptr => strtoll nptr 10) (-2 ^ 63) :=
  ⟨(read_back (.inr (.inr rfl)) true).1 _ (by decide),
    (read_back (.inr (.inl rfl)) false).2 _ true false (by decide) (by decide)⟩

end UmkaOs.Fmt
