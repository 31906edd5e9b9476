import UmkaOs.Fmt.Assigned
import UmkaOs.Fmt.Peek

namespace UmkaOs.Fmt

open Lib

inductive Sign where
  | none | plus | minus
  deriving DecidableEq

def Sign.text : Sign → List UInt8
  | none => []
  | plus => [chr '+']
  | minus => [chr '-']

/-- `e` or `E` and what follows it. -/
structure Exponent where
  upper : Bool
  sign : Sign
  digits : List (Fin 10)
  nonempty : digits ≠ []
  short : digits.length < 20

def Exponent.text (e : Exponent) : List UInt8 :=
  (if e.upper then chr 'E' else chr 'e') :: (e.sign.text ++ e.digits.map digitByte)

def Exponent.value (e : Exponent) : Int := if e.sign = .minus then -(number e.digits : Int) else number e.digits

/-- What follows the fraction. -/
def suffixText (exponent : Option Exponent) : List UInt8 := (exponent.map Exponent.text).getD []

/-- `[+-]digits[.digits][(e|E)[+-]digits]` -/
structure Decimal where
  sign : Sign
  whole : List (Fin 10)
  nonempty : whole ≠ []
  short : whole.length < 20
  fraction : Option (List (Fin 10))
  exponent : Option Exponent

namespace Decimal

/-- The digits behind the point. -/
def behind (d : Decimal) : List (Fin 10) := d.fraction.getD []

def fractionText (d : Decimal) : List UInt8 := (d.fraction.map fun ds => chr '.' :: ds.map digitByte).getD []

def text (d : Decimal) : List UInt8 :=
  d.sign.text ++ (d.whole.map digitByte ++ (d.fractionText ++ suffixText d.exponent))

/-- The number without its sign and its exponent. -/
def mantissa (d : Decimal) : ℚ := number d.whole + number d.behind / 10 ^ d.behind.length

/-- The number that the text denotes. -/
def value (d : Decimal) : ℚ :=
  (if d.sign = .minus then -1 else 1) * d.mantissa * 10 ^ ((d.exponent.map Exponent.value).getD 0)

/-- No sign is lost: there is none, no exponent follows, or the number is zero. -/
def Signless (d : Decimal) : Prop :=
  d.sign ≠ .minus ∨ d.exponent = none ∨ number d.whole = 0 ∧ number d.behind = 0

/-- What the parser gathers of the digits, modulo 2^64 behind the point. -/
def gathered (d : Decimal) : ℚ := number d.whole + wrap64 (number d.behind) / 10 ^ d.behind.length

end Decimal

/-- What the parser does with a number at its end. Behind an exponent the sign is not applied. -/
def scaled (negative : Bool) (val : ℚ) : Option Exponent → ℚ
  | none => val * (if negative then -1 else 1)
  | some e => val * 10 ^ e.value

/-- `fmtParseD` returns the number and takes the whole text. -/
def DecimalRead (stop : Nat) (s : RWStream) (d : Decimal) : Prop :=
  ∃ s', fmtParseD s = .ok (s', d.value) ∧ s'.tell = .ok stop

variable {s s' : RWStream} {stop room fuel : Nat} {text rest : List UInt8} {c : UInt8} {ds : List (Fin 10)}
  {r : Rest} {d : Decimal} {e : Exponent}

theorem isDigitOf_digitByte : ∀ d : Fin 10, isDigitOf 10 (digitByte d) = true ∧
    (digitValue (digitByte d)).getD 0 = d := by decide

theorem valueOf_digits (ds : List (Fin 10)) : valueOf 10 (ds.map digitByte) = number ds := by
  rw [valueOf, number, List.foldl_map]
  simp only [(isDigitOf_digitByte _).2]

theorem number_lt (ds : List (Fin 10)) : number ds < 10 ^ ds.length := by
  induction ds using List.reverseRecOn with
  | nil => decide
  | append_singleton ds d ih =>
    rw [number, List.foldl_append, List.length_append, List.length_singleton, Nat.pow_succ]
    have below := d.isLt
    have front : ds.foldl (fun v (d : Fin 10) => v * 10 + (d : Nat)) 0 < 10 ^ ds.length := ih
    simp only [List.foldl_cons, List.foldl_nil]
    omega

theorem wrap64_number (short : ds.length < 20) : wrap64 (number ds) = number ds := by
  have most : 10 ^ ds.length ≤ 10 ^ 19 := Nat.pow_le_pow_right (by decide) (by omega)
  have below := number_lt ds
  exact Nat.mod_eq_of_lt (by omega)

theorem Faces.accept_here (faces : Faces stop s ⟨c :: rest, room + 1⟩) :
    ∃ s', Fmt.acceptChar s c = .ok (s', true) ∧ Faces stop s' ⟨rest, room⟩ := by
  have step := faces.acceptChar c
  rwa [Rest.accept_here] at step

theorem Faces.accept_other (faces : Faces stop s r) (other : r.text.head? ≠ some c) :
    ∃ s', Fmt.acceptChar s c = .ok (s', false) ∧ Faces stop s' r := by
  have step := faces.acceptChar c
  rwa [Rest.accept_other other] at step

theorem Faces.digits (faces : Faces stop s ⟨ds.map digitByte ++ rest, room⟩) (short : ds.length < 20)
    (stops : StopsDigits 10 rest) (ascii : (rest.headD 0).toNat < 128) (fits : ds.length ≤ room) :
    ∃ s', Fmt.fmtParseNum s 10 = .ok (s', number ds) ∧ Faces stop s' ⟨rest, room - ds.length⟩ := by
  have digits : ∀ d ∈ ds.map digitByte, isDigitOf 10 d = true := by
    intro c member
    obtain ⟨d, _, rfl⟩ := List.mem_map.mp member
    exact (isDigitOf_digitByte d).1
  have length : (ds.map digitByte).length = ds.length := List.length_map _
  have step := faces.fmtParseNum 10
  rw [Rest.number_run (by decide) digits stops (by omega) ascii (by omega), valueOf_digits, wrap64_number short,
    length] at step
  obtain ⟨⟨s', n⟩, run, behind, value⟩ := step.ok_right rfl
  cases value
  exact ⟨s', run, behind⟩

/-- The digits behind the point are gathered in 64 bits. -/
theorem Faces.frac {frac : Nat} {div : ℚ} (faces : Faces stop s ⟨ds.map digitByte ++ rest, room⟩)
    (stops : ∀ c ∈ rest.head?, isDigit c = false) (fits : ds.length ≤ room) (enough : ds.length < fuel) :
    ∃ s', Fmt.fracLoop fuel s (wrap64 frac) div =
      .ok (s', wrap64 (ds.foldl (fun v (d : Fin 10) => v * 10 + (d : Nat)) frac), div * 10 ^ ds.length) ∧
      Faces stop s' ⟨rest, room - ds.length⟩ := by
  induction ds generalizing s fuel frac div room with
  | nil =>
    obtain ⟨fuel, rfl⟩ : ∃ less, fuel = less + 1 := ⟨fuel - 1, by omega⟩
    refine ⟨s, ?_, faces⟩
    rw [Fmt.fracLoop, faces.peek]
    cases rest with
    | nil => simp [bind, Except.bind, pure, Except.pure]
    | cons c rest =>
      have other := stops c rfl
      simp [bind, Except.bind, pure, Except.pure, other]
  | cons d ds ih =>
    rw [List.length_cons] at fits enough
    obtain ⟨fuel, rfl⟩ : ∃ less, fuel = less + 1 := ⟨fuel - 1, by omega⟩
    obtain ⟨room, rfl⟩ : ∃ less, room = less + 1 := ⟨room - 1, by omega⟩
    obtain ⟨s1, moved, next⟩ := faces.read 1
    rw [List.map_cons, List.cons_append, Rest.read_cons, Rest.read_zero] at moved next
    have digit : (digitByte d).toNat - 48 = d := by
      rw [toNat_digitByte]
      omega
    have gathered : wrap64 (wrap64 frac * 10 + d) = wrap64 (frac * 10 + d) := by
      simp only [wrap64]
      omega
    obtain ⟨s', later, behind⟩ := @ih s1 room fuel (frac * 10 + d) (div * 10) next (by omega) (by omega)
    have left : room + 1 - (ds.length + 1) = room - ds.length := by omega
    refine ⟨s', ?_, by rwa [List.length_cons, left]⟩
    rw [Fmt.fracLoop, faces.peek]
    simp only [List.map_cons, List.cons_append, List.take_succ_cons, bind, Except.bind, isDigit_digitByte, if_true,
      moved, digit, gathered, List.foldl_cons, List.length_cons]
    rw [later, pow_succ', mul_assoc]

theorem Faces.sign {α : Type} (sign : Sign) (faces : Faces stop s ⟨sign.text ++ rest, room⟩)
    (plain : rest.head? ≠ some (chr '+') ∧ rest.head? ≠ some (chr '-')) (fits : sign.text.length ≤ room) :
    ∃ s', Faces stop s' ⟨rest, room - sign.text.length⟩ ∧ ∀ f : Bool → RWStream → Except Fault α,
      (Fmt.acceptChar s (chr '-') >>= fun x =>
        if x.2 then f x.2 x.1 else Fmt.acceptChar x.1 (chr '+') >>= fun y => f x.2 y.1) =
      f (sign = .minus) s' := by
  have parts : (⟨sign.text ++ rest, room⟩ : Rest).unsign true = ⟨rest, room - sign.text.length⟩ ∧
      ((⟨sign.text ++ rest, room⟩ : Rest).accept (chr '-')).2 = decide (sign = .minus) := by
    rw [← Rest.accept_unsign true]
    cases sign with
    | none =>
      have minus := @Rest.accept_other (chr '-') ⟨rest, room⟩ plain.2
      have plus := @Rest.accept_other (chr '+') ⟨rest, room⟩ plain.1
      simp [Sign.text, minus, plus]
    | plus =>
      obtain ⟨room, rfl⟩ : ∃ less, room = less + 1 := ⟨room - 1, (Nat.succ_pred_eq_of_pos fits).symm⟩
      have minus := @Rest.accept_other (chr '-') ⟨chr '+' :: rest, room + 1⟩
        (show some (chr '+') ≠ some (chr '-') by decide)
      simp [Sign.text, minus, Rest.accept_here]
    | minus =>
      obtain ⟨room, rfl⟩ : ∃ less, room = less + 1 := ⟨room - 1, (Nat.succ_pred_eq_of_pos fits).symm⟩
      simp [Sign.text, Rest.accept_here]
  have behind := @Faces.unsign _ _ _ α faces
  rwa [parts.1, parts.2] at behind

theorem digits_plain (nonempty : ds ≠ []) (rest : List UInt8) : ∀ c ∈ (ds.map digitByte ++ rest).head?,
    isSpace c = false ∧ c ≠ chr '+' ∧ c ≠ chr '-' :=
  Rest.run_head (by simpa using nonempty) fun c member => by
    obtain ⟨d, _, rfl⟩ := List.mem_map.mp member
    exact (isDigitOf_digitByte d).1

theorem Faces.scientific (negative : Bool) (val : ℚ) (exponent : Option Exponent)
    (faces : Faces stop s ⟨suffixText exponent, room⟩) (fits : (suffixText exponent).length ≤ room) :
    ∃ s' room', Fmt.exponent negative val s = .ok (s', scaled negative val exponent) ∧ Faces stop s' ⟨[], room'⟩ := by
  cases exponent with
  | none =>
    obtain ⟨s1, lower, faces1⟩ := @Faces.accept_other _ _ (chr 'e') _ faces (by simp [suffixText])
    obtain ⟨s2, upper, faces2⟩ := @Faces.accept_other _ _ (chr 'E') _ faces1 (by simp [suffixText])
    refine ⟨s2, room, ?_, faces2⟩
    simp only [Fmt.exponent, lower, upper, bind, Except.bind, Bool.false_eq_true, if_false, pure, Except.pure, scaled]
  | some e =>
    have whole : suffixText (some e) = (if e.upper then chr 'E' else chr 'e') ::
        (e.sign.text ++ (e.digits.map digitByte ++ [])) := by simp [suffixText, Exponent.text]
    rw [whole, List.length_cons, List.length_append, List.append_nil, List.length_map] at fits
    obtain ⟨room, rfl⟩ : ∃ less, room = less + 1 := ⟨room - 1, by omega⟩
    rw [whole] at faces
    obtain ⟨s1, faces1, marked⟩ : ∃ s1, Faces stop s1 ⟨e.sign.text ++ (e.digits.map digitByte ++ []), room⟩ ∧
        Fmt.exponent negative val s = (Fmt.acceptChar s1 (chr '-') >>= fun x =>
          if x.2 then Fmt.fmtParseNum x.1 10 >>= fun y =>
            .ok (y.1, val * 10 ^ (if x.2 then -(y.2 : Int) else (y.2 : Int)))
          else Fmt.acceptChar x.1 (chr '+') >>= fun y => Fmt.fmtParseNum y.1 10 >>= fun z =>
            .ok (z.1, val * 10 ^ (if x.2 then -(z.2 : Int) else (z.2 : Int)))) := by
      cases big : e.upper with
      | false =>
        simp only [big, Bool.false_eq_true, if_false] at faces
        obtain ⟨s1, lower, faces1⟩ := faces.accept_here
        exact ⟨s1, faces1, by rw [Fmt.exponent, lower]; rfl⟩
      | true =>
        simp only [big, if_true] at faces
        have other : some (chr 'E') ≠ some (chr 'e') := by decide
        obtain ⟨s1, lower, faces1⟩ := @Faces.accept_other _ _ (chr 'e') _ faces other
        obtain ⟨s2, upper, faces2⟩ := faces1.accept_here
        refine ⟨s2, faces2, ?_⟩
        rw [Fmt.exponent, lower]
        simp only [bind, Except.bind, Bool.false_eq_true, if_false, upper]
        rfl
    have plain := digits_plain e.nonempty []
    obtain ⟨s2, faces2, goes⟩ := @Faces.sign _ _ _ _ (RWStream × ℚ) e.sign faces1
      ⟨fun same => (plain _ same).2.1 rfl, fun same => (plain _ same).2.2 rfl⟩ (by omega)
    obtain ⟨s3, parsed, faces3⟩ := faces2.digits e.short (show isDigitOf 10 0 = false by decide) (by decide) (by omega)
    refine ⟨s3, _, ?_, faces3⟩
    rw [marked, goes fun down s => Fmt.fmtParseNum s 10 >>= fun y =>
      .ok (y.1, val * 10 ^ (if down then -(y.2 : Int) else (y.2 : Int))), parsed]
    simp only [bind, Except.bind, scaled, Exponent.value, decide_eq_true_eq]

/-- What can stand behind digits. -/
def isMark (c : UInt8) : Bool := c = chr '.' || c = chr 'e' || c = chr 'E'

theorem isMark_plain (mark : isMark c = true) : isDigitOf 10 c = false ∧ isDigit c = false ∧ c.toNat < 128 := by
  simp only [isMark, Bool.or_eq_true, decide_eq_true_eq] at mark
  rcases mark with (rfl | rfl) | rfl <;> decide

theorem stops_marks (marks : ∀ c ∈ rest.head?, isMark c = true) :
    StopsDigits 10 rest ∧ (rest.headD 0).toNat < 128 := by
  cases rest with
  | nil => exact ⟨show isDigitOf 10 0 = false by decide, show (0 : UInt8).toNat < 128 by decide⟩
  | cons c rest =>
    have plain := isMark_plain (marks c rfl)
    exact ⟨plain.1, plain.2.2⟩

theorem suffixText_head (exponent : Option Exponent) :
    ∀ c ∈ (suffixText exponent).head?, isMark c = true ∧ c ≠ chr '.' := by
  cases exponent with
  | none => simp [suffixText]
  | some e =>
    cases big : e.upper <;> simp [suffixText, Exponent.text, big] <;> decide

theorem fraction_head (d : Decimal) : ∀ c ∈ (d.fractionText ++ suffixText d.exponent).head?, isMark c = true := by
  rw [Decimal.fractionText]
  cases d.fraction with
  | none => exact fun c member => (suffixText_head d.exponent c member).1
  | some ds =>
    rintro c ⟨⟩
    decide

theorem Faces.magnitude_eq (d : Decimal) (negative : Bool)
    (faces : Faces stop s ⟨d.whole.map digitByte ++ (d.fractionText ++ suffixText d.exponent), room⟩)
    (fits : d.whole.length + (d.fractionText ++ suffixText d.exponent).length ≤ room) :
    ∃ s' room', Fmt.magnitude negative s = .ok (s', scaled negative d.gathered d.exponent) ∧
      Faces stop s' ⟨[], room'⟩ := by
  obtain ⟨stops, ascii⟩ := stops_marks (fraction_head d)
  obtain ⟨point, told, ends⟩ := faces.tell
  obtain ⟨s1, whole, faces1⟩ := faces.digits d.short stops ascii (by omega)
  obtain ⟨position, told1, ends1⟩ := faces1.tell
  have some : 0 < d.whole.length := List.length_pos_of_ne_nil d.nonempty
  have moved : position ≠ point := by
    simp only [List.length_append, List.length_map] at ends ends1
    omega
  have behind : ∀ {s2 : RWStream} {left : Nat} (val : ℚ), Faces stop s2 ⟨suffixText d.exponent, left⟩ →
      (suffixText d.exponent).length ≤ left → ∃ s' room', Fmt.exponent negative val s2 =
        .ok (s', scaled negative val d.exponent) ∧ Faces stop s' ⟨[], room'⟩ :=
    fun val faces fits => faces.scientific negative val d.exponent fits
  rw [Fmt.magnitude, told]
  simp only [bind, Except.bind, whole, told1, moved, if_false]
  cases fraction : d.fraction with
  | none =>
    have nothing : d.fractionText = [] := by rw [Decimal.fractionText, fraction]; rfl
    have none : d.gathered = number d.whole := by simp [Decimal.gathered, Decimal.behind, fraction, number, wrap64]
    rw [nothing, List.nil_append] at faces1 fits
    obtain ⟨s2, dotted, faces2⟩ := @Faces.accept_other _ _ (chr '.') _ faces1
      fun same => (suffixText_head d.exponent _ same).2 rfl
    simp only [dotted, Bool.false_eq_true, if_false, none]
    exact behind _ faces2 (by omega)
  | some ds =>
    have point : d.fractionText = chr '.' :: ds.map digitByte := by rw [Decimal.fractionText, fraction]; rfl
    have some : d.behind = ds := by rw [Decimal.behind, fraction]; rfl
    rw [point, List.cons_append, List.length_cons, List.length_append, List.length_map] at fits
    rw [point, List.cons_append] at faces1
    obtain ⟨left, enough⟩ : ∃ left, room - d.whole.length = left + 1 := ⟨room - d.whole.length - 1, by omega⟩
    rw [enough] at faces1
    obtain ⟨s2, dotted, faces2⟩ := faces1.accept_here
    have turning : left < turns := faces2.1
    obtain ⟨s3, loop, faces3⟩ := @Faces.frac _ _ _ turns _ _ 0 1 faces2
      (fun c member => (isMark_plain (suffixText_head d.exponent c member).1).2.1) (by omega) (by omega)
    rw [one_mul] at loop
    have frac : Fmt.fracLoop turns s2 0 1 = .ok (s3, wrap64 (number ds), 10 ^ ds.length) := loop
    simp only [dotted, if_true, frac, Decimal.gathered, some]
    exact behind _ faces3 (by omega)

theorem Faces.decimal (d : Decimal) (faces : Faces stop s ⟨d.text, room⟩) (fits : d.text.length ≤ room) :
    ∃ s' room', Fmt.fmtParseD s = .ok (s', scaled (d.sign = .minus) d.gathered d.exponent) ∧
      Faces stop s' ⟨[], room'⟩ := by
  have lengths : d.text.length =
      d.sign.text.length + (d.whole.length + (d.fractionText ++ suffixText d.exponent).length) := by
    simp only [Decimal.text, List.length_append, List.length_map]
  have plain := digits_plain d.nonempty (d.fractionText ++ suffixText d.exponent)
  have noBlank : ∀ c ∈ d.text.head?, isSpace c = false := by
    rw [Decimal.text]
    cases d.sign with
    | none => exact fun c member => (plain c member).1
    | plus | minus =>
      rintro c ⟨⟩
      decide
  have step := @Faces.skipWhile _ _ _ isSpace faces
  rw [Rest.skip_stop noBlank] at step
  obtain ⟨s1, skipped, faces1⟩ := step.ok_right rfl
  obtain ⟨s2, faces2, goes⟩ := @Faces.sign _ _ _ _ (RWStream × ℚ) d.sign faces1
    ⟨fun same => (plain _ same).2.1 rfl, fun same => (plain _ same).2.2 rfl⟩ (by omega)
  obtain ⟨s3, room', found, faces3⟩ := faces2.magnitude_eq d (d.sign = .minus) (by omega)
  refine ⟨s3, room', ?_, faces3⟩
  rw [fmtParseD_eq, skipSpaces, skipped]
  exact (goes Fmt.magnitude).trans found

/-- Where a computation returns, peeks and reads have led to its stream. -/
def OnlyLooks (s : RWStream) {α : Type} (x : Except Fault (RWStream × α)) : Prop :=
  ∀ y, x = .ok y → Relation.ReflTransGen Looks s y.1

theorem OnlyLooks.bind {α β : Type} {x : Except Fault (RWStream × α)} {f : RWStream × α → Except Fault (RWStream × β)}
    (first : OnlyLooks s x) (rest : ∀ s a, OnlyLooks s (f (s, a))) : OnlyLooks s (x >>= f) := by
  intro y run
  obtain ⟨⟨s1, a⟩, here, later⟩ := bind_ok run
  exact (first _ here).trans (rest s1 a y later)

theorem onlyLooks_here {α : Type} (a : α) : OnlyLooks s (.ok (s, a)) := by
  rintro y ⟨⟩
  exact .refl

theorem onlyLooks_peek (s : RWStream) (k : Nat) : OnlyLooks s (s.peek k) := fun _ run => .single (.peek run)

theorem onlyLooks_read (s : RWStream) (k : Nat) : OnlyLooks s (s.read k) := fun _ run => .single (.read run)

theorem onlyLooks_acceptChar (s : RWStream) (c : UInt8) : OnlyLooks s (acceptChar s c) := by
  refine (onlyLooks_peek s 1).bind fun s ch => ?_
  dsimp only
  split
  · exact (onlyLooks_read s 1).bind fun s _ => onlyLooks_here _
  · exact onlyLooks_here _

theorem onlyLooks_fmtParseNum (s : RWStream) (base : Nat) : OnlyLooks s (fmtParseNum s base) := by
  refine (onlyLooks_peek s 64).bind fun s ahead => ?_
  intro y run
  obtain ⟨⟨n, count⟩, _, run⟩ := bind_ok run
  exact ((onlyLooks_read s count).bind fun s _ => onlyLooks_here n) y run

theorem onlyLooks_fracLoop (fuel : Nat) (s : RWStream) (frac : Nat) (div : ℚ) :
    OnlyLooks s (fracLoop fuel s frac div) := by
  induction fuel generalizing s frac div with
  | zero =>
    rintro y ⟨⟩
  | succ fuel ih =>
    refine (onlyLooks_peek s 1).bind fun s ch => ?_
    dsimp only
    split
    · exact onlyLooks_here _
    · split
      · exact (onlyLooks_read s 1).bind fun s _ => ih s _ _
      · exact onlyLooks_here _

theorem onlyLooks_branch {α : Type} (c : UInt8) (b b' : Bool) {f : RWStream × Bool → Except Fault (RWStream × α)}
    (rest : ∀ s b, OnlyLooks s (f (s, b))) :
    OnlyLooks s (if b = true then (.ok (s, b') : Except Fault (RWStream × Bool)) >>= f
      else acceptChar s c >>= f) := by
  cases b with
  | true => exact rest s b'
  | false => exact (onlyLooks_acceptChar s c).bind rest

theorem onlyLooks_exponent (negative : Bool) (val : ℚ) (s : RWStream) : OnlyLooks s (exponent negative val s) := by
  refine (onlyLooks_acceptChar s _).bind fun s lower => ?_
  refine onlyLooks_branch _ _ _ fun s scientific => ?_
  cases scientific with
  | false => exact onlyLooks_here _
  | true =>
    refine (onlyLooks_acceptChar s _).bind fun s down => ?_
    refine onlyLooks_branch _ _ _ fun s plus => ?_
    exact (onlyLooks_fmtParseNum s 10).bind fun s e => onlyLooks_here _

theorem onlyLooks_magnitude (negative : Bool) (s : RWStream) : OnlyLooks s (magnitude negative s) := by
  intro y run
  obtain ⟨point, _, run⟩ := bind_ok run
  refine ((onlyLooks_fmtParseNum s 10).bind fun s whole => ?_) y run
  intro y run
  obtain ⟨position, _, run⟩ := bind_ok run
  split at run
  · exact onlyLooks_here _ y run
  · refine ((onlyLooks_acceptChar s _).bind fun s dotted => ?_) y run
    cases dotted with
    | false => exact onlyLooks_exponent negative _ s
    | true => exact (onlyLooks_fracLoop turns s 0 1).bind fun s parts => onlyLooks_exponent negative _ s

theorem looks_skipWhile {skipped : UInt8 → Bool} (run : Fmt.skipWhile skipped fuel s = .ok s') :
    Relation.ReflTransGen Looks s s' := by
  induction fuel generalizing s with
  | zero => cases run
  | succ fuel ih =>
    rw [Fmt.skipWhile] at run
    obtain ⟨⟨s1, ch⟩, peeked, run⟩ := bind_ok run
    have first := onlyLooks_peek s 1 _ peeked
    dsimp only at run
    split at run
    · cases run
      exact first
    · split at run
      · obtain ⟨⟨s2, byte⟩, moved, run⟩ := bind_ok run
        exact (first.trans (onlyLooks_read s1 1 _ moved)).trans (ih run)
      · cases run
        exact first

theorem looks_fmtParseD {v : ℚ} (run : fmtParseD s = .ok (s', v)) : Relation.ReflTransGen Looks s s' := by
  rw [fmtParseD_eq] at run
  obtain ⟨s1, skipped, run⟩ := bind_ok run
  refine (looks_skipWhile skipped).trans (((onlyLooks_acceptChar s1 _).bind fun s negative => ?_) _ run)
  cases negative with
  | true => exact onlyLooks_magnitude true s
  | false => exact (onlyLooks_acceptChar s _).bind fun s plus => onlyLooks_magnitude false s

theorem Limited.looks {size : Nat} {t : RWStream} (limited : Limited s size) (looks : Looks s t) : Limited t size := by
  cases looks with
  | peek run => exact limited.peek run
  | read run => exact limited.read run

/-- What is taken whole lies within the room. -/
theorem taken_fits {v : ℚ} (faces : Faces stop s ⟨text, room⟩) (run : fmtParseD s = .ok (s', v))
    (told : s'.tell = .ok stop) : text.length ≤ room := by
  obtain ⟨_, faces⟩ := faces
  split at faces
  · rename_i mem target
    obtain ⟨ends, _, size⟩ := faces
    have start : Limited s s.size := ⟨⟨mem, target⟩, rfl, by omega⟩
    have keeps : ∀ t t', Looks t t' → Limited t s.size → Limited t' s.size := fun _ _ looks limited =>
      limited.looks looks
    obtain ⟨⟨_, target'⟩, _, low⟩ := kept keeps (looks_fmtParseD run) start
    cases (RWStream.tell_str target').symm.trans told
    dsimp only at ends size
    omega
  · exact faces.1

theorem power_ne_zero (k : Nat) : (10 : ℚ) ^ k ≠ 0 := pow_ne_zero k (by norm_num)

/-- The parser gathers the mantissa exactly if 64 bits hold the digits behind the point. -/
theorem gathered_iff (d : Decimal) : d.gathered = d.mantissa ↔ number d.behind < 2 ^ 64 := by
  rw [Decimal.gathered, Decimal.mantissa, add_right_inj, div_left_inj' (power_ne_zero _), Nat.cast_inj]
  constructor
  · intro same
    rw [← same]
    exact Nat.mod_lt _ (by decide)
  · exact Nat.mod_eq_of_lt

theorem gathered_nonneg (d : Decimal) : 0 ≤ d.gathered := by
  unfold Decimal.gathered
  positivity

theorem mantissa_nonneg (d : Decimal) : 0 ≤ d.mantissa := by
  unfold Decimal.mantissa
  positivity

theorem mantissa_eq_zero (d : Decimal) : d.mantissa = 0 ↔ number d.whole = 0 ∧ number d.behind = 0 := by
  have fraction : 0 ≤ (number d.behind : ℚ) / 10 ^ d.behind.length := by positivity
  rw [Decimal.mantissa, add_eq_zero_iff_of_nonneg (Nat.cast_nonneg _) fraction, div_eq_zero_iff, Nat.cast_eq_zero,
    Nat.cast_eq_zero, or_iff_left (power_ne_zero _)]

/-- A lost minus sign does no harm to a zero only. -/
theorem gathered_neg (d : Decimal) : d.gathered = -d.mantissa ↔
    number d.behind < 2 ^ 64 ∧ number d.whole = 0 ∧ number d.behind = 0 := by
  have low := gathered_nonneg d
  have low' := mantissa_nonneg d
  rw [← mantissa_eq_zero]
  constructor
  · intro same
    have zero : d.mantissa = 0 := by linarith
    refine ⟨?_, zero⟩
    rw [((mantissa_eq_zero d).mp zero).2]
    decide
  · rintro ⟨small, zero⟩
    rw [(gathered_iff d).mpr small, zero, neg_zero]

theorem scaled_iff (d : Decimal) : scaled (d.sign = .minus) d.gathered d.exponent = d.value ↔
    number d.behind < 2 ^ 64 ∧ d.Signless := by
  rw [Decimal.value, Decimal.Signless]
  cases d.exponent with
  | none =>
    simp only [scaled, decide_eq_true_eq, Option.map_none, Option.getD_none, zpow_zero, mul_one, true_or, or_true,
      and_true, ← gathered_iff]
    split <;> simp [mul_comm]
  | some e =>
    have power : (10 : ℚ) ^ e.value ≠ 0 := zpow_ne_zero _ (by norm_num)
    simp only [scaled, Option.map_some, Option.getD_some, reduceCtorEq, false_or, mul_left_inj' power]
    by_cases negative : d.sign = .minus
    · simp only [negative, if_true, not_true, false_or, neg_one_mul, ne_eq]
      exact gathered_neg d
    · simp only [negative, if_false, not_false_eq_true, true_or, and_true, one_mul, ne_eq]
      exact gathered_iff d

/-- A decimal number is read exactly when it lies within the stream's limit, 64
bits hold the digits behind its point, and its sign is not lost. -/
theorem decimal_read (faces : Faces stop s ⟨d.text, room⟩) :
    DecimalRead stop s d ↔ d.text.length ≤ room ∧ number d.behind < 2 ^ 64 ∧ d.Signless := by
  constructor
  · rintro ⟨s', run, told⟩
    have fits := taken_fits faces run told
    obtain ⟨_, _, run', _⟩ := faces.decimal d fits
    obtain ⟨_, same⟩ := Prod.mk.inj (Except.ok.inj (run.symm.trans run'))
    exact ⟨fits, (scaled_iff d).mp same.symm⟩
  · rintro ⟨fits, keeps⟩
    obtain ⟨s', _, run, behind⟩ := faces.decimal d fits
    rw [(scaled_iff d).mpr keeps] at run
    obtain ⟨position, told, ends⟩ := behind.tell
    exact ⟨s', run, told.trans (congrArg _ ends)⟩

theorem decimal_read_signed : ∃ d : Decimal, d.text = [chr '-', chr '1', chr '.', chr '2', chr '5'] ∧
    d.value = -5 / 4 ∧ DecimalRead 5 (.mkStr (stringOf d.text)) d := by
  refine ⟨⟨.minus, [1], by decide, by decide, some [2, 5], none⟩, by decide, ?_, ?_⟩
  · norm_num [Decimal.value, Decimal.mantissa, Decimal.behind, number]
  · exact (decimal_read (faces_mkStr (spells_stringOf (by decide +kernel)))).mpr ⟨by decide, by decide, .inr (.inl rfl)⟩

/-- `-1e2` is read as 100. -/
theorem decimal_sign_lost : ∃ d : Decimal, d.text = [chr '-', chr '1', chr 'e', chr '2'] ∧ d.value = -100 ∧
    (∃ s', fmtParseD (.mkStr (stringOf d.text)) = .ok (s', 100)) ∧
    ¬ DecimalRead 4 (.mkStr (stringOf d.text)) d := by
  obtain ⟨d, made⟩ : ∃ d : Decimal,
    d = ⟨.minus, [1], by decide, by decide, none, some ⟨false, .none, [2], by decide, by decide⟩⟩ := ⟨_, rfl⟩
  have text : d.text = [chr '-', chr '1', chr 'e', chr '2'] := by
    rw [made]
    decide
  have upward : Sign.none ≠ Sign.minus := by decide
  have value : d.value = -100 := by
    rw [made]
    norm_num [Decimal.value, Decimal.mantissa, Decimal.behind, number, Exponent.value, upward]
  have computed : scaled (d.sign = .minus) d.gathered d.exponent = 100 := by
    rw [made]
    norm_num [scaled, Decimal.gathered, Decimal.behind, number, Exponent.value, wrap64, upward]
  have plain : ∀ c ∈ d.text, c ≠ 0 := by
    rw [text]
    decide +kernel
  obtain ⟨s', _, run, _⟩ := (faces_mkStr (spells_stringOf plain)).decimal d (by rw [text]; decide)
  rw [computed] at run
  refine ⟨d, text, value, ⟨s', run⟩, ?_⟩
  rintro ⟨s'', run', _⟩
  have same := (Prod.mk.inj (Except.ok.inj (run.symm.trans run'))).2
  rw [value] at same
  norm_num at same

end UmkaOs.Fmt
