import UmkaOs.Fmt.Strto

namespace UmkaOs.Fmt

open Lib

/-- Whatever the stream is, the call writes `out`. -/
def Prints (fmt : CString) (args : List Arg) (out : List UInt8) : Prop :=
  ∃ writes, writes.flatten = out ∧ ∀ s, fmtvprintf s fmt args = (do
    let s' ← s.writeAll writes
    return (s', [], wrap32 (s'.supposedoffs + (2 ^ 32 - s.supposedoffs))))

variable {fmt rest : CString} {args own widthArgs precisionArgs : List Arg} {out out' : List UInt8} {sp : Spec}
  {width precision : Int} {length : Length} {conversion : Conversion} {arg : Arg}

theorem prints_of_emitted {writes : List (List UInt8)} (done : emitted (fmt.length + 1) fmt args = .ok writes) :
    Prints fmt args writes.flatten :=
  ⟨writes, rfl, fun _ => fmtvprintf_emitted done⟩

/-- There is one such text: a buffer that is large enough shows it. -/
theorem Prints.unique (prints : Prints fmt args out) (prints' : Prints fmt args out') : out = out' := by
  obtain ⟨writes, rfl, run⟩ := prints
  obtain ⟨writes', rfl, run'⟩ := prints'
  have both := (run (.mkStrS (fun _ => 0) (writes.flatten.length + writes'.flatten.length + 1))).symm.trans (run' _)
  have room : 0 < writes.flatten.length + writes'.flatten.length + 1 := Nat.succ_pos _
  simp only [RWStream.mkStrS, RWStream.writeAll_str (by decide : 0 < 2 ^ 32) room, bind, Except.bind, pure, Except.pure,
    Except.ok.injEq, Prod.mk.injEq, RWStream.mk.injEq, Nat.zero_add, Nat.add_sub_cancel, Target.str.injEq] at both
  obtain ⟨⟨_, length, _, memory⟩, _⟩ := both
  rw [Nat.min_eq_left (Nat.le_add_right _ _), Nat.min_eq_left (Nat.le_add_left _ _)] at length memory
  have first := @bytes_printed writes (fun _ => 0)
  have second := @bytes_printed writes' (fun _ => 0)
  rw [← first, memory, length, second]

def Conversion.isInteger : Conversion → Bool
  | .d | .i | .u | .o | .x | .X | .p => true
  | _ => false

/-- What `d` and `i` make of their argument. -/
def signedValue (length : Length) : Arg → Int
  | .word bits => match length with
    | .hh => signed 8 bits.toNat
    | .h => signed 16 bits.toNat
    | .z => bits.toNat
    | _ => signed32 bits.toNat
  | .quad bits => signed 64 bits.toNat
  | _ => 0

/-- What `u`, `o`, `x` and `X` make of it. -/
def unsignedValue (length : Length) : Arg → Nat
  | .word bits => match length with
    | .l | .z => bits.toNat
    | _ => toUInt64 (signed32 bits.toNat)
  | .quad bits => bits.toNat
  | _ => 0

/-- The bits of an argument. -/
def Arg.bits : Arg → Nat
  | .word bits => bits.toNat
  | .quad bits => bits.toNat
  | _ => 0

/-- The number of a conversion, its base and its letter case. -/
def Conversion.num (length : Length) (arg : Arg) : Conversion → Num × Nat × Bool
  | .d | .i => (.ll (signedValue length arg), 10, false)
  | .u => (.ull (unsignedValue length arg), 10, false)
  | .o => (.ull (unsignedValue length arg), 8, false)
  | .x => (.ull (unsignedValue length arg), 16, false)
  | .X => (.ull (unsignedValue length arg), 16, true)
  | .p => (.ull (Arg.bits arg), 16, false)
  | _ => (.none, 0, false)

/-- Its text in `numbuf`. -/
def Num.text (f : Flags) (base : Nat) (upper : Bool) : Num → List UInt8
  | .ull n => numeralOf base upper n
  | .ll n => (signedWrites f base upper n).flatten
  | _ => []

/-- Sign and digits of the argument. -/
def Spec.digits (sp : Spec) (arg : Arg) : List UInt8 :=
  let n := sp.conversion.num sp.length arg
  n.1.text (flagsOf sp.flags) n.2.1 n.2.2

/-- A pointer is always decorated. -/
def Spec.decorated (sp : Spec) : Bool := (flagsOf sp.flags).decorated || sp.conversion = .p

def Spec.field (sp : Spec) (width precision : Int) (arg : Arg) : List UInt8 :=
  let n := sp.conversion.num sp.length arg
  (numWrites (flagsOf sp.flags) width precision n.1 n.2.1 sp.decorated (sp.digits arg)).flatten

theorem signedArg_eq (takes : if length = .ll ∨ length = .j then ∃ bits, [arg] = [Arg.quad bits]
      else ∃ bits, [arg] = [Arg.word bits]) :
    signedArg length [arg] = .ok (signedValue length arg, []) := by
  cases length
  case ll | j =>
    obtain ⟨bits, same⟩ := takes
    cases same
    rfl
  all_goals
    obtain ⟨bits, same⟩ := takes
    cases same
    rfl

theorem unsignedArg_eq (takes : if length = .ll ∨ length = .j then ∃ bits, [arg] = [Arg.quad bits]
      else ∃ bits, [arg] = [Arg.word bits]) :
    unsignedArg length [arg] = .ok (unsignedValue length arg, []) ∧ unsignedValue length arg < 2 ^ 64 := by
  cases length
  case ll | j =>
    obtain ⟨bits, same⟩ := takes
    cases same
    exact ⟨rfl, bits.toNat_lt⟩
  case l | z =>
    obtain ⟨bits, same⟩ := takes
    cases same
    exact ⟨rfl, word_lt bits⟩
  all_goals
    obtain ⟨bits, same⟩ := takes
    cases same
    exact ⟨rfl, toUInt64_lt _⟩

theorem convert_integer (integer : conversion.isInteger) (takes : conversion.Takes length [arg]) (decorated : Bool)
    (precision : Int) :
    convert decorated precision length conversion.byte [arg] =
      .ok (.number (conversion.num length arg).1 (some (conversion.num length arg).2.1)
        (conversion.num length arg).2.2 (decorated || conversion = .p) precision, []) ∧
    ∀ f, numText f (conversion.num length arg).1 (some (conversion.num length arg).2.1)
      (conversion.num length arg).2.2 precision =
        .ok ((conversion.num length arg).1.text f (conversion.num length arg).2.1 (conversion.num length arg).2.2) := by
  have plain : ∀ other : Conversion, other ≠ .p → (decorated || decide (other = .p)) = decorated := by
    intro other different
    rw [decide_eq_false different, Bool.or_false]
  cases conversion with
  | d | i =>
    rw [convert_signed (by simp), signedArg_eq takes]
    refine ⟨?_, fun f => numText_ll f precision _ (Nat.le_of_ble_eq_true rfl) (Nat.le_of_ble_eq_true rfl)⟩
    rw [plain _ (by decide)]
    rfl
  | u | o | x | X =>
    obtain ⟨read, small⟩ := unsignedArg_eq takes
    rw [(convert_unsigned rfl).2, read]
    refine ⟨?_, fun f => numText_ull f precision (Nat.le_of_ble_eq_true rfl) (Nat.le_of_ble_eq_true rfl) small⟩
    rw [plain _ (by decide)]
    rfl
  | p =>
    obtain ⟨bits, same⟩ := takes
    cases same
    refine ⟨?_, fun f =>
      numText_ull f precision (Nat.le_of_ble_eq_true rfl) (Nat.le_of_ble_eq_true rfl) (word_lt bits)⟩
    rw [decide_eq_true rfl, Bool.or_true]
    rfl
  | c | s | percent => cases integer

theorem prints_field (integer : sp.conversion.isInteger) (takesWidth : sp.width.Takes widthArgs width)
    (takesPrecision : sp.precision.Takes precisionArgs precision) (takes : sp.conversion.Takes sp.length [arg]) :
    Prints (formatText [.spec sp]) (widthArgs ++ (precisionArgs ++ [arg])) (sp.field width precision arg) := by
  obtain ⟨converted, text⟩ := convert_integer integer takes (flagsOf sp.flags).decorated precision
  have format : formatText [.spec sp] = chr '%' :: (sp.body ++ sp.conversion.byte :: []) := by
    simp [formatText, Piece.text]
  have made : (⟨flagsOf sp.flags, width, sp.length, .number (sp.conversion.num sp.length arg).1
      (some (sp.conversion.num sp.length arg).2.1) (sp.conversion.num sp.length arg).2.2
      ((flagsOf sp.flags).decorated || sp.conversion = .p) precision⟩ : Directive).writes = .ok _ :=
    number_writes (text (flagsOf sp.flags))
  have emits : emitted ((formatText [.spec sp]).length + 1) (formatText [.spec sp])
      (widthArgs ++ (precisionArgs ++ [arg])) = .ok (numWrites (flagsOf sp.flags) width precision
        (sp.conversion.num sp.length arg).1 (sp.conversion.num sp.length arg).2.1 sp.decorated (sp.digits arg)) := by
    obtain ⟨fuel, length⟩ : ∃ fuel, (formatText [.spec sp]).length = fuel + 1 := by
      rw [format]
      exact ⟨_, rfl⟩
    rw [length, format, emitted, if_pos rfl, readDirective_eq takesWidth takesPrecision, converted]
    simp only [bind, Except.bind, pure, Except.pure, made, advance, emitted, List.append_nil]
    rfl
  exact prints_of_emitted emits

/-- `%hhd` and the like. -/
def modified (length : Length) (conversion : Conversion) : Spec := ⟨[], .absent, .absent, length, conversion⟩

/-- The bits of the type that a modifier names. -/
def Length.bits : Length → Nat
  | .hh => 8
  | .h => 16
  | .ll | .j => 64
  | _ => 32

/-- The numeral of the argument converted to that type, signed for `d` and `i`. -/
def convertedNumeral (length : Length) (conversion : Conversion) (arg : Arg) : List UInt8 :=
  match conversion.radix with
  | some (base, upper) => numeralOf base upper (Arg.bits arg % 2 ^ length.bits)
  | none => signedText (signed length.bits (Arg.bits arg))

/-- The signed conversions, the long modifiers, and the arguments that are not
negative and in the range of their type. -/
def InRange (length : Length) (conversion : Conversion) (arg : Arg) : Prop :=
  conversion.radix = none ∨ length = .l ∨ length = .ll ∨ Arg.bits arg < 2 ^ 31 ∧ Arg.bits arg < 2 ^ length.bits

theorem field_modified (notPointer : conversion ≠ .p) :
    (modified length conversion).field 0 (-1) arg = (modified length conversion).digits arg := by
  have plain : (modified length conversion).decorated = false := by
    simp [Spec.decorated, modified, flagsOf, noFlags, notPointer]
  rw [Spec.field, plain]
  exact numWrites_bare

theorem signedValue_range (length : Length) (arg : Arg) :
    -2 ^ 63 ≤ signedValue length arg ∧ signedValue length arg < 2 ^ 63 := by
  cases arg with
  | word bits =>
    have small := bits.toNat_lt
    cases length <;> simp only [signedValue, signed, signed32, wrap32] <;> constructor <;> (try split) <;> omega
  | quad bits =>
    simp only [signedValue, signed]
    constructor <;> split <;> omega
  | double d => simp [signedValue]
  | str s => simp [signedValue]
  | out target => simp [signedValue]

/-- The modifiers of the basic types. -/
def Length.isBasic : Length → Bool
  | .none | .hh | .h | .l | .ll => true
  | _ => false

/-- What the signed conversions print is converted to the type of the modifier. -/
theorem signedValue_eq (basic : length.isBasic) (takes : conversion.Takes length [arg])
    (signs : conversion.radix = none ∧ conversion.isInteger ∧ conversion ≠ .p) :
    signedValue length arg = signed length.bits (Arg.bits arg) := by
  cases conversion <;> simp [Conversion.radix, Conversion.isInteger] at signs
  all_goals
    cases length <;> cases basic <;> obtain ⟨bits, same⟩ := takes <;> cases same <;> rfl

theorem signExtend_eq {n : Nat} (small : n < 2 ^ 32) :
    toUInt64 (signed32 n) = if n < 2 ^ 31 then n else n + (2 ^ 64 - 2 ^ 32) := by
  have same := wrap32_of_lt small
  rw [toUInt64, signed32, same]
  split <;> omega

/-- What the unsigned ones print, where the argument is in range. -/
theorem unsignedValue_iff (basic : length.isBasic) (takes : conversion.Takes length [arg])
    (unsigned : conversion.radix ≠ none) :
    unsignedValue length arg = Arg.bits arg % 2 ^ length.bits ↔ InRange length conversion arg := by
  have own : if length = .ll ∨ length = .j then ∃ bits, [arg] = [Arg.quad bits]
      else ∃ bits, [arg] = [Arg.word bits] := by
    cases conversion <;> first | exact takes | exact absurd rfl unsigned
  simp only [InRange, unsigned, false_or]
  cases length <;> cases basic <;> obtain ⟨bits, same⟩ := own <;> cases same
  case l | ll =>
    have small := bits.toNat_lt
    simp only [unsignedValue, Arg.bits, Length.bits, reduceCtorEq, false_or, true_or, or_true, iff_true]
    omega
  all_goals
    have small := bits.toNat_lt
    simp only [unsignedValue, Arg.bits, Length.bits, reduceCtorEq, false_or, signExtend_eq small]
    by_cases low : bits.toNat < 2 ^ 31
    · rw [if_pos low]
      omega
    · rw [if_neg low]
      omega

/-- The integer conversions print the converted argument exactly when it is in range. -/
theorem integers_print (integer : conversion.isInteger) (notPointer : conversion ≠ .p) (basic : length.isBasic)
    (takes : conversion.Takes length [arg]) :
    Prints (formatText [.spec (modified length conversion)]) [arg] (convertedNumeral length conversion arg) ↔
      InRange length conversion arg := by
  have prints : Prints (formatText [.spec (modified length conversion)]) [arg]
      ((modified length conversion).digits arg) := by
    have field := @prints_field [] [] (modified length conversion) 0 (-1) arg integer ⟨rfl, rfl⟩ ⟨rfl, rfl⟩ takes
    rwa [field_modified notPointer] at field
  have same : Prints (formatText [.spec (modified length conversion)]) [arg]
      (convertedNumeral length conversion arg) ↔
        (modified length conversion).digits arg = convertedNumeral length conversion arg :=
    ⟨fun also => prints.unique also, fun same => same ▸ prints⟩
  rw [same]
  have range := signedValue_range length arg
  cases radix : conversion.radix with
  | none =>
    have value := signedValue_eq basic takes ⟨radix, integer, notPointer⟩
    have digits : (modified length conversion).digits arg = signedText (signedValue length arg) := by
      cases conversion <;> simp [Conversion.radix, Conversion.isInteger] at radix integer notPointer
      all_goals exact signedWrites_bare range.1 range.2
    have out : convertedNumeral length conversion arg = signedText (signed length.bits (Arg.bits arg)) := by
      rw [convertedNumeral, radix]
    rw [digits, out, value]
    exact iff_of_true rfl (.inl radix)
  | some radixCase =>
    obtain ⟨base, upper⟩ := radixCase
    have out : convertedNumeral length conversion arg = numeralOf base upper (Arg.bits arg % 2 ^ length.bits) := by
      rw [convertedNumeral, radix]
    have digits : (modified length conversion).digits arg = numeralOf base upper (unsignedValue length arg) ∧
        1 < base ∧ base ≤ 16 := by
      cases conversion <;> cases radix <;> exact ⟨rfl, by decide, by decide⟩
    rw [← unsignedValue_iff basic takes (by rw [radix]; simp), digits.1, out]
    exact ⟨numeralOf_inj digits.2.1 digits.2.2, fun same => by rw [same]⟩

theorem integers_print_hex : Prints (formatText [.spec (modified .none .x)]) [.word 255] [chr 'f', chr 'f'] :=
  (@integers_print .none .x (.word 255) rfl (by decide) rfl ⟨255, rfl⟩).mpr (.inr (.inr (.inr (by decide))))

/-- `%u` of `UINT_MAX` comes out sign-extended to 64 bits. -/
theorem integers_sign_extended :
    Prints (formatText [.spec (modified .none .u)]) [.word 0xFFFFFFFF] (numeralOf 10 false (2 ^ 64 - 1)) ∧
    ¬ Prints (formatText [.spec (modified .none .u)]) [.word 0xFFFFFFFF]
      (convertedNumeral .none .u (.word 0xFFFFFFFF)) := by
  have prints : Prints (formatText [.spec (modified .none .u)]) [.word 0xFFFFFFFF]
      (numeralOf 10 false (2 ^ 64 - 1)) := by
    have field := @prints_field [] [] (modified .none .u) 0 (-1) (.word 0xFFFFFFFF) rfl ⟨rfl, rfl⟩ ⟨rfl, rfl⟩ ⟨_, rfl⟩
    rwa [field_modified (by decide)] at field
  refine ⟨prints, fun also => ?_⟩
  have same : 2 ^ 64 - 1 = 2 ^ 32 - 1 := numeralOf_inj (by decide) (by decide) (prints.unique also)
  exact absurd same (by decide)

variable {f : Flags} {num : Num} {base : Nat} {decorated : Bool} {numbuf : List UInt8}

/-- How many bytes a number takes beside its padding: the base prefix, the zeros
that the precision asks for, sign and digits. -/
def markLength (decorated : Bool) (base : Nat) : Int := if decorated then baseLength base else 0

def zerosLength (precision : Int) (numlen : Nat) : Int := if 0 < precision then max 0 (precision - numlen) else 0

theorem length_mark (decorated : Bool) (base : Nat) :
    ((if decorated then basePrefix base else []).flatten.length : Int) = markLength decorated base := by
  cases decorated with
  | false => rfl
  | true =>
    simp only [if_true, basePrefix, markLength, baseLength]
    split
    · rfl
    · split <;> rfl

theorem length_numWrites (plain : ∀ d, num ≠ .double d) :
    ((numWrites f width precision num base decorated numbuf).flatten.length : Int) =
      markLength decorated base + zerosLength precision numbuf.length + numbuf.length +
      if numbuf.length < width then
        max 0 (width - numbuf.length - markLength decorated base -
          if f.leftjustify then zerosLength precision numbuf.length
          else if 0 < precision then precision - numbuf.length else 0)
      else 0 := by
  have zeros : ((if precision > 0 then pad zero (precision - numbuf.length) else []).flatten.length : Int) =
      zerosLength precision numbuf.length ∧
      ((if precision > 0 then pad zero (precision - numbuf.length) else []).length : Int) =
        zerosLength precision numbuf.length := by
    rw [zerosLength]
    by_cases some : 0 < precision
    · rw [if_pos some, if_pos some, length_pad, pad, List.length_replicate]
      omega
    · rw [if_neg some, if_neg some]
      exact ⟨rfl, rfl⟩
  have mark := length_mark decorated base
  simp only [numWrites, Bool.not_false, and_true]
  generalize (if precision > 0 then pad zero (precision - numbuf.length) else []) = row at zeros
  have marked : (if decorated then baseLength base else 0) = markLength decorated base := rfl
  rw [marked]
  generalize (if decorated then basePrefix base else []) = front at mark
  by_cases narrow : (numbuf.length : Int) < width
  · rw [if_pos narrow, if_pos narrow]
    cases f.leftjustify with
    | true =>
      simp only [if_true, List.flatten_append, List.length_append, List.flatten_singleton, length_pad, Nat.cast_add]
      omega
    | false =>
      cases f.padzero <;>
        simp only [if_true, if_false, Bool.false_eq_true, List.flatten_append, List.length_append,
          List.flatten_singleton, List.flatten_nil, List.length_nil, length_pad, Nat.cast_add] <;>
        split <;> omega
  · rw [if_neg narrow, if_neg narrow]
    simp only [List.flatten_append, List.length_append, List.flatten_singleton, Nat.cast_add]
    omega

/-- A conversion is as wide as it is with width 0, or as `width` if that is more. -/
def WidthLaw (sp : Spec) (widthArgs precisionArgs : List Arg) (width : Int) (arg : Arg) : Prop :=
  ∃ out narrow, Prints (formatText [.spec sp]) (widthArgs ++ (precisionArgs ++ [arg])) out ∧
    Prints (formatText [.spec { sp with width := .absent }]) (precisionArgs ++ [arg]) narrow ∧
    (out.length : Int) = max width narrow.length

/-- Right-justified, wider than sign and digits, with a precision that they exceed
but that leaves blanks beside the base prefix: the blanks are then counted from
the precision. -/
def Overpadded (sp : Spec) (width precision : Int) (arg : Arg) : Prop :=
  (flagsOf sp.flags).leftjustify = false ∧ (sp.digits arg).length < width ∧ 0 < precision ∧
    precision < (sp.digits arg).length ∧
    markLength sp.decorated (sp.conversion.num sp.length arg).2.1 + precision < width

theorem num_plain (length : Length) (arg : Arg) (conversion : Conversion) :
    ∀ d, (conversion.num length arg).1 ≠ .double d := by
  cases conversion <;> simp [Conversion.num]

theorem markLength_nonneg (decorated : Bool) (base : Nat) : 0 ≤ markLength decorated base := by
  rw [← length_mark]
  exact Int.natCast_nonneg _

/-- The width law holds apart from the fields that are padded too far. -/
theorem field_width (integer : sp.conversion.isInteger) (takesWidth : sp.width.Takes widthArgs width)
    (takesPrecision : sp.precision.Takes precisionArgs precision) (takes : sp.conversion.Takes sp.length [arg]) :
    WidthLaw sp widthArgs precisionArgs width arg ↔ ¬ Overpadded sp width precision arg := by
  have wide := prints_field integer takesWidth takesPrecision takes
  have narrow : Prints (formatText [.spec { sp with width := .absent }]) (precisionArgs ++ [arg])
      (sp.field 0 precision arg) :=
    @prints_field [] precisionArgs { sp with width := .absent } 0 precision arg integer ⟨rfl, rfl⟩ takesPrecision takes
  have law : WidthLaw sp widthArgs precisionArgs width arg ↔ ((sp.field width precision arg).length : Int) =
      max width (sp.field 0 precision arg).length := by
    constructor
    · rintro ⟨out, out', prints, prints', length⟩
      rwa [wide.unique prints, narrow.unique prints']
    · exact fun length => ⟨_, _, wide, narrow, length⟩
  have mark := markLength_nonneg sp.decorated (sp.conversion.num sp.length arg).2.1
  have zero : ¬ ((sp.digits arg).length : Int) < 0 := by omega
  rw [law, Spec.field, Spec.field, length_numWrites (num_plain _ _ _), length_numWrites (num_plain _ _ _), if_neg zero,
    Overpadded, zerosLength]
  by_cases precise : 0 < precision
  · by_cases pads : ((sp.digits arg).length : Int) < width
    · cases (flagsOf sp.flags).leftjustify with
      | true =>
        simp only [precise, pads, if_true, reduceCtorEq, false_and, not_false_eq_true, iff_true]
        omega
      | false =>
        simp only [precise, pads, if_true, if_false, Bool.false_eq_true, true_and]
        omega
    · rw [if_neg pads]
      omega
  · simp only [precise, if_false, false_and, and_false, not_false_eq_true, iff_true]
    cases (flagsOf sp.flags).leftjustify <;> split <;> omega

theorem field_width_hex :
    WidthLaw ⟨[.plus, .hash], .literal 8 (by decide) [], .literal [3] (by decide), .none, .x⟩ [] []
    8 (.word 10) :=
  (@field_width [] [] ⟨[.plus, .hash], .literal 8 (by decide) [], .literal [3] (by decide), .none, .x⟩ 8 3 (.word 10)
    rfl ⟨rfl, by decide⟩ ⟨rfl, by decide⟩ ⟨10, rfl⟩).mpr (fun beyond => absurd beyond.2.2.2.1 (by decide))

/-- `%5.1d` of 12 takes six bytes. -/
theorem field_too_wide :
    Prints (formatText [.spec fiveOne]) [.word 12] [space, space, space, space, chr '1', chr '2'] ∧
    Prints (formatText [.spec { fiveOne with width := .absent }]) [.word 12] [chr '1', chr '2'] ∧
    ¬ WidthLaw fiveOne [] [] 5 (.word 12) := by
  have wide : Prints (formatText [.spec fiveOne]) [.word 12] [space, space, space, space, chr '1', chr '2'] :=
    @prints_field [] [] fiveOne 5 1 (.word 12) rfl ⟨rfl, by decide⟩ ⟨rfl, by decide⟩ ⟨12, rfl⟩
  have narrow : Prints (formatText [.spec { fiveOne with width := .absent }]) [.word 12] [chr '1', chr '2'] :=
    @prints_field [] [] { fiveOne with width := .absent } 0 1 (.word 12) rfl ⟨rfl, rfl⟩ ⟨rfl, by decide⟩ ⟨12, rfl⟩
  refine ⟨wide, narrow, ?_⟩
  rintro ⟨out, out', prints, prints', length⟩
  rw [← wide.unique prints, ← narrow.unique prints'] at length
  exact absurd length (by decide)

end UmkaOs.Fmt
