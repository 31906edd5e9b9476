import UmkaOs.Fmt.Numerals

/-! Formats as data: literal text and conversion specifications, with the
argument lists that match them. Reading the text of a specification gives the
specification back. -/

namespace UmkaOs.Fmt

open Lib

inductive FlagChar where
  | minus | plus | space | hash | zero
  deriving DecidableEq

namespace FlagChar

def byte : FlagChar → UInt8
  | minus => chr '-'
  | plus => chr '+'
  | space => chr ' '
  | hash => chr '#'
  | zero => chr '0'

def set (f : Flags) : FlagChar → Flags
  | minus => { f with leftjustify := true }
  | plus => { f with forcesign := true }
  | space => { f with padsign := true }
  | hash => { f with decorated := true }
  | zero => { f with padzero := true }

end FlagChar

def noFlags : Flags := ⟨false, false, false, false, false⟩

def flagsOf (flags : List FlagChar) : Flags := flags.foldl FlagChar.set noFlags

def digitByte (d : Fin 10) : UInt8 := UInt8.ofNat (48 + d)

/-- The number that digits stand for. -/
def number (ds : List (Fin 10)) : Nat := ds.foldl (fun v (d : Fin 10) => v * 10 + (d : Nat)) 0

/-- The `int` that reading digits leads to. -/
def intOf (value : Int) (ds : List (Fin 10)) : Int :=
  ds.foldl (fun v (d : Fin 10) => toInt32 (v * 10 + (d : Nat))) value

/-- A width; a leading zero would be a flag. -/
inductive Width where
  | absent
  | literal (first : Fin 10) (nonzero : first ≠ 0) (rest : List (Fin 10))
  | star

/-- A precision; its digits fit into an `int`. -/
inductive Precision where
  | absent
  | literal (ds : List (Fin 10)) (fits : number ds < 2 ^ 31)
  | star

inductive Conversion where
  | d | i | u | o | x | X | p | c | s | percent
  deriving DecidableEq

def Width.text : Width → CString
  | absent => []
  | literal first _ rest => (first :: rest).map digitByte
  | star => [chr '*']

def Precision.text : Precision → CString
  | absent => []
  | literal ds _ => chr '.' :: ds.map digitByte
  | star => [chr '.', chr '*']

def Length.text : Length → CString
  | none => []
  | hh => [chr 'h', chr 'h']
  | h => [chr 'h']
  | l => [chr 'l']
  | ll => [chr 'l', chr 'l']
  | j => [chr 'j']
  | z => [chr 'z']
  | t => [chr 't']

def Conversion.byte : Conversion → UInt8
  | d => chr 'd'
  | i => chr 'i'
  | u => chr 'u'
  | o => chr 'o'
  | x => chr 'x'
  | X => chr 'X'
  | p => chr 'p'
  | c => chr 'c'
  | s => chr 's'
  | percent => chr '%'

structure Spec where
  flags : List FlagChar
  width : Width
  precision : Precision
  length : Length
  conversion : Conversion

/-- A conversion on its own: `%d` and the like. -/
def bare (conversion : Conversion) : Spec := ⟨[], .absent, .absent, .none, conversion⟩

/-- `%2147483647c` -/
def widest : Spec := ⟨[], .literal 2 (by decide) [1, 4, 7, 4, 8, 3, 6, 4, 7], .absent, .none, .c⟩

/-- `%5.1d` -/
def fiveOne : Spec := ⟨[], .literal 5 (by decide) [], .literal [1] (by decide), .none, .d⟩

/-- `%lld` -/
def longLong (flags : List FlagChar) (w : Width) (p : Precision) : Spec := ⟨flags, w, p, .ll, .d⟩

/-- `%08lld` and `%05lld` -/
def eightWide : Spec := longLong [.zero] (.literal 8 (by decide) []) .absent

def fiveWide : Spec := longLong [.zero] (.literal 5 (by decide) []) .absent

/-- The specification without its `%` and conversion character. -/
def Spec.body (sp : Spec) : CString :=
  sp.flags.map FlagChar.byte ++ (sp.width.text ++ (sp.precision.text ++ sp.length.text))

inductive Piece where
  | literal (c : UInt8) (plain : c ≠ chr '%' ∧ c ≠ 0)
  | spec (sp : Spec)

def Piece.text : Piece → CString
  | literal c _ => [c]
  | spec sp => chr '%' :: (sp.body ++ [sp.conversion.byte])

/-- The format string that the pieces spell out. -/
def formatText (pieces : List Piece) : CString := pieces.flatMap Piece.text

/-- The arguments a width takes, and its value. -/
def Width.Takes (args : List Arg) (value : Int) : Width → Prop
  | absent => args = [] ∧ value = 0
  | literal first _ rest => args = [] ∧ value = intOf 0 (first :: rest)
  | star => ∃ bits : UInt32, args = [.word bits] ∧ value = signed32 bits.toNat

def Precision.Takes (args : List Arg) (value : Int) : Precision → Prop
  | absent => args = [] ∧ value = -1
  | literal ds _ => args = [] ∧ value = if ds = [] then -1 else intOf 0 ds
  | star => ∃ bits : UInt32, args = [.word bits] ∧ value = signed32 bits.toNat

/-- The arguments of the conversion itself. -/
def Conversion.Takes (length : Length) (args : List Arg) : Conversion → Prop
  | percent => args = []
  | s => ∃ str, args = [.str str]
  | c | p => ∃ bits, args = [.word bits]
  | _ => if length = .ll ∨ length = .j then ∃ bits, args = [.quad bits] else ∃ bits, args = [.word bits]

/-- An argument list that matches a format; star arguments are not negative. -/
inductive Matches : List Piece → List Arg → Prop
  | nil : Matches [] []
  | literal {c plain rest args} (later : Matches rest args) : Matches (.literal c plain :: rest) args
  | spec {sp rest widthArgs width precisionArgs precision own args} (takesWidth : sp.width.Takes widthArgs width)
      (takesPrecision : sp.precision.Takes precisionArgs precision) (takesOwn : sp.conversion.Takes sp.length own)
      (widthStar : sp.width = .star → 0 ≤ width) (precisionStar : sp.precision = .star → 0 ≤ precision)
      (later : Matches rest args) :
      Matches (.spec sp :: rest) (widthArgs ++ (precisionArgs ++ (own ++ args)))

variable {fmt rest : CString} {args : List Arg} {ds : List (Fin 10)} {value : Int} {c : UInt8}

theorem isDigit_digitByte : ∀ d : Fin 10, isDigit (digitByte d) = true := by decide

theorem toNat_digitByte : ∀ d : Fin 10, (digitByte d).toNat = 48 + d := by decide

theorem readDigits_eq (stop : isDigit (peekc rest) = false) :
    readDigits value (ds.map digitByte ++ rest) = (intOf value ds, rest) := by
  induction ds generalizing value with
  | nil =>
    cases rest with
    | nil => rfl
    | cons c rest =>
      have other : isDigit c = false := stop
      simp [readDigits, other, intOf]
  | cons d ds ih =>
    rw [List.map_cons, List.cons_append, readDigits, if_pos (isDigit_digitByte d), ih]
    have value' : ((digitByte d).toNat : Int) - 48 = (d : Nat) := by
      rw [toNat_digitByte]
      omega
    rw [value']
    rfl

/-- No flag character. -/
def NoFlag (c : UInt8) : Prop := c ≠ chr '-' ∧ c ≠ chr '+' ∧ c ≠ chr ' ' ∧ c ≠ chr '#' ∧ c ≠ chr '0'

instance : Decidable (NoFlag c) := inferInstanceAs (Decidable (_ ∧ _))

theorem readFlags_eq {flags : List FlagChar} {f : Flags} (stop : NoFlag (peekc rest)) :
    readFlags f (flags.map FlagChar.byte ++ rest) = (flags.foldl FlagChar.set f, rest) := by
  induction flags generalizing f with
  | nil =>
    cases rest with
    | nil => rfl
    | cons c rest =>
      obtain ⟨minus, plus, space, hash, zero⟩ : NoFlag c := stop
      simp [readFlags, minus, plus, space, hash, zero]
  | cons flag flags ih =>
    rw [List.map_cons, List.cons_append, List.foldl_cons, ← ih]
    cases flag <;> rfl

/-- Neither a digit nor a star. -/
def NoNumber (c : UInt8) : Prop := isDigit c = false ∧ c ≠ chr '*'

instance : Decidable (NoNumber c) := inferInstanceAs (Decidable (_ ∧ _))

theorem conversion_head (length : Length) (conversion : Conversion) (rest : CString) :
    NoFlag (peekc (length.text ++ conversion.byte :: rest)) ∧
      NoNumber (peekc (length.text ++ conversion.byte :: rest)) ∧
      peekc (length.text ++ conversion.byte :: rest) ≠ chr '.' := by
  have head : peekc (length.text ++ conversion.byte :: rest) = peekc (length.text ++ [conversion.byte]) := by
    cases length <;> rfl
  rw [head]
  cases length <;> cases conversion <;> decide

theorem readLength_eq (length : Length) (conversion : Conversion) (rest : CString) :
    readLength (length.text ++ conversion.byte :: rest) = (length, conversion.byte :: rest) := by
  cases length <;> cases conversion <;> rfl

theorem readNumber_absent {absent : Int} (stop : NoNumber (peekc rest)) :
    readNumber absent rest args = .ok (absent, rest, args) := by
  rw [readNumber, if_neg (by simp [stop.1]), if_neg stop.2]

theorem readNumber_literal {absent : Int} {d : Fin 10} (stop : isDigit (peekc rest) = false) :
    readNumber absent ((d :: ds).map digitByte ++ rest) args = .ok (intOf 0 (d :: ds), rest, args) := by
  have first : isDigit (peekc ((d :: ds).map digitByte ++ rest)) = true := isDigit_digitByte d
  rw [readNumber, if_pos first, readDigits_eq stop]

theorem readNumber_star {absent : Int} (bits : UInt32) :
    readNumber absent (chr '*' :: rest) (.word bits :: args) = .ok (signed32 bits.toNat, rest, args) := rfl

theorem readWidth_eq {width : Width} {widthArgs : List Arg} (takes : width.Takes widthArgs value)
    (stop : NoNumber (peekc rest)) :
    readNumber 0 (width.text ++ rest) (widthArgs ++ args) = .ok (value, rest, args) := by
  cases width with
  | absent =>
    obtain ⟨rfl, rfl⟩ := takes
    exact readNumber_absent stop
  | literal first nonzero ds =>
    obtain ⟨rfl, rfl⟩ := takes
    exact readNumber_literal stop.1
  | star =>
    obtain ⟨bits, rfl, rfl⟩ := takes
    exact readNumber_star bits

theorem readPrecision_eq {precision : Precision} {precisionArgs : List Arg}
    (takes : precision.Takes precisionArgs value) (stop : NoNumber (peekc rest)) (point : peekc rest ≠ chr '.') :
    readPrecision (precision.text ++ rest) (precisionArgs ++ args) = .ok (value, rest, args) := by
  cases precision with
  | absent =>
    obtain ⟨rfl, rfl⟩ := takes
    exact if_neg point
  | literal ds fits =>
    obtain ⟨rfl, rfl⟩ := takes
    cases ds with
    | nil => exact readNumber_absent stop
    | cons d ds => exact readNumber_literal stop.1
  | star =>
    obtain ⟨bits, rfl, rfl⟩ := takes
    exact @readNumber_star rest args (-1) bits

theorem readDirective_eq {sp : Spec} {widthArgs precisionArgs : List Arg} {width precision : Int}
    (takesWidth : sp.width.Takes widthArgs width) (takesPrecision : sp.precision.Takes precisionArgs precision) :
    readDirective (sp.body ++ sp.conversion.byte :: rest) (widthArgs ++ (precisionArgs ++ args)) = (do
      let (conv, args) ← convert (flagsOf sp.flags).decorated precision sp.length sp.conversion.byte args
      return (⟨flagsOf sp.flags, width, sp.length, conv⟩, sp.conversion.byte :: rest, args)) := by
  obtain ⟨noFlag, noNumber, noPoint⟩ := conversion_head sp.length sp.conversion rest
  have afterWidth : NoFlag (peekc (sp.precision.text ++ (sp.length.text ++ sp.conversion.byte :: rest))) ∧
      NoNumber (peekc (sp.precision.text ++ (sp.length.text ++ sp.conversion.byte :: rest))) := by
    cases sp.precision with
    | absent => exact ⟨noFlag, noNumber⟩
    | literal ds fits => exact (by decide : NoFlag (chr '.') ∧ NoNumber (chr '.'))
    | star => exact (by decide : NoFlag (chr '.') ∧ NoNumber (chr '.'))
  have afterFlags : NoFlag (peekc (sp.width.text ++
      (sp.precision.text ++ (sp.length.text ++ sp.conversion.byte :: rest)))) := by
    cases sp.width with
    | absent => exact afterWidth.1
    | literal first nonzero ds =>
      have plain : ∀ d : Fin 10, d ≠ 0 → NoFlag (digitByte d) := by decide
      exact plain first nonzero
    | star => exact (by decide : NoFlag (chr '*'))
  have parts : sp.body ++ sp.conversion.byte :: rest = sp.flags.map FlagChar.byte ++
      (sp.width.text ++ (sp.precision.text ++ (sp.length.text ++ sp.conversion.byte :: rest))) := by
    simp [Spec.body]
  rw [parts, readDirective, readFlags_eq afterFlags]
  simp only [readWidth_eq takesWidth afterWidth.2, readPrecision_eq takesPrecision noNumber noPoint, readLength_eq,
    bind, Except.bind]
  rfl

end UmkaOs.Fmt
