import UmkaOs.Fmt.Script

namespace UmkaOs.Fmt

open Lib

/-- A conversion specification up to its conversion character. -/
structure Head where
  flags : Flags
  width : Int
  precision : Int
  length : Length

def readHead (fmt : CString) (args : List Arg) : Except Fault (Head × CString × List Arg) := do
  let (f, fmt) := readFlags noFlags fmt
  let (width, fmt, args) ← readNumber 0 fmt args
  let (precision, fmt, args) ← readPrecision fmt args
  let (length, fmt) := readLength fmt
  return (⟨f, width, precision, length⟩, fmt, args)

variable {fmt : CString} {args left : List Arg} {e : Fault} {c : UInt8} {s s' : RWStream}

theorem readDirective_head : readDirective fmt args = (do
    let x ← readHead fmt args
    let y ← convert x.1.flags.decorated x.1.precision x.1.length (peekc x.2.1) x.2.2
    return (⟨x.1.flags, x.1.width, x.1.length, y.1⟩, x.2.1, y.2)) := by
  have start : (⟨false, false, false, false, false⟩ : Flags) = noFlags := rfl
  rw [readDirective, readHead, start]
  obtain ⟨f, behind⟩ := readFlags noFlags fmt
  simp only [bind, Except.bind]
  cases readNumber 0 behind args with
  | error e => rfl
  | ok x =>
    obtain ⟨width, behind, args⟩ := x
    dsimp only
    cases readPrecision behind args <;> rfl

/-- Nothing goes wrong but a value that is not defined, and a result is as stated. -/
def Yields {α : Type} (post : α → Prop) : Except Fault α → Prop
  | .ok a => post a
  | .error e => e = .undefined

theorem Yields.bind {α β : Type} {post : α → Prop} {after : β → Prop} {x : Except Fault α} {f : α → Except Fault β}
    (first : Yields post x) (rest : ∀ a, post a → Yields after (f a)) : Yields after (x >>= f) := by
  cases x with
  | error e => exact first
  | ok a => exact rest a first

theorem Yields.weaken {α : Type} {post post' : α → Prop} {x : Except Fault α} (yields : Yields post x)
    (weaker : ∀ a, post a → post' a) : Yields post' x := by
  cases x with
  | error e => exact yields
  | ok a => exact weaker a yields

theorem Yields.fault {α : Type} {post : α → Prop} {x : Except Fault α} (yields : Yields post x) (fails : x = .error e) :
    e = .undefined := by
  subst fails
  exact yields

theorem Yields.result {α : Type} {post : α → Prop} {x : Except Fault α} {a : α} (yields : Yields post x)
    (returns : x = .ok a) : post a := by
  subst returns
  exact yields

theorem yields_take (args : List Arg) : Yields (fun _ => True) (Arg.takeWord args) ∧
    Yields (fun _ => True) (Arg.takeQuad args) ∧ Yields (fun _ => True) (Arg.takeDouble args) ∧
    Yields (fun _ => True) (Arg.takeStr args) ∧ Yields (fun _ => True) (Arg.takeOut args) := by
  refine ⟨?_, ?_, ?_, ?_, ?_⟩ <;>
  · rcases args with _ | ⟨arg, rest⟩
    · rfl
    · cases arg <;> first | rfl | trivial

theorem yields_takeOuts (types : List OutType) (args : List Arg) : Yields (fun _ => True) (takeOuts types args) := by
  induction types generalizing args with
  | nil => trivial
  | cons type rest ih =>
    exact (yields_take args).2.2.2.2.bind fun x _ => (ih x.2).bind fun y _ => trivial

theorem yields_signedArg (length : Length) (args : List Arg) : Yields (fun _ => True) (signedArg length args) := by
  cases length
  case ll | j => exact (yields_take args).2.1.bind fun x _ => trivial
  all_goals exact (yields_take args).1.bind fun x _ => trivial

theorem yields_unsignedArg (length : Length) (args : List Arg) :
    Yields (fun x => x.1 < 2 ^ 64) (unsignedArg length args) := by
  cases length
  case ll | j => exact (yields_take args).2.1.bind fun x _ => x.1.toNat_lt
  case l | z => exact (yields_take args).1.bind fun x _ => word_lt x.1
  all_goals exact (yields_take args).1.bind fun x _ => toUInt64_lt _

theorem readFlags_length (f : Flags) (fmt : CString) : (readFlags f fmt).2.length ≤ fmt.length := by
  induction fmt generalizing f with
  | nil => exact Nat.le_refl _
  | cons c fmt ih =>
    have further : ∀ f, (readFlags f fmt).2.length ≤ (c :: fmt).length := fun f => Nat.le_succ_of_le (ih f)
    rw [readFlags]
    split
    · exact further _
    split
    · exact further _
    split
    · exact further _
    split
    · exact further _
    split
    · exact further _
    · exact Nat.le_refl _

theorem readDigits_range {value : Int} (low : -2 ^ 31 ≤ value) :
    -2 ^ 31 ≤ (readDigits value fmt).1 ∧ (readDigits value fmt).2.length ≤ fmt.length := by
  induction fmt generalizing value with
  | nil => exact ⟨low, Nat.le_refl _⟩
  | cons c fmt ih =>
    rw [readDigits]
    split
    · obtain ⟨low', shorter⟩ := ih (toInt32_range (value * 10 + (c.toNat - 48))).1
      exact ⟨low', Nat.le_succ_of_le shorter⟩
    · exact ⟨low, Nat.le_refl _⟩

theorem readLength_length (fmt : CString) : (readLength fmt).2.length ≤ fmt.length := by
  rw [readLength]
  repeat' split
  all_goals simp only [List.length_tail]; omega

theorem yields_readNumber {absent : Int} (low : -2 ^ 31 ≤ absent) (fmt : CString) (args : List Arg) :
    Yields (fun x => -2 ^ 31 ≤ x.1 ∧ x.2.1.length ≤ fmt.length) (readNumber absent fmt args) := by
  rw [readNumber]
  split
  · exact readDigits_range (by decide)
  · split
    · have star : Yields (fun x => -2 ^ 31 ≤ x.1) (takeInt args) :=
        (yields_take args).1.bind fun x _ => (signed32_range _).1
      exact star.bind fun x low => ⟨low, by simp⟩
    · exact ⟨low, Nat.le_refl _⟩

theorem yields_readHead (fmt : CString) (args : List Arg) :
    Yields (fun x => -2 ^ 31 ≤ x.1.precision ∧ x.2.1.length ≤ fmt.length) (readHead fmt args) := by
  have precise : ∀ fmt args, Yields (fun x => -2 ^ 31 ≤ x.1 ∧ x.2.1.length ≤ fmt.length) (readPrecision fmt args) := by
    intro fmt args
    rw [readPrecision]
    split
    · refine Yields.weaken (yields_readNumber (by decide) _ _) fun x range => ?_
      simp only [List.length_tail] at range
      omega
    · exact ⟨(by decide : (-2 ^ 31 : Int) ≤ -1), Nat.le_refl _⟩
  have flags := readFlags_length noFlags fmt
  rw [readHead]
  refine (yields_readNumber (by decide) _ _).bind fun x width => (precise _ _).bind fun y precision => ?_
  exact ⟨precision.1, Nat.le_trans (readLength_length _) (Nat.le_trans precision.2 (Nat.le_trans width.2 flags))⟩

/-- How much of a string `%s` copies. -/
def copied (precision : Int) (str : CString) : Int :=
  if precision ≠ -1 ∧ precision < signed32 str.length then precision else signed32 str.length

theorem copied_negative {str : CString} {precision : Int} (negative : precision ≤ -2) (short : str.length < 2 ^ 31) :
    copied precision str = precision := by
  rw [copied, signed32, wrap32, if_pos]
  split <;> omega

/-- A string is shorter than its copy exactly if a negative precision is longer than it. -/
theorem copied_longer {str : CString} {precision : Int} (low : -2 ^ 31 ≤ precision) :
    str.length + 1 < toUInt32 (copied precision str) ↔
    precision ≤ -2 ∧ str.length < 2 ^ 31 ∧ str.length + 1 < toUInt32 precision := by
  rw [copied]
  by_cases short : str.length < 2 ^ 31
  · have length : signed32 str.length = str.length := by
      rw [signed32, wrap32, if_pos (by omega)]
      omega
    rw [length]
    by_cases cuts : precision ≠ -1 ∧ precision < (str.length : Int)
    · rw [if_pos cuts, toUInt32]
      omega
    · rw [if_neg cuts, toUInt32, toUInt32]
      omega
  · have range := signed32_range str.length
    have wraps : toUInt32 (signed32 str.length) = wrap32 str.length := by
      rw [toUInt32, signed32, wrap32]
      split <;> omega
    have most : wrap32 str.length ≤ str.length := Nat.mod_le _ _
    by_cases cuts : precision ≠ -1 ∧ precision < signed32 str.length
    · rw [if_pos cuts, toUInt32]
      rw [signed32] at cuts
      rw [wrap32] at cuts
      split at cuts <;> omega
    · rw [if_neg cuts, wraps]
      omega

/-- The shapes that the `switch` leaves. -/
def Conv.Made (c : UInt8) : Conv → Prop
  | .number (.ull n) (some base) _ _ _ => (8 ≤ base ∧ base ≤ 16) ∧ n < 2 ^ 64
  | .number (.ll _) (some base) _ _ _ => 8 ≤ base ∧ base ≤ 16
  | .number (.double _) none _ _ _ => True
  | .number .none none _ _ _ => True
  | .number _ _ _ _ _ => False
  | .text _ _ => True
  | .count => c = chr 'n'

/-- A text other than a string is as long as it says. -/
def Conv.Short (c : UInt8) : Conv → Prop
  | .text source size => c = chr 's' ∨ toUInt32 size ≤ source.length
  | _ => True

theorem yields_convert (decorated : Bool) (precision : Int) (length : Length) (args : List Arg) :
    Yields (fun x => x.1.Made c ∧ x.1.Short c) (convert decorated precision length c args) := by
  have unsigned : ∀ base upper, 8 ≤ base ∧ base ≤ 16 → Yields (fun x : Conv × List Arg => x.1.Made c ∧ x.1.Short c)
      (unsignedArg length args >>= fun x => .ok (.number (.ull x.1) (some base) upper decorated precision, x.2)) :=
    fun base upper radix => (yields_unsignedArg length args).bind fun x small => ⟨⟨radix, small⟩, trivial⟩
  rw [convert]
  by_cases signed : c = chr 'i' ∨ c = chr 'd'
  · rw [if_pos signed]
    exact (yields_signedArg length args).bind fun x _ => ⟨(by decide : 8 ≤ 10 ∧ 10 ≤ 16), trivial⟩
  rw [if_neg signed]
  by_cases upper : c = chr 'X'
  · rw [if_pos upper]
    exact unsigned 16 true (by decide)
  rw [if_neg upper]
  by_cases hex : c = chr 'x'
  · rw [if_pos hex]
    exact unsigned 16 false (by decide)
  rw [if_neg hex]
  by_cases octal : c = chr 'o'
  · rw [if_pos octal]
    exact unsigned 8 false (by decide)
  rw [if_neg octal]
  by_cases decimal : c = chr 'u'
  · rw [if_pos decimal]
    exact unsigned 10 false (by decide)
  rw [if_neg decimal]
  by_cases real : c = chr 'E' ∨ c = chr 'e' ∨ c = chr 'G' ∨ c = chr 'g' ∨ c = chr 'f'
  · rw [if_pos real]
    exact (yields_take args).2.2.1.bind fun x _ => ⟨trivial, trivial⟩
  rw [if_neg real]
  by_cases pointer : c = chr 'P' ∨ c = chr 'p'
  · rw [if_pos pointer]
    exact (yields_take args).1.bind fun x _ => ⟨⟨by decide, word_lt x.1⟩, trivial⟩
  rw [if_neg pointer]
  by_cases percent : c = chr '%'
  · rw [if_pos percent]
    exact ⟨trivial, .inr (by decide)⟩
  rw [if_neg percent]
  by_cases char : c = chr 'c'
  · rw [if_pos char]
    exact (yields_take args).1.bind fun x _ => ⟨trivial, .inr (Nat.le_refl 1)⟩
  rw [if_neg char]
  by_cases string : c = chr 's'
  · rw [if_pos string]
    exact (yields_take args).2.2.2.1.bind fun x _ => ⟨trivial, .inl string⟩
  rw [if_neg string]
  by_cases count : c = chr 'n'
  · rw [if_pos count]
    exact ⟨count, trivial⟩
  · rw [if_neg count]
    exact ⟨trivial, trivial⟩

theorem convert_str (decorated : Bool) (precision : Int) (length : Length) (args : List Arg) :
    convert decorated precision length (chr 's') args = (do
      let (str, args) ← Arg.takeStr args
      return (.text (str ++ [0]) (copied precision str), args)) := rfl

theorem convert_text {decorated : Bool} {precision size : Int} {length : Length} {source : List UInt8}
    (made : convert decorated precision length c args = .ok (.text source size, left)) :
    (∃ str, c = chr 's' ∧ args = .str str :: left ∧ source = str ++ [0] ∧ size = copied precision str) ∨
      c ≠ chr 's' ∧ toUInt32 size ≤ source.length := by
  by_cases string : c = chr 's'
  · subst string
    rw [convert_str] at made
    obtain ⟨⟨str, behind⟩, taken, made⟩ := bind_ok made
    cases made
    rcases args with _ | ⟨arg, args⟩
    · cases taken
    · cases arg with
      | str str' =>
        cases taken
        exact .inl ⟨str, rfl, rfl, rfl, rfl⟩
      | word bits | quad bits | double d | out target => cases taken
  · have shapes := (yields_convert decorated precision length args).result made
    exact .inr ⟨string, shapes.2.resolve_left string⟩

def Buffered (s : RWStream) : Prop := ∃ mem, s.target = .str mem

theorem Buffered.taken (buffered : Buffered s) (data : List UInt8) : ∃ s', s.write data = .ok s' ∧ Buffered s' := by
  obtain ⟨mem, target⟩ := buffered
  simp only [RWStream.write, target]
  split
  · exact ⟨_, rfl, mem, rfl⟩
  · exact ⟨_, rfl, _, rfl⟩

theorem Buffered.write (buffered : Buffered s) (data : List UInt8) : Yields Buffered (s.write data) := by
  obtain ⟨s', written, buffered'⟩ := buffered.taken data
  rw [written]
  exact buffered'

theorem Buffered.writeAll (buffered : Buffered s) (writes : List (List UInt8)) :
    Yields Buffered (s.writeAll writes) := by
  induction writes generalizing s with
  | nil => exact buffered
  | cons data rest ih => exact (buffered.write data).bind fun s' buffered' => ih buffered'

theorem Buffered.numeral (buffered : Buffered s) {n base : Nat} {upper : Bool} (radix : 2 < base) (high : base ≤ 16)
    (small : n < 2 ^ 64) : Yields Buffered (fmtStringifyULL s n base upper) := by
  rw [fmtStringifyULL_eq s radix high small]
  exact buffered.writeAll _

/-- The digits behind the point are indexed from 0 on. -/
theorem Buffered.fraction (buffered : Buffered s) {frac : ℚ} (nonneg : 0 ≤ frac) (digits : Nat) :
    Yields Buffered (fracDigits s frac digits) := by
  induction digits generalizing s frac with
  | zero => exact buffered
  | succ digits ih =>
    have scaled : 0 ≤ frac * 10 := mul_nonneg nonneg (by decide)
    rw [fracDigits, truncInt]
    split
    · rw [if_neg (not_lt.mpr scaled)]
      have digit : ¬ (⌊frac * 10⌋).tmod 10 < 0 := not_lt.mpr (Int.tmod_nonneg _ (Int.floor_nonneg.mpr scaled))
      simp only [bind, Except.bind, if_neg digit]
      exact (buffered.write _).bind fun s' buffered' => ih buffered' scaled
    · rfl

theorem yields_truncULL (d : ℚ) :
    Yields (fun whole : Nat => whole < 2 ^ 64 ∧ (0 ≤ d → (whole : ℚ) ≤ d)) (truncULL d) := by
  rw [truncULL]
  split
  · rename_i range
    refine ⟨?_, fun nonneg => ?_⟩
    · have below : ⌊d⌋ < (2 ^ 64 : ℕ) := Int.floor_lt.mpr (by exact_mod_cast range.2)
      omega
    · have floor : (⌊d⌋.toNat : ℤ) = ⌊d⌋ := Int.toNat_of_nonneg (Int.floor_nonneg.mpr nonneg)
      calc ((⌊d⌋.toNat : ℕ) : ℚ) = ((⌊d⌋.toNat : ℤ) : ℚ) := by push_cast; rfl
        _ = (⌊d⌋ : ℚ) := by rw [floor]
        _ ≤ d := Int.floor_le d
  · rfl

theorem Buffered.double (buffered : Buffered s) (d : ℚ) (upper sign padsign : Bool) (precision : Int) :
    Yields Buffered (fmtStringifyD s d upper sign precision padsign) := by
  have positive : 0 ≤ if d < 0 then -d else d := by
    split <;> linarith
  rw [fmtStringifyD]
  refine (buffered.writeAll _).bind fun s1 buffered1 => ?_
  refine (yields_truncULL _).bind fun whole range => ?_
  refine (buffered1.numeral (by decide) (by decide) range.1).bind fun s2 buffered2 => ?_
  split
  · exact buffered2
  · exact (buffered2.write _).bind fun s3 buffered3 => buffered3.fraction (sub_nonneg.mpr (range.2 positive)) _

theorem yields_numText (f : Flags) {num : Num} {base : Option Nat} {upper decorated : Bool} {precision : Int}
    (made : (Conv.number num base upper decorated precision).Made c) :
    Yields (fun _ => True) (numText f num base upper precision) := by
  have fresh : Buffered (RWStream.mkStrS (fun _ => 0) 128) := ⟨_, rfl⟩
  cases num with
  | ull n =>
    cases base with
    | none => exact made.elim
    | some base =>
      rw [numText_ull f precision made.1.1 made.1.2 made.2]
      trivial
  | ll n =>
    cases base with
    | none => exact made.elim
    | some base =>
      rw [numText_ll f precision n made.1 made.2]
      trivial
  | none => trivial
  | double d =>
    rw [numText]
    refine (fresh.double d upper f.forcesign f.padsign precision).bind fun s buffered => ?_
    obtain ⟨mem, target⟩ := buffered
    simp only [RWStream.tell_str target, target]
    trivial

theorem yields_events {d : Directive} (made : d.conv.Made c) (args : List Arg) :
    Yields (fun _ => True) (d.events args).2 := by
  rw [Directive.events]
  cases shape : d.conv with
  | number num base upper decorated precision =>
    rw [shape] at made
    have writes : Yields (fun _ => True) (numberWrites d.flags d.width num base upper decorated precision) := by
      refine (yields_numText d.flags made).bind fun numbuf _ => ?_
      split
      · rfl
      · trivial
    dsimp only
    cases row : numberWrites d.flags d.width num base upper decorated precision with
    | error e => exact writes.fault row
    | ok writes => trivial
  | text data size => trivial
  | count =>
    have outs := yields_takeOuts (outTypes d.length) args
    dsimp only
    cases taken : takeOuts (outTypes d.length) args with
    | error e => exact outs.fault taken
    | ok x => trivial

end UmkaOs.Fmt
