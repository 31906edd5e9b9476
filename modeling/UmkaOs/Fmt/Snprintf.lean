import UmkaOs.Fmt.Format

namespace UmkaOs.Fmt

open Lib

/-- A text between its blanks, as one row of writes. -/
def textWrites (f : Flags) (width : Int) (data : List UInt8) (size : Int) : List (List UInt8) :=
  let blanks := pad space (toInt32 (width - size))
  (if f.leftjustify then [] else blanks) ++ [data] ++ (if f.leftjustify then blanks else [])

/-- The writes of a directive other than `%n` that stays within its string. -/
def Directive.writes (d : Directive) : Except Fault (List (List UInt8)) :=
  match d.conv with
  | .count => .error .undefined
  | .text source size =>
    if toUInt32 size ≤ source.length then .ok (textWrites d.flags d.width (source.take (toUInt32 size)) size)
    else .error .overrun
  | .number num base uppercase decorated precision =>
    numberWrites d.flags d.width num base uppercase decorated precision

/-- The writes of a whole format without `%n`. -/
def emitted : Nat → CString → List Arg → Except Fault (List (List UInt8))
  | 0, _, _ => .error .diverges
  | _ + 1, [], _ => .ok []
  | fuel + 1, c :: fmt, args =>
    if c = chr '%' then do
      let (d, fmt, args) ← readDirective fmt args
      let writes ← d.writes
      let fmt ← advance fmt
      let later ← emitted fuel fmt args
      return writes ++ later
    else do
      let later ← emitted fuel fmt args
      return [c] :: later

variable {fmt rest : CString} {args : List Arg} {writes : List (List UInt8)} {s : RWStream} {fuel start : Nat}

theorem writeText_within {f : Flags} {width size : Int} {source : List UInt8} (within : toUInt32 size ≤ source.length) :
    writeText f width s source size = s.writeAll (textWrites f width (source.take (toUInt32 size)) size) := by
  simp only [writeText, textWrites, RWStream.writeAll_append, RWStream.writeFrom_within within, writeAll_single,
    bind_assoc]

theorem runDirective_writes {d : Directive} (made : d.writes = .ok writes) :
    runDirective start s d args = (do
      let s ← s.writeAll writes
      return (s, [], args)) := by
  rw [Directive.writes] at made
  rw [runDirective]
  cases shape : d.conv with
  | count =>
    rw [shape] at made
    cases made
  | number num base uppercase decorated precision =>
    rw [shape] at made
    simp only [made]
    rfl
  | text source size =>
    rw [shape] at made
    dsimp only at made ⊢
    split at made
    · rename_i within
      cases made
      rw [writeText_within within]
    · cases made

/-- The loop is one row of writes, whatever the sink is. -/
theorem printLoop_emitted (out : emitted fuel fmt args = .ok writes) :
    printLoop start fuel s fmt args = (do
      let s ← s.writeAll writes
      return (s, [])) := by
  induction fuel generalizing fmt args writes s with
  | zero => cases out
  | succ fuel ih =>
    cases fmt with
    | nil =>
      cases out
      rfl
    | cons c fmt =>
      rw [emitted] at out
      rw [printLoop]
      by_cases directive : c = chr '%'
      · rw [if_pos directive] at out ⊢
        obtain ⟨⟨d, fmt1, args1⟩, read, out⟩ := bind_ok out
        obtain ⟨here, made, out⟩ := bind_ok out
        obtain ⟨fmt2, moved, out⟩ := bind_ok out
        obtain ⟨later, further, out⟩ := bind_ok out
        cases out
        have turn := @runDirective_writes args1 here s start d made
        simp only [read, turn, bind, Except.bind, RWStream.writeAll_append]
        cases s.writeAll here with
        | error e => rfl
        | ok s1 =>
          simp only [moved, ih further, pure, Except.pure, bind, Except.bind]
          cases s1.writeAll later <;> rfl
      · rw [if_neg directive] at out ⊢
        obtain ⟨later, further, out⟩ := bind_ok out
        cases out
        simp only [RWStream.writeAll, bind, Except.bind]
        cases s.write [c] with
        | error e => rfl
        | ok s1 =>
          simp only [ih further]
          rfl

variable {length : Length} {own : List Arg} {precision width : Int} {decorated : Bool}

theorem signedArg_takes (takes : if length = .ll ∨ length = .j then ∃ bits, own = [Arg.quad bits]
      else ∃ bits, own = [Arg.word bits]) :
    ∃ n, signedArg length (own ++ args) = .ok (n, args) := by
  cases length
  case ll | j =>
    obtain ⟨bits, rfl⟩ := takes
    exact ⟨_, rfl⟩
  all_goals
    obtain ⟨bits, rfl⟩ := takes
    exact ⟨_, rfl⟩

theorem unsignedArg_takes (takes : if length = .ll ∨ length = .j then ∃ bits, own = [Arg.quad bits]
      else ∃ bits, own = [Arg.word bits]) :
    ∃ n < 2 ^ 64, unsignedArg length (own ++ args) = .ok (n, args) := by
  cases length
  case ll | j =>
    obtain ⟨bits, rfl⟩ := takes
    exact ⟨_, bits.toNat_lt, rfl⟩
  case l | z =>
    obtain ⟨bits, rfl⟩ := takes
    exact ⟨_, word_lt bits, rfl⟩
  all_goals
    obtain ⟨bits, rfl⟩ := takes
    exact ⟨_, toUInt64_lt _, rfl⟩

/-- A source string is long enough for every size that `%s` settles on. -/
theorem str_within {str : CString} {strl size : Int} (low : -1 ≤ precision) (length : strl = signed32 str.length)
    (settled : size = if precision ≠ -1 ∧ precision < strl then precision else strl) :
    toUInt32 size ≤ (str ++ [0]).length := by
  rw [settled, length, toUInt32, signed32, wrap32, List.length_append, List.length_singleton]
  split <;> split <;> omega

theorem number_writes {num : Num} {base : Nat} {upper : Bool} {f : Flags} {numbuf : List UInt8}
    (text : numText f num (some base) upper precision = .ok numbuf) :
    (⟨f, width, length, .number num (some base) upper decorated precision⟩ : Directive).writes =
      .ok (numWrites f width precision num base decorated numbuf) := by
  simp only [Directive.writes, numberWrites, text, bind, Except.bind, Option.isNone_some, Bool.and_false,
    Bool.false_eq_true, if_false]
  rfl

/-- Base and letter case of the unsigned conversions. -/
def Conversion.radix : Conversion → Option (Nat × Bool)
  | u => some (10, false)
  | o => some (8, false)
  | x => some (16, false)
  | X => some (16, true)
  | _ => none

theorem convert_unsigned {conversion : Conversion} {base : Nat} {upper : Bool}
    (radix : conversion.radix = some (base, upper)) :
    (8 ≤ base ∧ base ≤ 16) ∧ convert decorated precision length conversion.byte args = (do
      let (ull, args) ← unsignedArg length args
      return (.number (.ull ull) (some base) upper decorated precision, args)) := by
  cases conversion <;> cases radix <;> exact ⟨⟨by decide, by decide⟩, rfl⟩

theorem convert_signed {conversion : Conversion} (signed : conversion = .d ∨ conversion = .i) :
    convert decorated precision length conversion.byte args = (do
      let (ll, args) ← signedArg length args
      return (.number (.ll ll) (some 10) false decorated precision, args)) := by
  rcases signed with rfl | rfl <;> rfl

theorem unsigned_takes {conversion : Conversion} {base : Nat} {upper : Bool}
    (radix : conversion.radix = some (base, upper))
    (takes : if length = .ll ∨ length = .j then ∃ bits, own = [Arg.quad bits] else ∃ bits, own = [Arg.word bits]) :
    ∃ conv, convert decorated precision length conversion.byte (own ++ args) = .ok (conv, args) ∧
      ∀ f width, ∃ writes, (⟨f, width, length, conv⟩ : Directive).writes = .ok writes := by
  obtain ⟨⟨low, high⟩, shape⟩ := @convert_unsigned (own ++ args) length precision decorated conversion base upper radix
  obtain ⟨n, small, read⟩ := @unsignedArg_takes args length own takes
  refine ⟨.number (.ull n) (some base) upper decorated precision, ?_,
    fun f width => ⟨_, number_writes (numText_ull f precision low high small)⟩⟩
  rw [shape, read]
  rfl

/-- The conversion of a matching argument succeeds, and so do its writes. -/
theorem convert_takes {conversion : Conversion} (takes : conversion.Takes length own) (low : -1 ≤ precision) :
    ∃ conv, convert decorated precision length conversion.byte (own ++ args) = .ok (conv, args) ∧
      ∀ f width, ∃ writes, (⟨f, width, length, conv⟩ : Directive).writes = .ok writes := by
  cases conversion
  case d | i =>
    obtain ⟨n, read⟩ := @signedArg_takes args length own takes
    refine ⟨.number (.ll n) (some 10) false decorated precision, ?_,
      fun f width => ⟨_, number_writes (numText_ll f precision n (by decide) (by decide))⟩⟩
    rw [convert_signed (by simp), read]
    rfl
  case u | o | x | X => exact unsigned_takes rfl takes
  case p =>
    obtain ⟨bits, rfl⟩ := takes
    have small := word_lt bits
    exact ⟨.number (.ull bits.toNat) (some 16) false true precision, rfl,
      fun f width => ⟨_, number_writes (numText_ull f precision (by decide) (by decide) small)⟩⟩
  case c =>
    obtain ⟨bits, rfl⟩ := takes
    exact ⟨_, rfl, fun f width => ⟨_, rfl⟩⟩
  case s =>
    obtain ⟨str, rfl⟩ := takes
    have within := str_within low (rfl : signed32 str.length = _) rfl
    exact ⟨_, rfl, fun f width => ⟨_, if_pos within⟩⟩
  case percent =>
    have none : own = [] := takes
    subst none
    exact ⟨_, rfl, fun f width => ⟨_, rfl⟩⟩

theorem intOf_number (ds : List (Fin 10)) {value : Nat}
    (fits : ds.foldl (fun v (d : Fin 10) => v * 10 + (d : Nat)) value < 2 ^ 31) :
    intOf value ds = (ds.foldl (fun v (d : Fin 10) => v * 10 + (d : Nat)) value : Nat) := by
  induction ds generalizing value with
  | nil => rfl
  | cons d ds ih =>
    have grows : ∀ (ds : List (Fin 10)) (v : Nat), v ≤ ds.foldl (fun v (d : Fin 10) => v * 10 + (d : Nat)) v := by
      intro ds
      induction ds with
      | nil => exact fun _ => Nat.le_refl _
      | cons e es ih => exact fun v => Nat.le_trans (by omega) (ih (v * 10 + e))
    have small := Nat.lt_of_le_of_lt (grows ds (value * 10 + d)) fits
    have step : toInt32 ((value : Int) * 10 + (d : Nat)) = ((value * 10 + d : Nat) : Int) := by
      rw [toInt32_of_range (by omega) (by omega)]
      push_cast
      rfl
    rw [intOf, List.foldl_cons, step]
    exact ih fits

/-- The precisions of a matching format are at least the default. -/
theorem precision_low {p : Precision} (takes : p.Takes own precision) (star : p = .star → 0 ≤ precision) :
    -1 ≤ precision := by
  cases p with
  | absent =>
    obtain ⟨_, rfl⟩ := takes
    exact Int.le_refl _
  | literal ds fits =>
    obtain ⟨_, rfl⟩ := takes
    split
    · exact Int.le_refl _
    · have value := @intOf_number ds 0 fits
      rw [Nat.cast_zero] at value
      rw [value]
      omega
  | star => exact Int.le_trans (by decide) (star rfl)

/-- The text of a matching format has one row of writes. -/
theorem Matches.emitted {pieces : List Piece} (matching : Matches pieces args) {fuel : Nat}
    (enough : (formatText pieces).length < fuel) : ∃ writes, emitted fuel (formatText pieces) args = .ok writes := by
  induction matching generalizing fuel with
  | nil =>
    cases fuel with
    | zero => cases enough
    | succ fuel => exact ⟨[], rfl⟩
  | @literal c plain rest args _ ih =>
    cases fuel with
    | zero => cases enough
    | succ fuel =>
      obtain ⟨later, out⟩ := @ih fuel (by simpa [formatText, Piece.text] using enough)
      refine ⟨[c] :: later, ?_⟩
      show Fmt.emitted (fuel + 1) (c :: formatText rest) args = _
      rw [Fmt.emitted, if_neg plain.1, out]
      rfl
  | @spec sp rest widthArgs width precisionArgs precision own args takesWidth takesPrecision takesOwn _ star _ ih =>
    cases fuel with
    | zero => cases enough
    | succ fuel =>
      have text : formatText (.spec sp :: rest) =
          chr '%' :: (sp.body ++ sp.conversion.byte :: formatText rest) := by
        simp [formatText, Piece.text]
      obtain ⟨conv, converted, writes⟩ := @convert_takes args sp.length own precision (flagsOf sp.flags).decorated
        sp.conversion takesOwn (precision_low takesPrecision star)
      obtain ⟨here, made⟩ := writes (flagsOf sp.flags) width
      obtain ⟨later, out⟩ := @ih fuel (by
        rw [text, List.length_cons, List.length_append, List.length_cons] at enough
        omega)
      refine ⟨here ++ later, ?_⟩
      rw [text, Fmt.emitted, if_pos rfl, readDirective_eq takesWidth takesPrecision, converted]
      simp only [bind, Except.bind, pure, Except.pure, made, advance, out]

/-- Printing to a file appends exactly `out` and returns its length. -/
def FileLaw (fmt : CString) (args : List Arg) (out : List UInt8) : Prop :=
  ∀ (v : Vfs) (t : FileTree) (f : Ptr) (st : Stream) (file : File),
    v.Tree t → v.streams f = some st → t.label? st.node = some file →
    file.content.length + out.length < 2 ^ 32 →
    ∃ v', fmtvprintf (.mkFile v f) fmt args = .ok (⟨out.length, 0, 0, .file v' f⟩, [], out.length) ∧
      v'.Tree (t.relabel st.node (File.withContent (· ++ out)))

/-- Printing to a buffer of `n` bytes returns the length of `out` and stores the
part of it that fits, nothing at `n` or behind. -/
def BufferLaw (fmt : CString) (args : List Arg) (out : List UInt8) : Prop :=
  ∀ (dest : Mem) (n : Nat), n < 2 ^ 32 →
    ∃ dest', vsnprintf dest n fmt args = .ok (dest', [], out.length) ∧
      (∀ i, n ≤ i → dest' i = dest i) ∧ ∀ i < min out.length (n - 1), dest' i = out.getD i 0

theorem fmtvprintf_emitted (out : emitted (fmt.length + 1) fmt args = .ok writes) :
    fmtvprintf s fmt args = (do
      let s' ← s.writeAll writes
      return (s', [], wrap32 (s'.supposedoffs + (2 ^ 32 - s.supposedoffs)))) := by
  rw [fmtvprintf]
  simp only [printLoop_emitted out, bind, Except.bind]
  cases s.writeAll writes <;> rfl

theorem fileLaw_emitted (out : emitted (fmt.length + 1) fmt args = .ok writes) : FileLaw fmt args writes.flatten := by
  intro v t f st file tree opened labelled room
  obtain ⟨v', written, tree', _⟩ := @RWStream.writeAll_file writes v t f st file 0 0 0 tree opened labelled
    (by decide) room
  have small : writes.flatten.length < 2 ^ 32 := Nat.lt_of_le_of_lt (Nat.le_add_left _ _) room
  rw [Nat.zero_add, wrap32_of_lt small] at written
  refine ⟨v', ?_, tree'⟩
  rw [fmtvprintf_emitted out, RWStream.mkFile, written]
  have count : wrap32 (writes.flatten.length + (2 ^ 32 - 0)) = writes.flatten.length := by
    rw [wrap32]
    omega
  simp only [bind, Except.bind, count]
  rfl

/-- What is returned of a count that started at 0. -/
theorem signed32_count (length : Nat) : signed32 (wrap32 (wrap32 (0 + length) + (2 ^ 32 - 0))) = signed32 length := by
  have same : wrap32 (wrap32 (wrap32 (0 + length) + (2 ^ 32 - 0))) = wrap32 length := by
    simp only [wrap32]
    omega
  rw [signed32, signed32, same]

/-- Into a buffer the count comes out as an `int`. -/
theorem vsnprintf_emitted (out : emitted (fmt.length + 1) fmt args = .ok writes) (dest : Mem) {n : Nat}
    (small : n < 2 ^ 32) :
    ∃ dest', vsnprintf dest n fmt args = .ok (dest', [], signed32 writes.flatten.length) ∧
      (∀ i, n ≤ i → dest' i = dest i) ∧
      ∀ i < min writes.flatten.length (n - 1), dest' i = writes.flatten.getD i 0 := by
  have count := signed32_count writes.flatten.length
  rw [vsnprintf, fmtvprintf_emitted out, RWStream.mkStrS]
  by_cases none : n = 0
  · subst none
    refine ⟨dest, ?_, fun _ _ => rfl, fun i inside => absurd inside (by omega)⟩
    simp only [RWStream.writeAll_none (by decide : 0 < 2 ^ 32), bind, Except.bind, pure, Except.pure, count]
  · have room : 0 < n := Nat.pos_of_ne_zero none
    refine ⟨RWStream.printed dest 0 (min (0 + writes.flatten.length) (n - 1)) writes, ?_, ?_, ?_⟩
    · simp only [RWStream.writeAll_str (by decide : 0 < 2 ^ 32) room, bind, Except.bind, pure, Except.pure, count]
    · intro i outside
      rw [RWStream.printed, if_neg (by omega), RWStream.filled, if_neg (by omega)]
    · intro i inside
      rw [RWStream.printed, if_neg (by omega), RWStream.filled, if_pos ⟨Nat.zero_le _, by omega⟩, Nat.sub_zero]

/-- One output string for all sinks, as long as its length is an `int`. -/
theorem snprintf_law {pieces : List Piece} (matching : Matches pieces args) :
    ∃ out, FileLaw (formatText pieces) args out ∧
      (out.length < 2 ^ 31 → BufferLaw (formatText pieces) args out) := by
  obtain ⟨writes, out⟩ := matching.emitted (Nat.lt_succ_self _)
  refine ⟨writes.flatten, fileLaw_emitted out, fun short dest n small => ?_⟩
  obtain ⟨dest', run, outside, inside⟩ := vsnprintf_emitted out dest small
  have returned : signed32 writes.flatten.length = writes.flatten.length := by
    rw [signed32, wrap32]
    split <;> omega
  rw [returned] at run
  exact ⟨dest', run, outside, inside⟩

theorem snprintf_law_padded :
    ∃ out, FileLaw (formatText [.literal (chr 'n') (by decide),
      .spec ⟨[.minus], .literal 5 (by decide) [], .absent, .none, .d⟩]) [.word 42] out ∧
      (out.length < 2 ^ 31 → BufferLaw (formatText [.literal (chr 'n') (by decide),
        .spec ⟨[.minus], .literal 5 (by decide) [], .absent, .none, .d⟩]) [.word 42] out) :=
  snprintf_law (.literal (@Matches.spec ⟨[.minus], .literal 5 (by decide) [], .absent, .none, .d⟩ [] [] 5 [] (-1)
    [.word 42] [] ⟨rfl, by decide⟩ ⟨rfl, rfl⟩ ⟨42, rfl⟩ (by simp) (by simp) .nil))

theorem toUInt32_signed32 {n : Nat} (small : n < 2 ^ 32) : toUInt32 (signed32 n) = n := by
  have same := wrap32_of_lt small
  rw [toUInt32, signed32, same]
  split <;> omega

theorem textWrites_bare {word : CString} (short : word.length ≤ 2 ^ 31) :
    (textWrites noFlags 0 word (signed32 word.length)).flatten = word := by
  have none : (toInt32 (0 - signed32 word.length)).toNat = 0 := by
    by_cases most : word.length = 2 ^ 31
    · rw [most]
      decide
    · have length : signed32 word.length = word.length := by
        rw [signed32, wrap32, if_pos (by omega)]
        omega
      rw [length, toInt32_of_range (by omega) (by omega)]
      omega
  simp only [textWrites, pad, none, noFlags, Bool.false_eq_true, if_false, List.replicate_zero, List.nil_append,
    List.append_nil, List.flatten_singleton]

theorem emitted_bare {conversion : Conversion} {conv : Conv} {here : List (List UInt8)} {left : List Arg}
    (converted : convert false (-1) .none conversion.byte args = .ok (conv, left))
    (made : (⟨noFlags, 0, .none, conv⟩ : Directive).writes = .ok here) (later : emitted fuel fmt left = .ok writes) :
    emitted (fuel + 1) (chr '%' :: conversion.byte :: fmt) args = .ok (here ++ writes) := by
  have read := @readDirective_eq fmt args (bare conversion) [] [] 0 (-1) ⟨rfl, rfl⟩ ⟨rfl, rfl⟩
  simp only [List.nil_append] at read
  have body : (bare conversion).body ++ (bare conversion).conversion.byte :: fmt = conversion.byte :: fmt := rfl
  rw [body] at read
  rw [emitted, if_pos rfl, read]
  show ((convert false (-1) .none conversion.byte args >>= fun r =>
      Except.ok ((⟨noFlags, 0, .none, r.1⟩ : Directive), conversion.byte :: fmt, r.2)) >>= fun r =>
    r.1.writes >>= fun writes => advance r.2.1 >>= fun fmt => emitted fuel fmt r.2.2 >>= fun later =>
      Except.ok (writes ++ later)) = _
  rw [converted]
  simp only [bind, Except.bind, made, advance, later]

theorem emitted_str {str : CString} (short : str.length ≤ 2 ^ 31) (later : emitted fuel fmt args = .ok writes) :
    ∃ here, emitted (fuel + 1) (chr '%' :: chr 's' :: fmt) (.str str :: args) = .ok (here ++ writes) ∧
      here.flatten = str := by
  have whole : toUInt32 (signed32 str.length) = str.length := toUInt32_signed32 (by omega)
  have made : (⟨noFlags, 0, .none, .text (str ++ [0]) (signed32 str.length)⟩ : Directive).writes =
      .ok (textWrites noFlags 0 str (signed32 str.length)) := by
    simp only [Directive.writes, whole]
    rw [if_pos (by simp), List.take_left]
  exact ⟨_, @emitted_bare _ _ _ _ .s _ _ _ rfl made later, textWrites_bare short⟩

/-- What `sprintf` leaves in memory, as long as its `size_t` limit is not met. -/
theorem sprintf_emitted (out : emitted (fmt.length + 1) fmt args = .ok writes) (dest : Mem)
    (fits : writes.flatten.length < 2 ^ 32 - 1) :
    sprintf dest fmt args =
      .ok (RWStream.printed dest 0 writes.flatten.length writes, [], signed32 writes.flatten.length) := by
  have stop : min (0 + writes.flatten.length) (0xFFFFFFFF - 1) = writes.flatten.length := by omega
  have count : signed32 (wrap32 (wrap32 (0 + writes.flatten.length) + (2 ^ 32 - 0))) =
      signed32 writes.flatten.length := by
    simp [signed32, wrap32]
  rw [sprintf, vsnprintf, fmtvprintf_emitted out, RWStream.mkStrS]
  simp only [RWStream.writeAll_str (by decide : 0 < 2 ^ 32) (by decide : 0 < 0xFFFFFFFF), bind, Except.bind, pure,
    Except.pure, count, stop]

@[simp] theorem length_pad (c : UInt8) (count : Int) : (pad c count).flatten.length = count.toNat := by
  simp [pad]

theorem length_textWrites (f : Flags) (width : Int) (data : List UInt8) (size : Int) :
    (textWrites f width data size).flatten.length = data.length + (toInt32 (width - size)).toNat := by
  rw [textWrites]
  simp only [List.flatten_append, List.length_append]
  cases f.leftjustify <;> simp only [if_true, if_false, Bool.false_eq_true, length_pad] <;> simp [Nat.add_comm]

theorem emitted_char {sp : Spec} {width : Int} (takesWidth : sp.width.Takes [] width) (plain : sp.precision = .absent)
    (character : sp.conversion = .c) (later : emitted fuel rest args = .ok writes) (bits : UInt32) :
    emitted (fuel + 1) (chr '%' :: (sp.body ++ sp.conversion.byte :: rest)) (.word bits :: args) =
      .ok (textWrites (flagsOf sp.flags) width [UInt8.ofNat bits.toNat] 1 ++ writes) := by
  have takesPrecision : sp.precision.Takes [] (-1) := by
    rw [plain]
    exact ⟨rfl, rfl⟩
  have read := @readDirective_eq rest (.word bits :: args) sp [] [] width (-1) takesWidth takesPrecision
  rw [character] at read ⊢
  rw [emitted, if_pos rfl]
  rw [List.nil_append, List.nil_append] at read
  rw [read]
  show (do
    let later ← emitted fuel rest args
    return textWrites (flagsOf sp.flags) width [UInt8.ofNat bits.toNat] 1 ++ later : Except Fault _) = _
  rw [later]
  rfl

/-- Two gigabytes of output come back as a negative count. -/
theorem snprintf_law_fails : Matches [.spec widest, .spec (bare .c)] [.word 65, .word 65] ∧
    ¬ ∃ out, FileLaw (formatText [.spec widest, .spec (bare .c)]) [.word 65, .word 65] out ∧
      BufferLaw (formatText [.spec widest, .spec (bare .c)]) [.word 65, .word 65] out := by
  have wide : widest.width.Takes [] 2147483647 := ⟨rfl, by decide⟩
  refine ⟨@Matches.spec widest _ [] 2147483647 [] (-1) [.word 65] [.word 65] wide ⟨rfl, rfl⟩ ⟨65, rfl⟩
    (by simp [widest]) (by simp [widest])
    (@Matches.spec (bare .c) _ [] 0 [] (-1) [.word 65] [] ⟨rfl, rfl⟩ ⟨rfl, rfl⟩ ⟨65, rfl⟩ (by simp [bare])
      (by simp [bare]) .nil), ?_⟩
  rintro ⟨out, _, law⟩
  have second := @emitted_char [] [] [] 14 (bare .c) 0 ⟨rfl, rfl⟩ rfl rfl rfl 65
  have first := @emitted_char _ _ _ 15 widest 2147483647 wide rfl rfl second 65
  obtain ⟨_, run, _⟩ := @vsnprintf_emitted (formatText [.spec widest, .spec (bare .c)]) [.word 65, .word 65] _ first
    (fun _ => 0) 0 (by decide)
  obtain ⟨_, run', _⟩ := law (fun _ => 0) 0 (by decide)
  rw [run] at run'
  have wide : toInt32 (2147483647 - 1) = 2147483646 := toInt32_of_range (by decide) (by decide)
  have narrow : toInt32 (0 - 1) = -1 := toInt32_of_range (by decide) (by decide)
  have length : (textWrites (flagsOf widest.flags) 2147483647 [UInt8.ofNat (65 : UInt32).toNat] 1 ++
      (textWrites (flagsOf (bare .c).flags) 0 [UInt8.ofNat (65 : UInt32).toNat] 1 ++ [])).flatten.length = 2 ^ 31 := by
    simp only [List.flatten_append, List.length_append, length_textWrites, wide, narrow]
    rfl
  rw [length] at run'
  simp only [Except.ok.injEq, Prod.mk.injEq] at run'
  have negative : signed32 (2 ^ 31) = -2 ^ 31 := by decide
  omega

end UmkaOs.Fmt
