import UmkaOs.Fmt.Scan
import UmkaOs.Fmt.Numerals

namespace UmkaOs.Fmt

open Lib

/-- From `offs` on the memory spells out `text`. -/
def Spells (mem : Mem) (offs : Nat) (text : List UInt8) : Prop :=
  mem (offs + text.length) = 0 ∧ ∀ (k : Nat) (inside : k < text.length), mem (offs + k) = text[k] ∧ text[k] ≠ 0

/-- A string stream with `text` ahead of it, all of it below the size limit. -/
structure Ahead (s : RWStream) (text : List UInt8) : Prop where
  reading : ∃ mem, s.target = .str mem ∧ Spells mem s.offs text
  room : s.offs + text.length ≤ s.size

/-- The stream moved on by `k` bytes. -/
def skip (s : RWStream) (k : Nat) : RWStream := { s with offs := s.offs + k }

variable {s : RWStream} {text front rest : List UInt8} {mem : Mem} {offs : Nat} {c : UInt8}

theorem skip_skip (k l : Nat) : skip (skip s k) l = skip s (k + l) := by
  simp [skip, Nat.add_assoc]

theorem Spells.tail (spells : Spells mem offs (c :: text)) :
    mem offs = c ∧ c ≠ 0 ∧ Spells mem (offs + 1) text := by
  obtain ⟨ends, inside⟩ := spells
  obtain ⟨here, nonzero⟩ := inside 0 (Nat.succ_pos _)
  refine ⟨here, nonzero, ?_, fun k below => ?_⟩
  · rw [Nat.add_assoc, Nat.add_comm 1]
    exact ends
  · have next := inside (k + 1) (Nat.succ_lt_succ below)
    rw [Nat.add_assoc, Nat.add_comm 1]
    exact next

theorem Spells.drop (spells : Spells mem offs (front ++ rest)) : Spells mem (offs + front.length) rest := by
  induction front generalizing offs with
  | nil => exact spells
  | cons c front ih =>
    have further := ih spells.tail.2.2
    rwa [Nat.add_assoc, Nat.add_comm 1] at further

/-- The text in memory, followed by terminators. -/
def stringOf (text : List UInt8) : Mem := fun a => text.getD a 0

theorem spells_stringOf (plain : ∀ c ∈ text, c ≠ 0) : Spells (stringOf text) 0 text := by
  refine ⟨?_, fun k inside => ⟨?_, plain _ (List.getElem_mem inside)⟩⟩
  · simp [stringOf]
  · rw [stringOf, Nat.zero_add, List.getD_eq_getElem _ _ inside]

theorem Ahead.skip (ahead : Ahead s (front ++ rest)) : Ahead (skip s front.length) rest := by
  obtain ⟨mem, target, spells⟩ := ahead.reading
  refine ⟨⟨mem, target, spells.drop⟩, ?_⟩
  have room := ahead.room
  rw [List.length_append, ← Nat.add_assoc] at room
  exact room

theorem strPeek_eq (spells : Spells mem offs text) (k : Nat) : RWStream.strPeek mem offs k = text.take k := by
  induction k generalizing offs text with
  | zero => rfl
  | succ k ih =>
    rw [RWStream.strPeek]
    cases text with
    | nil =>
      have ends : mem offs = 0 := spells.1
      rw [if_pos ends, List.take_nil]
    | cons c text =>
      obtain ⟨here, nonzero, later⟩ := spells.tail
      rw [here, if_neg nonzero, ih later, List.take_succ_cons]

theorem strRead_eq (spells : Spells mem offs text) {limit : Nat} (room : offs + text.length ≤ limit) (k : Nat) :
    RWStream.strRead mem limit offs k = text.take k := by
  induction k generalizing offs text with
  | zero => rfl
  | succ k ih =>
    rw [RWStream.strRead]
    cases text with
    | nil =>
      have ends : mem offs = 0 := spells.1
      rw [if_neg (fun both => both.2 ends), List.take_nil]
    | cons c text =>
      obtain ⟨here, nonzero, later⟩ := spells.tail
      rw [List.length_cons] at room
      have below : offs < limit := by omega
      rw [here, if_pos ⟨below, nonzero⟩, ih later (by omega), List.take_succ_cons]

theorem Ahead.peek (ahead : Ahead s text) (k : Nat) : s.peek k = .ok (s, text.take k) := by
  obtain ⟨mem, target, spells⟩ := ahead.reading
  simp only [RWStream.peek, target, strPeek_eq spells]

theorem Ahead.read (ahead : Ahead s (front ++ rest)) : s.read front.length = .ok (Fmt.skip s front.length, front) := by
  obtain ⟨mem, target, spells⟩ := ahead.reading
  have taken : (front ++ rest).take front.length = front := List.take_left
  simp only [RWStream.read, target, strRead_eq spells ahead.room, taken, Fmt.skip]

theorem Ahead.tell (ahead : Ahead s text) : s.tell = .ok s.offs := by
  obtain ⟨mem, target, _⟩ := ahead.reading
  exact RWStream.tell_str target

/-- The characters a loop stops at: the end of the text or a character it does not skip. -/
def StopsAt (skipped : UInt8 → Bool) (rest : List UInt8) : Prop := ∀ c ∈ rest.head?, skipped c = false

theorem Ahead.skipWhile {skipped : UInt8 → Bool} {fuel : Nat} (ahead : Ahead s (front ++ rest))
    (all : ∀ c ∈ front, skipped c = true) (stop : StopsAt skipped rest) (enough : front.length < fuel) :
    Fmt.skipWhile skipped fuel s = .ok (Fmt.skip s front.length) := by
  induction front generalizing s fuel with
  | nil =>
    cases fuel with
    | zero => cases enough
    | succ fuel =>
      rw [Fmt.skipWhile, ahead.peek]
      cases rest with
      | nil => rfl
      | cons c rest =>
        have stays : skipped c = false := stop c rfl
        simp [bind, Except.bind, stays, Fmt.skip, pure, Except.pure]
  | cons c front ih =>
    cases fuel with
    | zero => cases enough
    | succ fuel =>
      have here : skipped c = true := all c (by simp)
      have one : Ahead s ([c] ++ (front ++ rest)) := ahead
      have further := ih one.skip (fun d member => all d (by simp [member])) (Nat.lt_of_succ_lt_succ enough)
      have moved := one.read
      rw [List.length_singleton] at moved further
      rw [Fmt.skipWhile, ahead.peek]
      simp only [List.cons_append, List.take_succ_cons, List.take_zero, bind, Except.bind, here, if_true, moved]
      rw [further, skip_skip, List.length_cons, Nat.add_comm]

theorem Ahead.readWord {fuel : Nat} (ahead : Ahead s (front ++ rest)) (all : ∀ c ∈ front, isWhitespace c = false)
    (stop : ∀ c ∈ rest.head?, isWhitespace c = true) (enough : front.length < fuel) :
    Fmt.readWord fuel s = .ok (Fmt.skip s front.length, front) := by
  induction front generalizing s fuel with
  | nil =>
    cases fuel with
    | zero => cases enough
    | succ fuel =>
      rw [Fmt.readWord, ahead.peek]
      cases rest with
      | nil => rfl
      | cons c rest =>
        have stays : isWhitespace c = true := stop c rfl
        simp [bind, Except.bind, stays, Fmt.skip, pure, Except.pure]
  | cons c front ih =>
    cases fuel with
    | zero => cases enough
    | succ fuel =>
      have here : isWhitespace c = false := all c (by simp)
      have one : Ahead s ([c] ++ (front ++ rest)) := ahead
      have further := ih one.skip (fun d member => all d (by simp [member])) (Nat.lt_of_succ_lt_succ enough)
      have moved := one.read
      rw [List.length_singleton] at moved further
      rw [Fmt.readWord, ahead.peek]
      simp only [List.cons_append, List.take_succ_cons, List.take_zero, bind, Except.bind, here, Bool.false_eq_true,
        if_false, moved, further, pure, Except.pure]
      rw [skip_skip, List.length_cons, Nat.add_comm]
      rfl

theorem Ahead.acceptChar (ahead : Ahead s (c :: rest)) : Fmt.acceptChar s c = .ok (Fmt.skip s 1, true) := by
  have one : Ahead s ([c] ++ rest) := ahead
  have moved := one.read
  rw [List.length_singleton] at moved
  simp [Fmt.acceptChar, ahead.peek, moved, bind, Except.bind, pure, Except.pure]

theorem Ahead.rejectChar (ahead : Ahead s text) (other : text.head? ≠ some c) :
    Fmt.acceptChar s c = .ok (s, false) := by
  have head : (text.take 1).head? ≠ some c := by
    rw [List.head?_take]
    simpa using other
  simp [Fmt.acceptChar, ahead.peek, head, bind, Except.bind, pure, Except.pure]

variable {base n : Nat} {upper : Bool} {ds : List Nat}

/-- The digits of a numeral, most significant first. -/
def digitsOf (base n : Nat) : List Nat := if n = 0 then [0] else (Nat.digits base n).reverse

theorem numeralOf_eq : numeralOf base upper n = (digitsOf base n).map (digitChar upper) := by
  rw [numeralOf, digitsOf]
  split
  · cases upper <;> rfl
  · rfl

theorem digitsOf_lt (radix : 1 < base) : ∀ d ∈ digitsOf base n, d < base := by
  intro d member
  rw [digitsOf] at member
  split at member
  · simp only [List.mem_singleton] at member
    omega
  · exact Nat.digits_lt_base radix (List.mem_reverse.mp member)

theorem digitChar_facts (d : Nat) (small : d < 16) : digitChar upper d ≠ 0 ∧
    (digitChar upper d = zero ↔ d = 0) ∧ (digitChar upper d).toNat < 128 ∧ basetbl (digitChar upper d) = d ∧
    isWhitespace (digitChar upper d) = false ∧ digitChar upper d ≠ chr '+' ∧ digitChar upper d ≠ chr '-' := by
  have all : ∀ (upper : Bool) (d : Fin 16), digitChar upper d ≠ 0 ∧
      (digitChar upper d = zero ↔ (d : Nat) = 0) ∧ (digitChar upper d).toNat < 128 ∧ basetbl (digitChar upper d) = d ∧
      isWhitespace (digitChar upper d) = false ∧ digitChar upper d ≠ chr '+' ∧ digitChar upper d ≠ chr '-' := by
    decide
  exact all upper ⟨d, small⟩

/-- A character that ends a run of digits. -/
def EndsDigits (c : UInt8) : Prop := c = 0 ∨ c ≠ zero ∧ c.toNat < 128 ∧ basetbl c = 0

theorem parseDigits_eq (small : base ≤ 16) (digits : ∀ d ∈ ds, d < base) (stop : EndsDigits c) {m count : Nat} :
    parseDigits base (ds.map (digitChar upper) ++ c :: rest) m count =
      .ok (ds.foldl (fun m d => wrap64 (m * base + d)) m, count + ds.length) := by
  induction ds generalizing m count with
  | nil =>
    rw [List.map_nil, List.nil_append, parseDigits]
    rcases stop with null | ⟨notZero, ascii, none⟩
    · rw [if_pos null]
      rfl
    · by_cases null : c = 0
      · rw [if_pos null]
        rfl
      · rw [if_neg null, if_neg notZero, if_neg (Nat.not_le.mpr ascii), if_neg (fun both => both.1 none)]
        rfl
  | cons d ds ih =>
    have below := digits d (by simp)
    obtain ⟨notNull, isZero, ascii, value, _⟩ := @digitChar_facts upper d (Nat.lt_of_lt_of_le below small)
    have further := fun m count => @ih (fun e member => digits e (by simp [member])) m count
    rw [List.map_cons, List.cons_append, parseDigits, if_neg notNull, List.foldl_cons]
    have length : count + (d :: ds).length = count + 1 + ds.length := by
      rw [List.length_cons]
      omega
    rw [length]
    by_cases none : d = 0
    · subst none
      rw [if_pos (isZero.mpr rfl), further]
      rfl
    · rw [if_neg (fun same => none (isZero.mp same)), if_neg (Nat.not_le.mpr ascii), value,
        if_pos ⟨none, below⟩, further]

theorem foldl_wrap (m : Nat) : ds.foldl (fun m d => wrap64 (m * base + d)) (wrap64 m) =
    wrap64 (ds.foldl (fun m d => m * base + d) m) := by
  induction ds generalizing m with
  | nil => rfl
  | cons d ds ih =>
    rw [List.foldl_cons, List.foldl_cons, ← ih (m * base + d)]
    congr 1
    simp only [wrap64]
    rw [Nat.add_mod, Nat.mul_mod, Nat.mod_mod, ← Nat.mul_mod, ← Nat.add_mod]

theorem digitsOf_value : (digitsOf base n).foldl (fun m d => m * base + d) 0 = n := by
  rw [digitsOf]
  split
  · rename_i none
    simp [none]
  · rw [List.foldl_reverse]
    have value := Nat.ofDigits_digits base n
    rw [Nat.ofDigits_eq_foldr] at value
    simpa [Nat.mul_comm, Nat.add_comm] using value

/-- The look-ahead buffer shows the numeral and the character behind it. -/
theorem lookAhead (short : front.length < 64) : ∃ c more,
    (front ++ rest).take 64 ++ List.replicate (64 - ((front ++ rest).take 64).length) 0 = front ++ c :: more ∧
      c = rest.headD 0 := by
  obtain ⟨k, room⟩ : ∃ k, 64 - front.length = k + 1 := ⟨64 - front.length - 1, by omega⟩
  rw [List.take_append, List.take_of_length_le (Nat.le_of_lt short), room]
  cases rest with
  | nil =>
    refine ⟨0, List.replicate k 0, ?_, rfl⟩
    rw [List.take_nil, List.append_nil, room, List.replicate_succ]
  | cons c rest =>
    refine ⟨c, rest.take k ++ List.replicate (64 - (front ++ (c :: rest).take (k + 1)).length) 0, ?_, rfl⟩
    rw [List.take_succ_cons, List.append_assoc, List.cons_append]

/-- The terminator or white space. -/
def Boundary (c : UInt8) : Prop := c = 0 ∨ isWhitespace c = true

theorem Boundary.facts (boundary : Boundary c) : EndsDigits c ∧ c ≠ chr 'x' ∧ c ≠ chr 'X' := by
  rcases boundary with rfl | white
  · exact ⟨.inl rfl, by decide, by decide⟩
  · have cases : c = chr ' ' ∨ c = chr '\n' ∨ c = chr '\t' ∨ c = chr '\r' := by
      simpa [isWhitespace, or_assoc] using white
    rcases cases with rfl | rfl | rfl | rfl <;> exact ⟨.inr (by decide), by decide, by decide⟩

/-- The first digit of a number other than 0 is not 0. -/
theorem digitsOf_head (some : n ≠ 0) : ∃ d ds, digitsOf base n = d :: ds ∧ d ≠ 0 := by
  have nonempty : Nat.digits base n ≠ [] := Nat.digits_ne_nil_iff_ne_zero.mpr some
  have last := Nat.getLast_digit_ne_zero base some
  rw [digitsOf, if_neg some]
  refine ⟨(Nat.digits base n).getLast nonempty, ((Nat.digits base n).dropLast).reverse, ?_, last⟩
  have split := congrArg List.reverse (List.dropLast_append_getLast nonempty)
  rw [List.reverse_append, List.reverse_singleton, List.singleton_append] at split
  exact split.symm

/-- The number that `fmtParseNum` finds, once the base is settled. -/
theorem fmtParseNum_of {asked : Nat} (ahead : Ahead s (numeralOf base upper n ++ rest)) (low : 8 ≤ base)
    (high : base ≤ 16) (small : n < 2 ^ 64) (boundary : Boundary (rest.headD 0))
    (settled : ∀ c more, detectBase (numeralOf base upper n ++ c :: more) asked = (base, 0)) :
    fmtParseNum s asked = .ok (skip s (numeralOf base upper n).length, n) := by
  have short := @numeralOf_length base n upper low small
  obtain ⟨c, more, buf, stop⟩ := @lookAhead (numeralOf base upper n) rest (by omega)
  have digits := @parseDigits_eq more c base upper (digitsOf base n) high (digitsOf_lt (by omega))
    (stop ▸ boundary).facts.1 0 0
  have detect := settled c more
  have value : (digitsOf base n).foldl (fun m d => wrap64 (m * base + d)) 0 = n := by
    have wrapped := @foldl_wrap base (digitsOf base n) 0
    rw [digitsOf_value, show wrap64 0 = 0 from rfl] at wrapped
    rw [wrapped]
    exact Nat.mod_eq_of_lt small
  rw [← numeralOf_eq] at digits
  rw [value, Nat.zero_add] at digits
  have length : (digitsOf base n).length = (numeralOf base upper n).length := by rw [numeralOf_eq, List.length_map]
  rw [length] at digits
  simp only [fmtParseNum, ahead.peek, buf, detect, List.drop_zero, digits, ahead.read, bind, Except.bind, pure,
    Except.pure]

theorem fmtParseNum_eq (ahead : Ahead s (numeralOf base upper n ++ rest)) (low : 8 ≤ base) (high : base ≤ 16)
    (small : n < 2 ^ 64) (boundary : Boundary (rest.headD 0)) :
    fmtParseNum s base = .ok (skip s (numeralOf base upper n).length, n) :=
  fmtParseNum_of ahead low high small boundary (fun _ _ => if_neg (by omega))

/-- Base 0 reads a decimal numeral as decimal; a lone 0 it reads as octal. -/
theorem fmtParseNum_detect (ahead : Ahead s (numeralOf 10 upper n ++ rest)) (small : n < 2 ^ 64)
    (boundary : Boundary (rest.headD 0)) :
    fmtParseNum s 0 = .ok (skip s (numeralOf 10 upper n).length, n) := by
  by_cases none : n = 0
  · subst none
    have one : numeralOf 10 upper 0 = [zero] := rfl
    rw [one] at ahead ⊢
    obtain ⟨c, more, buf, stop⟩ := @lookAhead [zero] rest (by decide)
    have boundaryC : Boundary c := stop ▸ boundary
    obtain ⟨ends, notx, notX⟩ := boundaryC.facts
    have octal : detectBase ([zero] ++ c :: more) 0 = (8, 1) := by
      simp [detectBase, notx, notX]
    have nothing := @parseDigits_eq more c 8 upper [] (by decide) (by simp) ends 0 1
    rw [List.map_nil, List.nil_append] at nothing
    have moved := ahead.read
    simp only [fmtParseNum, ahead.peek, buf, octal, bind, Except.bind, pure, Except.pure]
    rw [show List.drop 1 ([zero] ++ c :: more) = c :: more from rfl, nothing]
    simp only [List.foldl_nil, List.length_nil, Nat.add_zero]
    rw [show s.read 1 = _ from moved]
  · refine fmtParseNum_of ahead (by decide) (by decide) small boundary (fun c more => ?_)
    obtain ⟨d, ds, digits, nonzero⟩ := @digitsOf_head 10 n none
    have below : d < 10 := digitsOf_lt (by decide) d (by rw [digits]; simp)
    have notZero : digitChar upper d ≠ zero :=
      fun same => nonzero ((digitChar_facts d (Nat.lt_trans below (by decide))).2.1.mp same)
    rw [numeralOf_eq, digits]
    simp [detectBase, notZero]

theorem numeralOf_head (radix : 1 < base) (high : base ≤ 16) : ∃ c front, numeralOf base upper n = c :: front ∧
    isWhitespace c = false ∧ c ≠ chr '+' ∧ c ≠ chr '-' := by
  have positive := @numeralOf_length_pos base n upper
  rw [numeralOf_eq] at positive ⊢
  cases digits : digitsOf base n with
  | nil => simp [digits] at positive
  | cons d ds =>
    have below : d < base := digitsOf_lt radix d (by rw [digits]; simp)
    obtain ⟨_, _, _, _, notWhite, notPlus, notMinus⟩ := @digitChar_facts upper d (Nat.lt_of_lt_of_le below high)
    exact ⟨_, _, rfl, notWhite, notPlus, notMinus⟩

theorem notSpace (notWhite : isWhitespace c = false) : isSpace c = false := by
  simp only [isWhitespace, Bool.or_eq_false_iff] at notWhite
  exact notWhite.1.1.1

theorem Ahead.skipSpaces (ahead : Ahead s (c :: rest)) (notWhite : isWhitespace c = false) :
    Fmt.skipSpaces s = .ok s := by
  refine @Ahead.skipWhile s [] (c :: rest) isSpace turns ahead (by simp) ?_ (by decide)
  intro d member
  cases member
  exact notSpace notWhite

theorem fmtParseULL_eq (ahead : Ahead s (numeralOf base upper n ++ rest)) (low : 8 ≤ base) (high : base ≤ 16)
    (small : n < 2 ^ 64) (boundary : Boundary (rest.headD 0)) :
    fmtParseULL s base = .ok (skip s (numeralOf base upper n).length, n) := by
  obtain ⟨c, front, head, notWhite, notPlus, _⟩ := @numeralOf_head base n upper (by omega) high
  have shape : Ahead s (c :: (front ++ rest)) := by
    rw [head] at ahead
    exact ahead
  have plus := @Ahead.rejectChar s _ (chr '+') shape (by simpa using notPlus)
  simp only [fmtParseULL, shape.skipSpaces notWhite, plus, bind, Except.bind]
  exact fmtParseNum_eq ahead low high small boundary

/-- The text of a signed number. -/
def signedText (n : Int) : List UInt8 := (if n < 0 then [chr '-'] else []) ++ numeralOf 10 false n.natAbs

/-- Reading back a signed number, with base 10 or with the base left open. -/
theorem fmtParseLL_eq {n : Int} {asked : Nat} (base : asked = 10 ∨ asked = 0) (ahead : Ahead s (signedText n ++ rest))
    (low : -2 ^ 63 ≤ n) (high : n < 2 ^ 63) (boundary : Boundary (rest.headD 0)) :
    fmtParseLL s asked = .ok (skip s (signedText n).length, n) := by
  have parsed : ∀ {s : RWStream}, Ahead s (numeralOf 10 false n.natAbs ++ rest) →
      fmtParseNum s asked = .ok (skip s (numeralOf 10 false n.natAbs).length, n.natAbs) := by
    intro s ahead
    rcases base with rfl | rfl
    · exact fmtParseNum_eq ahead (by decide) (by decide) (by omega) boundary
    · exact fmtParseNum_detect ahead (by omega) boundary
  rw [fmtParseLL]
  by_cases negative : n < 0
  · rw [signedText, if_pos negative] at ahead ⊢
    have shape : Ahead s (chr '-' :: (numeralOf 10 false n.natAbs ++ rest)) := ahead
    have minus : Ahead s ([chr '-'] ++ (numeralOf 10 false n.natAbs ++ rest)) := ahead
    have value : signed 64 (wrap64 (2 ^ 64 - n.natAbs)) = n := by
      simp only [signed, wrap64]
      omega
    simp only [shape.skipSpaces (by decide), shape.acceptChar, if_true, bind, Except.bind]
    have digits := parsed minus.skip
    rw [List.length_singleton] at digits
    rw [digits]
    simp only [value, pure, Except.pure, skip_skip, List.length_append, List.length_singleton]
  · rw [signedText, if_neg negative, List.nil_append] at ahead ⊢
    obtain ⟨c, front, head, notWhite, notPlus, notMinus⟩ := @numeralOf_head 10 n.natAbs false (by decide) (by decide)
    have shape : Ahead s (c :: (front ++ rest)) := by
      rw [head] at ahead
      exact ahead
    have minus := @Ahead.rejectChar s _ (chr '-') shape (by simpa using notMinus)
    have plus := @Ahead.rejectChar s _ (chr '+') shape (by simpa using notPlus)
    have value : signed 64 n.natAbs = n := by
      simp only [signed]
      omega
    simp only [shape.skipSpaces notWhite, minus, plus, Bool.false_eq_true, if_false, bind, Except.bind, parsed ahead,
      value]
    rfl

end UmkaOs.Fmt
