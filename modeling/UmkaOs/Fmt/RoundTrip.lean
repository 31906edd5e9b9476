import UmkaOs.Fmt.Text
import UmkaOs.Fmt.Snprintf

namespace UmkaOs.Fmt

open Lib

/-- A text that `%s` reads in one piece. -/
structure Word where
  text : CString
  nonempty : text ≠ []
  plain : ∀ c ∈ text, isWhitespace c = false ∧ c ≠ 0

/-- A conversion with its value. -/
inductive Pair where
  | d (bits : UInt32)
  | i (bits : UInt32)
  | u (bits : UInt32)
  | o (bits : UInt32)
  | x (bits : UInt32)
  | s (word : Word)

namespace Pair

def conversion : Pair → Conversion
  | d _ => .d
  | i _ => .i
  | u _ => .u
  | o _ => .o
  | x _ => .x
  | s _ => .s

def arg : Pair → Arg
  | d bits | i bits | u bits | o bits | x bits => .word bits
  | s word => .str word.text

def recv : Pair → Recv
  | d _ | i _ => .int
  | u _ | o _ | x _ => .uint
  | s _ => .str

/-- The original value, as the receiver of the conversion holds it. -/
def value : Pair → Value
  | d bits | i bits => .int (signed32 bits.toNat)
  | u bits | o bits | x bits => .uint bits.toNat
  | s word => .str word.text

/-- The text between the blanks; unsigned values are printed sign-extended. -/
def text : Pair → List UInt8
  | d bits | i bits => signedText (signed32 bits.toNat)
  | u bits => numeralOf 10 false (toUInt64 (signed32 bits.toNat))
  | o bits => numeralOf 8 false (toUInt64 (signed32 bits.toNat))
  | x bits => numeralOf 16 false (toUInt64 (signed32 bits.toNat))
  | s word => word.text

end Pair

/-- The conversions joined by single spaces. -/
def format : List Pair → CString
  | [] => []
  | [p] => [chr '%', p.conversion.byte]
  | p :: q :: rest => chr '%' :: p.conversion.byte :: space :: format (q :: rest)

/-- The texts joined by single spaces. -/
def joined : List Pair → List UInt8
  | [] => []
  | [p] => p.text
  | p :: q :: rest => p.text ++ space :: joined (q :: rest)

variable {p : Pair} {ps : List Pair} {args : List Arg} {fmt : CString} {fuel : Nat} {writes : List (List UInt8)}

theorem numWrites_bare {num : Num} {base : Nat} {numbuf : List UInt8} :
    (numWrites noFlags 0 (-1) num base false numbuf).flatten = numbuf := by
  have narrow : ¬ ((numbuf.length : Int) < 0) := by omega
  simp only [numWrites, if_neg narrow]
  simp

theorem signedWrites_bare {n : Int} (low : -2 ^ 63 ≤ n) (high : n < 2 ^ 63) :
    (signedWrites noFlags 10 false n).flatten = signedText n := by
  have size : toUInt64 (if n < 0 then -n else n) = n.natAbs := by
    rw [toUInt64]
    split <;> omega
  rw [signedWrites, signedText, size]
  by_cases negative : n < 0 <;> simp [negative, signWrites, noFlags]

/-- Words fit into an `int`, or just miss it. -/
def Short (p : Pair) : Prop := ∀ word, p = .s word → word.text.length ≤ 2 ^ 31

theorem emitted_pair (short : Short p) (later : emitted fuel fmt args = .ok writes) :
    ∃ here, emitted (fuel + 1) (chr '%' :: p.conversion.byte :: fmt) (p.arg :: args) = .ok (here ++ writes) ∧
      here.flatten = p.text := by
  have unsigned : ∀ (base : Nat) (bits : UInt32), 8 ≤ base → base ≤ 16 →
      (⟨noFlags, 0, .none, .number (.ull (toUInt64 (signed32 bits.toNat))) (some base) false false (-1)⟩ :
        Directive).writes = .ok (numWrites noFlags 0 (-1) (.ull (toUInt64 (signed32 bits.toNat))) base false
          (numeralOf base false (toUInt64 (signed32 bits.toNat)))) :=
    fun base bits low high => number_writes (numText_ull noFlags (-1) low high (toUInt64_lt _))
  have signed : ∀ bits : UInt32,
      (⟨noFlags, 0, .none, .number (.ll (signed32 bits.toNat)) (some 10) false false (-1)⟩ : Directive).writes =
        .ok (numWrites noFlags 0 (-1) (.ll (signed32 bits.toNat)) 10 false
          (signedWrites noFlags 10 false (signed32 bits.toNat)).flatten) :=
    fun bits => number_writes (numText_ll noFlags (-1) _ (by decide) (by decide))
  have signedOut : ∀ bits : UInt32, (numWrites noFlags 0 (-1) (.ll (signed32 bits.toNat)) 10 false
      (signedWrites noFlags 10 false (signed32 bits.toNat)).flatten).flatten = signedText (signed32 bits.toNat) := by
    intro bits
    have range := signed32_range bits.toNat
    rw [numWrites_bare, signedWrites_bare (by omega) (by omega)]
  cases p with
  | d bits => exact ⟨_, @emitted_bare _ _ _ _ .d _ _ _ rfl (signed bits) later, signedOut bits⟩
  | i bits => exact ⟨_, @emitted_bare _ _ _ _ .i _ _ _ rfl (signed bits) later, signedOut bits⟩
  | u bits => exact ⟨_, @emitted_bare _ _ _ _ .u _ _ _ rfl (unsigned 10 bits (by decide) (by decide)) later, numWrites_bare⟩
  | o bits => exact ⟨_, @emitted_bare _ _ _ _ .o _ _ _ rfl (unsigned 8 bits (by decide) (by decide)) later, numWrites_bare⟩
  | x bits => exact ⟨_, @emitted_bare _ _ _ _ .x _ _ _ rfl (unsigned 16 bits (by decide) (by decide)) later, numWrites_bare⟩
  | s word => exact emitted_str (short word rfl) later

theorem emitted_pairs (short : ∀ p ∈ ps, Short p) (enough : (format ps).length < fuel) :
    ∃ writes, emitted fuel (format ps) (ps.map Pair.arg) = .ok writes ∧ writes.flatten = joined ps := by
  induction ps generalizing fuel with
  | nil =>
    cases fuel with
    | zero => cases enough
    | succ fuel => exact ⟨[], rfl, rfl⟩
  | cons p rest ih =>
    have shortP := short p (by simp)
    have shortRest : ∀ q ∈ rest, Short q := fun q member => short q (by simp [member])
    cases rest with
    | nil =>
      obtain ⟨k, rfl⟩ : ∃ k, fuel = k + 2 := ⟨fuel - 2, by simp only [format, List.length_cons] at enough; omega⟩
      obtain ⟨here, out, text⟩ := @emitted_pair p [] [] (k + 1) [] shortP rfl
      exact ⟨_, out, by simpa [joined] using text⟩
    | cons q rest =>
      simp only [format, List.length_cons] at enough
      obtain ⟨k, rfl⟩ : ∃ k, fuel = k + 2 := ⟨fuel - 2, by omega⟩
      obtain ⟨later, out, text⟩ := @ih k shortRest (by omega)
      have blank : emitted (k + 1) (space :: format (q :: rest)) ((q :: rest).map Pair.arg) =
          .ok ([space] :: later) := by
        rw [emitted, if_neg (by decide), out]
        rfl
      obtain ⟨here, whole, textP⟩ := emitted_pair shortP blank
      refine ⟨_, whole, ?_⟩
      simp [joined, textP, text]

variable {s s' : RWStream} {rest : List UInt8} {recvs : List Recv} {start num : Nat}

theorem numeralOf_plain {base n : Nat} (radix : 1 < base) (high : base ≤ 16) :
    ∀ c ∈ numeralOf base false n, isWhitespace c = false ∧ c ≠ 0 := by
  intro c member
  rw [numeralOf_eq] at member
  obtain ⟨d, inside, rfl⟩ := List.mem_map.mp member
  obtain ⟨notNull, _, _, _, notWhite, _⟩ :=
    @digitChar_facts false d (Nat.lt_of_lt_of_le (digitsOf_lt radix d inside) high)
  exact ⟨notWhite, notNull⟩

theorem signedText_plain {n : Int} : ∀ c ∈ signedText n, isWhitespace c = false ∧ c ≠ 0 := by
  intro c member
  rcases List.mem_append.mp member with sign | digit
  · split at sign
    · cases List.mem_singleton.mp sign
      decide
    · cases sign
  · exact numeralOf_plain (by decide) (by decide) c digit

namespace Pair

theorem text_plain (p : Pair) : ∀ c ∈ p.text, isWhitespace c = false ∧ c ≠ 0 := by
  cases p with
  | d bits => exact signedText_plain
  | i bits => exact signedText_plain
  | u bits => exact numeralOf_plain (by decide) (by decide)
  | o bits => exact numeralOf_plain (by decide) (by decide)
  | x bits => exact numeralOf_plain (by decide) (by decide)
  | s word => exact word.plain

theorem text_nonempty (p : Pair) : p.text ≠ [] := by
  have digits : ∀ base n, numeralOf base false n ≠ [] :=
    fun base n => List.ne_nil_of_length_pos numeralOf_length_pos
  cases p with
  | d bits => exact List.append_ne_nil_of_right_ne_nil _ (digits _ _)
  | i bits => exact List.append_ne_nil_of_right_ne_nil _ (digits _ _)
  | u bits => exact digits _ _
  | o bits => exact digits _ _
  | x bits => exact digits _ _
  | s word => exact word.nonempty

end Pair

/-- Behind a pair stands a blank or nothing. -/
def Ends (rest : List UInt8) : Prop := ∀ c ∈ rest.head?, isWhitespace c = true

theorem Ends.boundary (ends : Ends rest) : Boundary (rest.headD 0) := by
  cases rest with
  | nil => exact .inl rfl
  | cons c rest => exact .inr (ends c rfl)

theorem scanDirective_pair (ahead : Ahead s (p.text ++ rest)) (ends : Ends rest) (bounded : s.size < turns) :
    scanDirective start p.conversion.byte s num (p.recv :: recvs) =
      .ok (skip s p.text.length, num, [p.value], recvs) := by
  have unsigned : ∀ bits : UInt32, wrap32 (toUInt64 (signed32 bits.toNat)) = bits.toNat := by
    intro bits
    have small := bits.toNat_lt
    have same := wrap32_of_lt small
    rw [wrap32, toUInt64, signed32, same]
    split <;> omega
  have signed : ∀ bits : UInt32, toInt32 (signed32 bits.toNat) = signed32 bits.toNat :=
    fun bits => toInt32_of_range (signed32_range _).1 (signed32_range _).2
  have range := fun bits : UInt32 => signed32_range bits.toNat
  cases p with
  | d bits =>
    have parsed := fmtParseLL_eq (.inl rfl) ahead (by have := range bits; omega) (by have := range bits; omega)
      ends.boundary
    show (fmtParseLL s 10 >>= fun r => Except.ok (r.1, num, [Value.int (toInt32 r.2)], recvs)) = _
    rw [parsed]
    simp only [bind, Except.bind, signed]
    rfl
  | i bits =>
    have parsed := fmtParseLL_eq (.inr rfl) ahead (by have := range bits; omega) (by have := range bits; omega)
      ends.boundary
    show (fmtParseLL s 0 >>= fun r => Except.ok (r.1, num, [Value.int (toInt32 r.2)], recvs)) = _
    rw [parsed]
    simp only [bind, Except.bind, signed]
    rfl
  | u bits =>
    have parsed := fmtParseULL_eq ahead (by decide) (by decide) (toUInt64_lt _) ends.boundary
    show (fmtParseULL s 10 >>= fun r => Except.ok (r.1, num, [Value.uint (wrap32 r.2)], recvs)) = _
    rw [parsed]
    simp only [bind, Except.bind, unsigned]
    rfl
  | o bits =>
    have parsed := fmtParseULL_eq ahead (by decide) (by decide) (toUInt64_lt _) ends.boundary
    show (fmtParseULL s 8 >>= fun r => Except.ok (r.1, num, [Value.uint (wrap32 r.2)], recvs)) = _
    rw [parsed]
    simp only [bind, Except.bind, unsigned]
    rfl
  | x bits =>
    have parsed := fmtParseULL_eq ahead (by decide) (by decide) (toUInt64_lt _) ends.boundary
    show (fmtParseULL s 16 >>= fun r => Except.ok (r.1, num, [Value.uint (wrap32 r.2)], recvs)) = _
    rw [parsed]
    simp only [bind, Except.bind, unsigned]
    rfl
  | s word =>
    have room := ahead.room
    rw [List.length_append] at room
    have parsed := ahead.readWord (fun c member => (word.plain c member).1) ends
      (show word.text.length < turns by simp only [Pair.text] at room; omega)
    show (readWord turns s >>= fun r => Except.ok (r.1, num, [Value.str r.2], recvs)) = _
    rw [parsed]
    rfl

theorem skipWhitespaces_text (ahead : Ahead s (p.text ++ rest)) : skipWhitespaces s = .ok s := by
  refine @Ahead.skipWhile s [] (p.text ++ rest) isWhitespace turns ahead (by simp) ?_ (by decide)
  intro c member
  rw [List.head?_append_of_ne_nil _ p.text_nonempty] at member
  exact (p.text_plain c (List.mem_of_mem_head? member)).1

theorem scanLoop_pair (ahead : Ahead s (p.text ++ rest)) (ends : Ends rest) (bounded : s.size < turns) :
    scanLoop start (chr '%' :: p.conversion.byte :: fmt) s num (p.recv :: recvs) =
      (scanLoop start fmt (skip s p.text.length) (wrap32 (num + 1)) recvs >>= fun r =>
        .ok (r.1, r.2.1, p.value :: r.2.2)) := by
  have progress : s.offs ≠ (skip s p.text.length).offs := by
    have some := List.length_pos_of_ne_nil p.text_nonempty
    simp only [skip]
    omega
  rw [scanLoop, skipWhitespaces_text ahead]
  simp only [bind, Except.bind, if_true, ahead.tell, scanDirective_pair ahead ends bounded, ahead.skip.tell]
  rw [if_neg (fun both => progress both.1)]
  simp only [List.singleton_append]
  rfl

theorem scanLoop_blank (ahead : Ahead s (space :: (p.text ++ rest))) :
    scanLoop start (space :: fmt) s num recvs = scanLoop start fmt (skip s 1) num recvs := by
  have skipped : skipWhitespaces s = .ok (skip s 1) := by
    refine @Ahead.skipWhile s [space] (p.text ++ rest) isWhitespace turns ahead (by simp; decide) ?_ (by decide)
    intro c member
    rw [List.head?_append_of_ne_nil _ p.text_nonempty] at member
    exact (p.text_plain c (List.mem_of_mem_head? member)).1
  rw [scanLoop, skipped]
  rfl

theorem joined_cons : ∃ rest, joined (p :: ps) = p.text ++ rest ∧ Ends rest := by
  cases ps with
  | nil => exact ⟨[], by rw [joined, List.append_nil], by simp [Ends]⟩
  | cons q ps =>
    refine ⟨_, rfl, ?_⟩
    intro c member
    cases member
    decide

/-- The scanning loop takes back what was printed. -/
theorem scanLoop_pairs (ahead : Ahead s (joined ps)) (bounded : s.size < turns) (counter : num < 2 ^ 32) :
    scanLoop start (format ps) s num (ps.map Pair.recv) =
      .ok (skip s (joined ps).length, wrap32 (num + ps.length), ps.map Pair.value) := by
  induction ps generalizing s num with
  | nil => rw [List.length_nil, Nat.add_zero, wrap32_of_lt counter]; rfl
  | cons p rest ih =>
    have count : wrap32 (wrap32 (num + 1) + rest.length) = wrap32 (num + (p :: rest).length) := by
      simp only [wrap32, List.length_cons]
      omega
    cases rest with
    | nil =>
      have alone : Ahead s (p.text ++ []) := by rwa [List.append_nil]
      rw [format, List.map_cons, scanLoop_pair alone (by simp [Ends]) bounded]
      rw [← count]
      simp [scanLoop, bind, Except.bind, joined, wrap32]
    | cons q rest =>
      have first : Ahead s (p.text ++ space :: joined (q :: rest)) := ahead
      obtain ⟨behind, split, _⟩ := @joined_cons q rest
      have ends : Ends (space :: joined (q :: rest)) := by
        intro c member
        cases member
        decide
      have second := first.skip
      have blank : Ahead (skip s p.text.length) (space :: (q.text ++ behind)) := by rwa [split] at second
      have third : Ahead (skip (skip s p.text.length) 1) (joined (q :: rest)) :=
        @Ahead.skip _ [space] (joined (q :: rest)) second
      rw [format, List.map_cons, scanLoop_pair first ends bounded, scanLoop_blank blank,
        ih third bounded (wrap32_lt _), count]
      simp only [bind, Except.bind, skip_skip, joined, List.length_append, List.length_cons,
        List.map_cons, Nat.add_assoc, Nat.add_comm 1]

theorem joined_plain : ∀ c ∈ joined ps, c ≠ 0 := by
  induction ps with
  | nil => simp [joined]
  | cons p rest ih =>
    intro c member
    cases rest with
    | nil => exact (p.text_plain c member).2
    | cons q rest =>
      rcases List.mem_append.mp member with own | behind
      · exact (p.text_plain c own).2
      · rcases List.mem_cons.mp behind with rfl | later
        · decide
        · exact ih c later

theorem short_of_joined (fits : (joined ps).length ≤ 2 ^ 31) : ∀ p ∈ ps, Short p := by
  induction ps with
  | nil => simp
  | cons p rest ih =>
    intro q member word same
    obtain ⟨behind, split, _⟩ := @joined_cons p rest
    rcases List.mem_cons.mp member with rfl | later
    · rw [split, List.length_append, same] at fits
      exact Nat.le_trans (Nat.le_add_right _ _) fits
    · refine ih ?_ q later word same
      cases rest with
      | nil => cases later
      | cons r rest =>
        rw [joined, List.length_append, List.length_cons] at fits
        omega

/-- Printing makes some text of the list, into whatever buffer, and scanning the
buffer gives back the values and stops behind that text. -/
def RoundTrip (ps : List Pair) : Prop :=
  ∃ text : List UInt8, ∀ dest : Mem, ∃ dest' s',
    sprintf dest (format ps) (ps.map Pair.arg) = .ok (dest', [], signed32 text.length) ∧
    (∀ (k : Nat) (inside : k < text.length), dest' k = text[k]) ∧ (ps ≠ [] → dest' text.length = 0) ∧
    fmtvscanf (.mkStr dest') (format ps) (ps.map Pair.recv) = .ok (s', ps.length, ps.map Pair.value) ∧
    s'.offs = text.length

theorem length_joined : ps.length ≤ (joined ps).length := by
  induction ps with
  | nil => exact Nat.zero_le _
  | cons p rest ih =>
    have some := List.length_pos_of_ne_nil p.text_nonempty
    cases rest with
    | nil =>
      simp only [joined, List.length_singleton]
      omega
    | cons q rest =>
      simp only [joined, List.length_append, List.length_cons] at ih ⊢
      omega

/-- What is printed is read back, up to the 2 GiB that a string stream has. -/
theorem round_trip (fits : (joined ps).length ≤ 2 ^ 31) : RoundTrip ps := by
  obtain ⟨writes, out, text⟩ := emitted_pairs (short_of_joined fits) (Nat.lt_succ_self _)
  refine ⟨joined ps, fun dest => ?_⟩
  have run := sprintf_emitted out dest (by rw [text]; omega)
  rw [text] at run
  have inside : ∀ (k : Nat) (below : k < (joined ps).length),
      RWStream.printed dest 0 (joined ps).length writes k = (joined ps)[k] := by
    intro k below
    rw [RWStream.printed, if_neg (by omega), RWStream.filled, if_pos ⟨Nat.zero_le _, below⟩, text, Nat.sub_zero,
      List.getD_eq_getElem _ _ below]
  have counter : wrap32 (0 + ps.length) = ps.length := by
    have := @length_joined ps
    rw [Nat.zero_add, wrap32_of_lt (by omega)]
  cases ps with
  | nil => exact ⟨_, _, run, inside, fun some => absurd rfl some, rfl, rfl⟩
  | cons p rest =>
    have ends : RWStream.printed dest 0 (joined (p :: rest)).length writes (joined (p :: rest)).length = 0 := by
      have some : writes ≠ [] := by
        rintro rfl
        have length := @length_joined (p :: rest)
        rw [← text] at length
        simp at length
      rw [RWStream.printed, if_pos ⟨rfl, some⟩]
    generalize RWStream.printed dest 0 (joined (p :: rest)).length writes = dest' at run inside ends
    have ahead : Ahead (.mkStr dest') (joined (p :: rest)) := by
      refine ⟨⟨_, rfl, ?_, fun k below => ?_⟩, ?_⟩
      · simpa [RWStream.mkStr] using ends
      · rw [RWStream.mkStr, Nat.zero_add]
        exact ⟨inside k below, joined_plain _ (List.getElem_mem below)⟩
      · simpa [RWStream.mkStr] using fits
    have scanned := @scanLoop_pairs (p :: rest) (.mkStr dest') 0 0 ahead (show 2 ^ 31 < turns by decide) (by decide)
    rw [counter] at scanned
    have scan : fmtvscanf (.mkStr dest') (format (p :: rest)) ((p :: rest).map Pair.recv) =
        .ok (skip (.mkStr dest') (joined (p :: rest)).length, (p :: rest).length, (p :: rest).map Pair.value) := by
      rw [fmtvscanf, ahead.tell]
      exact scanned
    exact ⟨dest', _, run, inside, fun _ => ends, scan, Nat.zero_add _⟩

theorem round_trip_three :
    RoundTrip [.i 0x80000000, .s ⟨[chr 'n', chr '%'], by decide, by decide +kernel⟩, .o 0xFFFFFFFF] :=
  round_trip (by decide +kernel)

/-- The stream is one over a string and stands within its limit. -/
def Limited (s : RWStream) (size : Nat) : Prop := (∃ mem, s.target = .str mem) ∧ s.size = size ∧ s.offs ≤ size

variable {size : Nat} {bytes : List UInt8}

theorem strRead_length {mem : Mem} {limit offs : Nat} (low : offs ≤ limit) (k : Nat) :
    offs + (RWStream.strRead mem limit offs k).length ≤ limit := by
  induction k generalizing offs with
  | zero => exact low
  | succ k ih =>
    rw [RWStream.strRead]
    split
    · rename_i both
      have further := @ih (offs + 1) both.1
      rw [List.length_cons]
      omega
    · exact low

theorem Limited.read (limited : Limited s size) {k : Nat} (run : s.read k = .ok (s', bytes)) : Limited s' size := by
  obtain ⟨⟨mem, target⟩, rfl, low⟩ := limited
  simp only [RWStream.read, target] at run
  cases run
  exact ⟨⟨mem, rfl⟩, rfl, strRead_length low k⟩

theorem Limited.peek (limited : Limited s size) {k : Nat} (run : s.peek k = .ok (s', bytes)) : Limited s' size := by
  obtain ⟨⟨mem, target⟩, sized, low⟩ := limited
  simp only [RWStream.peek, target] at run
  cases run
  exact ⟨⟨mem, target⟩, sized, low⟩

theorem Limited.skipWhile {skipped : UInt8 → Bool} (limited : Limited s size)
    (run : Fmt.skipWhile skipped fuel s = .ok s') : Limited s' size := by
  induction fuel generalizing s with
  | zero => cases run
  | succ fuel ih =>
    rw [Fmt.skipWhile] at run
    obtain ⟨⟨s1, ch⟩, peeked, run⟩ := bind_ok run
    have first := limited.peek peeked
    dsimp only at run
    split at run
    · cases run
      exact first
    · split at run
      · obtain ⟨⟨s2, byte⟩, moved, run⟩ := bind_ok run
        exact ih (first.read moved) run
      · cases run
        exact first

theorem Limited.readWord {word : CString} (limited : Limited s size) (run : Fmt.readWord fuel s = .ok (s', word)) :
    Limited s' size := by
  induction fuel generalizing s word with
  | zero => cases run
  | succ fuel ih =>
    rw [Fmt.readWord] at run
    obtain ⟨⟨s1, ch⟩, peeked, run⟩ := bind_ok run
    have first := limited.peek peeked
    dsimp only at run
    split at run
    · cases run
      exact first
    · split at run
      · cases run
        exact first
      · obtain ⟨⟨s2, byte⟩, moved, run⟩ := bind_ok run
        obtain ⟨⟨s3, later⟩, further, run⟩ := bind_ok run
        cases run
        exact ih (first.read moved) further

theorem Limited.scanLoop_word {values : List Value} {num' : Nat} (limited : Limited s size)
    (run : Fmt.scanLoop start (chr '%' :: chr 's' :: fmt) s num recvs = .ok (s', num', values)) :
    Limited s' size ∨ ∃ s1 num1 recvs1 later, Limited s1 size ∧
      scanLoop start fmt s1 num1 recvs1 = .ok (s', num', later) := by
  rw [scanLoop] at run
  obtain ⟨s1, skipped, run⟩ := bind_ok run
  have first := limited.skipWhile skipped
  rw [if_pos rfl] at run
  obtain ⟨point, _, run⟩ := bind_ok run
  obtain ⟨⟨s2, num2, here, recvs2⟩, directive, run⟩ := bind_ok run
  have word : scanDirective start (chr 's') s1 num recvs = (takeRecv .str recvs >>= fun recvs =>
      Fmt.readWord turns s1 >>= fun r => .ok (r.1, num, [.str r.2], recvs)) := rfl
  rw [word] at directive
  obtain ⟨recvs3, _, directive⟩ := bind_ok directive
  obtain ⟨⟨s3, text⟩, moved, directive⟩ := bind_ok directive
  cases directive
  have second := first.readWord moved
  obtain ⟨position, _, run⟩ := bind_ok run
  dsimp only at run
  split at run
  · cases run
    exact .inl second
  · obtain ⟨⟨s4, num4, later⟩, further, run⟩ := bind_ok run
    cases run
    exact .inr ⟨_, _, _, _, second, further⟩

theorem Limited.scanLoop_blank {values : List Value} {num' : Nat} (limited : Limited s size)
    (run : scanLoop start (space :: fmt) s num recvs = .ok (s', num', values)) :
    ∃ s1, Limited s1 size ∧ scanLoop start fmt s1 num recvs = .ok (s', num', values) := by
  rw [scanLoop] at run
  obtain ⟨s1, skipped, run⟩ := bind_ok run
  exact ⟨s1, limited.skipWhile skipped, run⟩

theorem Limited.scanLoop_nil {values : List Value} {num' : Nat} (limited : Limited s size)
    (run : scanLoop start [] s num recvs = .ok (s', num', values)) : Limited s' size := by
  rw [scanLoop] at run
  cases run
  exact limited

/-- `n + 1` letters `a`. -/
def letters (n : Nat) : Word := ⟨List.replicate (n + 1) (chr 'a'), by simp, by
  intro c member
  cases List.eq_of_mem_replicate member
  decide⟩

theorem length_letters (n : Nat) : (letters n).text.length = n + 1 := List.length_replicate

/-- Two words of 1 GiB make a text of more than 2 GiB. -/
theorem two_words {w : Word} (length : w.text.length = 2 ^ 30) : ¬ RoundTrip [.s w, .s w] := by
  have short : ∀ p ∈ [Pair.s w, .s w], Short p := by
    intro p member word same
    have own : p = .s w := by simpa using member
    rw [own] at same
    cases same
    rw [length]
    decide
  rintro ⟨text, trip⟩
  obtain ⟨dest', s', run, _, _, scanned, ends⟩ := trip (fun _ => 0)
  obtain ⟨writes, out, whole⟩ := emitted_pairs short (Nat.lt_succ_self _)
  have total : writes.flatten.length = 2 ^ 31 + 1 := by
    rw [whole]
    simp only [joined, Pair.text, List.length_append, List.length_cons, length]
    rfl
  have run' := sprintf_emitted out (fun _ => 0) (by rw [total]; decide)
  rw [run] at run'
  have count : signed32 text.length = signed32 (2 ^ 31 + 1) := by
    rw [← total]
    simp only [Except.ok.injEq, Prod.mk.injEq] at run'
    exact run'.2.2
  have long : 2 ^ 31 < text.length := by
    rw [show signed32 (2 ^ 31 + 1) = -2 ^ 31 + 1 by decide] at count
    have most := Nat.mod_le text.length (2 ^ 32)
    rw [signed32, wrap32] at count
    split at count <;> omega
  have fresh : Limited (.mkStr dest') (2 ^ 31) := ⟨⟨_, rfl⟩, rfl, Nat.zero_le _⟩
  have stays : Limited s' (2 ^ 31) := by
    rcases fresh.scanLoop_word scanned with done | ⟨s1, _, _, _, first, more⟩
    · exact done
    obtain ⟨s2, second, more⟩ := first.scanLoop_blank more
    rcases second.scanLoop_word more with done | ⟨s3, _, _, _, third, more⟩
    · exact done
    exact third.scanLoop_nil more
  have within := stays.2.2
  omega

theorem round_trip_fails : ¬ RoundTrip [.s (letters 1073741823), .s (letters 1073741823)] :=
  two_words (length_letters _)

end UmkaOs.Fmt
