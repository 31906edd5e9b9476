import UmkaOs.Fmt.Rest

namespace UmkaOs.Fmt

open Lib

variable {stop room asked : Nat} {text : List UInt8} {s : RWStream}

/-- The value is that of the digits at hand, modulo 2^64, and the stream moves on
behind them. -/
def NumberRead (stop : Nat) (s : RWStream) (text : List UInt8) (room asked : Nat) : Prop :=
  ∃ s', fmtParseNum s asked = .ok (s', wrap64 (valueOf (detectBase text asked).1 (digitRun text asked))) ∧
    Faces stop s' ⟨text.drop (numberEnd text asked), room - numberEnd text asked⟩

/-- A stream has one rest ahead, as far as its length goes. -/
theorem Faces.length_eq {r r' : Rest} (faces : Faces stop s r) (faces' : Faces stop s r') :
    r.text.length = r'.text.length := by
  obtain ⟨position, told, ends⟩ := faces.tell
  obtain ⟨position', told', ends'⟩ := faces'.tell
  cases told.symm.trans told'
  omega

/-- `fmtParseNum` reads the number exactly when its digits end within the
look-ahead, before an ASCII character, and within the limit of the stream. -/
theorem number_read (faces : Faces stop s ⟨text, room⟩) (asked : Nat) :
    NumberRead stop s text room asked ↔ Readable text asked ∧ numberEnd text asked ≤ room := by
  have step := faces.fmtParseNum asked
  have inside := @numberEnd_le text asked
  rw [Rest.number] at step
  constructor
  · rintro ⟨s', run, behind⟩
    by_cases readable : Readable text asked
    · refine ⟨readable, ?_⟩
      rw [if_pos readable, run] at step
      cases step with
      | returns _ _ shows =>
        have left := behind.length_eq shows.1
        simp only [Rest.read, List.length_drop, List.length_take] at left
        omega
    · rw [if_neg readable, run] at step
      cases step
  · rintro ⟨readable, fits⟩
    rw [if_pos readable] at step
    obtain ⟨⟨s', n⟩, run, behind, value⟩ := step.ok_right rfl
    cases value
    rw [Rest.read_eq inside fits] at behind
    exact ⟨s', run, behind⟩

theorem number_read_octal : (Faces 3 (.mkStr (stringOf [zero, chr '1', chr '7']))
    ⟨[zero, chr '1', chr '7'], 2 ^ 31⟩) ∧
    NumberRead 3 (.mkStr (stringOf [zero, chr '1', chr '7'])) [zero, chr '1', chr '7'] (2 ^ 31) 0 :=
  have faces := faces_mkStr (spells_stringOf (by decide +kernel : ∀ c ∈ [zero, chr '1', chr '7'], c ≠ 0))
  ⟨faces, (number_read faces 0).mpr (by decide)⟩

/-- 64 digits fill the look-ahead, and a byte from 128 on is a negative index. -/
theorem number_read_faults :
    fmtParseNum (.mkStr (stringOf (List.replicate 64 (chr '1')))) 10 = .error .overrun ∧
    fmtParseNum (.mkStr (stringOf [chr '1', 195])) 10 = .error .overrun := by
  constructor
  · exact ((faces_mkStr (spells_stringOf (by decide +kernel))).fmtParseNum 10).error_right (if_neg (by decide +kernel))
  · exact ((faces_mkStr (spells_stringOf (by decide +kernel))).fmtParseNum 10).error_right (if_neg (by decide +kernel))

variable {base n : Nat} {upper : Bool} {run rest : List UInt8} {c : UInt8}

/-- The digits end in front of `rest`. -/
def StopsDigits (base : Nat) (rest : List UInt8) : Prop := isDigitOf base (rest.headD 0) = false

theorem digitRun_run (positive : 0 < base) (digits : ∀ d ∈ run, isDigitOf base d = true)
    (stops : StopsDigits base rest) :
    detectBase (run ++ rest) base = (base, 0) ∧ digitRun (run ++ rest) base = run ∧
      numberEnd (run ++ rest) base = run.length := by
  have detect : detectBase (run ++ rest) base = (base, 0) := if_neg (by omega)
  have taken : digitRun (run ++ rest) base = run := by
    rw [digitRun, detect, List.drop_zero, List.takeWhile_append_of_pos digits]
    cases rest with
    | nil => simp
    | cons c rest =>
      have other : isDigitOf base c = false := stops
      simp [other]
  exact ⟨detect, taken, by rw [numberEnd, detect, taken, Nat.zero_add]⟩

theorem readable_run (positive : 0 < base) (digits : ∀ d ∈ run, isDigitOf base d = true)
    (stops : StopsDigits base rest) :
    Readable (run ++ rest) base ↔ run.length < 64 ∧ (rest.headD 0).toNat < 128 := by
  have next : (run ++ rest).getD run.length 0 = rest.headD 0 := by
    rw [List.getD_append_right _ _ _ _ (Nat.le_refl _), Nat.sub_self]
    cases rest <;> rfl
  rw [Readable, (digitRun_run positive digits stops).2.2, next]

theorem Rest.number_run (positive : 0 < base) (digits : ∀ d ∈ run, isDigitOf base d = true)
    (stops : StopsDigits base rest) (short : run.length < 64) (ascii : (rest.headD 0).toNat < 128)
    (fits : run.length ≤ room) :
    (⟨run ++ rest, room⟩ : Rest).number base = .ok (⟨rest, room - run.length⟩, wrap64 (valueOf base run)) := by
  obtain ⟨detect, taken, ends⟩ := digitRun_run positive digits stops
  have inside : run.length ≤ (run ++ rest).length := by simp
  rw [Rest.number, if_pos ((readable_run positive digits stops).mpr ⟨short, ascii⟩), detect, taken, ends,
    Rest.read_eq inside fits, List.drop_left]

namespace Rest

variable {blanks sign : List UInt8}

theorem skip_run {wanted : UInt8 → Bool} (all : ∀ c ∈ run, wanted c = true)
    (stops : ∀ c ∈ rest.head?, wanted c = false) (fits : run.length ≤ room) :
    (⟨run ++ rest, room⟩ : Rest).skip wanted = .ok (⟨rest, room - run.length⟩, run) := by
  have taken : (run ++ rest).takeWhile wanted = run := by
    rw [List.takeWhile_append_of_pos all]
    cases rest with
    | nil => simp
    | cons c rest =>
      have other := stops c rfl
      simp [other]
  have inside : run.length ≤ (run ++ rest).length := by simp
  rw [skip, taken, if_pos fits, read_eq inside fits, List.drop_left, List.take_left]

theorem accept_here : (⟨c :: rest, room + 1⟩ : Rest).accept c = (⟨rest, room⟩, true) := by
  rw [accept, if_pos (by rfl)]
  simp [read]

theorem accept_other {r : Rest} (other : r.text.head? ≠ some c) : r.accept c = (r, false) := if_neg other

theorem run_head (some : run ≠ []) (digits : ∀ d ∈ run, isDigitOf base d = true) :
    ∀ c ∈ (run ++ rest).head?, isSpace c = false ∧ c ≠ chr '+' ∧ c ≠ chr '-' := by
  have others : digitValue (chr ' ') = none ∧ digitValue (chr '+') = none ∧ digitValue (chr '-') = none := by decide
  have plain : ∀ c, isDigitOf base c = true → digitValue c ≠ none := by
    intro c digit none
    rw [isDigitOf, none] at digit
    cases digit
  intro c member
  rw [List.head?_append_of_ne_nil _ some] at member
  have value := plain c (digits c (List.mem_of_mem_head? member))
  refine ⟨?_, ?_, ?_⟩
  · simp only [isSpace, decide_eq_false_iff_not]
    rintro rfl
    exact value others.1
  · rintro rfl
    exact value others.2.1
  · rintro rfl
    exact value others.2.2

theorem unsigned_run (positive : 0 < base) (some : run ≠ []) (digits : ∀ d ∈ run, isDigitOf base d = true)
    (stops : StopsDigits base rest) (short : run.length < 64) (ascii : (rest.headD 0).toNat < 128)
    (fits : run.length ≤ room) :
    (⟨run ++ rest, room⟩ : Rest).unsigned base = .ok (⟨rest, room - run.length⟩, wrap64 (valueOf base run)) := by
  have head := @run_head base run rest some digits
  have noBlank := @skip_stop ⟨run ++ rest, room⟩ isSpace fun c member => (head c member).1
  have noPlus := @accept_other (chr '+') ⟨run ++ rest, room⟩ fun same => (head _ same).2.1 rfl
  simp only [unsigned, noBlank, noPlus, bind, Except.bind]
  exact number_run positive digits stops short ascii fits

theorem signed_run (blank : ∀ c ∈ blanks, isSpace c = true)
    (signs : sign = [chr '-'] ∨ sign = [chr '+'] ∨ sign = []) (positive : 0 < base) (some : run ≠ [])
    (digits : ∀ d ∈ run, isDigitOf base d = true) (stops : StopsDigits base rest) (short : run.length < 64)
    (ascii : (rest.headD 0).toNat < 128) (fits : blanks.length + sign.length + run.length ≤ room) :
    (⟨blanks ++ (sign ++ (run ++ rest)), room⟩ : Rest).signed base =
      .ok (⟨rest, room - (blanks.length + sign.length + run.length)⟩,
        UmkaOs.signed 64 (if sign = [chr '-'] then wrap64 (2 ^ 64 - wrap64 (valueOf base run))
          else wrap64 (valueOf base run))) := by
  have head := @run_head base run rest some digits
  obtain ⟨left, rfl⟩ : ∃ left, room = blanks.length + sign.length + left := ⟨_, (Nat.add_sub_cancel' (by omega)).symm⟩
  have number := @number_run left base run rest positive digits stops short ascii (by omega)
  have blankEnd : ∀ c ∈ (sign ++ (run ++ rest)).head?, isSpace c = false := by
    rcases signs with rfl | rfl | rfl
    · intro c member
      cases member
      decide
    · intro c member
      cases member
      decide
    · exact fun c member => (head c member).1
  have skipped := @skip_run (blanks.length + sign.length + left) blanks (sign ++ (run ++ rest)) isSpace blank blankEnd
    (by omega)
  have behind : blanks.length + sign.length + left - blanks.length = sign.length + left := by omega
  have behind' : blanks.length + sign.length + left - (blanks.length + sign.length + run.length) =
      left - run.length := by omega
  rw [behind] at skipped
  rw [behind', signed, skipped]
  rcases signs with rfl | rfl | rfl
  · have room : [chr '-'].length + left = left + 1 := Nat.add_comm _ _
    simp only [bind, Except.bind, room, List.singleton_append, accept_here, if_true, number, pure, Except.pure]
  · have room : [chr '+'].length + left = left + 1 := Nat.add_comm _ _
    have noMinus := @accept_other (chr '-') ⟨chr '+' :: (run ++ rest), left + 1⟩ (by simp; decide)
    have other : [chr '+'] ≠ [chr '-'] := by decide
    simp only [bind, Except.bind, room, List.singleton_append, noMinus, accept_here, Bool.false_eq_true, if_false,
      other, number, pure, Except.pure]
  · have noMinus := @accept_other (chr '-') ⟨run ++ rest, left⟩ fun same => (head _ same).2.2 rfl
    have noPlus := @accept_other (chr '+') ⟨run ++ rest, left⟩ fun same => (head _ same).2.1 rfl
    have other : ([] : List UInt8) ≠ [chr '-'] := by decide
    simp only [bind, Except.bind, List.length_nil, Nat.zero_add, List.nil_append, noMinus, noPlus, Bool.false_eq_true,
      if_false, other, number, pure, Except.pure]

end Rest

theorem digitValue_digitChar {d : Nat} (small : d < 16) : digitValue (digitChar upper d) = some d := by
  have all : ∀ (upper : Bool) (d : Fin 16), digitValue (digitChar upper d) = some (d : Nat) := by decide
  exact all upper ⟨d, small⟩

theorem numeralOf_digits (radix : 1 < base) (high : base ≤ 16) :
    ∀ c ∈ numeralOf base upper n, isDigitOf base c = true := by
  intro c member
  rw [numeralOf_eq] at member
  obtain ⟨d, inside, rfl⟩ := List.mem_map.mp member
  have below := digitsOf_lt radix d inside
  simp [isDigitOf, @digitValue_digitChar upper d (Nat.lt_of_lt_of_le below high), below]

theorem valueOf_numeralOf (radix : 1 < base) (high : base ≤ 16) : valueOf base (numeralOf base upper n) = n := by
  have values : ∀ (ds : List Nat) (m : Nat), (∀ d ∈ ds, d < 16) →
      (ds.map (digitChar upper)).foldl (fun m c => m * base + (digitValue c).getD 0) m =
        ds.foldl (fun m d => m * base + d) m := by
    intro ds
    induction ds with
    | nil => exact fun _ _ => rfl
    | cons d ds ih =>
      intro m small
      rw [List.map_cons, List.foldl_cons, List.foldl_cons, digitValue_digitChar (small d (by simp))]
      exact ih _ fun e member => small e (by simp [member])
  rw [valueOf, numeralOf_eq, values _ _ fun d member => Nat.lt_of_lt_of_le (digitsOf_lt radix d member) high,
    digitsOf_value]

theorem numeralOf_inj (radix : 1 < base) (high : base ≤ 16) {m : Nat}
    (same : numeralOf base upper m = numeralOf base upper n) : m = n := by
  rw [← @valueOf_numeralOf base m upper radix high, same, valueOf_numeralOf radix high]

theorem Boundary.stops (boundary : Boundary (rest.headD 0)) :
    StopsDigits base rest ∧ (rest.headD 0).toNat < 128 := by
  have plain : ∀ c : UInt8, Boundary c → digitValue c = none ∧ c.toNat < 128 := by
    intro c boundary
    rcases boundary with rfl | white
    · exact ⟨by decide, by decide⟩
    · have cases : c = chr ' ' ∨ c = chr '\n' ∨ c = chr '\t' ∨ c = chr '\r' := by
        simpa [isWhitespace, or_assoc] using white
      rcases cases with rfl | rfl | rfl | rfl <;> exact ⟨by decide, by decide⟩
  obtain ⟨other, ascii⟩ := plain _ boundary
  refine ⟨?_, ascii⟩
  rw [StopsDigits, isDigitOf, other]
  rfl

end UmkaOs.Fmt
