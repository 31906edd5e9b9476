import UmkaOs.Fmt.Strto

namespace UmkaOs.Fmt

open Lib

/-- The signs that are read: always a plus, and a minus where `minus` says so. -/
def isSign (minus : Bool) (c : UInt8) : Bool := c = chr '+' || minus && c = chr '-'

/-- The base of digits without a mark; base 0 reads them as octal behind a 0. -/
def plainBase (base : Nat) (digits : List UInt8) : Nat :=
  if base = 0 then if digits.headD 0 = zero then 8 else 10 else base

/-- A number without blanks and sign: digits of the base, or hex digits behind `0x`. -/
inductive IsBody (base : Nat) : List UInt8 → Prop
  | plain (digits : List UInt8) (some : digits ≠ [])
      (valid : ∀ c ∈ digits, isDigitOf (plainBase base digits) c = true) : IsBody base digits
  | hex (x : UInt8) (digits : List UInt8) (mark : x = chr 'x' ∨ x = chr 'X') (allowed : base = 0 ∨ base = 16)
      (some : digits ≠ []) (valid : ∀ c ∈ digits, isDigitOf 16 c = true) : IsBody base (zero :: x :: digits)

inductive IsNumber (minus : Bool) (base : Nat) : List UInt8 → Prop
  | mk (blanks sign body : List UInt8) (blank : ∀ c ∈ blanks, isSpace c = true)
      (signed : sign = [] ∨ ∃ c, isSign minus c = true ∧ sign = [c]) (number : IsBody base body) :
      IsNumber minus base (blanks ++ (sign ++ body))

/-- A number that the text starts with. -/
def NumberPrefix (minus : Bool) (base : Nat) (text word : List UInt8) : Prop := word <+: text ∧ IsNumber minus base word

/-- The longest one. -/
def LongestNumber (minus : Bool) (base : Nat) (text word : List UInt8) : Prop :=
  NumberPrefix minus base text word ∧ ∀ other, NumberPrefix minus base text other → other.length ≤ word.length

/-- `0x` with a hex digit behind it. -/
def Marked (u : List UInt8) : Prop :=
  u.headD 0 = zero ∧ (u.getD 1 0 = chr 'x' ∨ u.getD 1 0 = chr 'X') ∧ isDigitOf 16 (u.getD 2 0) = true

instance {u : List UInt8} : Decidable (Marked u) := inferInstanceAs (Decidable (_ ∧ _))

/-- The length of the longest body, 0 if there is none. -/
def bodyEnd (u : List UInt8) (base : Nat) : Nat :=
  if (base = 0 ∨ base = 16) ∧ Marked u then 2 + ((u.drop 2).takeWhile (isDigitOf 16)).length
  else (u.takeWhile (isDigitOf (plainBase base u))).length

/-- What stands behind the blanks, and behind the sign. -/
def behindBlanks (text : List UInt8) : List UInt8 := text.dropWhile isSpace

def signLength (minus : Bool) (t : List UInt8) : Nat := if t.head?.any (isSign minus) then 1 else 0

def behindSign (minus : Bool) (text : List UInt8) : List UInt8 :=
  (behindBlanks text).drop (signLength minus (behindBlanks text))

/-- The length of blanks and sign. -/
def leadLength (minus : Bool) (text : List UInt8) : Nat :=
  (text.takeWhile isSpace).length + signLength minus (behindBlanks text)

variable {minus : Bool} {base : Nat} {text word u rest body : List UInt8} {c : UInt8}

theorem notDigit_x {base : Nat} (mark : c = chr 'x' ∨ c = chr 'X') : isDigitOf base c = false := by
  have values : digitValue (chr 'x') = none ∧ digitValue (chr 'X') = none := by decide
  rcases mark with rfl | rfl
  · rw [isDigitOf, values.1]
    rfl
  · rw [isDigitOf, values.2]
    rfl

theorem plain_marked (marked : Marked u) (base : Nat) : (u.takeWhile (isDigitOf base)).length ≤ 1 := by
  obtain ⟨_, mark, _⟩ := marked
  rcases u with _ | ⟨d, _ | ⟨x, rest⟩⟩
  · simp
  · simp [List.takeWhile_cons]
    split <;> simp
  · have other := @notDigit_x x base mark
    simp only [List.takeWhile_cons, other]
    split <;> simp

theorem IsBody.le_bodyEnd (number : IsBody base body) (start : body <+: u) : body.length ≤ bodyEnd u base := by
  obtain ⟨rest, rfl⟩ := start
  cases number with
  | plain _ some valid =>
    have head : plainBase base (body ++ rest) = plainBase base body := by
      cases body with
      | nil => exact absurd rfl some
      | cons c body => rfl
    have run : body.length ≤ ((body ++ rest).takeWhile (isDigitOf (plainBase base (body ++ rest)))).length := by
      rw [head, List.takeWhile_append_of_pos valid]
      simp
    rw [bodyEnd]
    split
    · rename_i both
      have short := plain_marked both.2 (plainBase base (body ++ rest))
      omega
    · exact run
  | hex x digits mark allowed some valid =>
    have marked : Marked (zero :: x :: digits ++ rest) := by
      cases digits with
      | nil => exact absurd rfl some
      | cons d digits => exact ⟨rfl, mark, valid d (by simp)⟩
    rw [bodyEnd, if_pos ⟨allowed, marked⟩]
    have run : ((zero :: x :: digits ++ rest).drop 2).takeWhile (isDigitOf 16) =
        digits ++ rest.takeWhile (isDigitOf 16) := List.takeWhile_append_of_pos valid
    rw [run]
    simp only [List.length_cons, List.length_append]
    omega

/-- Up to there the text is a body. -/
theorem isBody_take (some : bodyEnd u base ≠ 0) : IsBody base (u.take (bodyEnd u base)) := by
  rw [bodyEnd] at some ⊢
  split
  · rename_i both
    obtain ⟨allowed, first, mark, digit⟩ := both
    rcases u with _ | ⟨d, _ | ⟨x, rest⟩⟩
    · exact absurd first (by decide)
    · exact absurd mark (by simp; decide)
    · have same : d = zero := first
      subst same
      have taken : (zero :: x :: rest).take (2 + ((List.drop 2 (zero :: x :: rest)).takeWhile (isDigitOf 16)).length) =
          zero :: x :: rest.takeWhile (isDigitOf 16) := by
        rw [Nat.add_comm 2, List.take_succ_cons, List.take_succ_cons]
        congr 2
        exact (List.prefix_iff_eq_take.mp (List.takeWhile_prefix _)).symm
      rw [taken]
      refine .hex x _ mark allowed ?_ fun c member => List.mem_takeWhile_imp member
      cases rest with
      | nil => exact absurd digit (by simp; decide)
      | cons e rest =>
        have here : isDigitOf 16 e = true := digit
        simp [here]
  · rename_i unmarked
    rw [if_neg unmarked] at some
    have taken : u.take (u.takeWhile (isDigitOf (plainBase base u))).length =
        u.takeWhile (isDigitOf (plainBase base u)) :=
      (List.prefix_iff_eq_take.mp (List.takeWhile_prefix _)).symm
    rw [taken]
    have nonempty : u.takeWhile (isDigitOf (plainBase base u)) ≠ [] := fun none => some (by rw [none]; rfl)
    have head : plainBase base (u.takeWhile (isDigitOf (plainBase base u))) = plainBase base u := by
      cases u with
      | nil => rfl
      | cons c u =>
        rw [List.takeWhile_cons] at nonempty ⊢
        split at nonempty
        · rename_i digit
          rw [if_pos digit]
          rfl
        · exact absurd rfl nonempty
    refine .plain _ nonempty fun c member => ?_
    rw [head]
    exact List.mem_takeWhile_imp member

theorem IsBody.head (number : IsBody base body) : ∃ c rest, body = c :: rest ∧ digitValue c ≠ none := by
  cases number with
  | plain _ some valid =>
    cases body with
    | nil => exact absurd rfl some
    | cons c rest =>
      refine ⟨c, rest, rfl, fun none => ?_⟩
      have digit := valid c (by simp)
      rw [isDigitOf, none] at digit
      cases digit
  | hex x digits => exact ⟨zero, x :: digits, rfl, by decide⟩

theorem digit_plain (digit : digitValue c ≠ none) : isSpace c = false ∧ isSign minus c = false := by
  have others : digitValue (chr ' ') = none ∧ digitValue (chr '+') = none ∧ digitValue (chr '-') = none := by decide
  have notPlus : c ≠ chr '+' := fun same => digit (same ▸ others.2.1)
  have notMinus : c ≠ chr '-' := fun same => digit (same ▸ others.2.2)
  refine ⟨decide_eq_false fun same => digit (same ▸ others.1), ?_⟩
  simp [isSign, notPlus, notMinus]

theorem sign_notSpace (sign : isSign minus c = true) : isSpace c = false := by
  simp only [isSign, Bool.or_eq_true, decide_eq_true_eq, Bool.and_eq_true] at sign
  rcases sign with rfl | ⟨_, rfl⟩ <;> decide

theorem behind_parts {blanks sign : List UInt8} (blank : ∀ c ∈ blanks, isSpace c = true)
    (signed : sign = [] ∨ ∃ c, isSign minus c = true ∧ sign = [c]) (digit : digitValue c ≠ none) :
    (blanks ++ (sign ++ c :: rest)).takeWhile isSpace = blanks ∧
      signLength minus (behindBlanks (blanks ++ (sign ++ c :: rest))) = sign.length ∧
      behindSign minus (blanks ++ (sign ++ c :: rest)) = c :: rest := by
  have plain := @digit_plain minus c digit
  have stops : (sign ++ c :: rest).takeWhile isSpace = [] ∧
      (sign ++ c :: rest).dropWhile isSpace = sign ++ c :: rest := by
    rcases signed with rfl | ⟨d, sign, rfl⟩
    · simp [plain.1]
    · simp [sign_notSpace sign]
  have behind : behindBlanks (blanks ++ (sign ++ c :: rest)) = sign ++ c :: rest := by
    rw [behindBlanks, List.dropWhile_append_of_pos blank, stops.2]
  have length : signLength minus (sign ++ c :: rest) = sign.length := by
    rcases signed with rfl | ⟨d, sign, rfl⟩
    · simp [signLength, plain.2]
    · simp [signLength, sign]
  refine ⟨by rw [List.takeWhile_append_of_pos blank, stops.1, List.append_nil], by rw [behind, length], ?_⟩
  rw [behindSign, behind, length, List.drop_left]

/-- Every number of the text ends by the end of the longest body. -/
theorem NumberPrefix.length_le (number : NumberPrefix minus base text word) :
    bodyEnd (behindSign minus text) base ≠ 0 ∧
      word.length ≤ leadLength minus text + bodyEnd (behindSign minus text) base := by
  obtain ⟨⟨rest, rfl⟩, blanks, sign, body, blank, signed, number⟩ := number
  obtain ⟨c, digits, rfl, digit⟩ := number.head
  have whole : blanks ++ (sign ++ c :: digits) ++ rest = blanks ++ (sign ++ c :: (digits ++ rest)) := by simp
  obtain ⟨front, signs, behind⟩ := @behind_parts minus (digits ++ rest) c blanks sign blank signed digit
  have longest := number.le_bodyEnd (List.prefix_append (c :: digits) rest)
  rw [whole, leadLength, front, signs, behind]
  simp only [List.length_append, List.length_cons, List.cons_append] at longest ⊢
  omega

/-- The text is its blanks, its sign and what stands behind. -/
theorem text_parts (minus : Bool) (text : List UInt8) : ∃ sign,
    text = text.takeWhile isSpace ++ (sign ++ behindSign minus text) ∧
      sign.length = signLength minus (behindBlanks text) ∧ (sign = [] ∨ ∃ c, isSign minus c = true ∧ sign = [c]) := by
  refine ⟨(behindBlanks text).take (signLength minus (behindBlanks text)), ?_, ?_, ?_⟩
  · rw [behindSign, List.take_append_drop, behindBlanks, List.takeWhile_append_dropWhile]
  · rw [List.length_take, signLength]
    cases behindBlanks text with
    | nil => simp
    | cons c rest => cases sign : isSign minus c <;> simp [sign]
  · rw [signLength]
    cases behindBlanks text with
    | nil => exact .inl rfl
    | cons c rest =>
      cases sign : isSign minus c with
      | true => exact .inr ⟨c, sign, by simp [sign]⟩
      | false => exact .inl (by simp [sign])

theorem bodyEnd_le : bodyEnd u base ≤ u.length := by
  rw [bodyEnd]
  split
  · rename_i both
    obtain ⟨_, first, mark, _⟩ := both
    have run := (List.takeWhile_sublist (isDigitOf 16) (l := u.drop 2)).length_le
    have two : 2 ≤ u.length := by
      rcases u with _ | ⟨d, _ | ⟨x, rest⟩⟩
      · exact absurd first (by decide)
      · exact absurd mark (by simp; decide)
      · simp
    rw [List.length_drop] at run
    omega
  · exact (List.takeWhile_sublist _).length_le

theorem numberPrefix_take (some : bodyEnd (behindSign minus text) base ≠ 0) :
    ∃ word, NumberPrefix minus base text word ∧
      word.length = leadLength minus text + bodyEnd (behindSign minus text) base := by
  obtain ⟨sign, whole, length, signed⟩ := text_parts minus text
  have number := @isBody_take base (behindSign minus text) some
  have inside := @bodyEnd_le base (behindSign minus text)
  refine ⟨text.takeWhile isSpace ++ (sign ++ (behindSign minus text).take (bodyEnd (behindSign minus text) base)),
    ⟨⟨(behindSign minus text).drop (bodyEnd (behindSign minus text) base), ?_⟩,
      .mk _ _ _ (fun c member => List.mem_takeWhile_imp member) signed number⟩, ?_⟩
  · rw [List.append_assoc, List.append_assoc, List.take_append_drop]
    exact whole.symm
  · rw [List.length_append, List.length_append, List.length_take, Nat.min_eq_left inside, leadLength, length]
    omega

theorem number_iff : (∃ word, NumberPrefix minus base text word) ↔ bodyEnd (behindSign minus text) base ≠ 0 := by
  constructor
  · rintro ⟨word, number⟩
    exact number.length_le.1
  · intro some
    obtain ⟨word, number, _⟩ := numberPrefix_take some
    exact ⟨word, number⟩

/-- There is a longest number exactly if there is a body, and it ends where the body does. -/
theorem longestNumber_length : (∀ word, LongestNumber minus base text word →
      bodyEnd (behindSign minus text) base ≠ 0 ∧
        word.length = leadLength minus text + bodyEnd (behindSign minus text) base) ∧
    (bodyEnd (behindSign minus text) base ≠ 0 → ∃ word, LongestNumber minus base text word) := by
  constructor
  · rintro word ⟨number, longest⟩
    obtain ⟨some, high⟩ := number.length_le
    obtain ⟨other, also, length⟩ := numberPrefix_take some
    have low := longest other also
    exact ⟨some, by omega⟩
  · intro some
    obtain ⟨word, number, length⟩ := numberPrefix_take some
    exact ⟨word, number, fun other also => length ▸ also.length_le.2⟩

/-- `0x` without a hex digit behind it. -/
def BareMark (u : List UInt8) : Prop :=
  u.headD 0 = zero ∧ (u.getD 1 0 = chr 'x' ∨ u.getD 1 0 = chr 'X') ∧ isDigitOf 16 (u.getD 2 0) = false

instance : Decidable (BareMark u) := inferInstanceAs (Decidable (_ ∧ _))

theorem numberEnd_bare (bare : BareMark u) : numberEnd u 0 = 2 ∧ bodyEnd u 0 = 1 := by
  obtain ⟨first, mark, other⟩ := bare
  have unmarked : ¬ Marked u := fun marked => by rw [marked.2.2] at other; cases other
  have detect : detectBase u 0 = (16, 2) := by
    rw [detectBase, if_pos rfl, if_pos first, if_pos mark]
  rcases u with _ | ⟨d, _ | ⟨x, rest⟩⟩
  · exact absurd first (by decide)
  · exact absurd mark (by simp; decide)
  · have same : d = zero := first
    subst same
    have stop := @notDigit_x x 8 mark
    have octal : isDigitOf 8 zero = true := by decide
    constructor
    · rw [numberEnd, digitRun, detect]
      cases rest with
      | nil => rfl
      | cons e rest =>
        have none : isDigitOf 16 e = false := other
        simp [none]
    · rw [bodyEnd, if_neg (fun both => unmarked both.2)]
      simp [plainBase, octal, stop]

theorem numberEnd_marked (marked : Marked u) : numberEnd u 16 = 1 ∧ 1 < bodyEnd u 16 := by
  have detect : detectBase u 16 = (16, 0) := rfl
  constructor
  · rw [numberEnd, digitRun, detect, List.drop_zero]
    obtain ⟨first, mark, _⟩ := marked
    rcases u with _ | ⟨d, _ | ⟨x, rest⟩⟩
    · exact absurd first (by decide)
    · exact absurd mark (by simp; decide)
    · have same : d = zero := first
      have stop := @notDigit_x x 16 mark
      have digit : isDigitOf 16 zero = true := by decide
      simp [same, digit, stop]
  · rw [bodyEnd, if_pos ⟨.inr rfl, marked⟩]
    omega

/-- Apart from marks, a number ends where the grammar says. -/
theorem numberEnd_eq (marks : ¬ (base = 16 ∧ Marked u)) (bare : ¬ (base = 0 ∧ BareMark u)) :
    numberEnd u base = bodyEnd u base := by
  by_cases detects : base = 0
  · subst detects
    by_cases first : u.headD 0 = zero
    · by_cases mark : u.getD 1 0 = chr 'x' ∨ u.getD 1 0 = chr 'X'
      · have digit : isDigitOf 16 (u.getD 2 0) = true := by
          cases digit : isDigitOf 16 (u.getD 2 0) with
          | true => rfl
          | false => exact absurd ⟨rfl, first, mark, digit⟩ bare
        have detect : detectBase u 0 = (16, 2) := by
          rw [detectBase, if_pos rfl, if_pos first, if_pos mark]
        rw [numberEnd, digitRun, detect, bodyEnd, if_pos ⟨.inl rfl, first, mark, digit⟩]
      · have detect : detectBase u 0 = (8, 1) := by
          rw [detectBase, if_pos rfl, if_pos first, if_neg mark]
        rw [numberEnd, digitRun, detect, bodyEnd, if_neg (fun both => mark both.2.2.1), plainBase, if_pos rfl,
          if_pos first]
        cases u with
        | nil => exact absurd first (by decide)
        | cons d rest =>
          have same : d = zero := first
          have digit : isDigitOf 8 zero = true := by decide
          simp [same, digit, Nat.add_comm]
    · have detect : detectBase u 0 = (10, 0) := by
        rw [detectBase, if_pos rfl, if_neg first]
      rw [numberEnd, digitRun, detect, bodyEnd, if_neg (fun both => first both.2.1), plainBase, if_pos rfl,
        if_neg first, Nat.zero_add, List.drop_zero]
  · have detect : detectBase u base = (base, 0) := if_neg detects
    have unmarked : ¬ ((base = 0 ∨ base = 16) ∧ Marked u) := by
      rintro ⟨rfl | rfl, marked⟩
      · exact detects rfl
      · exact marks ⟨rfl, marked⟩
    rw [numberEnd, digitRun, detect, bodyEnd, if_neg unmarked, plainBase, if_neg detects, Nat.zero_add, List.drop_zero]

theorem numberEnd_none (none : bodyEnd u base = 0) : numberEnd u base = 0 := by
  rw [← none]
  refine numberEnd_eq ?_ ?_
  · rintro ⟨rfl, marked⟩
    have more := (numberEnd_marked marked).2
    omega
  · rintro ⟨rfl, bare⟩
    have one := (numberEnd_bare bare).2
    omega

namespace Rest

/-- Moves on behind a sign. -/
def unsign (minus : Bool) (r : Rest) : Rest := if r.text.head?.any (isSign minus) then (r.read 1).1 else r

/-- Blanks, a sign and a number, whatever is made of the sign. -/
def numeric (minus : Bool) (r : Rest) (base : Nat) : Except Fault (Rest × Nat) := do
  let (r, _) ← r.skip isSpace
  (r.unsign minus).number base

variable {r : Rest} {room : Nat}

theorem accept_unsign (minus : Bool) (r : Rest) :
    (if minus && (r.accept (chr '-')).2 then (r.accept (chr '-')).1 else (r.accept (chr '+')).1) = r.unsign minus := by
  have other : chr '-' ≠ chr '+' := by decide
  cases head : r.text.head? with
  | none => cases minus <;> simp [accept, unsign, head]
  | some c =>
    by_cases plus : c = chr '+'
    · cases minus <;> simp [accept, unsign, head, isSign, plus, other.symm]
    · by_cases dash : c = chr '-'
      · cases minus <;> simp [accept, unsign, head, isSign, dash, other]
      · cases minus <;> simp [accept, unsign, head, isSign, plus, dash]

theorem unsigned_numeric : r.unsigned base = r.numeric false base := by
  simp only [unsigned, numeric, ← accept_unsign]
  rfl

/-- The value of a number behind its sign. -/
def signedOf (negative : Bool) (n : Nat) : Int := UmkaOs.signed 64 (if negative then wrap64 (2 ^ 64 - n) else n)

theorem signed_numeric : ∃ negative,
    r.signed base = r.numeric true base >>= fun x => .ok (x.1, signedOf negative x.2) := by
  simp only [signed, numeric, ← accept_unsign]
  cases r.skip isSpace with
  | error e => exact ⟨false, rfl⟩
  | ok x =>
    refine ⟨(x.1.accept (chr '-')).2, ?_⟩
    simp only [bind, Except.bind, Bool.true_and]
    cases (x.1.accept (chr '-')).2 <;> rfl

/-- With room for blanks and sign the number behind them is parsed. -/
theorem numeric_eq (minus : Bool) (room : Nat) (text : List UInt8) (base : Nat) :
    (⟨text, room⟩ : Rest).numeric minus base =
      if leadLength minus text ≤ room then
        (⟨behindSign minus text, room - leadLength minus text⟩ : Rest).number base
      else if (text.takeWhile isSpace).length ≤ room then (⟨behindBlanks text, 0⟩ : Rest).number base
      else .error .diverges := by
  have split : text.takeWhile isSpace ++ behindBlanks text = text := List.takeWhile_append_dropWhile
  by_cases blanks : (text.takeWhile isSpace).length ≤ room
  · have stops : ∀ c ∈ (behindBlanks text).head?, isSpace c = false := by
      intro c member
      have other := List.head?_dropWhile_not isSpace text
      rw [behindBlanks, Option.mem_def] at member
      rw [member] at other
      exact other
    have skipped := @skip_run room (text.takeWhile isSpace) (behindBlanks text) isSpace
      (fun c member => List.mem_takeWhile_imp member) stops blanks
    rw [split] at skipped
    simp only [numeric, skipped, bind, Except.bind, unsign, leadLength, behindSign, signLength, if_pos blanks]
    cases sign : (behindBlanks text).head?.any (isSign minus) with
    | false =>
      simp only [Bool.false_eq_true, if_false, Nat.add_zero, if_pos blanks, List.drop_zero]
    | true =>
      have nonempty : 1 ≤ (behindBlanks text).length := by
        cases shape : behindBlanks text with
        | nil =>
          rw [shape] at sign
          cases sign
        | cons c rest => simp
      simp only [if_true]
      by_cases reach : (text.takeWhile isSpace).length + 1 ≤ room
      · rw [if_pos reach, read_eq nonempty (by omega), Nat.sub_sub]
      · have none : room - (text.takeWhile isSpace).length = 0 := by omega
        rw [if_neg reach, none, read_stuck]
  · have lead : ¬ leadLength minus text ≤ room := fun low => blanks (Nat.le_trans (Nat.le_add_right _ _) low)
    rw [numeric, skip, if_neg blanks, if_neg lead, if_neg blanks]
    rfl

theorem number_ok {x : Rest × Nat} (u : List UInt8) (room base : Nat) : (⟨u, room⟩ : Rest).number base = .ok x →
    Readable u base ∧ x.1.text.length + min (numberEnd u base) room = u.length := by
  intro run
  have inside := @numberEnd_le u base
  rw [number] at run
  split at run
  · rename_i readable
    cases run
    refine ⟨readable, ?_⟩
    simp only [read, List.length_drop, List.length_take]
    omega
  · cases run

theorem number_readable {u : List UInt8} (readable : Readable u base) :
    ∃ x, (⟨u, room⟩ : Rest).number base = .ok x ∧ x.1.text.length + min (numberEnd u base) room = u.length := by
  have run : (⟨u, room⟩ : Rest).number base = _ := if_pos readable
  exact ⟨_, run, (number_ok _ _ _ run).2⟩

theorem length_parts (minus : Bool) (text : List UInt8) :
    leadLength minus text + (behindSign minus text).length = text.length ∧
      (text.takeWhile isSpace).length + (behindBlanks text).length = text.length := by
  obtain ⟨sign, whole, length, _⟩ := text_parts minus text
  have split := congrArg List.length (List.takeWhile_append_dropWhile (p := isSpace) (l := text))
  have parts := congrArg List.length whole
  rw [List.length_append] at split
  rw [List.length_append, List.length_append] at parts
  rw [leadLength, behindBlanks]
  rw [behindBlanks] at length
  omega

/-- Where a number is, it is taken as the grammar says, apart from the look-ahead, the room and the marks. -/
theorem numeric_number {total : Nat} (some : bodyEnd (behindSign minus text) base ≠ 0)
    (ends : total = leadLength minus text + bodyEnd (behindSign minus text) base) :
    (∃ x, (⟨text, room⟩ : Rest).numeric minus base = .ok x ∧ x.1.text.length + total = text.length) ↔
      total ≤ room ∧ Readable (behindSign minus text) base ∧ ¬ (base = 16 ∧ Marked (behindSign minus text)) ∧
        (base = 0 → BareMark (behindSign minus text) → total = room) := by
  obtain ⟨behind, blanks⟩ := length_parts minus text
  have inside := @bodyEnd_le base (behindSign minus text)
  have lead : leadLength minus text = (text.takeWhile isSpace).length + signLength minus (behindBlanks text) := rfl
  have reach : min (numberEnd (behindSign minus text) base) (room - leadLength minus text) =
      bodyEnd (behindSign minus text) base ↔ bodyEnd (behindSign minus text) base ≤ room - leadLength minus text ∧
        ¬ (base = 16 ∧ Marked (behindSign minus text)) ∧ (base = 0 → BareMark (behindSign minus text) →
          bodyEnd (behindSign minus text) base = room - leadLength minus text) := by
    by_cases marked : base = 16 ∧ Marked (behindSign minus text)
    · obtain ⟨rfl, marks⟩ := marked
      have early := numberEnd_marked marks
      exact ⟨fun taken => by omega, fun all => absurd ⟨rfl, marks⟩ all.2.1⟩
    · by_cases bare : base = 0 ∧ BareMark (behindSign minus text)
      · obtain ⟨rfl, bare⟩ := bare
        have late := numberEnd_bare bare
        constructor
        · exact fun taken => ⟨by omega, marked, fun _ _ => by omega⟩
        · rintro ⟨_, _, all⟩
          have last := all rfl bare
          omega
      · have same := numberEnd_eq marked bare
        constructor
        · exact fun taken => ⟨by omega, marked, fun zero mark => absurd ⟨zero, mark⟩ bare⟩
        · rintro ⟨low, _⟩
          omega
  rw [numeric_eq]
  by_cases fits : leadLength minus text ≤ room
  · rw [if_pos fits]
    constructor
    · rintro ⟨x, run, position⟩
      obtain ⟨readable, left⟩ := number_ok _ _ _ run
      obtain ⟨low, marks, bare⟩ := reach.mp (by omega)
      exact ⟨by omega, readable, marks, fun zero mark => by have := bare zero mark; omega⟩
    · rintro ⟨low, readable, marks, bare⟩
      have taken := reach.mpr ⟨by omega, marks, fun zero mark => by have := bare zero mark; omega⟩
      obtain ⟨x, run, left⟩ := @number_readable base (room - leadLength minus text) _ readable
      exact ⟨x, run, by omega⟩
  · rw [if_neg fits]
    constructor
    · rintro ⟨x, run, position⟩
      split at run
      · have left := (number_ok _ _ _ run).2
        omega
      · cases run
    · rintro ⟨low, _⟩
      omega

theorem bodyEnd_head (other : digitValue (u.headD 0) = none) : bodyEnd u base = 0 := by
  by_contra some
  obtain ⟨c, rest, head, digit⟩ := (isBody_take some).head
  cases u with
  | nil => simp at head
  | cons d u =>
    cases length : bodyEnd (d :: u) base with
    | zero => exact some length
    | succ k =>
      rw [length, List.take_succ_cons] at head
      cases head
      exact digit other

theorem readable_none (none : numberEnd u base = 0) : Readable u base ↔ (u.headD 0).toNat < 128 := by
  rw [Readable, none]
  cases u <;> simp

theorem sign_head (sign : signLength minus u ≠ 0) : digitValue (u.headD 0) = none ∧ (u.headD 0).toNat < 128 := by
  cases u with
  | nil => exact absurd rfl sign
  | cons c rest =>
    cases shape : isSign minus c with
    | false => simp [signLength, shape] at sign
    | true =>
      simp only [isSign, Bool.or_eq_true, decide_eq_true_eq, Bool.and_eq_true] at shape
      rcases shape with rfl | ⟨_, rfl⟩
      · exact ⟨rfl, (by decide : (chr '+').toNat < 128)⟩
      · exact ⟨rfl, (by decide : (chr '-').toNat < 128)⟩

/-- Without a number nothing is taken only if no blank and no sign is. -/
theorem numeric_none (none : bodyEnd (behindSign minus text) base = 0) :
    (∃ x, (⟨text, room⟩ : Rest).numeric minus base = .ok x ∧ x.1.text.length = text.length) ↔
      (text.takeWhile isSpace).length = 0 ∧ (room = 0 ∨ signLength minus (behindBlanks text) = 0) ∧
        ((behindBlanks text).headD 0).toNat < 128 := by
  obtain ⟨behind, blanks⟩ := length_parts minus text
  have lead : leadLength minus text = (text.takeWhile isSpace).length + signLength minus (behindBlanks text) := rfl
  rw [numeric_eq]
  by_cases fits : leadLength minus text ≤ room
  · rw [if_pos fits]
    have ends := numberEnd_none none
    constructor
    · rintro ⟨x, run, position⟩
      obtain ⟨readable, left⟩ := number_ok _ _ _ run
      have plain : signLength minus (behindBlanks text) = 0 := by omega
      have ascii := (readable_none ends).mp readable
      rw [behindSign, plain, List.drop_zero] at ascii
      exact ⟨by omega, .inr plain, ascii⟩
    · rintro ⟨noBlank, stuck, ascii⟩
      have plain : signLength minus (behindBlanks text) = 0 := by omega
      have readable : Readable (behindSign minus text) base := by
        rw [readable_none ends, behindSign, plain]
        exact ascii
      obtain ⟨x, run, left⟩ := @number_readable base (room - leadLength minus text) _ readable
      exact ⟨x, run, by omega⟩
  · rw [if_neg fits]
    have sign : signLength minus (behindBlanks text) ≤ 1 := by
      rw [signLength]
      split <;> omega
    by_cases low : (text.takeWhile isSpace).length ≤ room
    · rw [if_pos low]
      obtain ⟨other, ascii⟩ := @sign_head minus (behindBlanks text) (by omega)
      have ends : numberEnd (behindBlanks text) base = 0 := numberEnd_none (bodyEnd_head other)
      have readable : Readable (behindBlanks text) base := (readable_none ends).mpr ascii
      obtain ⟨x, run, left⟩ := @number_readable base 0 _ readable
      constructor
      · rintro ⟨x, run, position⟩
        have left := (number_ok _ _ _ run).2
        exact ⟨by omega, by omega, ascii⟩
      · rintro ⟨noBlank, stuck, _⟩
        exact ⟨x, run, by omega⟩
    · rw [if_neg low]
      constructor
      · rintro ⟨x, run, _⟩
        cases run
      · rintro ⟨noBlank, stuck, _⟩
        omega

theorem numeric_le {x : Rest × Nat} (run : (⟨text, room⟩ : Rest).numeric minus base = .ok x) :
    x.1.text.length ≤ text.length := by
  obtain ⟨behind, blanks⟩ := length_parts minus text
  rw [numeric_eq] at run
  split at run
  · have left := (number_ok _ _ _ run).2
    omega
  · split at run
    · have left := (number_ok _ _ _ run).2
      omega
    · cases run

theorem number_zero {x : Rest × Nat} (none : numberEnd u base = 0) (run : (⟨u, room⟩ : Rest).number base = .ok x) :
    x.2 = 0 := by
  have empty : digitRun u base = [] := by
    rw [numberEnd] at none
    exact List.length_eq_zero_iff.mp (by omega)
  rw [number] at run
  split at run
  · cases run
    rw [empty]
    rfl
  · cases run

end Rest

/-- The longest number is consumed. Without one the result is 0, and `endptr` is `nptr`. -/
def Follows {α : Type} [Zero α] (minus : Bool) (base : Nat) (text : List UInt8) (run : Except Fault (α × Nat)) :
    Prop :=
  (∀ word, LongestNumber minus base text word → ∃ value, run = .ok (value, word.length)) ∧
    ((¬ ∃ word, NumberPrefix minus base text word) → run = .ok (0, 0))

/-- The texts that are parsed by the grammar. A number has to end within the
look-ahead and the limit of the stream, and must not make use of the marks that
are missed or swallowed. Without a number there must be no blank and no sign. -/
structure Regular (minus : Bool) (base : Nat) (text : List UInt8) : Prop where
  number : ∀ word, LongestNumber minus base text word → word.length ≤ 2 ^ 31 ∧
    Readable (behindSign minus text) base ∧ ¬ (base = 16 ∧ Marked (behindSign minus text)) ∧
    (base = 0 → BareMark (behindSign minus text) → word.length = 2 ^ 31)
  none : (¬ ∃ word, NumberPrefix minus base text word) → leadLength minus text = 0 ∧ (text.headD 0).toNat < 128

theorem behindBlanks_none (noBlank : (text.takeWhile isSpace).length = 0) : behindBlanks text = text := by
  have split : text.takeWhile isSpace ++ behindBlanks text = text := List.takeWhile_append_dropWhile
  rwa [List.length_eq_zero_iff.mp noBlank, List.nil_append] at split

theorem follows_iff_regular {α : Type} [Zero α] {f : Nat → α} (zero : f 0 = 0) (minus : Bool) (base : Nat)
    (text : List UInt8) :
    Follows minus base text ((⟨text, 2 ^ 31⟩ : Rest).numeric minus base >>= fun x =>
      .ok (f x.2, text.length - x.1.text.length)) ↔ Regular minus base text := by
  obtain ⟨ends, longest⟩ := @longestNumber_length minus base text
  have exists_iff := @number_iff minus base text
  generalize run : (⟨text, 2 ^ 31⟩ : Rest).numeric minus base = parsed
  have bound : ∀ x, parsed = .ok x → x.1.text.length ≤ text.length := fun x done => Rest.numeric_le (run.trans done)
  by_cases some : bodyEnd (behindSign minus text) base = 0
  · have never : ∀ word, ¬ LongestNumber minus base text word := fun word long => (ends word long).1 some
    have missing : ¬ ∃ word, NumberPrefix minus base text word := fun found => exists_iff.mp found some
    have stays := @Rest.numeric_none minus base text (2 ^ 31) some
    rw [run] at stays
    constructor
    · rintro ⟨_, fails⟩
      obtain ⟨x, found, same⟩ := bind_ok (fails missing)
      simp only [Except.ok.injEq, Prod.mk.injEq] at same
      have low := bound x found
      obtain ⟨noBlank, sign, ascii⟩ := stays.mp ⟨x, found, by omega⟩
      rw [behindBlanks_none noBlank] at sign ascii
      refine ⟨fun word long => absurd long (never word), fun _ => ⟨?_, ascii⟩⟩
      rw [leadLength, behindBlanks_none noBlank]
      omega
    · intro regular
      refine ⟨fun word long => absurd long (never word), fun _ => ?_⟩
      obtain ⟨lead, ascii⟩ := regular.none missing
      have parts : leadLength minus text = (text.takeWhile isSpace).length + signLength minus (behindBlanks text) := rfl
      have whole := @behindBlanks_none text (by omega)
      obtain ⟨x, found, length⟩ := stays.mpr ⟨by omega, .inr (by omega), by rwa [whole]⟩
      have value : x.2 = 0 := by
        rw [Rest.numeric_eq, if_pos (by omega)] at run
        exact Rest.number_zero (numberEnd_none some) (run.trans found)
      rw [found]
      simp only [bind, Except.bind, value, zero, length, Nat.sub_self]
  · obtain ⟨word, long⟩ := longest some
    have missing : ¬ ¬ ∃ word, NumberPrefix minus base text word := not_not_intro (exists_iff.mpr some)
    have taken := @Rest.numeric_number minus base text (2 ^ 31) word.length some (ends word long).2
    rw [run] at taken
    have total : ∀ other, LongestNumber minus base text other → other.length = word.length :=
      fun other also => ((ends other also).2).trans (ends word long).2.symm
    have inside : word.length ≤ text.length := long.1.1.length_le
    constructor
    · rintro ⟨consumed, _⟩
      refine ⟨fun other also => ?_, fun none => absurd none missing⟩
      rw [total other also]
      obtain ⟨value, done⟩ := consumed word long
      obtain ⟨x, found, same⟩ := bind_ok done
      simp only [Except.ok.injEq, Prod.mk.injEq] at same
      have low := bound x found
      exact taken.mp ⟨x, found, by omega⟩
    · intro regular
      refine ⟨fun other also => ?_, fun none => absurd none missing⟩
      rw [total other also]
      obtain ⟨x, found, length⟩ := taken.mpr (regular.number word long)
      refine ⟨f x.2, ?_⟩
      rw [found]
      simp only [bind, Except.bind]
      congr 2
      omega

/-- An integer conversion: its character and its receiver, and the numbers it reads. -/
structure IntegerConversion where
  char : UInt8
  recv : Recv
  minus : Bool
  base : Nat

def integerConversions : List IntegerConversion :=
  [⟨chr 'd', .int, true, 10⟩, ⟨chr 'i', .int, true, 0⟩, ⟨chr 'u', .uint, false, 10⟩, ⟨chr 'o', .uint, false, 8⟩,
    ⟨chr 'x', .uint, false, 16⟩]

/-- The text behind the white space that `fmtvscanf` skips. -/
def behindWhite (text : List UInt8) : List UInt8 := text.dropWhile isWhitespace

/-- The scan stops at the conversion, and the count does not include it. -/
def CountsFailed (s : RWStream) (conv : IntegerConversion) : Prop :=
  ∀ start num fmt recvs, ∃ s' values,
    scanLoop start (chr '%' :: conv.char :: fmt) s num (conv.recv :: recvs) = .ok (s', num, values)

/-- Where no number is, the white space ends within the room, an ASCII character
stands behind it, and it is no sign that can be read. -/
def Refused (conv : IntegerConversion) (text : List UInt8) (room : Nat) : Prop :=
  (text.takeWhile isWhitespace).length ≤ room ∧
    ((text.takeWhile isWhitespace).length = room ∨ signLength conv.minus (behindWhite text) = 0) ∧
    ((behindWhite text).headD 0).toNat < 128

variable {s : RWStream} {r : Rest} {stop room start num : Nat} {conv : IntegerConversion} {recvs : List Recv}

theorem Faces.scanInteger (member : conv ∈ integerConversions) (faces : Faces stop s r) :
    Lockstep Anyhow (fun x y => Faces stop x.1 y.1 ∧ x.2.1 = num)
      (scanDirective start conv.char s num (conv.recv :: recvs)) (r.numeric conv.minus conv.base) := by
  have signed : ∀ base, Lockstep Anyhow (fun x y => Faces stop x.1 y.1 ∧ x.2.1 = num)
      (Fmt.fmtParseLL s base >>= fun x => .ok (x.1, num, [Value.int (toInt32 x.2)], recvs))
      (r.numeric true base) := by
    intro base
    obtain ⟨negative, same⟩ := @Rest.signed_numeric base r
    have step := faces.fmtParseLL base
    rw [same] at step
    exact step.before_right.then_left _ fun _ _ shows => ⟨shows.1, rfl⟩
  have unsigned : ∀ base, Lockstep Anyhow (fun x y => Faces stop x.1 y.1 ∧ x.2.1 = num)
      (Fmt.fmtParseULL s base >>= fun x => .ok (x.1, num, [Value.uint (wrap32 x.2)], recvs))
      (r.numeric false base) := by
    intro base
    have step := faces.fmtParseULL base
    rw [Rest.unsigned_numeric] at step
    exact step.then_left _ fun _ _ shows => ⟨shows.1, rfl⟩
  simp only [integerConversions, List.mem_cons, List.not_mem_nil, or_false] at member
  rcases member with rfl | rfl | rfl | rfl | rfl
  · exact signed 10
  · exact signed 0
  · exact unsigned 10
  · exact unsigned 8
  · exact unsigned 16

theorem behindWhite_blank : ((behindWhite text).takeWhile isSpace).length = 0 := by
  have other := List.head?_dropWhile_not isWhitespace text
  rw [behindWhite]
  cases shape : text.dropWhile isWhitespace with
  | nil => rfl
  | cons c rest =>
    rw [shape] at other
    simp [notSpace other]

theorem skip_white (low : (text.takeWhile isWhitespace).length ≤ room) :
    (⟨text, room⟩ : Rest).skip isWhitespace =
      .ok (⟨behindWhite text, room - (text.takeWhile isWhitespace).length⟩, text.takeWhile isWhitespace) := by
  have stops : ∀ c ∈ (behindWhite text).head?, isWhitespace c = false := by
    intro c member
    have other := List.head?_dropWhile_not isWhitespace text
    rw [behindWhite, Option.mem_def] at member
    rw [member] at other
    exact other
  have skipped := @Rest.skip_run room (text.takeWhile isWhitespace) (behindWhite text) isWhitespace
    (fun c member => List.mem_takeWhile_imp member) stops low
  rwa [behindWhite, List.takeWhile_append_dropWhile] at skipped

/-- A conversion counts as failed exactly if its number is parsed from nothing. -/
theorem Faces.countsFailed_iff (member : conv ∈ integerConversions) (faces : Faces stop s ⟨text, room⟩) :
    CountsFailed s conv ↔ (text.takeWhile isWhitespace).length ≤ room ∧
      ∃ x, (⟨behindWhite text, room - (text.takeWhile isWhitespace).length⟩ : Rest).numeric conv.minus conv.base =
        .ok x ∧ x.1.text.length = (behindWhite text).length := by
  have white := @Faces.skipWhile _ _ _ isWhitespace faces
  have char : conv.char ≠ chr 'n' := (by decide : ∀ conv ∈ integerConversions, conv.char ≠ chr 'n') conv member
  by_cases low : (text.takeWhile isWhitespace).length ≤ room
  · rw [skip_white low] at white
    obtain ⟨s1, skipped, faces1⟩ := white.ok_right rfl
    obtain ⟨point, told, ends⟩ := faces1.tell
    have loop : ∀ start num fmt recvs, scanLoop start (chr '%' :: conv.char :: fmt) s num recvs =
        scanDirective start conv.char s1 num recvs >>= fun x => x.1.tell >>= fun position =>
          if point = position ∧ conv.char ≠ chr 'n' then .ok (x.1, x.2.1, x.2.2.1)
          else scanLoop start fmt x.1 (wrap32 (x.2.1 + 1)) x.2.2.2 >>= fun y => .ok (y.1, y.2.1, x.2.2.1 ++ y.2.2) := by
      intro start num fmt recvs
      rw [scanLoop, skipWhitespaces, skipped]
      simp only [bind, Except.bind, if_true, told]
      rfl
    constructor
    · intro fails
      refine ⟨low, ?_⟩
      obtain ⟨s', values, run⟩ := fails 0 0 [] []
      rw [loop] at run
      obtain ⟨⟨s2, num, found, recvs⟩, directive, run⟩ := bind_ok run
      obtain ⟨position, told2, run⟩ := bind_ok run
      have step : Lockstep Anyhow (fun x y => Faces stop x.1 y.1 ∧ x.2.1 = 0)
          (scanDirective 0 conv.char s1 0 [conv.recv])
          ((⟨behindWhite text, room - (text.takeWhile isWhitespace).length⟩ : Rest).numeric conv.minus conv.base) :=
        faces1.scanInteger member
      rw [directive] at step
      generalize Rest.numeric conv.minus _ conv.base = parsed at step
      cases step with
      | returns _ x shows =>
        obtain ⟨behind, rfl⟩ := shows
        refine ⟨x, rfl, ?_⟩
        obtain ⟨position', told', ends'⟩ := behind.tell
        cases told2.symm.trans told'
        by_cases same : point = position
        · dsimp only at ends
          omega
        · rw [if_neg (fun both => same both.1)] at run
          simp [scanLoop, bind, Except.bind, wrap32] at run
    · rintro ⟨_, x, parsed, length⟩ start num fmt recvs
      have step : Lockstep Anyhow (fun x y => Faces stop x.1 y.1 ∧ x.2.1 = num)
          (scanDirective start conv.char s1 num (conv.recv :: recvs))
          ((⟨behindWhite text, room - (text.takeWhile isWhitespace).length⟩ : Rest).numeric conv.minus conv.base) :=
        faces1.scanInteger member
      obtain ⟨⟨s2, _, values, recvs'⟩, directive, behind, rfl⟩ := step.ok_right parsed
      obtain ⟨position, told2, ends2⟩ := behind.tell
      refine ⟨s2, values, ?_⟩
      have same : point = position := by
        dsimp only at ends
        omega
      rw [loop, directive]
      simp only [bind, Except.bind, told2]
      rw [if_pos ⟨same, char⟩]
  · have never : (⟨text, room⟩ : Rest).skip isWhitespace = .error .diverges := if_neg low
    rw [never] at white
    constructor
    · intro fails
      obtain ⟨s', values, run⟩ := fails 0 0 [] []
      rw [scanLoop, skipWhitespaces, white.error_right rfl] at run
      cases run
    · exact fun both => absurd both.1 low

theorem Faces.refused_iff (member : conv ∈ integerConversions) (faces : Faces stop s ⟨text, room⟩)
    (none : ¬ ∃ word, NumberPrefix conv.minus conv.base (behindWhite text) word) :
    CountsFailed s conv ↔ Refused conv text room := by
  rw [number_iff, not_not] at none
  have whole := behindBlanks_none (@behindWhite_blank text)
  rw [faces.countsFailed_iff member, Rest.numeric_none none, whole, Refused]
  have blank := @behindWhite_blank text
  constructor
  · rintro ⟨low, _, stuck, ascii⟩
    exact ⟨low, stuck.imp_left fun full => by omega, ascii⟩
  · rintro ⟨low, stuck, ascii⟩
    exact ⟨low, blank, stuck.imp_left fun full => by omega, ascii⟩

variable {nptr : Mem}

theorem strtoull_follows (spells : Spells nptr 0 text) (base : Nat) :
    Follows false base text (strtoull nptr base) ↔ Regular false base text := by
  rw [strtoull_eq spells, Rest.unsigned_numeric]
  exact follows_iff_regular (f := id) rfl false base text

theorem strtoll_numeric (spells : Spells nptr 0 text) (base : Nat) : ∃ negative, strtoll nptr base =
    (⟨text, 2 ^ 31⟩ : Rest).numeric true base >>= fun x =>
      .ok (Rest.signedOf negative x.2, text.length - x.1.text.length) := by
  obtain ⟨negative, same⟩ := @Rest.signed_numeric base ⟨text, 2 ^ 31⟩
  refine ⟨negative, ?_⟩
  rw [strtoll_eq spells, same]
  cases (⟨text, 2 ^ 31⟩ : Rest).numeric true base <;> rfl

theorem signedOf_zero (negative : Bool) : Rest.signedOf negative 0 = 0 := by
  cases negative <;> rfl

theorem strtoll_follows (spells : Spells nptr 0 text) (base : Nat) :
    Follows true base text (strtoll nptr base) ↔ Regular true base text := by
  obtain ⟨negative, same⟩ := strtoll_numeric spells base
  rw [same]
  exact follows_iff_regular (signedOf_zero negative) true base text

theorem strtol_follows (spells : Spells nptr 0 text) (base : Nat) :
    Follows true base text (strtol nptr base) ↔ Regular true base text := by
  obtain ⟨negative, same⟩ := strtoll_numeric spells base
  have narrow : strtol nptr base = (⟨text, 2 ^ 31⟩ : Rest).numeric true base >>= fun x =>
      .ok (toInt32 (Rest.signedOf negative x.2), text.length - x.1.text.length) := by
    rw [strtol_eq, same]
    cases (⟨text, 2 ^ 31⟩ : Rest).numeric true base <;> rfl
  rw [narrow]
  exact follows_iff_regular (f := fun n => toInt32 (Rest.signedOf negative n)) (by rw [signedOf_zero]; rfl) true base
    text

/-- Where the three functions and the conversions follow the grammar. -/
theorem number_grammar (spells : Spells nptr 0 text) (faces : Faces stop s ⟨text, room⟩) (base : Nat) :
    (Follows false base text (strtoull nptr base) ↔ Regular false base text) ∧
    (Follows true base text (strtoll nptr base) ↔ Regular true base text) ∧
    (Follows true base text (strtol nptr base) ↔ Regular true base text) ∧
    ∀ conv ∈ integerConversions, (¬ ∃ word, NumberPrefix conv.minus conv.base (behindWhite text) word) →
      (CountsFailed s conv ↔ Refused conv text room) :=
  ⟨strtoull_follows spells base, strtoll_follows spells base, strtol_follows spells base,
    fun _ member none => faces.refused_iff member none⟩

theorem number_grammar_minus : Follows true 10 [chr ' ', chr '-', chr '4', chr '2', chr ';']
    (strtoll (stringOf [chr ' ', chr '-', chr '4', chr '2', chr ';']) 10) := by
  have spells := @spells_stringOf [chr ' ', chr '-', chr '4', chr '2', chr ';'] (by decide +kernel)
  refine (number_grammar spells (faces_mkStr spells) 10).2.1.mpr ⟨?_, fun none => ?_⟩
  · intro word long
    rw [(longestNumber_length.1 word long).2]
    exact ⟨by decide +kernel, by decide +kernel, by decide, by decide⟩
  · exact absurd (number_iff.mpr (by decide +kernel)) none

/-- A lone sign is consumed and counts as a number, and base 16 misses the `0x`. -/
theorem number_grammar_fails :
    (¬ ∃ word, NumberPrefix true 10 [chr '-'] word) ∧ strtoll (stringOf [chr '-']) 10 = .ok (0, 1) ∧
    fmtvscanf (.mkStr (stringOf [chr '-'])) [chr '%', chr 'd'] [.int] =
      .ok (skip (.mkStr (stringOf [chr '-'])) 1, 1, [.int 0]) ∧
    LongestNumber false 16 [zero, chr 'x', chr '1', chr 'F'] [zero, chr 'x', chr '1', chr 'F'] ∧
    strtoull (stringOf [zero, chr 'x', chr '1', chr 'F']) 16 = .ok (0, 1) := by
  refine ⟨?_, ?_, ?_, ?_, ?_⟩
  · rw [number_iff]
    decide +kernel
  · exact (strtoll_eq (spells_stringOf (by decide +kernel)) 10).trans rfl
  · rfl
  · obtain ⟨word, long⟩ := (@longestNumber_length false 16 [zero, chr 'x', chr '1', chr 'F']).2 (by decide +kernel)
    have length : word.length = 4 := (longestNumber_length.1 word long).2
    rwa [long.1.1.eq_of_length length] at long
  · exact (strtoull_eq (spells_stringOf (by decide +kernel)) 16).trans rfl

end UmkaOs.Fmt
