import UmkaOs.Fmt.Files
import UmkaOs.Fmt.Grammar
import UmkaOs.Lib.Reach

namespace UmkaOs.Fmt

open Lib

/-- The directives that take an argument. -/
def receives (d : UInt8) : Bool :=
  d ∈ [chr 'i', chr 'd', chr 'u', chr 'o', chr 'x', chr 'e', chr 'g', chr 'f', chr 'c', chr 'p', chr 's', chr 'n']

/-- The number of such directives in a format. -/
def receiving : CString → Nat
  | [] => 0
  | [_] => 0
  | c :: d :: fmt => if c = chr '%' then (if receives d then 1 else 0) + receiving fmt else receiving (d :: fmt)

/-- A value is stored to the argument `j`. -/
def Assigned (values : List Value) (j : Nat) : Prop := ∃ v, values[j]? = some v ∧ v ≠ .unset

/-- The objects that the arguments point to, after the stores. -/
def after (prior : Nat → Value) (values : List Value) (j : Nat) : Value :=
  match values[j]? with
  | none | some .unset => prior j
  | some v => v

/-- The arguments that are counted are the first ones, no others are assigned, and
all others keep their values. -/
structure CountsAssigned (fmt : CString) (num : Nat) (values : List Value) : Prop where
  assigned : ∀ j, Assigned values j ↔ j < num
  most : num ≤ receiving fmt
  kept : ∀ (prior : Nat → Value) (j : Nat), num ≤ j → after prior values j = prior j

/-- The arguments of `scanLoop`. -/
structure ScanState where
  fmt : CString
  s : RWStream
  num : Nat
  recvs : List Recv

/-- A turn of the loop that is followed by another one. -/
inductive ScanTurn (start : Nat) : ScanState → ScanState → Prop
  | blank {c fmt s s1 num recvs} (white : isWhitespace c = true) (skipped : skipWhitespaces s = .ok s1) :
      ScanTurn start ⟨c :: fmt, s, num, recvs⟩ ⟨fmt, s1, num, recvs⟩
  | literal {c fmt s s1 s2 num recvs} (plain : c ≠ chr '%') (dark : isWhitespace c = false)
      (skipped : skipWhitespaces s = .ok s1) (matched : acceptChar s1 c = .ok (s2, true)) :
      ScanTurn start ⟨c :: fmt, s, num, recvs⟩ ⟨fmt, s2, num, recvs⟩
  | directive {d fmt s s1 s2 num num' recvs recvs' values point position} (skipped : skipWhitespaces s = .ok s1)
      (ran : scanDirective start d s1 num recvs = .ok (s2, num', values, recvs')) (before : s1.tell = .ok point)
      (behind : s2.tell = .ok position) (moved : point ≠ position ∨ d = chr 'n') :
      ScanTurn start ⟨chr '%' :: d :: fmt, s, num, recvs⟩ ⟨fmt, s2, wrap32 (num' + 1), recvs'⟩

/-- The signs and the base of the number that a directive reads. -/
def opening (d : UInt8) : Option (Bool × Nat) :=
  if d = chr 'i' ∨ d = chr 'd' ∨ d = chr 'e' ∨ d = chr 'g' ∨ d = chr 'f' then some (true, 10)
  else if d = chr 'u' then some (false, 10)
  else if d = chr 'o' then some (false, 8)
  else if d = chr 'x' ∨ d = chr 'p' then some (false, 16)
  else none

/-- The directives that store, or count down, before they have seen a character. -/
def Eager (d : UInt8) : Prop := d = chr '%' ∨ d = chr 's' ∨ (opening d).isSome

instance {d : UInt8} : Decidable (Eager d) := inferInstanceAs (Decidable (_ ∨ _))

/-- The characters they can begin with. -/
def begins (d c : UInt8) : Bool :=
  match opening d with
  | some (minus, base) => isSign minus c || isDigitOf base c
  | none => true

/-- The loop is at an eager directive, and no character that it can begin with can be read. -/
def Starving (st : ScanState) : Prop :=
  ∃ d fmt s1 s2 bytes, st.fmt = chr '%' :: d :: fmt ∧ Eager d ∧ skipWhitespaces st.s = .ok s1 ∧
    s1.read 1 = .ok (s2, bytes) ∧ bytes.any (begins d) = false

variable {stop room base num num' start : Nat} {s s' : RWStream} {r : Rest} {text rest : List UInt8} {c d : UInt8}
  {minus : Bool} {values later : List Value} {recvs recvs' : List Recv}

theorem numberEnd_iff : numberEnd (c :: rest) base ≠ 0 ↔ isDigitOf (if base = 0 then 10 else base) c = true := by
  by_cases zeroBase : base = 0
  · subst zeroBase
    by_cases first : c = zero
    · subst first
      have some : (detectBase (zero :: rest) 0).2 ≠ 0 := by
        simp only [detectBase, List.headD_cons, if_true]
        split <;> decide
      have digit : isDigitOf 10 zero = true := by decide
      simp only [if_true, digit, iff_true, numberEnd]
      omega
    · have plain : detectBase (c :: rest) 0 = (10, 0) := by simp [detectBase, first]
      simp only [numberEnd, digitRun, plain, List.drop_zero, Nat.zero_add, if_true, List.takeWhile_cons]
      cases isDigitOf 10 c <;> simp
  · have plain : detectBase (c :: rest) base = (base, 0) := if_neg zeroBase
    simp only [numberEnd, digitRun, plain, List.drop_zero, Nat.zero_add, if_neg zeroBase, List.takeWhile_cons]
    cases isDigitOf base c <;> simp

theorem numeric_took {x : Rest × Nat} (dark : (text.takeWhile isSpace).length = 0)
    (run : (⟨text, room⟩ : Rest).numeric minus base = .ok x) :
    x.1.text.length < text.length ↔ ((⟨text, room⟩ : Rest).read 1).2.any
      (fun c => isSign minus c || isDigitOf (if base = 0 then 10 else base) c) = true := by
  have noBlank : text.takeWhile isSpace = [] := List.length_eq_zero_iff.mp dark
  have stays : (⟨text, room⟩ : Rest).skip isSpace = .ok (⟨text, room⟩, []) := by simp [Rest.skip, noBlank]
  rw [Rest.numeric, stays] at run
  simp only [bind, Except.bind] at run
  cases room with
  | zero =>
    have same : (⟨text, 0⟩ : Rest).unsign minus = ⟨text, 0⟩ := by simp [Rest.unsign]
    rw [same] at run
    have left := (Rest.number_ok _ _ _ run).2
    simp only [Rest.read_stuck, List.any_nil, Bool.false_eq_true, iff_false]
    omega
  | succ room =>
    cases text with
    | nil => simp [Rest.read]
    | cons c rest =>
      rw [Rest.read_cons, Rest.read_zero]
      cases sign : isSign minus c with
      | true =>
        have signed : (⟨c :: rest, room + 1⟩ : Rest).unsign minus = ⟨rest, room⟩ := by
          simp [Rest.unsign, sign, Rest.read_cons]
        rw [signed] at run
        have left := (Rest.number_ok _ _ _ run).2
        simp only [List.any_cons, sign, Bool.true_or, iff_true, List.length_cons]
        omega
      | false =>
        have plain : (⟨c :: rest, room + 1⟩ : Rest).unsign minus = ⟨c :: rest, room + 1⟩ := by simp [Rest.unsign, sign]
        rw [plain] at run
        have left := (Rest.number_ok _ _ _ run).2
        have some := @numberEnd_iff base rest c
        simp only [List.any_cons, sign, Bool.false_or, List.any_nil, Bool.or_false]
        rw [← some]
        omega

/-- A run that returns leaves at most `n` bytes. -/
def Within (stop n : Nat) {α : Type} (x : Except Fault (RWStream × α)) : Prop :=
  ∀ y, x = .ok y → ∃ r', Faces stop y.1 r' ∧ r'.text.length ≤ n

theorem Within.bind {α β : Type} {n m : Nat} {x : Except Fault (RWStream × α)}
    {f : RWStream × α → Except Fault (RWStream × β)}
    (first : Within stop n x) (rest : ∀ s a r', Faces stop s r' → r'.text.length ≤ n → Within stop m (f (s, a))) :
    Within stop m (x >>= f) := by
  intro y run
  obtain ⟨⟨s, a⟩, here, later⟩ := bind_ok run
  obtain ⟨r', faces, left⟩ := first _ here
  exact rest s a r' faces left y later

theorem Faces.within (faces : Faces stop s r) {n : Nat} (left : r.text.length ≤ n) {α : Type} (a : α) :
    Within stop n (.ok (s, a)) := by
  rintro y ⟨⟩
  exact ⟨r, faces, left⟩

theorem Faces.within_accept (faces : Faces stop s r) (c : UInt8) : Within stop r.text.length (Fmt.acceptChar s c) := by
  obtain ⟨s', accepted, next⟩ := faces.acceptChar c
  rw [accepted]
  refine next.within ?_ _
  rw [Rest.accept]
  split
  · simp only [Rest.read, List.length_drop]
    omega
  · exact Nat.le_refl _

theorem Faces.within_number (faces : Faces stop s r) (base : Nat) :
    Within stop r.text.length (Fmt.fmtParseNum s base) := by
  intro y run
  have step := faces.fmtParseNum base
  rw [run] at step
  obtain ⟨x, number, faces', _⟩ := step.ok_left rfl
  have left := (Rest.number_ok _ _ _ number).2
  exact ⟨x.1, faces', by omega⟩

theorem read_le (r : Rest) (k : Nat) : (r.read k).1.text.length ≤ r.text.length := by
  simp only [Rest.read, List.length_drop]
  omega

theorem Faces.within_frac (faces : Faces stop s r) (fuel frac : Nat) (div : ℚ) {n : Nat} (left : r.text.length ≤ n) :
    Within stop n (Fmt.fracLoop fuel s frac div) := by
  induction fuel generalizing s r frac div with
  | zero =>
    intro y run
    cases run
  | succ fuel ih =>
    obtain ⟨s1, moved, next⟩ := faces.read 1
    rw [Fmt.fracLoop, faces.peek]
    simp only [bind, Except.bind]
    split
    · exact faces.within left _
    · split
      · rw [moved]
        exact ih next _ _ (Nat.le_trans (read_le r 1) left)
      · exact faces.within left _

theorem Within.branch {n m : Nat} {α : Type} (c : UInt8) (b b' : Bool)
    {f : RWStream × Bool → Except Fault (RWStream × α)}
    (faces : Faces stop s r) (left : r.text.length ≤ n)
    (rest : ∀ s b r', Faces stop s r' → r'.text.length ≤ n → Within stop m (f (s, b))) :
    Within stop m (if b = true then (.ok (s, b') : Except Fault (RWStream × Bool)) >>= f
      else Fmt.acceptChar s c >>= f) := by
  cases b with
  | true => exact rest s b' r faces left
  | false =>
    exact (faces.within_accept c).bind fun s b r' faces' left' => rest s b r' faces' (Nat.le_trans left' left)

theorem Faces.within_exponent (faces : Faces stop s r) (negative : Bool) (val : ℚ) {n : Nat}
    (left : r.text.length ≤ n) : Within stop n (Fmt.exponent negative val s) := by
  refine (faces.within_accept _).bind fun s lower r1 faces left1 => ?_
  refine Within.branch _ _ _ faces (Nat.le_trans left1 left) fun s scientific r2 faces left => ?_
  cases scientific with
  | false => exact faces.within left _
  | true =>
    refine (faces.within_accept _).bind fun s down r3 faces left3 => ?_
    refine Within.branch _ _ _ faces (Nat.le_trans left3 left) fun s plus r4 faces left4 => ?_
    refine (faces.within_number 10).bind fun s e r5 faces left5 => ?_
    exact faces.within (Nat.le_trans left5 left4) _

/-- `fmtParseD` behind the sign. -/
def magnitude (negative : Bool) (s : RWStream) : Except Fault (RWStream × ℚ) := do
  let point ← s.tell
  let (s, whole) ← fmtParseNum s 10
  let position ← s.tell
  if position = point then return (s, 0)
  let (s, dotted) ← acceptChar s (chr '.')
  if dotted then
    let (s, frac, div) ← fracLoop turns s 0 1
    exponent negative ((whole : ℚ) + frac / div) s
  else exponent negative whole s

theorem fmtParseD_eq : fmtParseD s = (do
    let s ← skipSpaces s
    let (s, negative) ← acceptChar s (chr '-')
    if negative then magnitude negative s
    else
      let (s, _) ← acceptChar s (chr '+')
      magnitude negative s) := rfl

/-- The digits decide whether anything is taken. -/
theorem Faces.magnitude {negative : Bool} {y : RWStream × ℚ} (faces : Faces stop s r)
    (run : Fmt.magnitude negative s = .ok y) :
    ∃ x r', r.number 10 = .ok x ∧ Faces stop y.1 r' ∧ r'.text.length ≤ x.1.text.length ∧
      (x.1.text.length = r.text.length → r'.text.length = r.text.length) := by
  rw [Fmt.magnitude] at run
  obtain ⟨point, told, run⟩ := bind_ok run
  obtain ⟨⟨s1, whole⟩, digits, run⟩ := bind_ok run
  obtain ⟨position, told1, run⟩ := bind_ok run
  obtain ⟨x, number, faces1, _⟩ := (faces.fmtParseNum 10).ok_left digits
  refine ⟨x, ?_⟩
  obtain ⟨_, before, ends⟩ := faces.tell
  obtain ⟨_, behind, ends1⟩ := faces1.tell
  cases told.symm.trans before
  cases told1.symm.trans behind
  split at run
  · cases run
    exact ⟨x.1, number, faces1, Nat.le_refl _, id⟩
  · rename_i moved
    have rest : Within stop x.1.text.length (do
        let (s, dotted) ← Fmt.acceptChar s1 (chr '.')
        if dotted then
          let (s, frac, div) ← Fmt.fracLoop turns s 0 1
          Fmt.exponent negative ((whole : ℚ) + frac / div) s
        else Fmt.exponent negative whole s) := by
      refine (faces1.within_accept _).bind fun s dotted r2 faces2 left2 => ?_
      cases dotted with
      | false => exact faces2.within_exponent _ _ left2
      | true =>
        exact (faces2.within_frac _ _ _ left2).bind fun s parts r3 faces3 left3 => faces3.within_exponent _ _ left3
    obtain ⟨r', faces', left⟩ := rest y run
    exact ⟨r', number, faces', left, fun same => absurd (by omega) moved⟩

theorem skip_ok {wanted : UInt8 → Bool} {x : Rest × List UInt8} (run : r.skip wanted = .ok x) :
    x.1.text = r.text.dropWhile wanted := by
  simp only [Rest.skip] at run
  split at run
  · rename_i near
    cases run
    have whole : (r.text.take (min (r.text.takeWhile wanted).length r.room)).length =
        (r.text.takeWhile wanted).length := by
      have inside := (List.takeWhile_sublist wanted (l := r.text)).length_le
      rw [List.length_take]
      omega
    simp only [Rest.read, whole]
    nth_rewrite 2 [← @List.takeWhile_append_dropWhile _ wanted r.text]
    rw [List.drop_left]
  · cases run

/-- A run that is skipped stops in front of something else. -/
theorem skip_dark {wanted : UInt8 → Bool} {x : Rest × List UInt8} (run : r.skip wanted = .ok x) :
    ∀ c ∈ x.1.text.head?, wanted c = false := by
  intro c member
  have other := List.head?_dropWhile_not wanted r.text
  rw [skip_ok run] at member
  rw [member] at other
  exact other

theorem unsign_le (minus : Bool) (r : Rest) : (r.unsign minus).text.length ≤ r.text.length := by
  rw [Rest.unsign]
  split
  · exact read_le r 1
  · exact Nat.le_refl _

/-- A sign decides which way the parser goes on behind it. -/
theorem Faces.unsign {α : Type} (faces : Faces stop s r) : ∃ s', Faces stop s' (r.unsign true) ∧
    ∀ f : Bool → RWStream → Except Fault α,
      (Fmt.acceptChar s (chr '-') >>= fun x =>
        if x.2 then f x.2 x.1 else Fmt.acceptChar x.1 (chr '+') >>= fun y => f x.2 y.1) =
      f (r.accept (chr '-')).2 s' := by
  obtain ⟨s1, minus, faces1⟩ := faces.acceptChar (chr '-')
  have sign := Rest.accept_unsign true r
  cases negative : (r.accept (chr '-')).2 with
  | true =>
    rw [negative] at minus sign
    rw [← sign]
    refine ⟨s1, faces1, fun f => ?_⟩
    simp only [minus, bind, Except.bind, if_true]
  | false =>
    rw [negative] at minus sign
    rw [Rest.accept_false negative] at faces1
    obtain ⟨s2, plus, faces2⟩ := faces1.acceptChar (chr '+')
    rw [← sign]
    refine ⟨s2, faces2, fun f => ?_⟩
    simp only [minus, plus, bind, Except.bind, Bool.false_eq_true, if_false]

/-- What `fmtParseD` takes begins with what `fmtParseLL` takes. -/
theorem Faces.fmtParseD {y : RWStream × ℚ} (faces : Faces stop s r) (run : Fmt.fmtParseD s = .ok y) :
    ∃ x r', r.numeric true 10 = .ok x ∧ Faces stop y.1 r' ∧ r'.text.length ≤ x.1.text.length ∧
      (x.1.text.length = r.text.length → r'.text.length = r.text.length) := by
  rw [fmtParseD_eq] at run
  obtain ⟨s1, skipped, run⟩ := bind_ok run
  have blanks := @Faces.skipWhile _ _ _ isSpace faces
  obtain ⟨⟨r1, _⟩, blank, faces1⟩ := blanks.ok_left skipped
  have shorter : (r1.unsign true).text.length ≤ r.text.length := by
    refine Nat.le_trans (unsign_le true r1) ?_
    rw [skip_ok blank]
    exact (List.dropWhile_suffix _).length_le
  obtain ⟨s3, faces3, goes⟩ := @Faces.unsign _ _ r1 (RWStream × ℚ) faces1
  have sign := goes Fmt.magnitude
  obtain ⟨x, r', number, faces', left, same⟩ := faces3.magnitude (sign.symm.trans run)
  refine ⟨x, r', ?_, faces', left, fun all => ?_⟩
  · simp only [Rest.numeric, blank, bind, Except.bind]
    exact number
  · have digits := (Rest.number_ok (r1.unsign true).text (r1.unsign true).room 10 number).2
    rw [same (by omega)]
    omega

theorem read_took (r : Rest) : (r.read 1).1.text.length < r.text.length ↔ (r.read 1).2 ≠ [] := by
  rw [← List.length_pos_iff]
  simp only [Rest.read, List.length_drop, List.length_take]
  omega

theorem word_took {x : Rest × CString} (dark : ∀ c ∈ r.text.head?, isWhitespace c = false)
    (run : r.skip (!isWhitespace ·) = .ok x) :
    x.1.text.length < r.text.length ↔ (r.read 1).2 ≠ [] := by
  have left := skip_ok run
  have near : (r.text.takeWhile (!isWhitespace ·)).length ≤ r.room := by
    simp only [Rest.skip] at run
    split at run
    · assumption
    · cases run
  have whole := congrArg List.length (@List.takeWhile_append_dropWhile _ (!isWhitespace ·) r.text)
  rw [List.length_append, ← left] at whole
  have first : (r.text.takeWhile (!isWhitespace ·)).length = 0 ↔ r.text.length = 0 := by
    cases shape : r.text with
    | nil => simp
    | cons c rest =>
      have head := dark c (by rw [shape]; rfl)
      simp [head]
  rw [← read_took]
  simp only [Rest.read, List.length_drop, List.length_take]
  omega

/-- The run took nothing behind `r`, unless the next byte is a wanted one. -/
def Took (stop : Nat) (r : Rest) (s' : RWStream) (wanted : UInt8 → Bool) : Prop :=
  ∃ r', Faces stop s' r' ∧ r'.text.length ≤ r.text.length ∧
    (r'.text.length < r.text.length ↔ (r.read 1).2.any wanted = true)

/-- The characters that a number can begin with. -/
def beginsNumber (minus : Bool) (base : Nat) (c : UInt8) : Bool :=
  isSign minus c || isDigitOf (if base = 0 then 10 else base) c

theorem took_numeric {x : Rest × Nat} {r' : Rest} (dark : (r.text.takeWhile isSpace).length = 0)
    (run : r.numeric minus base = .ok x) (faces : Faces stop s' r') (left : r'.text.length ≤ x.1.text.length)
    (same : x.1.text.length = r.text.length → r'.text.length = r.text.length) :
    Took stop r s' (beginsNumber minus base) := by
  have shorter := Rest.numeric_le run
  have took := numeric_took dark run
  refine ⟨r', faces, Nat.le_trans left shorter, ?_⟩
  rw [show (r.read 1).2.any (beginsNumber minus base) = true ↔ x.1.text.length < r.text.length from took.symm]
  omega

theorem Faces.took_signed {n : Int} (faces : Faces stop s r) (dark : (r.text.takeWhile isSpace).length = 0)
    (run : Fmt.fmtParseLL s base = .ok (s', n)) : Took stop r s' (beginsNumber true base) := by
  obtain ⟨negative, signed⟩ := @Rest.signed_numeric base r
  have step := faces.fmtParseLL base
  rw [signed] at step
  obtain ⟨x, number, faces', _⟩ := step.before_right.ok_left run
  exact took_numeric dark number faces' (Nat.le_refl _) id

theorem Faces.took_unsigned {n : Nat} (faces : Faces stop s r) (dark : (r.text.takeWhile isSpace).length = 0)
    (run : Fmt.fmtParseULL s base = .ok (s', n)) : Took stop r s' (beginsNumber false base) := by
  have step := faces.fmtParseULL base
  rw [Rest.unsigned_numeric] at step
  obtain ⟨x, number, faces', _⟩ := step.ok_left run
  exact took_numeric dark number faces' (Nat.le_refl _) id

theorem Faces.took_real {v : ℚ} (faces : Faces stop s r) (dark : (r.text.takeWhile isSpace).length = 0)
    (run : Fmt.fmtParseD s = .ok (s', v)) : Took stop r s' (beginsNumber true 10) := by
  obtain ⟨x, r', number, faces', left, same⟩ := faces.fmtParseD run
  exact took_numeric dark number faces' left same

theorem Faces.took_read {bytes : List UInt8} (faces : Faces stop s r) (run : s.read 1 = .ok (s', bytes)) :
    bytes = (r.read 1).2 ∧ ∃ r', Faces stop s' r' ∧ r'.text.length ≤ r.text.length ∧
      (r'.text.length < r.text.length ↔ bytes ≠ []) := by
  obtain ⟨_, moved, next⟩ := faces.read 1
  cases run.symm.trans moved
  exact ⟨rfl, _, next, read_le r 1, read_took r⟩

theorem any_iff {bytes : List UInt8} {wanted : UInt8 → Bool} (all : ∀ c, wanted c = true) :
    bytes.any wanted = true ↔ bytes ≠ [] := by
  cases bytes <;> simp [all]

theorem Faces.took_word {word : CString} (faces : Faces stop s r) (dark : ∀ c ∈ r.text.head?, isWhitespace c = false)
    (run : Fmt.readWord turns s = .ok (s', word)) : Took stop r s' (begins (chr 's')) := by
  obtain ⟨x, skipped, faces', _⟩ := faces.readWord.ok_left run
  refine ⟨x.1, faces', ?_, ?_⟩
  · rw [skip_ok skipped]
    exact (List.dropWhile_suffix _).length_le
  · rw [any_iff (show ∀ c, begins (chr 's') c = true from fun _ => rfl)]
    exact word_took dark skipped

/-- What a directive does with the count and the values, `less` being whether it moves on. -/
inductive Effect (d : UInt8) (less fits : Prop) (num : Nat) : Nat → List Value → Prop
  | percent (same : d = chr '%') (took : less ↔ fits) : Effect d less fits num (wrap32 (num + (2 ^ 32 - 1))) []
  | eager {v} (early : Eager d) (member : receives d = true) (set : v ≠ .unset) (took : less ↔ fits) :
      Effect d less fits num num [v]
  | char {v} (same : d = chr 'c') (took : less ↔ v ≠ .unset) : Effect d less fits num num [v]
  | count {v} (same : d = chr 'n') (set : v ≠ .unset) : Effect d less fits num num [v]
  | other (late : ¬ Eager d) (still : d ≠ chr 'n') (stays : ¬ less) : Effect d less fits num num []

theorem Took.effect {v : Value} (took : Took stop r s' (begins d)) (early : Eager d) (member : receives d = true)
    (set : v ≠ .unset) : ∃ r', Faces stop s' r' ∧ r'.text.length ≤ r.text.length ∧
      Effect d (r'.text.length < r.text.length) ((r.read 1).2.any (begins d) = true) num num [v] := by
  obtain ⟨r', faces, left, less⟩ := took
  exact ⟨r', faces, left, .eager early member set less⟩

theorem Faces.directive (faces : Faces stop s r) (dark : ∀ c ∈ r.text.head?, isWhitespace c = false)
    (run : scanDirective start d s num recvs = .ok (s', num', values, recvs')) :
    ∃ r', Faces stop s' r' ∧ r'.text.length ≤ r.text.length ∧
      Effect d (r'.text.length < r.text.length) ((r.read 1).2.any (begins d) = true) num num' values := by
  have blank : (r.text.takeWhile isSpace).length = 0 := by
    cases shape : r.text with
    | nil => rfl
    | cons c rest => simp [notSpace (dark c (by rw [shape]; rfl))]
  rw [scanDirective] at run
  by_cases percent : d = chr '%'
  · rw [if_pos percent] at run
    subst percent
    obtain ⟨⟨s1, bytes⟩, moved, run⟩ := bind_ok run
    have results := Except.ok.inj run
    simp only [Prod.mk.injEq] at results
    obtain ⟨rfl, rfl, rfl, rfl⟩ := results
    obtain ⟨rfl, r', faces', left, less⟩ := faces.took_read moved
    refine ⟨r', faces', left, .percent rfl ?_⟩
    rw [any_iff (show ∀ c, begins (chr '%') c = true from fun _ => rfl)]
    exact less
  rw [if_neg percent] at run
  by_cases signed : d = chr 'i' ∨ d = chr 'd'
  · rw [if_pos signed] at run
    obtain ⟨_, _, run⟩ := bind_ok run
    obtain ⟨⟨s1, n⟩, number, run⟩ := bind_ok run
    cases run
    have took := faces.took_signed blank number
    rcases signed with rfl | rfl
    · exact took.effect (by decide) (by decide) (by simp)
    · exact took.effect (by decide) (by decide) (by simp)
  rw [if_neg signed] at run
  by_cases unsigned : d = chr 'u' ∨ d = chr 'o' ∨ d = chr 'x'
  · rw [if_pos unsigned] at run
    obtain ⟨_, _, run⟩ := bind_ok run
    obtain ⟨⟨s1, n⟩, number, run⟩ := bind_ok run
    cases run
    have took := faces.took_unsigned blank number
    rcases unsigned with rfl | rfl | rfl
    · exact took.effect (by decide) (by decide) (by simp)
    · exact took.effect (by decide) (by decide) (by simp)
    · exact took.effect (by decide) (by decide) (by simp)
  rw [if_neg unsigned] at run
  by_cases real : d = chr 'e' ∨ d = chr 'g' ∨ d = chr 'f'
  · rw [if_pos real] at run
    obtain ⟨_, _, run⟩ := bind_ok run
    obtain ⟨⟨s1, v⟩, number, run⟩ := bind_ok run
    cases run
    have took := faces.took_real blank number
    rcases real with rfl | rfl | rfl
    · exact took.effect (by decide) (by decide) (by simp)
    · exact took.effect (by decide) (by decide) (by simp)
    · exact took.effect (by decide) (by decide) (by simp)
  rw [if_neg real] at run
  by_cases char : d = chr 'c'
  · rw [if_pos char] at run
    subst char
    obtain ⟨_, _, run⟩ := bind_ok run
    obtain ⟨⟨s1, bytes⟩, moved, run⟩ := bind_ok run
    cases run
    obtain ⟨rfl, r', faces', left, less⟩ := faces.took_read moved
    refine ⟨r', faces', left, .char rfl (less.trans ?_)⟩
    cases (r.read 1).2 <;> simp
  rw [if_neg char] at run
  by_cases pointer : d = chr 'p'
  · rw [if_pos pointer] at run
    subst pointer
    obtain ⟨_, _, run⟩ := bind_ok run
    obtain ⟨⟨s1, n⟩, number, run⟩ := bind_ok run
    cases run
    exact (faces.took_unsigned blank number).effect (by decide) (by decide) (by simp)
  rw [if_neg pointer] at run
  by_cases string : d = chr 's'
  · rw [if_pos string] at run
    subst string
    obtain ⟨_, _, run⟩ := bind_ok run
    obtain ⟨⟨s1, word⟩, read, run⟩ := bind_ok run
    cases run
    exact (faces.took_word dark read).effect (by decide) (by decide) (by simp)
  rw [if_neg string] at run
  by_cases count : d = chr 'n'
  · rw [if_pos count] at run
    obtain ⟨_, _, run⟩ := bind_ok run
    obtain ⟨position, _, run⟩ := bind_ok run
    cases run
    exact ⟨r, faces, Nat.le_refl _, .count count (by simp)⟩
  · rw [if_neg count] at run
    cases run
    refine ⟨r, faces, Nat.le_refl _, .other ?_ count (Nat.lt_irrefl _)⟩
    simp only [not_or] at signed unsigned real
    simp [Eager, opening, percent, signed, unsigned, real, pointer, string]

variable {fmt : CString} {s1 s2 : RWStream} {point position k n : Nat} {st : ScanState} {v : Value}

theorem turn_nil : ¬ ScanTurn start ⟨[], s, num, recvs⟩ st := by
  rintro ⟨⟩

theorem turn_cut : ¬ ScanTurn start ⟨[chr '%'], s, num, recvs⟩ st := by
  intro turn
  cases turn with
  | blank white => exact absurd white (by decide)
  | literal plain => exact plain rfl

theorem turn_blank (white : isWhitespace c = true) (skipped : skipWhitespaces s = .ok s1) :
    ScanTurn start ⟨c :: fmt, s, num, recvs⟩ st ↔ st = ⟨fmt, s1, num, recvs⟩ := by
  constructor
  · intro turn
    cases turn with
    | blank _ skipped' =>
      cases skipped.symm.trans skipped'
      rfl
    | literal _ dark =>
      rw [white] at dark
      cases dark
    | directive => exact absurd white (by decide)
  · rintro rfl
    exact .blank white skipped

theorem turn_literal (plain : c ≠ chr '%') (dark : isWhitespace c = false) (skipped : skipWhitespaces s = .ok s1)
    {matched : Bool} (accepted : acceptChar s1 c = .ok (s2, matched)) :
    ScanTurn start ⟨c :: fmt, s, num, recvs⟩ st ↔ matched = true ∧ st = ⟨fmt, s2, num, recvs⟩ := by
  constructor
  · intro turn
    cases turn with
    | blank white =>
      rw [dark] at white
      cases white
    | literal _ _ skipped' accepted' =>
      cases skipped.symm.trans skipped'
      cases accepted.symm.trans accepted'
      exact ⟨rfl, rfl⟩
    | directive => exact absurd rfl plain
  · rintro ⟨rfl, rfl⟩
    exact .literal plain dark skipped accepted

theorem turn_directive (skipped : skipWhitespaces s = .ok s1)
    (ran : scanDirective start d s1 num recvs = .ok (s2, num', values, recvs')) (before : s1.tell = .ok point)
    (behind : s2.tell = .ok position) : ScanTurn start ⟨chr '%' :: d :: fmt, s, num, recvs⟩ st ↔
      (point ≠ position ∨ d = chr 'n') ∧ st = ⟨fmt, s2, wrap32 (num' + 1), recvs'⟩ := by
  constructor
  · intro turn
    cases turn with
    | blank white => exact absurd white (by decide)
    | literal plain => exact absurd rfl plain
    | directive skipped' ran' before' behind' moved =>
      cases skipped.symm.trans skipped'
      cases ran.symm.trans ran'
      cases before.symm.trans before'
      cases behind.symm.trans behind'
      exact ⟨moved, rfl⟩
  · rintro ⟨moved, rfl⟩
    exact .directive skipped ran before behind moved

theorem starving_directive {s0 : RWStream} (faces : Faces stop s1 r) (skipped : skipWhitespaces s0 = .ok s1) :
    Starving ⟨chr '%' :: d :: fmt, s0, num, recvs⟩ ↔ Eager d ∧ ¬ (r.read 1).2.any (begins d) = true := by
  obtain ⟨s2, moved, _⟩ := faces.read 1
  rw [Bool.not_eq_true]
  constructor
  · rintro ⟨d', fmt', s1', s2', bytes, shape, early, skipped', read, none⟩
    cases shape
    cases skipped.symm.trans skipped'
    cases moved.symm.trans read
    exact ⟨early, none⟩
  · rintro ⟨early, none⟩
    exact ⟨d, fmt, s1, s2, _, rfl, early, skipped, moved, none⟩

theorem not_starving (plain : c ≠ chr '%') : ¬ Starving ⟨c :: fmt, s, num, recvs⟩ := by
  rintro ⟨d, fmt', s1, s2, bytes, shape, -⟩
  cases shape
  exact plain rfl

/-- The count has grown by the number of assigned arguments. -/
def Counted (most num num' : Nat) (values : List Value) : Prop :=
  ∃ k ≤ most, num' = num + k ∧ ∀ j, Assigned values j ↔ j < k

/-- One argument more is assigned than counted, or one less is counted than assigned. -/
def Miscounted (num num' : Nat) (values : List Value) : Prop :=
  ∃ k, num + k < 2 ^ 32 ∧ (num' = num + k ∧ Assigned values k ∨
    num' = wrap32 (num + k + (2 ^ 32 - 1)) ∧ ∀ j, Assigned values j ↔ j < k)

theorem assigned_none (j : Nat) : Assigned [] j ↔ j < 0 := by simp [Assigned]

theorem assigned_unset (j : Nat) : Assigned [.unset] j ↔ j < 0 := by
  cases j <;> simp [Assigned]

theorem assigned_cons (set : v ≠ .unset) (assigned : ∀ j, Assigned later j ↔ j < k) (j : Nat) :
    Assigned (v :: later) j ↔ j < k + 1 := by
  cases j with
  | zero => simp [Assigned, set]
  | succ j =>
    have same : Assigned (v :: later) (j + 1) ↔ Assigned later j := by simp [Assigned]
    rw [same, assigned, Nat.succ_lt_succ_iff]

theorem counted_none (most num : Nat) : Counted most num num [] := ⟨0, Nat.zero_le _, rfl, assigned_none⟩

theorem Counted.cons (set : v ≠ .unset) (counted : Counted n (num + 1) num' later) :
    Counted (1 + n) num num' (v :: later) := by
  obtain ⟨k, low, rfl, assigned⟩ := counted
  exact ⟨k + 1, by omega, by omega, assigned_cons set assigned⟩

theorem Miscounted.cons (set : v ≠ .unset) (counted : Miscounted (num + 1) num' later) :
    Miscounted num num' (v :: later) := by
  obtain ⟨k, small, ⟨rfl, more⟩ | ⟨less, assigned⟩⟩ := counted
  · refine ⟨k + 1, by omega, .inl ⟨by omega, ?_⟩⟩
    simpa [Assigned] using more
  · have sum : num + (k + 1) = num + 1 + k := by omega
    refine ⟨k + 1, by omega, .inr ⟨?_, assigned_cons set assigned⟩⟩
    rw [sum]
    exact less

theorem receiving_plain (plain : c ≠ chr '%') : receiving (c :: fmt) = receiving fmt := by
  cases fmt with
  | nil => rfl
  | cons d fmt => rw [receiving, if_neg plain]

theorem receiving_directive : receiving (chr '%' :: d :: fmt) = (if receives d then 1 else 0) + receiving fmt := by
  rw [receiving, if_pos rfl]

/-- The count is right, unless the loop comes to a starving directive. -/
def Tally (most num num' : Nat) (values : List Value) (starved : Prop) : Prop :=
  ¬ starved ∧ Counted most num num' values ∨ starved ∧ Miscounted num num' values

theorem Tally.cons {most : Nat} {starved : Prop} (set : v ≠ .unset) (tally : Tally most (num + 1) num' later starved) :
    Tally (1 + most) num num' (v :: later) starved := by
  rcases tally with ⟨fed, counted⟩ | ⟨hungry, miscounted⟩
  · exact .inl ⟨fed, counted.cons set⟩
  · exact .inr ⟨hungry, miscounted.cons set⟩

/-- A directive that takes nothing ends the loop, a `%n` apart. -/
theorem directive_halts {num1 : Nat} {front : List Value} (skipped : skipWhitespaces s = .ok s1)
    (ran : scanDirective start d s1 num recvs = .ok (s2, num1, front, recvs')) (before : s1.tell = .ok point)
    (behind : s2.tell = .ok position) (same : point = position) (other : d ≠ chr 'n')
    (run : (if point = position ∧ d ≠ chr 'n' then .ok (s2, num1, front) else do
      let (s, num, later) ← scanLoop start fmt s2 (wrap32 (num1 + 1)) recvs'
      return (s, num, front ++ later)) = (.ok (s', num', values) : Except Fault _)) :
    num1 = num' ∧ front = values ∧ (Comes (ScanTurn start) Starving ⟨chr '%' :: d :: fmt, s, num, recvs⟩ ↔
      Starving ⟨chr '%' :: d :: fmt, s, num, recvs⟩) := by
  rw [if_pos ⟨same, other⟩] at run
  cases run
  refine ⟨rfl, rfl, comes_stuck fun st step => ?_⟩
  rcases ((turn_directive skipped ran before behind).mp step).1 with moved | count
  · exact moved same
  · exact other count

theorem directive_goes {num1 : Nat} {front : List Value} (skipped : skipWhitespaces s = .ok s1)
    (ran : scanDirective start d s1 num recvs = .ok (s2, num1, front, recvs')) (before : s1.tell = .ok point)
    (behind : s2.tell = .ok position) (on : point ≠ position ∨ d = chr 'n')
    (run : (if point = position ∧ d ≠ chr 'n' then .ok (s2, num1, front) else do
      let (s, num, later) ← scanLoop start fmt s2 (wrap32 (num1 + 1)) recvs'
      return (s, num, front ++ later)) = (.ok (s', num', values) : Except Fault _)) :
    ∃ later, scanLoop start fmt s2 (wrap32 (num1 + 1)) recvs' = .ok (s', num', later) ∧ values = front ++ later ∧
      (Comes (ScanTurn start) Starving ⟨chr '%' :: d :: fmt, s, num, recvs⟩ ↔
        Starving ⟨chr '%' :: d :: fmt, s, num, recvs⟩ ∨
          Comes (ScanTurn start) Starving ⟨fmt, s2, wrap32 (num1 + 1), recvs'⟩) := by
  have go : ¬ (point = position ∧ d ≠ chr 'n') := fun both => on.elim (fun moved => moved both.1) both.2
  rw [if_neg go] at run
  obtain ⟨⟨s3, num3, later⟩, loop, same⟩ := bind_ok run
  cases same
  exact ⟨later, loop, rfl, comes_next fun st => (turn_directive skipped ran before behind).trans (and_iff_right on)⟩

theorem tally_directive {num1 : Nat} {front : List Value} (faces : Faces stop s1 r)
    (dark : ∀ c ∈ r.text.head?, isWhitespace c = false) (skipped : skipWhitespaces s = .ok s1)
    (ran : scanDirective start d s1 num recvs = .ok (s2, num1, front, recvs')) (before : s1.tell = .ok point)
    (behind : s2.tell = .ok position) (small : num + 1 + fmt.length < 2 ^ 32)
    (run : (if point = position ∧ d ≠ chr 'n' then .ok (s2, num1, front) else do
      let (s, num, later) ← scanLoop start fmt s2 (wrap32 (num1 + 1)) recvs'
      return (s, num, front ++ later)) = (.ok (s', num', values) : Except Fault _))
    (rest : ∀ r2 num later, Faces stop s2 r2 → num + fmt.length < 2 ^ 32 →
      scanLoop start fmt s2 num recvs' = .ok (s', num', later) →
        Tally (receiving fmt) num num' later (Comes (ScanTurn start) Starving ⟨fmt, s2, num, recvs'⟩)) :
    Tally (receiving (chr '%' :: d :: fmt)) num num' values
      (Comes (ScanTurn start) Starving ⟨chr '%' :: d :: fmt, s, num, recvs⟩) := by
  obtain ⟨r2, faces2, left, effect⟩ := faces.directive dark ran
  obtain ⟨_, told, ends⟩ := faces.tell
  obtain ⟨_, told2, ends2⟩ := faces2.tell
  cases before.symm.trans told
  cases behind.symm.trans told2
  have moves : r2.text.length < r.text.length ↔ point ≠ position := by omega
  have starving : Starving ⟨chr '%' :: d :: fmt, s, num, recvs⟩ ↔ Eager d ∧ ¬ (r.read 1).2.any (begins d) = true :=
    starving_directive faces skipped
  have halts := fun (still : ¬ r2.text.length < r.text.length) other =>
    directive_halts skipped ran before behind (not_not.mp fun moved => still (moves.mpr moved)) other run
  have goes := fun (on : r2.text.length < r.text.length ∨ d = chr 'n') =>
    directive_goes skipped ran before behind (on.imp_left moves.mp) run
  have counts : wrap32 (num + 1) = num + 1 := wrap32_of_lt (by omega)
  rw [receiving_directive]
  cases effect with
  | percent same took =>
    subst same
    have early : Eager (chr '%') := by decide
    have none : (if receives (chr '%') then 1 else 0) + receiving fmt = receiving fmt := Nat.zero_add _
    by_cases fits : (r.read 1).2.any (begins (chr '%')) = true
    · obtain ⟨later, loop, shape, comes⟩ := goes (.inl (took.mpr fits))
      have back : wrap32 (wrap32 (num + (2 ^ 32 - 1)) + 1) = num := by
        simp only [wrap32]
        omega
      rw [back] at loop comes
      rw [comes, starving, or_iff_right (fun both => both.2 fits), none, shape]
      exact rest r2 num later faces2 (by omega) loop
    · obtain ⟨less, shape, comes⟩ := halts (fun moved => fits (took.mp moved)) (by decide)
      rw [comes, starving, ← shape]
      exact .inr ⟨⟨early, fits⟩, 0, by omega, .inr ⟨less.symm, assigned_none⟩⟩
  | eager early member set took =>
    rw [if_pos member]
    by_cases fits : (r.read 1).2.any (begins d) = true
    · obtain ⟨later, loop, shape, comes⟩ := goes (.inl (took.mpr fits))
      rw [counts] at loop comes
      rw [comes, starving, or_iff_right (fun both => both.2 fits), shape]
      exact .cons set (rest r2 _ later faces2 small loop)
    · have other : d ≠ chr 'n' := by
        rintro rfl
        exact absurd early (by decide)
      obtain ⟨same, shape, comes⟩ := halts (fun moved => fits (took.mp moved)) other
      rw [comes, starving, ← shape]
      exact .inr ⟨⟨early, fits⟩, 0, by omega, .inl ⟨same.symm, _, rfl, set⟩⟩
  | @char v same took =>
    subst same
    have late : ¬ Eager (chr 'c') := by decide
    have calm : ¬ Starving ⟨chr '%' :: chr 'c' :: fmt, s, num, recvs⟩ := fun both => late (starving.mp both).1
    by_cases set : v = .unset
    · obtain ⟨same, shape, comes⟩ := halts (fun moved => took.mp moved set) (by decide)
      rw [comes, ← shape, set]
      exact .inl ⟨calm, 0, Nat.zero_le _, same.symm, assigned_unset⟩
    · obtain ⟨later, loop, shape, comes⟩ := goes (.inl (took.mpr set))
      rw [counts] at loop comes
      rw [comes, or_iff_right calm, shape]
      exact .cons set (rest r2 _ later faces2 small loop)
  | count same set =>
    subst same
    have late : ¬ Eager (chr 'n') := by decide
    obtain ⟨later, loop, shape, comes⟩ := goes (.inr rfl)
    rw [counts] at loop comes
    rw [comes, starving, or_iff_right (fun both => late both.1), shape]
    exact .cons set (rest r2 _ later faces2 small loop)
  | other late still stays =>
    obtain ⟨same, shape, comes⟩ := halts stays still
    rw [comes, starving, ← shape, ← same]
    exact .inl ⟨fun both => late both.1, counted_none _ _⟩

theorem scanLoop_tally (size : fmt.length < n) (faces : Faces stop s r) (small : num + fmt.length < 2 ^ 32)
    (run : scanLoop start fmt s num recvs = .ok (s', num', values)) :
    Tally (receiving fmt) num num' values (Comes (ScanTurn start) Starving ⟨fmt, s, num, recvs⟩) := by
  induction n generalizing fmt s r num recvs values with
  | zero => exact absurd size (Nat.not_lt_zero _)
  | succ n ih =>
    cases fmt with
    | nil =>
      cases run
      refine .inl ⟨?_, counted_none _ _⟩
      rw [comes_stuck fun _ => turn_nil]
      rintro ⟨d, fmt, s1, s2, bytes, shape, -⟩
      cases shape
    | cons c fmt =>
      have size' : fmt.length < n := Nat.lt_of_succ_lt_succ size
      rw [List.length_cons] at small
      rw [scanLoop] at run
      obtain ⟨s1, skipped, run⟩ := bind_ok run
      have white := @Faces.skipWhile _ _ _ isWhitespace faces
      obtain ⟨⟨r1, _⟩, skip, faces1⟩ := white.ok_left skipped
      have dark := skip_dark skip
      by_cases directive : c = chr '%'
      · subst directive
        rw [if_pos rfl] at run
        cases fmt with
        | nil =>
          cases run
          refine .inl ⟨?_, counted_none _ _⟩
          rw [comes_stuck fun _ => turn_cut]
          rintro ⟨d, fmt, s1, s2, bytes, shape, -⟩
          cases shape
        | cons d fmt =>
          rw [List.length_cons] at small size'
          obtain ⟨point, before, run⟩ := bind_ok run
          obtain ⟨⟨s2, num1, front, recvs'⟩, ran, run⟩ := bind_ok run
          obtain ⟨position, behind, run⟩ := bind_ok run
          exact tally_directive faces1 dark skipped ran before behind (by omega) run
            fun r2 num later faces2 small2 loop => ih (Nat.lt_of_succ_lt size') faces2 small2 loop
      · rw [if_neg directive] at run
        have calm : ¬ Starving ⟨c :: fmt, s, num, recvs⟩ := not_starving directive
        rw [receiving_plain directive]
        split at run
        · rename_i blank
          rw [comes_next fun _ => turn_blank blank skipped, or_iff_right calm]
          exact ih size' faces1 (by omega) run
        · rename_i letter
          have letter' : isWhitespace c = false := by simpa using letter
          obtain ⟨⟨s2, matched⟩, accepted, run⟩ := bind_ok run
          obtain ⟨_, accepted', faces2⟩ := faces1.acceptChar c
          cases accepted.symm.trans accepted'
          have turn : ∀ st, ScanTurn start ⟨c :: fmt, s, num, recvs⟩ st ↔
              (r1.accept c).2 = true ∧ st = ⟨fmt, s2, num, recvs⟩ :=
            fun st => turn_literal directive letter' skipped accepted
          cases matched : (r1.accept c).2 with
          | true =>
            rw [matched] at run turn
            rw [comes_next fun st => (turn st).trans (and_iff_right rfl), or_iff_right calm]
            exact ih size' faces2 (by omega) run
          | false =>
            rw [matched] at run turn
            cases run
            refine .inl ⟨?_, counted_none _ _⟩
            rw [comes_stuck fun st step => Bool.false_ne_true ((turn st).mp step).1]
            exact calm

theorem after_unassigned {j : Nat} (prior : Nat → Value) (none : ¬ Assigned values j) :
    after prior values j = prior j := by
  rw [after]
  split
  · rfl
  · rfl
  · rename_i v set found
    exact absurd ⟨v, found, fun unset => set unset⟩ none

theorem countsAssigned_of (most : num ≤ receiving fmt) (assigned : ∀ j, Assigned values j ↔ j < num) :
    CountsAssigned fmt num values :=
  ⟨assigned, most, fun prior j behind => after_unassigned prior fun set => Nat.not_lt.mpr behind ((assigned j).mp set)⟩

/-- Where the call returns, the count is that of the assigned arguments, and the others keep
their values, exactly if every eager directive that the loop comes to finds a character it can begin with. -/
theorem counts_assigned_iff (faces : Faces stop s r) (told : s.tell = .ok start) (short : fmt.length < 2 ^ 32)
    (run : fmtvscanf s fmt recvs = .ok (s', num, values)) :
    CountsAssigned fmt num values ↔
      ∀ st, Relation.ReflTransGen (ScanTurn start) ⟨fmt, s, 0, recvs⟩ st → ¬ Starving st := by
  rw [← not_comes]
  have loop : scanLoop start fmt s 0 recvs = .ok (s', num, values) := by
    rw [fmtvscanf, told] at run
    exact run
  rcases scanLoop_tally (Nat.lt_succ_self _) faces (by omega) loop with ⟨fed, counted⟩ | ⟨hungry, miscounted⟩
  · obtain ⟨k, most, rfl, assigned⟩ := counted
    rw [Nat.zero_add]
    exact ⟨fun _ => fed, fun _ => countsAssigned_of most assigned⟩
  · refine ⟨fun counts => ?_, fun fed => absurd hungry fed⟩
    obtain ⟨k, small, ⟨same, more⟩ | ⟨less, assigned⟩⟩ := miscounted
    · have below := (counts.assigned k).mp more
      omega
    · have same : ∀ j, j < k ↔ j < num := fun j => (assigned j).symm.trans (counts.assigned j)
      have here := same k
      have there := same num
      rw [wrap32] at less
      omega

end UmkaOs.Fmt
