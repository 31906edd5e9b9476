import UmkaOs.Fmt.Assigned

namespace UmkaOs.Fmt

open Lib

/-- The argument that a directive stores to. -/
def kind (d : UInt8) : Option Recv :=
  if d = chr 'i' ∨ d = chr 'd' ∨ d = chr 'n' then some .int
  else if d = chr 'u' ∨ d = chr 'o' ∨ d = chr 'x' then some .uint
  else if d = chr 'e' ∨ d = chr 'g' ∨ d = chr 'f' then some .double
  else if d = chr 'c' then some .chr
  else if d = chr 'p' then some .ptr
  else if d = chr 's' then some .str
  else none

/-- It is the next one. -/
def Supplied (d : UInt8) (recvs : List Recv) : Prop := ∀ k, kind d = some k → recvs.head? = some k

/-- The digits behind the mark of an exponent, if there is one. -/
def ExponentReadable (r : Rest) : Prop :=
  ∀ c, c = chr 'e' ∨ c = chr 'E' → (r.accept c).2 = true → Readable ((r.accept c).1.unsign true).text 10

/-- A number behind its sign, with fraction and exponent. -/
def RealReadable (r : Rest) : Prop :=
  let behind := (r.read (numberEnd r.text 10)).1
  let fraction := (behind.accept (chr '.')).1
  let digits := fraction.text.takeWhile isDigit
  Readable r.text 10 ∧ (behind.text.length < r.text.length →
    if (behind.accept (chr '.')).2 then
      digits.length ≤ fraction.room ∧ ExponentReadable (fraction.read digits.length).1
    else ExponentReadable behind)

/-- What a directive reads ends within the look-ahead, or within the room. -/
structure Legible (d : UInt8) (r : Rest) : Prop where
  number : ∀ minus base, opening d = some (minus, base) → kind d ≠ some .double →
    Readable (r.unsign minus).text (if d = chr 'i' then 0 else base)
  real : kind d = some .double → RealReadable (r.unsign true)
  word : d = chr 's' → (r.text.takeWhile (!isWhitespace ·)).length ≤ r.room

/-- The loop gets past the white space in front, and what it then reads is legible and has its argument. -/
def Clear (st : ScanState) : Prop :=
  ∀ c fmt, st.fmt = c :: fmt → ∃ stop r, Faces stop st.s r ∧ (r.text.takeWhile isWhitespace).length ≤ r.room ∧
    ∀ d rest, c = chr '%' → fmt = d :: rest →
      Supplied d st.recvs ∧ Legible d (r.read (r.text.takeWhile isWhitespace).length).1

variable {stop base num start point : Nat} {s s1 : RWStream} {r r1 : Rest} {c d : UInt8} {minus : Bool}
  {recvs : List Recv} {fmt : CString}

theorem number_returns : Returns (r.number base) ↔ Readable r.text base := by
  rw [Rest.number]
  split
  · rename_i readable
    exact iff_of_true (returns_ok _) readable
  · rename_i unreadable
    exact iff_of_false (not_returns_error _) unreadable

theorem skip_returns {wanted : UInt8 → Bool} :
    Returns (r.skip wanted) ↔ (r.text.takeWhile wanted).length ≤ r.room := by
  simp only [Rest.skip]
  split
  · rename_i near
    exact iff_of_true (returns_ok _) near
  · rename_i far
    exact iff_of_false (not_returns_error _) far

theorem numeric_returns (plain : ∀ c ∈ r.text.head?, isSpace c = false) :
    Returns (r.numeric minus base) ↔ Readable (r.unsign minus).text base := by
  rw [Rest.numeric, Rest.skip_stop plain]
  exact number_returns

theorem Faces.signed_returns (faces : Faces stop s r) (plain : ∀ c ∈ r.text.head?, isSpace c = false) :
    Returns (Fmt.fmtParseLL s base) ↔ Readable (r.unsign true).text base := by
  obtain ⟨negative, signed⟩ := @Rest.signed_numeric base r
  rw [(faces.fmtParseLL base).returns_iff, signed, returns_bind fun x => returns_ok _]
  exact numeric_returns plain

theorem Faces.unsigned_returns (faces : Faces stop s r) (plain : ∀ c ∈ r.text.head?, isSpace c = false) :
    Returns (Fmt.fmtParseULL s base) ↔ Readable (r.unsign false).text base := by
  rw [(faces.fmtParseULL base).returns_iff, Rest.unsigned_numeric]
  exact numeric_returns plain

theorem Faces.number_returns (faces : Faces stop s r) : Returns (Fmt.fmtParseNum s base) ↔ Readable r.text base :=
  (faces.fmtParseNum base).returns_iff.trans Fmt.number_returns

/-- The loop over the fraction goes like the one over blanks. -/
theorem Faces.fracLoop {fuel : Nat} (frac : Nat) (div : ℚ) (faces : Faces stop s r)
    (enough : (r.text.takeWhile isDigit).length ≤ r.room → (r.text.takeWhile isDigit).length < fuel) :
    Lockstep Anyhow (fun y x => Faces stop y.1 x.1) (Fmt.fracLoop fuel s frac div) (r.skip isDigit) := by
  induction fuel generalizing s r frac div with
  | zero =>
    have far : ¬ (r.text.takeWhile isDigit).length ≤ r.room := fun near => absurd (enough near) (Nat.not_lt_zero _)
    rw [Fmt.fracLoop, Rest.skip, if_neg far]
    exact .fails _ trivial
  | succ fuel ih =>
    obtain ⟨text, room⟩ := r
    rw [Fmt.fracLoop, faces.peek]
    cases text with
    | nil =>
      rw [Rest.skip_stop (by simp)]
      exact .returns _ _ faces
    | cons c rest =>
      by_cases here : isDigit c = true
      · obtain ⟨s', moved, next⟩ := faces.read 1
        rw [Rest.skip_step here]
        simp only [List.take_succ_cons, bind, Except.bind, here, if_true, moved]
        exact (ih _ _ next (Rest.skip_fuel here enough)).then_right _ (fun _ _ same => same)
      · rw [Rest.skip_stop (by simpa using here)]
        simp only [List.take_succ_cons, bind, Except.bind, here, pure, Except.pure]
        exact .returns _ _ faces

theorem Faces.power_returns {α : Type} (faces : Faces stop s r) {f : Bool → RWStream × Nat → Except Fault α}
    (rest : ∀ negative x, Returns (f negative x)) :
    Returns (Fmt.acceptChar s (chr '-') >>= fun x =>
      if x.2 then Fmt.fmtParseNum x.1 10 >>= f x.2
      else Fmt.acceptChar x.1 (chr '+') >>= fun y => Fmt.fmtParseNum y.1 10 >>= f x.2) ↔
      Readable (r.unsign true).text 10 := by
  obtain ⟨s1, faces1, goes⟩ := @Faces.unsign _ _ _ α faces
  rw [goes fun negative s => Fmt.fmtParseNum s 10 >>= f negative, returns_bind (rest _)]
  exact faces1.number_returns

theorem accept_iff : (r.accept c).2 = true ↔ r.text.head? = some c := by
  rw [Rest.accept]
  split
  · rename_i head
    exact iff_of_true rfl head
  · rename_i head
    exact iff_of_false Bool.false_ne_true head

/-- Only one of the marks can stand there. -/
theorem exponentReadable_marked {mark : UInt8} (is : mark = chr 'e' ∨ mark = chr 'E')
    (accepted : (r.accept mark).2 = true) :
    ExponentReadable r ↔ Readable ((r.accept mark).1.unsign true).text 10 := by
  refine ⟨fun all => all mark is accepted, fun readable c _ other => ?_⟩
  rw [accept_iff] at accepted other
  cases accepted.symm.trans other
  exact readable

theorem Faces.exponent_returns (faces : Faces stop s r) (negative : Bool) (val : ℚ) :
    Returns (Fmt.exponent negative val s) ↔ ExponentReadable r := by
  obtain ⟨s1, lower, faces1⟩ := faces.acceptChar (chr 'e')
  have scaled : ∀ (down : Bool) (x : RWStream × Nat),
      Returns (.ok (x.1, val * (10 : ℚ) ^ (if down then -(x.2 : Int) else (x.2 : Int))) :
        Except Fault (RWStream × ℚ)) := fun _ _ => returns_ok _
  cases small : (r.accept (chr 'e')).2 with
  | true =>
    rw [Fmt.exponent, lower, small, exponentReadable_marked (.inl rfl) small]
    exact faces1.power_returns scaled
  | false =>
    rw [Rest.accept_false small] at faces1
    obtain ⟨s2, upper, faces2⟩ := faces1.acceptChar (chr 'E')
    rw [Fmt.exponent, lower, small]
    simp only [bind, Except.bind, Bool.false_eq_true, if_false, upper]
    cases big : (r.accept (chr 'E')).2 with
    | true =>
      rw [exponentReadable_marked (.inr rfl) big]
      exact faces2.power_returns scaled
    | false =>
      refine iff_of_true (returns_ok _) ?_
      rintro c (rfl | rfl) accepted
      · rw [small] at accepted
        cases accepted
      · rw [big] at accepted
        cases accepted

theorem Faces.fraction_returns (faces : Faces stop s r) (negative : Bool) (whole : Nat) :
    Returns (Fmt.fracLoop turns s 0 1 >>= fun x => Fmt.exponent negative ((whole : ℚ) + x.2.1 / x.2.2) x.1) ↔
      (r.text.takeWhile isDigit).length ≤ r.room ∧
        ExponentReadable (r.read (r.text.takeWhile isDigit).length).1 := by
  have step := faces.fracLoop 0 1 fun near => Nat.lt_of_le_of_lt near faces.1
  by_cases near : (r.text.takeWhile isDigit).length ≤ r.room
  · obtain ⟨x, ran, faces1⟩ := step.ok_right (if_pos near)
    rw [ran, and_iff_right near]
    exact faces1.exponent_returns negative _
  · rw [step.error_right (if_neg near)]
    exact iff_of_false (not_returns_error _) fun both => near both.1

theorem Faces.magnitude_returns (faces : Faces stop s r) (negative : Bool) :
    Returns (Fmt.magnitude negative s) ↔ RealReadable r := by
  obtain ⟨point, told, ends⟩ := faces.tell
  rw [Fmt.magnitude, told, RealReadable]
  by_cases readable : Readable r.text 10
  · obtain ⟨⟨s1, whole⟩, digits, shows⟩ := (faces.fmtParseNum 10).ok_right (if_pos readable)
    have faces1 : Faces stop s1 (r.read (numberEnd r.text 10)).1 := shows.1
    obtain ⟨position, told1, ends1⟩ := faces1.tell
    rw [and_iff_right readable]
    simp only [digits, told1, bind, Except.bind]
    by_cases same : position = point
    · rw [if_pos same]
      exact iff_of_true (returns_ok _) fun less => absurd less (by omega)
    · have moved : (r.read (numberEnd r.text 10)).1.text.length < r.text.length := by
        have inside := read_le r (numberEnd r.text 10)
        omega
      obtain ⟨s2, dotted, faces2⟩ := faces1.acceptChar (chr '.')
      rw [if_neg same, forall_prop_of_true moved]
      simp only [dotted]
      cases point : ((r.read (numberEnd r.text 10)).1.accept (chr '.')).2 with
      | false =>
        rw [Rest.accept_false point] at faces2
        exact faces2.exponent_returns negative _
      | true => exact faces2.fraction_returns negative whole
  · have fails : Fmt.fmtParseNum s 10 = .error .overrun := (faces.fmtParseNum 10).error_right (if_neg readable)
    simp only [fails, bind, Except.bind]
    exact iff_of_false (not_returns_error _) fun both => readable both.1

theorem Faces.real_returns (faces : Faces stop s r) (plain : ∀ c ∈ r.text.head?, isSpace c = false) :
    Returns (Fmt.fmtParseD s) ↔ RealReadable (r.unsign true) := by
  have blanks := @Faces.skipWhile _ _ _ isSpace faces
  rw [Rest.skip_stop plain] at blanks
  obtain ⟨s1, skipped, faces1⟩ := blanks.ok_right rfl
  obtain ⟨s2, faces2, goes⟩ := @Faces.unsign _ _ r (RWStream × ℚ) faces1
  have sign : Fmt.fmtParseD s = Fmt.magnitude (r.accept (chr '-')).2 s2 := by
    rw [fmtParseD_eq, skipSpaces, skipped]
    exact goes Fmt.magnitude
  rw [sign]
  exact faces2.magnitude_returns _

/-- The next argument is taken, then something is read for it. -/
theorem receive_returns {α β : Type} {k : Recv} {x : Except Fault α} {f : List Recv → α → Except Fault β}
    (rest : ∀ recvs a, Returns (f recvs a)) :
    Returns (takeRecv k recvs >>= fun recvs => x >>= f recvs) ↔ recvs.head? = some k ∧ Returns x := by
  cases recvs with
  | nil => exact iff_of_false (not_returns_error _) fun both => by cases both.1
  | cons r recvs =>
    rw [takeRecv, List.head?_cons, Option.some_inj]
    by_cases same : r = k
    · rw [if_pos same, and_iff_right same]
      exact returns_bind (rest recvs)
    · rw [if_neg same]
      exact iff_of_false (not_returns_error _) fun both => same both.1

theorem supplied_iff {k : Recv} (same : kind d = some k) : Supplied d recvs ↔ recvs.head? = some k :=
  ⟨fun supplied => supplied k same, fun head _ same' => (same.symm.trans same') ▸ head⟩

theorem legible_number (same : opening d = some (minus, base)) (integer : kind d ≠ some .double ∧ d ≠ chr 's') :
    Legible d r ↔ Readable (r.unsign minus).text (if d = chr 'i' then 0 else base) := by
  refine ⟨fun legible => legible.number minus base same integer.1, fun readable => ⟨?_, ?_, ?_⟩⟩
  · intro minus' base' same' _
    cases same.symm.trans same'
    exact readable
  · exact fun real => absurd real integer.1
  · exact fun word => absurd word integer.2

theorem legible_real (double : kind d = some .double) : Legible d r ↔ RealReadable (r.unsign true) := by
  refine ⟨fun legible => legible.real double, fun readable => ⟨?_, fun _ => readable, ?_⟩⟩
  · exact fun minus base _ other => absurd double other
  · rintro rfl
    exact absurd double (by decide)

theorem legible_word : Legible (chr 's') r ↔ (r.text.takeWhile (!isWhitespace ·)).length ≤ r.room := by
  refine ⟨fun legible => legible.word rfl, fun near => ⟨?_, ?_, fun _ => near⟩⟩
  · intro minus base same
    cases same
  · intro double
    cases double

theorem legible_other (none : opening d = none) (notReal : kind d ≠ some .double) (notWord : d ≠ chr 's') :
    Legible d r := by
  refine ⟨?_, fun double => absurd double notReal, fun word => absurd word notWord⟩
  intro minus base same
  cases none.symm.trans same

theorem Faces.directive_returns (faces : Faces stop s r) (dark : ∀ c ∈ r.text.head?, isWhitespace c = false) :
    Returns (scanDirective start d s num recvs) ↔ Supplied d recvs ∧ Legible d r := by
  have plain : ∀ c ∈ r.text.head?, isSpace c = false := fun c member => notSpace (dark c member)
  rw [scanDirective]
  by_cases percent : d = chr '%'
  · subst percent
    obtain ⟨s1, moved, _⟩ := faces.read 1
    rw [if_pos rfl, moved]
    refine iff_of_true (returns_ok _) ⟨?_, legible_other rfl (by decide) (by decide)⟩
    rintro k ⟨⟩
  rw [if_neg percent]
  by_cases signed : d = chr 'i' ∨ d = chr 'd'
  · rw [if_pos signed, receive_returns, faces.signed_returns plain]
    · rcases signed with rfl | rfl <;> rw [supplied_iff rfl, legible_number rfl (by decide)]
    · exact fun _ _ => returns_ok _
  rw [if_neg signed]
  by_cases unsigned : d = chr 'u' ∨ d = chr 'o' ∨ d = chr 'x'
  · rw [if_pos unsigned, receive_returns, faces.unsigned_returns plain]
    · rcases unsigned with rfl | rfl | rfl
      all_goals
        rw [supplied_iff rfl, legible_number rfl (by decide)]
        rfl
    · exact fun _ _ => returns_ok _
  rw [if_neg unsigned]
  by_cases real : d = chr 'e' ∨ d = chr 'g' ∨ d = chr 'f'
  · have double : kind d = some .double := by
      rcases real with rfl | rfl | rfl <;> rfl
    rw [if_pos real, receive_returns, faces.real_returns plain, supplied_iff double, legible_real double]
    exact fun _ _ => returns_ok _
  rw [if_neg real]
  by_cases char : d = chr 'c'
  · subst char
    obtain ⟨s1, moved, _⟩ := faces.read 1
    rw [if_pos rfl, receive_returns, supplied_iff rfl, moved]
    · exact and_congr_right fun _ => iff_of_true (returns_ok _) (legible_other rfl (by decide) (by decide))
    · exact fun _ _ => returns_ok _
  rw [if_neg char]
  by_cases pointer : d = chr 'p'
  · subst pointer
    rw [if_pos rfl, receive_returns, faces.unsigned_returns plain, supplied_iff rfl,
      legible_number rfl (by decide)]
    · rfl
    · exact fun _ _ => returns_ok _
  rw [if_neg pointer]
  by_cases string : d = chr 's'
  · subst string
    rw [if_pos rfl, receive_returns, faces.readWord.returns_iff, skip_returns, supplied_iff rfl,
      legible_word]
    exact fun _ _ => returns_ok _
  rw [if_neg string]
  by_cases count : d = chr 'n'
  · subst count
    obtain ⟨position, told, _⟩ := faces.tell
    rw [if_pos rfl, receive_returns, supplied_iff rfl, told]
    · exact and_congr_right fun _ => iff_of_true (returns_ok _) (legible_other rfl (by decide) (by decide))
    · exact fun _ _ => returns_ok _
  · rw [if_neg count]
    have nothing : kind d = none ∧ opening d = none := by
      simp only [not_or] at signed unsigned real
      simp [kind, opening, signed, unsigned, real, char, pointer, string, count]
    refine iff_of_true (returns_ok _) ⟨?_, legible_other nothing.2 (by simp [nothing.1]) string⟩
    intro k same
    cases nothing.1.symm.trans same

theorem turn_returns (faces : Faces stop s r) : ((r.text.takeWhile isWhitespace).length ≤ r.room ∧
    ∀ d rest, c = chr '%' → fmt = d :: rest →
      Supplied d recvs ∧ Legible d (r.read (r.text.takeWhile isWhitespace).length).1) ↔
    ∃ s1, skipWhitespaces s = .ok s1 ∧ ∀ d rest, c = chr '%' → fmt = d :: rest →
      Returns (scanDirective start d s1 num recvs) := by
  have white := @Faces.skipWhile _ _ _ isWhitespace faces
  by_cases near : (r.text.takeWhile isWhitespace).length ≤ r.room
  · have skip : r.skip isWhitespace = .ok (r.read (r.text.takeWhile isWhitespace).length) := if_pos near
    obtain ⟨s1, skipped, faces1⟩ := white.ok_right skip
    have dark := skip_dark skip
    rw [and_iff_right near]
    constructor
    · intro legible
      refine ⟨s1, skipped, fun d rest percent shape => ?_⟩
      exact (faces1.directive_returns dark).mpr (legible d rest percent shape)
    · rintro ⟨s1', skipped', returns⟩ d rest percent shape
      cases skipped.symm.trans skipped'
      exact (faces1.directive_returns dark).mp (returns d rest percent shape)
  · have stands := white.error_right (if_neg near)
    refine iff_of_false (fun both => near both.1) ?_
    rintro ⟨s1, skipped, -⟩
    cases stands.symm.trans skipped

theorem clear_iff (faces : Faces stop s r) : Clear ⟨c :: fmt, s, num, recvs⟩ ↔
    ∃ s1, skipWhitespaces s = .ok s1 ∧ ∀ d rest, c = chr '%' → fmt = d :: rest →
      Returns (scanDirective start d s1 num recvs) := by
  constructor
  · intro clear
    obtain ⟨stop', r', faces', turn⟩ := clear c fmt rfl
    exact (turn_returns faces').mp turn
  · rintro returns c' fmt' ⟨⟩
    exact ⟨stop, r, faces, (turn_returns faces).mpr returns⟩

theorem clear_skipped (faces : Faces stop s r) (clear : Clear ⟨c :: fmt, s, num, recvs⟩) :
    ∃ s1, skipWhitespaces s = .ok s1 := by
  obtain ⟨s1, skipped, -⟩ := (@clear_iff stop num 0 s r c recvs fmt faces).mp clear
  exact ⟨s1, skipped⟩

theorem clear_plain (faces : Faces stop s r) (skipped : skipWhitespaces s = .ok s1) (plain : c ≠ chr '%' ∨ fmt = []) :
    Clear ⟨c :: fmt, s, num, recvs⟩ := by
  refine (@clear_iff stop num 0 s r c recvs fmt faces).mpr ⟨s1, skipped, ?_⟩
  rintro d rest percent rfl
  exact plain.elim (fun other => absurd percent other) nofun

theorem clear_directive (faces : Faces stop s r) (skipped : skipWhitespaces s = .ok s1) :
    Clear ⟨chr '%' :: d :: fmt, s, num, recvs⟩ ↔ Returns (scanDirective start d s1 num recvs) := by
  rw [clear_iff faces]
  constructor
  · rintro ⟨s1', skipped', returns⟩
    cases skipped.symm.trans skipped'
    exact returns d fmt rfl rfl
  · intro returns
    refine ⟨s1, skipped, ?_⟩
    rintro d rest _ ⟨⟩
    exact returns

/-- The loop comes to a turn that does not return. -/
abbrev Blocked (start : Nat) (st : ScanState) : Prop := Comes (ScanTurn start) (fun st => ¬ Clear st) st

theorem blocked_directive (faces : Faces stop s r) (faces1 : Faces stop s1 r1)
    (dark : ∀ c ∈ r1.text.head?, isWhitespace c = false) (skipped : skipWhitespaces s = .ok s1)
    (before : s1.tell = .ok point)
    (rest : ∀ s2 r2 num recvs, Faces stop s2 r2 →
      (Returns (scanLoop start fmt s2 num recvs) ↔ ¬ Blocked start ⟨fmt, s2, num, recvs⟩)) :
    Returns (scanDirective start d s1 num recvs >>= fun x => do
      let position ← x.1.tell
      if point = position ∧ d ≠ chr 'n' then return (x.1, x.2.1, x.2.2.1)
      else
        let (s, num, later) ← scanLoop start fmt x.1 (wrap32 (x.2.1 + 1)) x.2.2.2
        return (s, num, x.2.2.1 ++ later)) ↔ ¬ Blocked start ⟨chr '%' :: d :: fmt, s, num, recvs⟩ := by
  have clear := @clear_directive stop num start s s1 r d recvs fmt faces skipped
  cases ran : scanDirective start d s1 num recvs with
  | error e =>
    rw [ran] at clear
    exact iff_of_false (not_returns_error e) (not_not.mpr (comes_iff.mpr (.inl fun is =>
      not_returns_error e (clear.mp is))))
  | ok y =>
    obtain ⟨s2, num1, front, recvs'⟩ := y
    obtain ⟨r2, faces2, _⟩ := faces1.directive dark ran
    obtain ⟨position, behind, _⟩ := faces2.tell
    have here := clear.mpr ⟨_, ran⟩
    have turn : ∀ st, ScanTurn start ⟨chr '%' :: d :: fmt, s, num, recvs⟩ st ↔
        (point ≠ position ∨ d = chr 'n') ∧ st = ⟨fmt, s2, wrap32 (num1 + 1), recvs'⟩ :=
      fun st => turn_directive skipped ran before behind
    simp only [bind, Except.bind, behind]
    by_cases ends : point = position ∧ d ≠ chr 'n'
    · rw [if_pos ends]
      refine iff_of_true (returns_ok _) ?_
      rw [Blocked, comes_stuck fun st step => ((turn st).mp step).1.elim (fun moved => moved ends.1) ends.2, not_not]
      exact here
    · have on : point ≠ position ∨ d = chr 'n' := by tauto
      rw [if_neg ends, Blocked, comes_next fun st => (turn st).trans (and_iff_right on),
        or_iff_right (not_not.mpr here), ← rest s2 r2 _ _ faces2]
      exact returns_bind fun _ => returns_ok _

/-- The loop returns unless it is blocked. -/
theorem scanLoop_returns {n : Nat} (size : fmt.length < n) (faces : Faces stop s r) :
    Returns (scanLoop start fmt s num recvs) ↔ ¬ Blocked start ⟨fmt, s, num, recvs⟩ := by
  induction n generalizing fmt s r num recvs with
  | zero => exact absurd size (Nat.not_lt_zero _)
  | succ n ih =>
    cases fmt with
    | nil =>
      refine iff_of_true (returns_ok _) ?_
      rw [Blocked, comes_stuck fun _ => turn_nil, not_not]
      rintro c fmt ⟨⟩
    | cons c fmt =>
      have size' : fmt.length < n := Nat.lt_of_succ_lt_succ size
      have white := @Faces.skipWhile _ _ _ isWhitespace faces
      rw [scanLoop]
      cases skipped : skipWhitespaces s with
      | error e =>
        refine iff_of_false (not_returns_error e) (not_not.mpr (comes_iff.mpr (.inl fun clear => ?_)))
        obtain ⟨s1, skipped'⟩ := clear_skipped faces clear
        cases skipped.symm.trans skipped'
      | ok s1 =>
        obtain ⟨⟨r1, _⟩, skip, faces1⟩ := white.ok_left skipped
        by_cases directive : c = chr '%'
        · subst directive
          cases fmt with
          | nil =>
            refine iff_of_true (returns_ok _) ?_
            rw [Blocked, comes_stuck fun _ => turn_cut, not_not]
            exact clear_plain faces skipped (.inr rfl)
          | cons d fmt =>
            obtain ⟨point, before, _⟩ := faces1.tell
            simp only [bind, Except.bind, if_true, before]
            exact blocked_directive faces faces1 (skip_dark skip) skipped before fun s2 r2 num recvs faces2 =>
              ih (Nat.lt_of_succ_lt size') faces2
        · have here : Clear ⟨c :: fmt, s, num, recvs⟩ := clear_plain faces skipped (.inl directive)
          simp only [bind, Except.bind, if_neg directive]
          split
          · rename_i blank
            rw [Blocked, comes_next fun _ => turn_blank blank skipped, or_iff_right (not_not.mpr here)]
            exact ih size' faces1
          · rename_i letter
            have letter' : isWhitespace c = false := by simpa using letter
            obtain ⟨s2, accepted, faces2⟩ := faces1.acceptChar c
            have turn : ∀ st, ScanTurn start ⟨c :: fmt, s, num, recvs⟩ st ↔
                (r1.accept c).2 = true ∧ st = ⟨fmt, s2, num, recvs⟩ :=
              fun st => turn_literal directive letter' skipped accepted
            simp only [accepted]
            cases matched : (r1.accept c).2 with
            | true =>
              rw [matched] at turn
              rw [Blocked, comes_next fun st => (turn st).trans (and_iff_right rfl), or_iff_right (not_not.mpr here)]
              exact ih size' faces2
            | false =>
              rw [matched] at turn
              refine iff_of_true (returns_ok _) ?_
              rw [Blocked, comes_stuck fun st step => Bool.false_ne_true ((turn st).mp step).1, not_not]
              exact here

/-- The call returns, its count is that of the assigned arguments, and the others keep their values,
exactly if all that the loop comes to is clear and none of it starves. -/
theorem scan_counts_assigned (faces : Faces stop s r) (told : s.tell = .ok start) (short : fmt.length < 2 ^ 32) :
    (∃ s' num values, fmtvscanf s fmt recvs = .ok (s', num, values) ∧ CountsAssigned fmt num values) ↔
      ∀ st, Relation.ReflTransGen (ScanTurn start) ⟨fmt, s, 0, recvs⟩ st → Clear st ∧ ¬ Starving st := by
  have returns : Returns (fmtvscanf s fmt recvs) ↔
      ∀ st, Relation.ReflTransGen (ScanTurn start) ⟨fmt, s, 0, recvs⟩ st → Clear st := by
    rw [fmtvscanf, told]
    refine (scanLoop_returns (Nat.lt_succ_self _) faces).trans (not_comes.trans ?_)
    simp only [not_not]
  constructor
  · rintro ⟨s', num, values, run, counts⟩ st path
    exact ⟨returns.mp ⟨_, run⟩ st path, (counts_assigned_iff faces told short run).mp counts st path⟩
  · intro all
    obtain ⟨⟨s', num, values⟩, run⟩ := returns.mpr fun st path => (all st path).1
    exact ⟨s', num, values, run, (counts_assigned_iff faces told short run).mpr fun st path => (all st path).2⟩

theorem scan_counts_assigned_digit : CountsAssigned [chr '%', chr 'd'] 1 [.int 5] ∧
    ∀ st, Relation.ReflTransGen (ScanTurn 0) ⟨[chr '%', chr 'd'], .mkStr (stringOf [chr '5']), 0, [.int]⟩ st →
      Clear st ∧ ¬ Starving st :=
  have counts := countsAssigned_of (by decide) (assigned_cons (by simp) assigned_none)
  ⟨counts, (scan_counts_assigned (faces_mkStr (spells_stringOf (by decide +kernel : ∀ c ∈ [chr '5'], c ≠ 0))) rfl
    (by decide)).mp ⟨_, 1, [.int 5], rfl, counts⟩⟩

/-- `"%d"` of `"x"` stores 0 without counting it, and `"%%"` at the end counts down from 0. -/
theorem scan_overwrites :
    (∃ s', fmtvscanf (.mkStr (stringOf [chr 'x'])) [chr '%', chr 'd'] [.int] = .ok (s', 0, [.int 0]) ∧
      after (fun _ => .int 7) [.int 0] 0 = .int 0) ∧
    ∃ s', fmtvscanf (.mkStr (stringOf [])) [chr '%', chr '%'] [] = .ok (s', 2 ^ 32 - 1, []) :=
  ⟨⟨_, rfl, rfl⟩, _, rfl⟩

end UmkaOs.Fmt
