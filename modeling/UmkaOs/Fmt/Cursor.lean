import UmkaOs.Fmt.Directives
import UmkaOs.Lib.Reach

namespace UmkaOs.Fmt

open Lib

/-- The format ends inside the specification. (With a `#` the unset `base` is read first.) -/
def CutOff (fmt : CString) (args : List Arg) : Prop :=
  ∃ head args', readHead fmt args = .ok (head, [], args') ∧ head.flags.decorated = false

/-- How many blanks stand in front of a text. -/
def blanksBefore (f : Flags) (width size : Int) : Nat := if f.leftjustify then 0 else (toInt32 (width - size)).toNat

/-- A string is copied with a negative precision as its length, and the sink has, `n` bytes after the call
began, room for more than the string with its terminator. -/
def LongCopy (s : RWStream) (n : Nat) (fmt : CString) (args : List Arg) : Prop :=
  ∃ head rest str args', readHead fmt args = .ok (head, chr 's' :: rest, .str str :: args') ∧ head.precision ≤ -2 ∧
    str.length < 2 ^ 31 ∧
    str.length + 1 < s.reads (n + blanksBefore head.flags head.width head.precision) (toUInt32 head.precision)

/-- One turn of the loop: a character, or a directive that is carried out. -/
inductive Turn : CString × List Arg → CString × List Arg → Prop
  | literal {c : UInt8} {fmt : CString} {args : List Arg} (plain : c ≠ chr '%') : Turn (c :: fmt, args) (fmt, args)
  | directive {fmt rest : CString} {args args' args'' : List Arg} {d : Directive} {c : UInt8}
      (read : readDirective fmt args = .ok (d, c :: rest, args')) (ran : (d.events args').2 = .ok args'') :
      Turn (chr '%' :: fmt, args) (rest, args'')

/-- A turn with the number of bytes that the call has produced. -/
inductive CountedTurn : CString × List Arg × Nat → CString × List Arg × Nat → Prop
  | literal {c : UInt8} {fmt : CString} {args : List Arg} {n : Nat} (plain : c ≠ chr '%') :
      CountedTurn (c :: fmt, args, n) (fmt, args, n + 1)
  | directive {fmt rest : CString} {args args' args'' : List Arg} {d : Directive} {c : UInt8} {n : Nat}
      (read : readDirective fmt args = .ok (d, c :: rest, args')) (ran : (d.events args').2 = .ok args'') :
      CountedTurn (chr '%' :: fmt, args, n) (rest, args'', n + (rows (d.events args').1).flatten.length)

variable {fmt rest spec : CString} {args left : List Arg} {e : Fault} {c : UInt8} {fuel start n : Nat}
  {s s' : RWStream} {events more : List Event}

theorem Turn.literal_iff {next : CString × List Arg} (plain : c ≠ chr '%') :
    Turn (c :: fmt, args) next ↔ next = (fmt, args) := by
  constructor
  · intro turn
    cases turn with
    | literal => rfl
    | directive => exact absurd rfl plain
  · rintro rfl
    exact .literal plain

theorem Turn.directive_iff {next : CString × List Arg} : Turn (chr '%' :: fmt, args) next ↔
    ∃ d c rest args' args'', readDirective fmt args = .ok (d, c :: rest, args') ∧
      (d.events args').2 = .ok args'' ∧ next = (rest, args'') := by
  constructor
  · intro turn
    cases turn with
    | literal plain => exact absurd rfl plain
    | directive read ran => exact ⟨_, _, _, _, _, read, ran, rfl⟩
  · rintro ⟨d, c, rest, args', args'', read, ran, rfl⟩
    exact .directive read ran

theorem CountedTurn.literal_iff {next : CString × List Arg × Nat} (plain : c ≠ chr '%') :
    CountedTurn (c :: fmt, args, n) next ↔ next = (fmt, args, n + 1) := by
  constructor
  · intro turn
    cases turn with
    | literal => rfl
    | directive => exact absurd rfl plain
  · rintro rfl
    exact .literal plain

theorem CountedTurn.directive_iff {next : CString × List Arg × Nat} : CountedTurn (chr '%' :: fmt, args, n) next ↔
    ∃ d c rest args' args'', readDirective fmt args = .ok (d, c :: rest, args') ∧
      (d.events args').2 = .ok args'' ∧ next = (rest, args'', n + (rows (d.events args').1).flatten.length) := by
  constructor
  · intro turn
    cases turn with
    | literal plain => exact absurd rfl plain
    | directive read ran => exact ⟨_, _, _, _, _, read, ran, rfl⟩
  · rintro ⟨d, c, rest, args', args'', read, ran, rfl⟩
    exact .directive read ran

/-- Some copy among the events reads behind its text, `n` bytes after the sink's state. -/
def Exceeds (s : RWStream) : Nat → List Event → Prop
  | _, [] => False
  | n, .put data :: rest => Exceeds s (n + data.length) rest
  | n, .copy source size :: rest => source.length < s.reads n size ∨ Exceeds s (n + size) rest
  | n, .count _ :: rest => Exceeds s n rest

theorem exceeds_append :
    Exceeds s n (events ++ more) ↔ Exceeds s n events ∨ Exceeds s (n + (rows events).flatten.length) more := by
  induction events generalizing n with
  | nil => simp [Exceeds]
  | cons event events ih =>
    cases event with
    | put data =>
      rw [List.cons_append, Exceeds, Exceeds, ih, rows_put, List.flatten_cons, List.length_append, Nat.add_assoc]
    | copy source size =>
      rw [List.cons_append, Exceeds, Exceeds, ih, rows_copy, List.flatten_cons, List.length_append,
        RWStream.length_extended, Nat.add_assoc, or_assoc]
    | count outs => rw [List.cons_append, Exceeds, Exceeds, ih, rows_count]

theorem exceeds_puts (writes : List (List UInt8)) : ¬ Exceeds s n (writes.map Event.put) := by
  induction writes generalizing n with
  | nil => exact id
  | cons data rest ih => exact ih

theorem readDirective_ok {d : Directive} {behind : CString} (read : readDirective fmt args = .ok (d, behind, left)) :
    ∃ head args', readHead fmt args = .ok (head, behind, args') ∧ d.flags = head.flags ∧ d.width = head.width ∧
      convert head.flags.decorated head.precision head.length (peekc behind) args' = .ok (d.conv, left) := by
  rw [readDirective_head] at read
  obtain ⟨⟨head, behind', args'⟩, headed, read⟩ := bind_ok read
  obtain ⟨⟨conv, left'⟩, made, read⟩ := bind_ok read
  cases read
  exact ⟨head, args', headed, rfl, rfl, made⟩

theorem longCopy_iff {head : Head} {behind : CString} (read : readHead fmt args = .ok (head, behind, left)) :
    LongCopy s n fmt args ↔ ∃ rest str args', behind = chr 's' :: rest ∧ left = .str str :: args' ∧
      str.length + 1 < s.reads (n + blanksBefore head.flags head.width (copied head.precision str))
        (toUInt32 (copied head.precision str)) := by
  have low := ((yields_readHead fmt args).result read).1
  constructor
  · rintro ⟨head', rest, str, args', read', negative, short, long⟩
    cases read.symm.trans read'
    exact ⟨rest, str, args', rfl, rfl, by rwa [copied_negative negative short]⟩
  · rintro ⟨rest, str, args', rfl, rfl, long⟩
    obtain ⟨negative, short, -⟩ := (copied_longer low).mp (Nat.lt_of_lt_of_le long (s.reads_le _ _))
    exact ⟨head, rest, str, args', read, negative, short, by rwa [copied_negative negative short] at long⟩

theorem exceeds_text {d : Directive} {source : List UInt8} {size : Int} (text : d.conv = .text source size) :
    Exceeds s n (d.events args).1 ↔
      source.length < s.reads (n + blanksBefore d.flags d.width size) (toUInt32 size) := by
  obtain ⟨before, behind⟩ := map_blanks d.flags.leftjustify (pad space (toInt32 (d.width - size)))
  have front : (if d.flags.leftjustify then [] else pad space (toInt32 (d.width - size))).flatten.length =
      blanksBefore d.flags d.width size := by
    rw [blanksBefore]
    cases d.flags.leftjustify
    · exact length_pad _ _
    · rfl
  simp only [Directive.events, text, before, behind, exceeds_append, exceeds_puts, rows_puts, front, Exceeds, false_or,
    or_false]

theorem exceeds_plain {d : Directive} (plain : ∀ source size, d.conv ≠ .text source size) :
    ¬ Exceeds s n (d.events args).1 := by
  rw [Directive.events]
  cases shape : d.conv with
  | number num base upper decorated precision =>
    dsimp only
    cases numberWrites d.flags d.width num base upper decorated precision with
    | error e => exact id
    | ok writes => exact exceeds_puts writes
  | text source size => exact absurd shape (plain source size)
  | count =>
    obtain ⟨before, behind⟩ := map_blanks d.flags.leftjustify (pad space d.width)
    simp only [before, behind]
    cases takeOuts (outTypes d.length) args with
    | error e => simp [exceeds_append, exceeds_puts, Exceeds]
    | ok x => simp [exceeds_append, exceeds_puts, Exceeds]

/-- The copy of a directive exceeds its text exactly as the specification says. -/
theorem exceeds_directive {d : Directive} {behind : CString} (read : readDirective fmt args = .ok (d, behind, left)) :
    Exceeds s n (d.events left).1 ↔ LongCopy s n fmt args := by
  obtain ⟨head, args', headed, flags, width, made⟩ := readDirective_ok read
  rw [longCopy_iff headed]
  by_cases text : ∃ source size, d.conv = .text source size
  · obtain ⟨source, size, text⟩ := text
    rw [text] at made
    rw [exceeds_text text, flags, width]
    rcases convert_text made with ⟨str, string, given, rfl, rfl⟩ | ⟨string, within⟩
    · rw [List.length_append, List.length_singleton]
      constructor
      · intro long
        cases behind with
        | nil => exact absurd string (by decide)
        | cons c rest => exact ⟨rest, str, left, by rw [← string]; rfl, given, long⟩
      · rintro ⟨rest, str', args'', -, given', long⟩
        cases given.symm.trans given'
        exact long
    · refine iff_of_false (Nat.not_lt.mpr (Nat.le_trans (s.reads_le _ _) within)) ?_
      rintro ⟨rest, str, args'', rfl, -⟩
      exact string rfl
  · refine iff_of_false (exceeds_plain fun source size same => text ⟨source, size, same⟩) ?_
    rintro ⟨rest, str, args'', rfl, rfl, -⟩
    exact text ⟨_, _, (Prod.mk.inj (Except.ok.inj made)).1.symm⟩

/-- What the loop makes of a specification. -/
inductive Outcome (fmt : CString) (args : List Arg) : Prop
  | passed {d : Directive} {c : UInt8} {rest : CString} {args' args'' : List Arg}
      (read : readDirective fmt args = .ok (d, c :: rest, args')) (ran : (d.events args').2 = .ok args'')
      (shorter : rest.length < fmt.length) (inside : ¬ CutOff fmt args)
  | ended {events : List Event} {e : Fault} (stuck : ∀ next, ¬ Turn (chr '%' :: fmt, args) next)
      (ends : ∀ fuel, script (fuel + 1) (chr '%' :: fmt) args = (events, some e))
      (copies : ∀ s n, Exceeds s n events ↔ LongCopy s n fmt args)
      (kind : e = .undefined ∧ ¬ CutOff fmt args ∨ e = .overrun ∧ CutOff fmt args)

theorem script_turn : (script (fuel + 1) (chr '%' :: fmt) args).2 =
    match readDirective fmt args with
    | .error e => some e
    | .ok (d, behind, args') =>
      match (d.events args').2 with
      | .error e => some e
      | .ok args'' =>
        match behind with
        | [] => some .overrun
        | _ :: rest => (script fuel rest args'').2 := by
  rw [script, if_pos rfl]
  cases readDirective fmt args with
  | error e => rfl
  | ok x =>
    obtain ⟨d, behind, args'⟩ := x
    dsimp only
    cases d.events args' with
    | mk events left =>
      cases left with
      | error e => rfl
      | ok args'' => cases behind <;> rfl

theorem script_passed {d : Directive} {args' args'' : List Arg}
    (read : readDirective fmt args = .ok (d, c :: rest, args')) (ran : (d.events args').2 = .ok args'') :
    script (fuel + 1) (chr '%' :: fmt) args =
      ((d.events args').1 ++ (script fuel rest args'').1, (script fuel rest args'').2) := by
  rw [script, if_pos rfl, read]
  cases run : d.events args' with
  | mk events left =>
    rw [run] at ran
    dsimp only at ran
    subst ran
    simp only [run]

theorem outcome_unread (read : readDirective fmt args = .error .undefined) (inside : ¬ CutOff fmt args) :
    Outcome fmt args := by
  refine @Outcome.ended _ _ [] _ (fun next turn => ?_) (fun fuel => ?_) (fun s n => iff_of_false id fun long => ?_)
    (.inl ⟨rfl, inside⟩)
  · obtain ⟨d, c, rest, args', args'', read', -⟩ := Turn.directive_iff.mp turn
    cases read.symm.trans read'
  · rw [script, if_pos rfl, read]
  · obtain ⟨head, rest, str, args', headed, -⟩ := long
    rw [readDirective_head, headed] at read
    cases read

theorem outcome_unrun {d : Directive} {args' : List Arg} (read : readDirective fmt args = .ok (d, rest, args'))
    (fails : (d.events args').2 = .error .undefined) (inside : ¬ CutOff fmt args) : Outcome fmt args := by
  refine @Outcome.ended _ _ (d.events args').1 _ (fun next turn => ?_) (fun fuel => ?_)
    (fun s n => exceeds_directive read) (.inl ⟨rfl, inside⟩)
  · obtain ⟨d', c, rest', args1, args2, read', ran, -⟩ := Turn.directive_iff.mp turn
    cases read.symm.trans read'
    cases fails.symm.trans ran
  · rw [script, if_pos rfl, read]
    cases run : d.events args' with
    | mk events left =>
      rw [run] at fails
      dsimp only at fails
      subst fails
      simp only [run]

theorem cutOff_iff {head : Head} {behind : CString} (read : readHead fmt args = .ok (head, behind, left)) :
    CutOff fmt args ↔ behind = [] ∧ head.flags.decorated = false := by
  constructor
  · rintro ⟨head', args', read', plain⟩
    cases read.symm.trans read'
    exact ⟨rfl, plain⟩
  · rintro ⟨rfl, plain⟩
    exact ⟨head, left, read, plain⟩

/-- The terminator stands where the conversion character should, and the loop steps over it. -/
theorem outcome_cut {head : Head} (read : readHead fmt args = .ok (head, [], left)) : Outcome fmt args := by
  have whole : readDirective fmt args = .ok (⟨head.flags, head.width, head.length,
      .number .none none false head.flags.decorated head.precision⟩, [], left) := by
    rw [readDirective_head, read]
    rfl
  generalize plain : head.flags.decorated = hash at whole
  cases hash with
  | true =>
    refine outcome_unrun whole rfl fun cut => ?_
    cases plain.symm.trans ((cutOff_iff read).mp cut).2
  | false =>
    refine .ended (fun next turn => ?_) (fun fuel => ?_) (fun s n => exceeds_directive whole)
      (.inr ⟨rfl, (cutOff_iff read).mpr ⟨rfl, plain⟩⟩)
    · obtain ⟨d', c, rest, args1, args2, read', -⟩ := Turn.directive_iff.mp turn
      cases whole.symm.trans read'
    · rw [script, if_pos rfl, whole]
      rfl

theorem outcome (fmt : CString) (args : List Arg) : Outcome fmt args := by
  cases read : readHead fmt args with
  | error e =>
    cases (yields_readHead fmt args).fault read
    refine outcome_unread ?_ ?_
    · rw [readDirective_head, read]
      rfl
    · rintro ⟨head, args', read', -⟩
      cases read.symm.trans read'
  | ok x =>
    obtain ⟨head, behind, left⟩ := x
    cases behind with
    | nil => exact outcome_cut read
    | cons c rest =>
      have inside : ¬ CutOff fmt args := fun cut => List.cons_ne_nil _ _ ((cutOff_iff read).mp cut).1
      have converts := @yields_convert c head.flags.decorated head.precision head.length left
      have directive : readDirective fmt args = (do
          let y ← convert head.flags.decorated head.precision head.length c left
          return (⟨head.flags, head.width, head.length, y.1⟩, c :: rest, y.2)) := by
        rw [readDirective_head, read]
        rfl
      cases converted : convert head.flags.decorated head.precision head.length c left with
      | error e =>
        rw [converted] at directive
        cases converts.fault converted
        exact outcome_unread directive inside
      | ok y =>
        rw [converted] at directive
        have made := (converts.result converted).1
        have carries := @yields_events c ⟨head.flags, head.width, head.length, y.1⟩ made y.2
        cases ran : ((⟨head.flags, head.width, head.length, y.1⟩ : Directive).events y.2).2 with
        | error e =>
          cases carries.fault ran
          exact outcome_unrun directive ran inside
        | ok args'' => exact .passed directive ran ((yields_readHead fmt args).result read).2 inside

variable {place : CString × List Arg → Prop}

theorem comes_nil : Comes Turn place ([], args) ↔ place ([], args) := by
  apply comes_stuck
  rintro next ⟨⟩

theorem comes_literal (plain : c ≠ chr '%') :
    Comes Turn place (c :: fmt, args) ↔ place (c :: fmt, args) ∨ Comes Turn place (fmt, args) :=
  comes_next fun _ => Turn.literal_iff plain

theorem comes_directive {d : Directive} {args' args'' : List Arg}
    (read : readDirective fmt args = .ok (d, c :: rest, args')) (ran : (d.events args').2 = .ok args'') :
    Comes Turn place (chr '%' :: fmt, args) ↔ place (chr '%' :: fmt, args) ∨ Comes Turn place (rest, args'') :=
  comes_next fun _ => by simp [Turn.directive_iff, read, ran]

/-- The sink takes the events, up to a copy that reads behind its text. -/
def Taken : RWStream → List Event → Prop
  | _, [] => True
  | s, .put data :: rest => ∃ s', s.write data = .ok s' ∧ Taken s' rest
  | s, .copy source size :: rest =>
    source.length < s.reads 0 size ∨ ∃ s', s.writeFrom source size = .ok s' ∧ Taken s' rest
  | s, .count _ :: rest => (∃ position, s.tell = .ok position) ∧ Taken s rest

/-- The sink takes all that the call writes before it ends. -/
def Takes (s : RWStream) (fmt : CString) (args : List Arg) : Prop :=
  Taken s (script (fmt.length + 1) fmt args).1

/-- A sink that takes the events overruns exactly at a copy that exceeds its text. -/
theorem Taken.played (taken : Taken s' events) (same : ∀ m size, s'.reads m size = s.reads (n + m) size) :
    (Exceeds s n events ∧ play start s' events = .error .overrun) ∨
      ¬ Exceeds s n events ∧ ∃ r, play start s' events = .ok r := by
  induction events generalizing s' n with
  | nil => exact .inr ⟨id, _, rfl⟩
  | cons event events ih =>
    have moved : ∀ {data s1}, s'.write data = .ok s1 →
        ∀ m size, s1.reads m size = s.reads (n + data.length + m) size := by
      intro data s1 written m size
      rw [RWStream.write_reads written, same, Nat.add_assoc]
    cases event with
    | put data =>
      obtain ⟨s1, written, later⟩ := taken
      simp only [Exceeds, play, written, bind, Except.bind]
      exact ih later (moved written)
    | copy source size =>
      have here := same 0 size
      rw [Nat.add_zero] at here
      simp only [Exceeds, play, ← here]
      by_cases long : source.length < s'.reads 0 size
      · refine .inl ⟨.inl long, ?_⟩
        rw [RWStream.writeFrom, if_pos long]
        rfl
      · obtain ⟨s1, written, later⟩ := taken.resolve_left long
        rw [or_iff_right long, written]
        rw [RWStream.writeFrom_eq (Nat.le_of_not_lt long)] at written
        have moved := moved written
        rw [RWStream.length_extended] at moved
        exact ih later moved
    | count outs =>
      obtain ⟨⟨position, told⟩, later⟩ := taken
      simp only [Exceeds, play, told, bind, Except.bind]
      rcases ih later same with ⟨exceeds, overruns⟩ | ⟨inside, r, played⟩
      · exact .inl ⟨exceeds, by rw [overruns]⟩
      · exact .inr ⟨inside, by rw [played]; exact ⟨_, rfl⟩⟩

theorem Taken.front (taken : Taken s (events ++ more)) : Taken s events := by
  induction events generalizing s with
  | nil => trivial
  | cons event events ih =>
    cases event with
    | put data => exact taken.imp fun s1 both => ⟨both.1, ih both.2⟩
    | copy source size => exact taken.imp_right fun goes => goes.imp fun s1 both => ⟨both.1, ih both.2⟩
    | count outs => exact ⟨taken.1, ih taken.2⟩

theorem Taken.behind {stores : List Store} (taken : Taken s (events ++ more))
    (played : play start s events = .ok (s', stores)) : Taken s' more := by
  induction events generalizing s stores with
  | nil =>
    cases played
    exact taken
  | cons event events ih =>
    cases event with
    | put data =>
      obtain ⟨s1, written, later⟩ := taken
      obtain ⟨s2, written', played⟩ := bind_ok played
      cases written.symm.trans written'
      exact ih later played
    | copy source size =>
      obtain ⟨s2, written', played⟩ := bind_ok played
      rcases taken with long | ⟨s1, written, later⟩
      · rw [RWStream.writeFrom, if_pos long] at written'
        cases written'
      · cases written.symm.trans written'
        exact ih later played
    | count outs =>
      obtain ⟨position, -, played⟩ := bind_ok played
      obtain ⟨⟨s1, stores1⟩, rest, same⟩ := bind_ok played
      cases same
      exact ih taken.2 rest

theorem takes_buffer (buffered : Buffered s) (fmt : CString) (args : List Arg) : Takes s fmt args := by
  have run : ∀ (events : List Event) (s : RWStream), Buffered s → Taken s events := by
    intro events
    induction events with
    | nil => exact fun s _ => trivial
    | cons event events ih =>
      intro s buffered
      cases event with
      | put data =>
        obtain ⟨s', written, buffered'⟩ := buffered.taken data
        exact ⟨s', written, ih s' buffered'⟩
      | copy source size =>
        by_cases long : source.length < s.reads 0 size
        · exact .inl long
        · obtain ⟨s', written, buffered'⟩ := buffered.taken (RWStream.extended source size)
          exact .inr ⟨s', by rw [RWStream.writeFrom_eq (Nat.le_of_not_lt long), written], ih s' buffered'⟩
      | count outs =>
        obtain ⟨mem, target⟩ := buffered
        exact ⟨⟨_, RWStream.tell_str target⟩, ih s ⟨mem, target⟩⟩
  exact run _ _ buffered

/-- Behind two blanks five bytes have no room for more than the string and its terminator. -/
example : (vsnprintf (fun _ => 1) 5 [chr '%', chr '.', chr '*', chr 's'] [.word 0xFFFFFFFE, .str [chr 'A']]).map
    (fun r => (r.1.bytes 0 5, r.2.2)) = .ok ([space, space, chr 'A', 0, 0], 0) := rfl

end UmkaOs.Fmt
