import UmkaOs.Fmt.Snprintf

/-! What a call of `fmtvprintf` does to its sink, settled by the format and the
arguments alone: a script of writes and counts, up to a fault or to the end. -/

namespace UmkaOs.Fmt

open Lib

/-- A write, a write of `size` bytes from a text on, or the stores of a `%n` to these targets. -/
inductive Event where
  | put (data : List UInt8)
  | copy (source : List UInt8) (size : Nat)
  | count (outs : List (Nat × OutType))

/-- What the writes among the events put out. -/
def rows (events : List Event) : List (List UInt8) :=
  events.filterMap fun event =>
    match event with
    | .put data => some data
    | .copy source size => some (RWStream.extended source size)
    | .count _ => none

/-- The targets of a `%n`. -/
def takeOuts : List OutType → List Arg → Except Fault (List (Nat × OutType) × List Arg)
  | [], args => .ok ([], args)
  | type :: rest, args => do
    let (target, args) ← Arg.takeOut args
    let (outs, args) ← takeOuts rest args
    return ((target, type) :: outs, args)

/-- What a directive does, and the arguments behind it. -/
def Directive.events (d : Directive) (args : List Arg) : List Event × Except Fault (List Arg) :=
  match d.conv with
  | .count =>
    let blanks := (pad space d.width).map Event.put
    let before := if d.flags.leftjustify then [] else blanks
    match takeOuts (outTypes d.length) args with
    -- the position is asked for before the arguments are
    | .error e => (before ++ [.count []], .error e)
    | .ok (outs, args) => (before ++ .count outs :: (if d.flags.leftjustify then blanks else []), .ok args)
  | .text source size =>
    let blanks := (pad space (toInt32 (d.width - size))).map Event.put
    ((if d.flags.leftjustify then [] else blanks) ++
      .copy source (toUInt32 size) :: (if d.flags.leftjustify then blanks else []), .ok args)
  | .number num base uppercase decorated precision =>
    match numberWrites d.flags d.width num base uppercase decorated precision with
    | .error e => ([], .error e)
    | .ok writes => (writes.map Event.put, .ok args)

/-- The loop of `fmtvprintf` without its sink. -/
def script : Nat → CString → List Arg → List Event × Option Fault
  | 0, _, _ => ([], some .diverges)
  | _ + 1, [], _ => ([], none)
  | fuel + 1, c :: fmt, args =>
    if c = chr '%' then
      match readDirective fmt args with
      | .error e => ([], some e)
      | .ok (d, fmt, args) =>
        match d.events args with
        | (events, .error e) => (events, some e)
        | (events, .ok args) =>
          match fmt with
          | [] => (events, some .overrun)
          | _ :: fmt => (events ++ (script fuel fmt args).1, (script fuel fmt args).2)
    else (.put [c] :: (script fuel fmt args).1, (script fuel fmt args).2)

/-- The script on a sink. -/
def play (start : Nat) (s : RWStream) : List Event → Except Fault (RWStream × List Store)
  | [] => .ok (s, [])
  | .put data :: rest => do
    let s ← s.write data
    play start s rest
  | .copy source size :: rest => do
    let s ← s.writeFrom source size
    play start s rest
  | .count outs :: rest => do
    let position ← s.tell
    let value := wrap32 (position + (2 ^ 32 - start))
    let (s, later) ← play start s rest
    return (s, outs.map (fun out => ⟨out.1, out.2, value⟩) ++ later)

variable {s : RWStream} {start fuel : Nat} {fmt : CString} {args : List Arg} {events more : List Event}

@[simp] theorem rows_nil : rows [] = [] := rfl

@[simp] theorem rows_append : rows (events ++ more) = rows events ++ rows more := List.filterMap_append

@[simp] theorem rows_puts (writes : List (List UInt8)) : rows (writes.map Event.put) = writes := by
  induction writes with
  | nil => rfl
  | cons data rest ih => exact congrArg (data :: ·) ih

@[simp] theorem rows_put (data : List UInt8) : rows (.put data :: events) = data :: rows events := rfl

@[simp] theorem rows_copy (source : List UInt8) (size : Nat) :
    rows (.copy source size :: events) = RWStream.extended source size :: rows events := rfl

@[simp] theorem rows_count (outs : List (Nat × OutType)) : rows (.count outs :: events) = rows events := rfl

theorem play_append : play start s (events ++ more) = (do
    let x ← play start s events
    let y ← play start x.1 more
    return (y.1, x.2 ++ y.2)) := by
  induction events generalizing s with
  | nil =>
    simp only [List.nil_append, play, bind, Except.bind]
    cases play start s more <;> rfl
  | cons event events ih =>
    cases event with
    | put data =>
      simp only [List.cons_append, play, bind, Except.bind]
      cases s.write data with
      | error e => rfl
      | ok s' => exact ih
    | copy source size =>
      simp only [List.cons_append, play, bind, Except.bind]
      cases s.writeFrom source size with
      | error e => rfl
      | ok s' => exact ih
    | count outs =>
      simp only [List.cons_append, play, bind, Except.bind]
      cases s.tell with
      | error e => rfl
      | ok position =>
        simp only [ih, bind, Except.bind, pure, Except.pure]
        cases play start s events with
        | error e => rfl
        | ok x =>
          obtain ⟨s', stores⟩ := x
          dsimp only
          cases play start s' more <;> simp

theorem play_puts (writes : List (List UInt8)) :
    play start s (writes.map Event.put) = (s.writeAll writes).map (·, []) := by
  induction writes generalizing s with
  | nil => rfl
  | cons data rest ih =>
    simp only [List.map_cons, play, RWStream.writeAll, bind, Except.bind]
    cases s.write data with
    | error e => rfl
    | ok s' => exact ih

theorem map_blanks (side : Bool) (blanks : List (List UInt8)) :
    (if side then [] else blanks.map Event.put) = (if side then [] else blanks).map Event.put ∧
      (if side then blanks.map Event.put else []) = (if side then blanks else []).map Event.put := by
  cases side <;> exact ⟨rfl, rfl⟩

theorem storeCount_outs (value : Nat) (types : List OutType) (args : List Arg) :
    storeCount value types args = (takeOuts types args).map fun x =>
      (x.1.map fun out => ⟨out.1, out.2, value⟩, x.2) := by
  induction types generalizing args with
  | nil => rfl
  | cons type rest ih =>
    simp only [storeCount, takeOuts, bind, Except.bind]
    cases Arg.takeOut args with
    | error e => rfl
    | ok x =>
      simp only [ih]
      cases takeOuts rest x.2 <;> rfl

theorem runDirective_events (d : Directive) : runDirective start s d args = (do
    let x ← play start s (d.events args).1
    let args ← (d.events args).2
    return (x.1, x.2, args)) := by
  rw [runDirective, Directive.events]
  cases d.conv with
  | number num base uppercase decorated precision =>
    dsimp only
    cases numberWrites d.flags d.width num base uppercase decorated precision with
    | error e => rfl
    | ok row =>
      simp only [bind, Except.bind, play_puts]
      cases s.writeAll row <;> rfl
  | text source size =>
    obtain ⟨before, behind⟩ := map_blanks d.flags.leftjustify (pad space (toInt32 (d.width - size)))
    simp only [writeText, before, behind, play_append, play_puts, play, bind, Except.bind, pure, Except.pure]
    cases s.writeAll (if d.flags.leftjustify then [] else pad space (toInt32 (d.width - size))) with
    | error e => rfl
    | ok s1 =>
      simp only [Except.map]
      cases s1.writeFrom source (toUInt32 size) with
      | error e => rfl
      | ok s2 =>
        dsimp only
        cases s2.writeAll (if d.flags.leftjustify then pad space (toInt32 (d.width - size)) else []) <;> rfl
  | count =>
    obtain ⟨before, behind⟩ := map_blanks d.flags.leftjustify (pad space d.width)
    simp only [countChars, storeCount_outs, before, behind]
    generalize (if d.flags.leftjustify then [] else pad space d.width) = front
    generalize (if d.flags.leftjustify then pad space d.width else []) = back
    cases outs : takeOuts (outTypes d.length) args with
    | error e =>
      simp only [play_append, play_puts, play, bind, Except.bind, pure, Except.pure]
      cases s.writeAll front with
      | error e' => rfl
      | ok s' =>
        simp only [Except.map]
        cases s'.tell <;> rfl
    | ok x =>
      obtain ⟨outs, args'⟩ := x
      simp only [play_append, play_puts, play, bind, Except.bind, pure, Except.pure]
      cases s.writeAll front with
      | error e' => rfl
      | ok s' =>
        simp only [Except.map]
        cases s'.tell with
        | error e' => rfl
        | ok position =>
          simp only [List.nil_append]
          cases s'.writeAll back with
          | error e' => rfl
          | ok s'' => simp

/-- The loop plays its script, and ends as the script does. -/
theorem printLoop_script : printLoop start fuel s fmt args = (do
    let x ← play start s (script fuel fmt args).1
    match (script fuel fmt args).2 with
    | none => .ok x
    | some e => .error e) := by
  induction fuel generalizing s fmt args with
  | zero => rfl
  | succ fuel ih =>
    cases fmt with
    | nil => rfl
    | cons c fmt =>
      rw [printLoop, script]
      by_cases directive : c = chr '%'
      · rw [if_pos directive, if_pos directive]
        cases readDirective fmt args with
        | error e => rfl
        | ok x =>
          obtain ⟨d, fmt1, args1⟩ := x
          have turn := @runDirective_events s start args1 d
          simp only [bind, Except.bind] at turn ⊢
          rw [turn]
          cases run : d.events args1 with
          | mk events left =>
            cases left with
            | error e => cases play start s events <;> rfl
            | ok args2 =>
              cases fmt1 with
              | nil => cases play start s events <;> rfl
              | cons c1 fmt2 =>
                simp only [play_append, bind, Except.bind]
                cases play start s events with
                | error e => rfl
                | ok x =>
                  obtain ⟨s', stores⟩ := x
                  simp only [pure, Except.pure, advance, ih, bind, Except.bind]
                  cases play start s' (script fuel fmt2 args2).1 with
                  | error e => rfl
                  | ok y => cases (script fuel fmt2 args2).2 <;> rfl
      · rw [if_neg directive, if_neg directive]
        simp only [play, bind, Except.bind]
        cases s.write [c] with
        | error e => rfl
        | ok s' => exact ih

end UmkaOs.Fmt
