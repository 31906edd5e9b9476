import UmkaOs.Fmt.Cursor

namespace UmkaOs.Fmt

open Lib

/-- The text that a call writes. -/
def output (fmt : CString) (args : List Arg) : List UInt8 := (rows (script (fmt.length + 1) fmt args).1).flatten

/-- A place at which the loop writes: a character, or a directive other than `%n`; a `%n` writes its blanks. -/
def Loud : CString × List Arg → Prop
  | ([], _) => False
  | (c :: fmt, args) => c ≠ chr '%' ∨ ∃ head behind args', readHead fmt args = .ok (head, behind, args') ∧
      (peekc behind ≠ chr 'n' ∨ 0 < head.width)

variable {fmt rest : CString} {args args' args'' : List Arg} {fuel start : Nat} {s s' : RWStream} {c : UInt8}
  {stores : List Store} {events more : List Event}

/-- What is played is one row of writes. -/
theorem play_rows (played : play start s events = .ok (s', stores)) : s.writeAll (rows events) = .ok s' := by
  induction events generalizing s stores with
  | nil =>
    cases played
    rfl
  | cons event events ih =>
    cases event with
    | put data =>
      obtain ⟨s1, written, played⟩ := bind_ok played
      have later := ih played
      simp only [rows_put, RWStream.writeAll, written, bind, Except.bind]
      exact later
    | copy source size =>
      obtain ⟨s1, written, played⟩ := bind_ok played
      have inside : s.reads 0 size ≤ source.length := by
        by_contra long
        rw [RWStream.writeFrom, if_pos (Nat.lt_of_not_le long)] at written
        cases written
      rw [RWStream.writeFrom_eq inside] at written
      have later := ih played
      simp only [rows_copy, RWStream.writeAll, written, bind, Except.bind]
      exact later
    | count outs =>
      obtain ⟨position, -, played⟩ := bind_ok played
      obtain ⟨⟨s1, later⟩, rest, same⟩ := bind_ok played
      cases same
      exact ih rest

theorem numWrites_ne_nil (f : Flags) (width precision : Int) (num : Num) (base : Nat) (decorated : Bool)
    (numbuf : List UInt8) : numWrites f width precision num base decorated numbuf ≠ [] := by
  simp only [numWrites]
  split
  · split <;> simp
  · simp

/-- A directive writes something, unless it is a `%n` without blanks. -/
theorem directive_rows {d : Directive} (ran : (d.events args).2 = .ok args') :
    rows (d.events args).1 ≠ [] ↔ d.conv ≠ .count ∨ 0 < d.width := by
  rw [Directive.events] at ran ⊢
  cases shape : d.conv with
  | number num base upper decorated precision =>
    rw [shape] at ran
    dsimp only at ran ⊢
    cases row : numberWrites d.flags d.width num base upper decorated precision with
    | error e =>
      rw [row] at ran
      cases ran
    | ok writes =>
      have some : writes ≠ [] := by
        obtain ⟨numbuf, -, rest⟩ := bind_ok row
        split at rest
        · cases rest
        · cases rest
          exact numWrites_ne_nil _ _ _ _ _ _ _
      simp [some]
  | text data size =>
    simp
  | count =>
    rw [shape] at ran
    dsimp only at ran ⊢
    cases taken : takeOuts (outTypes d.length) args with
    | error e =>
      rw [taken] at ran
      cases ran
    | ok x =>
      have blanks : pad space d.width ≠ [] ↔ 0 < d.width := by
        rw [pad, ne_eq, List.replicate_eq_nil_iff]
        omega
      cases d.flags.leftjustify <;> simpa using blanks

theorem convert_count {decorated : Bool} {precision : Int} {length : Length} {conv : Conv}
    (made : convert decorated precision length c args = .ok (conv, args')) : conv = .count ↔ c = chr 'n' := by
  constructor
  · rintro rfl
    exact ((yields_convert decorated precision length args).result made).1
  · rintro rfl
    cases made
    rfl

theorem loud_directive {d : Directive} (read : readDirective fmt args = .ok (d, rest, args')) :
    Loud (chr '%' :: fmt, args) ↔ d.conv ≠ .count ∨ 0 < d.width := by
  rw [readDirective_head] at read
  obtain ⟨⟨head, behind, args1⟩, headed, read⟩ := bind_ok read
  obtain ⟨⟨conv, args2⟩, made, read⟩ := bind_ok read
  cases read
  simp [Loud, headed, convert_count made]

/-- The loop writes something exactly if it comes to such a place. -/
theorem script_rows (ends : (script fuel fmt args).2 = none) :
    rows (script fuel fmt args).1 ≠ [] ↔ Comes Turn Loud (fmt, args) := by
  induction fuel generalizing fmt args with
  | zero => cases ends
  | succ fuel ih =>
    cases fmt with
    | nil => simp [script, comes_nil, Loud]
    | cons c fmt =>
      by_cases directive : c = chr '%'
      · subst directive
        rw [script_turn] at ends
        cases read : readDirective fmt args with
        | error e =>
          rw [read] at ends
          cases ends
        | ok x =>
          obtain ⟨d, behind, args'⟩ := x
          rw [read] at ends
          dsimp only at ends
          cases ran : (d.events args').2 with
          | error e =>
            rw [ran] at ends
            cases ends
          | ok args'' =>
            rw [ran] at ends
            cases behind with
            | nil => cases ends
            | cons c rest =>
              rw [script_passed read ran, rows_append, comes_directive read ran, loud_directive read,
                ← directive_rows ran, ← ih ends]
              simp only [ne_eq, List.append_eq_nil_iff, not_and_or]
      · rw [comes_literal directive]
        simp [script, directive, Loud]

theorem vsnprintf_rows {dest dest' : Mem} {n : Nat} {r : Int} (run : vsnprintf dest n fmt args = .ok (dest', stores, r))
    (room : 1 ≤ n) : (script (fmt.length + 1) fmt args).2 = none ∧ r = signed32 (output fmt args).length ∧
      dest' = RWStream.printed dest 0 (min (output fmt args).length (n - 1))
        (rows (script (fmt.length + 1) fmt args).1) := by
  rw [vsnprintf, fmtvprintf] at run
  obtain ⟨⟨s', stores', written⟩, printed, run⟩ := bind_ok run
  obtain ⟨⟨s1, stores1⟩, loop, same⟩ := bind_ok printed
  cases same
  rw [printLoop_script] at loop
  obtain ⟨⟨s2, stores2⟩, played, ends⟩ := bind_ok loop
  cases fault : (script (fmt.length + 1) fmt args).2 with
  | some e =>
    rw [fault] at ends
    cases ends
  | none =>
    rw [fault] at ends
    cases ends
    have all := play_rows played
    rw [RWStream.mkStrS, RWStream.writeAll_str (by decide) room] at all
    cases all
    cases run
    refine ⟨rfl, ?_, ?_⟩
    · exact signed32_count _
    · rw [output, Nat.zero_add]

/-- The byte at the count that is returned, if it is not negative. -/
theorem printed_at (dest : Mem) (writes : List (List UInt8)) {n : Nat} (size : n < 2 ^ 32) :
    RWStream.printed dest 0 (min writes.flatten.length (n - 1)) writes
        (min (writes.flatten.length % 2 ^ 32) (n - 1)) = 0 ↔
      (writes ≠ [] ∨ dest 0 = 0) ∧ (writes.flatten.length < 2 ^ 32 ∨ n - 1 ≤ writes.flatten.length % 2 ^ 32 ∨
        writes.flatten.getD (writes.flatten.length % 2 ^ 32) 0 = 0) := by
  by_cases ends : writes.flatten.length < 2 ^ 32 ∨ n - 1 ≤ writes.flatten.length % 2 ^ 32
  · have last : min (writes.flatten.length % 2 ^ 32) (n - 1) = min writes.flatten.length (n - 1) := by omega
    have whole : writes.flatten.length < 2 ^ 32 ∨ n - 1 ≤ writes.flatten.length % 2 ^ 32 ∨
        writes.flatten.getD (writes.flatten.length % 2 ^ 32) 0 = 0 := by
      rw [← or_assoc]
      exact .inl ends
    rw [last, and_iff_left whole]
    by_cases empty : writes = []
    · subst empty
      have start : min ([] : List (List UInt8)).flatten.length (n - 1) = 0 := Nat.zero_min _
      rw [start, RWStream.printed_nil]
      simp
    · simp [RWStream.printed, empty]
  · -- the count has wrapped around, and the byte lies inside the text
    obtain ⟨long, inside⟩ := not_or.mp ends
    have some : writes ≠ [] := by
      rintro rfl
      exact long (by decide)
    have before : min (writes.flatten.length % 2 ^ 32) (n - 1) = writes.flatten.length % 2 ^ 32 := by omega
    rw [before, RWStream.printed, if_neg (by omega), RWStream.filled, if_pos ⟨Nat.zero_le _, by omega⟩, Nat.sub_zero]
    simp only [some, long, inside, ne_eq, not_false_eq_true, true_or, true_and, false_or]

/-- The byte at `min(r, n - 1)` is the terminator, exactly if something is written or the
buffer began with one, and the length of the text is an `int` or hits a zero byte again. -/
theorem terminated {dest dest' : Mem} {n : Nat} {r : Int} (run : vsnprintf dest n fmt args = .ok (dest', stores, r))
    (room : 1 ≤ n) (size : n < 2 ^ 32) :
    (0 ≤ r ∧ dest' (min r.toNat (n - 1)) = 0) ↔
      (Comes Turn Loud (fmt, args) ∨ dest 0 = 0) ∧ (output fmt args).length % 2 ^ 32 < 2 ^ 31 ∧
        ((output fmt args).length < 2 ^ 32 ∨ n - 1 ≤ (output fmt args).length % 2 ^ 32 ∨
          (output fmt args).getD ((output fmt args).length % 2 ^ 32) 0 = 0) := by
  obtain ⟨ends, rfl, rfl⟩ := vsnprintf_rows run room
  rw [← script_rows ends]
  have text : (rows (script (fmt.length + 1) fmt args).1).flatten = output fmt args := rfl
  generalize rows (script (fmt.length + 1) fmt args).1 = writes at text ⊢
  generalize output fmt args = out at text ⊢
  subst text
  rw [signed32, wrap32]
  by_cases small : writes.flatten.length % 2 ^ 32 < 2 ^ 31
  · rw [if_pos small, Int.toNat_natCast, printed_at dest writes size, and_iff_right (Int.natCast_nonneg _),
      and_iff_right small]
  · rw [if_neg small]
    constructor
    · rintro ⟨nonneg, -⟩
      omega
    · rintro ⟨-, short, -⟩
      exact absurd short small

theorem terminated_letter : ∃ dest', vsnprintf (fun _ => 1) 2 [chr 'A'] [] = .ok (dest', [], 1) ∧
    0 ≤ (1 : Int) ∧ dest' (min (1 : Int).toNat (2 - 1)) = 0 :=
  ⟨_, rfl, (terminated (rfl : vsnprintf (fun _ => 1) 2 [chr 'A'] [] = .ok (_, [], 1)) (by decide) (by decide)).mpr
    ⟨.inl ⟨_, .refl, .inl (by decide)⟩, by decide, .inl (by decide)⟩⟩

/-- The empty format and `"%n"` leave the buffer as it was. -/
theorem unterminated : vsnprintf (fun _ => 1) 4 [] [] = .ok (fun _ => 1, [], 0) ∧
    vsnprintf (fun _ => 1) 4 [chr '%', chr 'n'] [.out 0] = .ok (fun _ => 1, [⟨0, .int, 0⟩], 0) := ⟨rfl, rfl⟩

end UmkaOs.Fmt
