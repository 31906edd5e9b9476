import UmkaOs.Fmt.Files
import UmkaOs.Lib.Reach

namespace UmkaOs.Fmt

open Lib

/-- The streams that the three constructors make. -/
inductive Made : RWStream → Prop
  | str (mem : Mem) : Made (.mkStr mem)
  | strS {size : Nat} (mem : Mem) (word : size < 2 ^ 32) : Made (.mkStrS mem size)
  | file {v : Vfs} {p : Ptr} (word : ∀ st, v.streams p = some st → st.i < 2 ^ 32) : Made (.mkFile v p)

/-- One `peek` or `read` that returns. -/
inductive Looks : RWStream → RWStream → Prop
  | peek {s s' : RWStream} {k : Nat} {bytes : List UInt8} (run : s.peek k = .ok (s', bytes)) : Looks s s'
  | read {s s' : RWStream} {k : Nat} {bytes : List UInt8} (run : s.read k = .ok (s', bytes)) : Looks s s'

/-- What the scanning loops count on, in every state that peeks and reads lead to. -/
structure PeekLaw (s : RWStream) : Prop where
  /-- A peek shows what a read would give, and leaves the stream as it is. -/
  agrees : ∀ t, Relation.ReflTransGen Looks s t → ∀ k, t.peek k = (t.read k).map fun taken => (t, taken.2)
  /-- After a byte was shown, a read takes it. -/
  consumes : ∀ t, Relation.ReflTransGen Looks s t → ∀ u c, t.peek 1 = .ok (u, [c]) → ∃ u' position,
    t.tell = .ok position ∧ t.read 1 = .ok (u', [c]) ∧ u'.tell = .ok (wrap32 (position + 1))
  ends : ∀ t, Relation.ReflTransGen Looks s t → skipSpaces t ≠ .error .diverges ∧
    skipWhitespaces t ≠ .error .diverges ∧ readWord turns t ≠ .error .diverges

/-- A character buffer has a terminator no later than at its size. -/
def Delimited (s : RWStream) : Prop :=
  match s.target with
  | .str mem => ∃ i ≤ s.size, mem i = 0
  | .file _ _ => True

/-- A terminator is ahead, within the size; a file's position is a `size_t`. -/
def Steady (s : RWStream) : Prop :=
  match s.target with
  | .str mem => s.size < 2 ^ 32 ∧ ∃ i ≤ s.size, s.offs ≤ i ∧ mem i = 0
  | .file v p => ∀ st, v.streams p = some st → st.i < 2 ^ 32

/-- Reads of one byte each come to an end after `n` bytes at most. -/
inductive RunsOut : Nat → RWStream → Prop
  | fault {n : Nat} {s : RWStream} {e : Fault} (peek : s.peek 1 = .error e) (other : e ≠ .diverges) : RunsOut n s
  | done {n : Nat} {s : RWStream} (peek : s.peek 1 = .ok (s, [])) : RunsOut n s
  | byte {n : Nat} {s s' : RWStream} {c : UInt8} (peek : s.peek 1 = .ok (s, [c])) (read : s.read 1 = .ok (s', [c]))
      (later : RunsOut n s') : RunsOut (n + 1) s

variable {s s' t : RWStream} {n k fuel i : Nat} {mem : Mem} {v v' : Vfs} {p : Ptr} {c : UInt8} {bytes : List UInt8}

/-- Up to a terminator the size does not matter. -/
theorem strPeek_eq_strRead {limit offs : Nat} (inside : i ≤ limit) (ahead : offs ≤ i) (zero : mem i = 0) (k : Nat) :
    RWStream.strPeek mem offs k = RWStream.strRead mem limit offs k := by
  induction k generalizing offs with
  | zero => rfl
  | succ k ih =>
    rw [RWStream.strPeek, RWStream.strRead]
    by_cases here : mem offs = 0
    · rw [if_pos here, if_neg (fun both => both.2 here)]
    · have before : offs < i := Nat.lt_of_le_of_ne ahead fun same => here (same ▸ zero)
      rw [if_neg here, if_pos ⟨Nat.lt_of_lt_of_le before inside, here⟩, ih before]

/-- A read does not pass the terminator. -/
theorem strRead_ahead {limit offs : Nat} (ahead : offs ≤ i) (zero : mem i = 0) (k : Nat) :
    offs + (RWStream.strRead mem limit offs k).length ≤ i := by
  induction k generalizing offs with
  | zero => exact ahead
  | succ k ih =>
    rw [RWStream.strRead]
    split
    · rename_i goes
      have before : offs < i := Nat.lt_of_le_of_ne ahead fun same => goes.2 (same ▸ zero)
      have later := @ih (offs + 1) before
      rw [List.length_cons]
      omega
    · exact ahead

/-- A read moves the stream and nothing else, so a seek back undoes it. -/
theorem vfsRead_back {st : Stream} (opened : v.streams p = some st) (word : st.i < 2 ^ 32)
    (run : v.vfsRead p k = .ok (v', bytes)) : v'.vfsSeek p st.i 0 = .ok v := by
  obtain ⟨st', n, opened', _, _, rfl⟩ := Vfs.vfsRead_ok run
  cases opened.symm.trans opened'
  have back : wrap32 st.i = st.i := wrap32_of_lt word
  simp only [Vfs.vfsSeek, Vfs.stream, Vfs.setStream, Function.update_self, bind, Except.bind, pure, Except.pure,
    if_pos, back, Function.update_idem, ← opened, Function.update_eq_self]

/-- A stream that is not open faults alike everywhere. -/
theorem vfsTell_fault {e : Fault} (fault : v.stream p = .error e) :
    v.vfsTell p = .error e ∧ ∀ k, v.vfsRead p k = .error e := by
  simp only [Vfs.vfsTell, Vfs.vfsRead, fault, bind, Except.bind, implies_true, and_self]

theorem vfsTell_ok {st : Stream} (opened : v.stream p = .ok st) : v.vfsTell p = .ok st.i := by
  simp only [Vfs.vfsTell, opened, bind, Except.bind, pure, Except.pure]

theorem Steady.agrees (steady : Steady s) (k : Nat) : s.peek k = (s.read k).map fun taken => (s, taken.2) := by
  rw [Steady] at steady
  split at steady
  · rename_i mem target
    obtain ⟨_, i, inside, ahead, zero⟩ := steady
    simp only [RWStream.peek, RWStream.read, target, Except.map, strPeek_eq_strRead inside ahead zero]
  · rename_i v p target
    simp only [RWStream.peek, RWStream.read, target]
    cases opened : v.stream p with
    | error e =>
      obtain ⟨tell, read⟩ := vfsTell_fault opened
      rw [tell, read]
      rfl
    | ok st =>
      have word := steady st (Vfs.stream_ok opened)
      rw [vfsTell_ok opened]
      cases run : v.vfsRead p k with
      | error e => rfl
      | ok taken =>
        obtain ⟨v', bytes⟩ := taken
        simp only [bind, Except.bind, pure, Except.pure, Except.map, vfsRead_back (Vfs.stream_ok opened) word run]
        rw [← target]

theorem Steady.read (steady : Steady s) (run : s.read k = .ok (s', bytes)) : Steady s' := by
  rw [Steady] at steady
  split at steady
  · rename_i mem target
    obtain ⟨word, i, inside, ahead, zero⟩ := steady
    simp only [RWStream.read, target, Except.ok.injEq, Prod.mk.injEq] at run
    obtain ⟨rfl, -⟩ := run
    exact ⟨word, i, inside, strRead_ahead ahead zero k, zero⟩
  · rename_i v p target
    simp only [RWStream.read, target] at run
    obtain ⟨⟨v', bytes'⟩, read, done⟩ := bind_ok run
    cases done
    obtain ⟨st, _, _, _, _, rfl⟩ := Vfs.vfsRead_ok read
    intro st' opened
    cases (Function.update_self ..).symm.trans opened
    exact wrap32_lt _

theorem Steady.peek (steady : Steady s) (run : s.peek k = .ok (s', bytes)) : s' = s := by
  rw [steady.agrees] at run
  cases read : s.read k with
  | error e =>
    rw [read] at run
    cases run
  | ok taken =>
    rw [read] at run
    cases run
    rfl

theorem Steady.looks (looks : Looks s t) (steady : Steady s) : Steady t := by
  cases looks with
  | peek run => exact steady.peek run ▸ steady
  | read run => exact steady.read run

theorem Steady.moves (steady : Steady s) (run : s.read 1 = .ok (s', [c])) :
    ∃ position, s.tell = .ok position ∧ s'.tell = .ok (wrap32 (position + 1)) := by
  rw [Steady] at steady
  split at steady
  · rename_i mem target
    obtain ⟨word, i, inside, ahead, zero⟩ := steady
    simp only [RWStream.read, target, Except.ok.injEq, Prod.mk.injEq] at run
    obtain ⟨rfl, taken⟩ := run
    have before := @strRead_ahead i mem s.size s.offs ahead zero 1
    rw [taken] at before
    have small : wrap32 (s.offs + 1) = s.offs + 1 := by
      rw [List.length_singleton] at before
      exact wrap32_of_lt (by omega)
    refine ⟨s.offs, RWStream.tell_str target, ?_⟩
    rw [small, taken]
    rfl
  · rename_i v p target
    simp only [RWStream.read, target] at run
    obtain ⟨⟨v', bytes⟩, read, done⟩ := bind_ok run
    cases done
    obtain ⟨st, _, opened, _, _, rfl⟩ := Vfs.vfsRead_ok read
    have moved : (v.setStream p { st with i := wrap32 (st.i + 1) }).streams p =
        some { st with i := wrap32 (st.i + 1) } := Function.update_self ..
    exact ⟨st.i, RWStream.tell_file target opened, RWStream.tell_file rfl moved⟩

theorem runsOut_str (target : s.target = .str mem) (inside : i ≤ s.size) (ahead : s.offs ≤ i) (zero : mem i = 0)
    (left : i - s.offs = n) : RunsOut n s := by
  induction n generalizing s with
  | zero =>
    have here : s.offs = i := by omega
    exact .done (by simp only [RWStream.peek, target, RWStream.strPeek, here, zero, if_pos])
  | succ n ih =>
    by_cases here : mem s.offs = 0
    · exact .done (by simp only [RWStream.peek, target, RWStream.strPeek, here, if_pos])
    · have shown : s.peek 1 = .ok (s, [mem s.offs]) := by
        simp only [RWStream.peek, target, RWStream.strPeek, here, if_false]
      have taken : s.read 1 = .ok ({ s with offs := s.offs + 1 }, [mem s.offs]) := by
        have below : s.offs < s.size := by omega
        simp only [RWStream.read, target, RWStream.strRead, below, ne_eq, here, not_false_eq_true, and_self, if_true,
          List.length_singleton]
      have later : s.offs + 1 ≤ i := by
        rcases Nat.eq_or_lt_of_le ahead with same | less
        · exact absurd (same ▸ zero) here
        · exact less
      have less : i - (s.offs + 1) = n := by omega
      exact .byte shown taken (@ih { s with offs := s.offs + 1 } target inside later less)

theorem runsOut_file {st : Stream} {node : Node} (target : s.target = .file v p) (opened : v.streams p = some st)
    (found : v.nodes st.node = some node) (word : st.i < 2 ^ 32) (left : wrap32 (node.datasize + (2 ^ 32 - st.i)) = n) :
    RunsOut n s := by
  have steady : Steady s := by
    rw [Steady, target]
    intro st' opened'
    exact Option.some.inj (opened.symm.trans opened') ▸ word
  induction n generalizing s v st with
  | zero =>
    refine .done ?_
    simp only [steady.agrees, RWStream.read, target, Vfs.vfsRead, Vfs.stream, opened, Vfs.node, found, Vfs.readSize,
      left, Nat.zero_min, Vfs.readBytes, bind, Except.bind, pure, Except.pure, Except.map]
  | succ n ih =>
    have taken : s.read 1 = .ok ({ s with target := .file (v.setStream p { st with i := wrap32 (st.i + 1) }) p },
        [(v.dataOf node).getD st.i 0]) := by
      have one : min (n + 1) 1 = 1 := by omega
      simp only [RWStream.read, target, Vfs.vfsRead, Vfs.stream, opened, Vfs.node, found, Vfs.readSize, left, one, bind,
        Except.bind, pure, Except.pure, Vfs.readBytes]
    have less : wrap32 (node.datasize + (2 ^ 32 - wrap32 (st.i + 1))) = n := by
      simp only [wrap32] at left ⊢
      omega
    refine .byte (by rw [steady.agrees, taken]; rfl) taken ?_
    exact ih rfl (Function.update_self ..) found (wrap32_lt _) less (steady.read taken)

theorem Steady.runsOut (steady : Steady s) : ∃ n < turns, RunsOut n s := by
  have whole := steady
  rw [Steady] at steady
  split at steady
  · rename_i mem target
    obtain ⟨word, i, inside, ahead, zero⟩ := steady
    exact ⟨i - s.offs, by rw [turns]; omega, runsOut_str target inside ahead zero rfl⟩
  · rename_i v p target
    cases opened : v.streams p with
    | none =>
      have fault : v.stream p = .error (if p = 0 then .panic else .dangling) := by simp only [Vfs.stream, opened]
      have shown : s.peek 1 = .error (if p = 0 then .panic else .dangling) := by
        simp only [RWStream.peek, target, (vfsTell_fault fault).1, bind, Except.bind]
      exact ⟨0, Nat.two_pow_pos 32, .fault shown (by split <;> simp)⟩
    | some st =>
      cases found : v.nodes st.node with
      | none =>
        refine ⟨0, Nat.two_pow_pos 32, .fault ?_ (show Fault.dangling ≠ .diverges by simp)⟩
        simp only [whole.agrees, RWStream.read, target, Vfs.vfsRead, Vfs.stream, opened, Vfs.node, found, bind,
          Except.bind, Except.map]
      | some node => exact ⟨_, wrap32_lt _, runsOut_file target opened found (steady st opened) rfl⟩

theorem RunsOut.skipWhile {skipped : UInt8 → Bool} (runsOut : RunsOut n s) (enough : n < fuel) :
    Fmt.skipWhile skipped fuel s ≠ .error .diverges := by
  obtain ⟨fuel, rfl⟩ : ∃ less, fuel = less + 1 := ⟨fuel - 1, by omega⟩
  induction runsOut generalizing fuel with
  | fault peek other =>
    rw [Fmt.skipWhile, peek]
    simpa only [bind, Except.bind, ne_eq, Except.error.injEq] using other
  | done peek =>
    rw [Fmt.skipWhile, peek]
    rintro ⟨⟩
  | byte peek read _ ih =>
    rw [Fmt.skipWhile, peek]
    simp only [bind, Except.bind]
    split
    · rw [read]
      obtain ⟨fuel, rfl⟩ : ∃ less, fuel = less + 1 := ⟨fuel - 1, by omega⟩
      exact ih _ (by omega)
    · rintro ⟨⟩

theorem RunsOut.readWord (runsOut : RunsOut n s) (enough : n < fuel) : Fmt.readWord fuel s ≠ .error .diverges := by
  obtain ⟨fuel, rfl⟩ : ∃ less, fuel = less + 1 := ⟨fuel - 1, by omega⟩
  induction runsOut generalizing fuel with
  | fault peek other =>
    rw [Fmt.readWord, peek]
    simpa only [bind, Except.bind, ne_eq, Except.error.injEq] using other
  | done peek =>
    rw [Fmt.readWord, peek]
    rintro ⟨⟩
  | @byte n s s' c peek read _ ih =>
    rw [Fmt.readWord, peek]
    simp only [bind, Except.bind]
    split
    · rintro ⟨⟩
    · rw [read]
      obtain ⟨fuel, rfl⟩ : ∃ less, fuel = less + 1 := ⟨fuel - 1, by omega⟩
      have later := ih fuel (by omega)
      simp only
      cases word : Fmt.readWord (fuel + 1) s' with
      | error e =>
        rw [word] at later
        exact later
      | ok result => rintro ⟨⟩

theorem Made.steady (made : Made s) (delimited : Delimited s) : Steady s := by
  cases made with
  | str mem =>
    obtain ⟨i, inside, zero⟩ := delimited
    exact ⟨show 2 ^ 31 < 2 ^ 32 by decide, i, inside, Nat.zero_le i, zero⟩
  | strS mem word =>
    obtain ⟨i, inside, zero⟩ := delimited
    exact ⟨word, i, inside, Nat.zero_le i, zero⟩
  | file word => exact word

theorem Steady.peekLaw (steady : Steady s) : PeekLaw s := by
  have everywhere : ∀ t, Relation.ReflTransGen Looks s t → Steady t :=
    fun t path => kept (fun _ _ looks steady => steady.looks looks) path steady
  refine ⟨fun t path => (everywhere t path).agrees, fun t path u c shown => ?_, fun t path => ?_⟩
  · have steady := everywhere t path
    rw [steady.agrees] at shown
    cases taken : t.read 1 with
    | error e =>
      rw [taken] at shown
      cases shown
    | ok result =>
      obtain ⟨u', bytes⟩ := result
      rw [taken] at shown
      cases shown
      obtain ⟨position, before, after⟩ := steady.moves taken
      exact ⟨u', position, before, rfl, after⟩
  · obtain ⟨n, enough, runsOut⟩ := (everywhere t path).runsOut
    exact ⟨runsOut.skipWhile enough, runsOut.skipWhile enough, runsOut.readWord enough⟩

theorem strRead_filled {limit offs : Nat} (filled : ∀ i ≤ limit, mem i ≠ 0) (left : offs + k = limit) :
    (RWStream.strRead mem limit offs k).length = k := by
  induction k generalizing offs with
  | zero => rfl
  | succ k ih =>
    have below : offs < limit := by omega
    rw [RWStream.strRead, if_pos ⟨below, filled offs (Nat.le_of_lt below)⟩, List.length_cons,
      @ih (offs + 1) (by omega)]

/-- Without a terminator, reading up to the size leads to where a peek still
shows a byte and a read gives none. -/
theorem not_peekLaw (target : s.target = .str mem) (start : s.offs = 0)
    (filled : ∀ i ≤ s.size, mem i ≠ 0) : ¬ PeekLaw s := by
  intro law
  have whole : (RWStream.strRead mem s.size 0 s.size).length = s.size := strRead_filled filled (Nat.zero_add _)
  have run : s.read s.size = .ok ({ s with offs := s.size }, RWStream.strRead mem s.size 0 s.size) := by
    simp only [RWStream.read, target, start, whole, Nat.zero_add]
  have last := law.agrees _ (.single (.read run)) 1
  have more := filled s.size (Nat.le_refl _)
  simp only [RWStream.peek, RWStream.read, target, RWStream.strPeek, RWStream.strRead, more, if_false, Nat.lt_irrefl,
    false_and, Except.map, Except.ok.injEq, Prod.mk.injEq] at last
  cases last.2

/-- Peeks agree with reads, and the loops end, on exactly the files and the
terminated buffers. -/
theorem peekLaw_iff (made : Made s) : PeekLaw s ↔ Delimited s := by
  refine ⟨fun law => ?_, fun delimited => (made.steady delimited).peekLaw⟩
  by_contra endless
  cases made with
  | str mem => exact not_peekLaw rfl rfl (by simpa [Delimited, RWStream.mkStr] using endless) law
  | strS mem word => exact not_peekLaw rfl rfl (by simpa [Delimited, RWStream.mkStrS] using endless) law
  | file word => exact endless trivial

theorem peekLaw_iff_string : PeekLaw (.mkStr (stringOf [chr ' ', chr 'a'])) :=
  (peekLaw_iff (.str _)).mpr ⟨2, show 2 ≤ 2 ^ 31 by decide, rfl⟩

theorem skipWhile_stuck {skipped : UInt8 → Bool} (shown : s.peek 1 = .ok (s, [c])) (taken : s.read 1 = .ok (s, []))
    (goes : skipped c = true) (fuel : Nat) : Fmt.skipWhile skipped fuel s = .error .diverges := by
  induction fuel with
  | zero => rfl
  | succ fuel ih =>
    rw [Fmt.skipWhile, shown]
    simp only [bind, Except.bind, goes, if_true, taken, ih]

/-- Of two spaces in a buffer of size 1, the second is peeked at for ever. -/
theorem peek_past_size : Made (.mkStrS (stringOf [chr ' ', chr ' ']) 1) ∧
    ¬ PeekLaw (.mkStrS (stringOf [chr ' ', chr ' ']) 1) ∧
    skipSpaces (.mkStrS (stringOf [chr ' ', chr ' ']) 1) = .error .diverges := by
  refine ⟨.strS _ (by decide), not_peekLaw rfl rfl (show ∀ i ≤ 1, stringOf [chr ' ', chr ' '] i ≠ 0 by decide), ?_⟩
  obtain ⟨fuel, many⟩ : ∃ fuel, turns = fuel + 1 := ⟨2 ^ 32 - 1, by simp only [turns]; omega⟩
  rw [skipSpaces, many]
  exact @skipWhile_stuck ⟨0, 1, 1, .str (stringOf [chr ' ', chr ' '])⟩ (chr ' ') isSpace rfl rfl rfl fuel

end UmkaOs.Fmt
