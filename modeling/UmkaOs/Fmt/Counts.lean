import UmkaOs.Fmt.Files
import UmkaOs.Fmt.Terminator
import UmkaOs.Vfs.Position

namespace UmkaOs.Fmt

open Lib

/-- The object of a `%n` after the store: a `size_t` converted to its type. -/
def Store.object (x : Store) : Int :=
  match x.type with
  | .schar => signed 8 x.value
  | .short => signed 16 x.value
  | .long | .ptrdiff | .int => signed32 x.value
  | .longlong | .intmax | .size => x.value

/-- The type that a length modifier stands for. -/
def countType : Length → OutType
  | .hh => .schar
  | .h => .short
  | .l => .long
  | .ll => .longlong
  | .j => .intmax
  | .z => .size
  | .t => .ptrdiff
  | .none => .int

/-- The loop of `fmtvprintf`, and the number of bytes the call has produced. -/
structure PrintState where
  s : RWStream
  fmt : CString
  args : List Arg
  produced : Nat

/-- A turn of the loop that is followed by another one. -/
inductive PrintTurn (start : Nat) : PrintState → PrintState → Prop
  | literal {s s' c fmt args produced} (plain : c ≠ chr '%') (written : s.write [c] = .ok s') :
      PrintTurn start ⟨s, c :: fmt, args, produced⟩ ⟨s', fmt, args, produced + 1⟩
  | directive {s s' fmt c rest args args' args'' d stores produced}
      (read : readDirective fmt args = .ok (d, c :: rest, args'))
      (ran : runDirective start s d args' = .ok (s', stores, args'')) :
      PrintTurn start ⟨s, chr '%' :: fmt, args, produced⟩
        ⟨s', rest, args'', produced + (rows (d.events args').1).flatten.length⟩

/-- The loop has come to a `%n`, and the next argument is a pointer. -/
structure AtCount (s : RWStream) (fmt : CString) (args : List Arg) (st : PrintState) (d : Directive) (target : Nat)
    (behind : List Arg) : Prop where
  path : Relation.ReflTransGen (PrintTurn s.supposedoffs) ⟨s, fmt, args, 0⟩ st
  here : ∃ spec rest, st.fmt = chr '%' :: spec ∧ readDirective spec st.args = .ok (d, rest, .out target :: behind)
  count : d.conv = .count

/-- The blanks of a `%n` that stand before its store. -/
def Directive.blanks (d : Directive) : List (List UInt8) := if d.flags.leftjustify then [] else pad space d.width

/-- The `%n` takes the one pointer and stores `produced` through it. -/
def StoresCount (start : Nat) (s : RWStream) (d : Directive) (target : Nat) (behind : List Arg)
    (produced : Nat) : Prop :=
  ∃ s' x, runDirective start s d (.out target :: behind) = .ok (s', [x], behind) ∧ x.target = target ∧
    x.type = countType d.length ∧ x.object = produced

/-- After `n` more bytes the position of the sink agrees with the logical offset that `fmtvprintf` starts from:
a file has stood there from the start, and a buffer has not cut anything off. -/
def InStep (s : RWStream) (n : Nat) : Prop :=
  ∃ position, s.tell = .ok position ∧ match s.target with
    | .str _ => wrap32 (max position (min (position + n) (s.size - 1))) = wrap32 (s.supposedoffs + n)
    | .file _ _ => wrap32 position = wrap32 s.supposedoffs

variable {s s' s'' : RWStream} {fmt : CString} {args behind : List Arg} {st st' : PrintState} {d : Directive}
  {target start n m : Nat} {writes : List (List UInt8)} {mem : Mem} {data : List UInt8}

/-- The sink after `n` more bytes. -/
def Advanced (n : Nat) (s s' : RWStream) : Prop :=
  match s.target with
  | .str _ => (∃ mem, s'.target = .str mem) ∧ s'.size = s.size ∧ s'.offs = max s.offs (min (s.offs + n) (s.size - 1))
  | .file v p => ∃ v', s'.target = .file v' p ∧
      (v'.streams p).map (wrap32 ·.i) = (v.streams p).map fun st => wrap32 (st.i + n)

theorem clamp_clamp {offs limit : Nat} :
    max (max offs (min (offs + n) limit)) (min (max offs (min (offs + n) limit) + m) limit) =
      max offs (min (offs + (n + m)) limit) := by
  rcases Nat.le_total offs limit with inside | beyond
  · have within : ∀ k, max offs (min (offs + k) limit) = min (offs + k) limit := fun k =>
      max_eq_right (le_min (Nat.le_add_right _ _) inside)
    rw [within, within, max_eq_right (le_min (Nat.le_add_right _ _) (min_le_right _ _))]
    omega
  · have stays : ∀ k, max offs (min k limit) = offs := fun k => max_eq_left ((min_le_right _ _).trans beyond)
    rw [stays, stays, stays]

theorem Advanced.refl (s : RWStream) : Advanced 0 s s := by
  rw [Advanced]
  cases target : s.target with
  | str mem => exact ⟨⟨mem, rfl⟩, rfl, by omega⟩
  | file v p => exact ⟨v, rfl, rfl⟩

theorem Advanced.trans (first : Advanced n s s') (second : Advanced m s' s'') : Advanced (n + m) s s'' := by
  rw [Advanced] at first ⊢
  cases target : s.target with
  | str mem =>
    rw [target] at first
    obtain ⟨⟨mem', target'⟩, size, offs⟩ := first
    rw [Advanced, target'] at second
    obtain ⟨mem'', size', offs'⟩ := second
    exact ⟨mem'', size'.trans size, by rw [offs', offs, size, clamp_clamp]⟩
  | file v p =>
    rw [target] at first
    obtain ⟨v', target', moved⟩ := first
    rw [Advanced, target'] at second
    obtain ⟨v'', target'', moved'⟩ := second
    refine ⟨v'', target'', moved'.trans ?_⟩
    cases opened : v.streams p with
    | none =>
      rw [opened] at moved
      rw [Option.map_eq_none_iff.mp moved]
      rfl
    | some st =>
      rw [opened] at moved
      obtain ⟨st', opened', same⟩ := Option.map_eq_some_iff.mp moved
      rw [opened', Option.map_some, Option.map_some]
      simp only [wrap32] at same ⊢
      congr 1
      omega

theorem advanced_write (written : s.write data = .ok s') : Advanced data.length s s' := by
  rw [Advanced]
  cases target : s.target with
  | str mem =>
    simp only [RWStream.write, target] at written
    split at written
    · rename_i empty
      cases written
      exact ⟨⟨mem, rfl⟩, rfl, by simp only [empty]; omega⟩
    · cases written
      exact ⟨⟨_, rfl⟩, rfl, RWStream.strPut_offs⟩
  | file v p =>
    simp only [RWStream.write, target] at written
    obtain ⟨⟨v', count⟩, run, same⟩ := bind_ok written
    cases same
    obtain ⟨st, w, opened, -⟩ := Vfs.vfsWrite_ok run
    obtain ⟨st', opened', -, position⟩ := Vfs.vfsWrite_position opened run
    refine ⟨v', rfl, ?_⟩
    rw [opened, opened', Option.map_some, Option.map_some, position]
    simp [wrap32]

theorem advanced_writeAll (written : s.writeAll writes = .ok s') : Advanced writes.flatten.length s s' := by
  induction writes generalizing s with
  | nil =>
    cases written
    exact .refl _
  | cons data rest ih =>
    obtain ⟨s1, first, later⟩ := bind_ok written
    rw [List.flatten_cons, List.length_append]
    exact (advanced_write first).trans (ih later)

theorem Advanced.tells (advanced : Advanced n s s') (told : ∃ position, s.tell = .ok position) :
    ∃ position, s'.tell = .ok position := by
  rw [Advanced] at advanced
  cases target : s.target with
  | str mem =>
    rw [target] at advanced
    obtain ⟨⟨mem', target'⟩, -⟩ := advanced
    exact ⟨s'.offs, RWStream.tell_str target'⟩
  | file v p =>
    rw [target] at advanced
    obtain ⟨v', target', moved⟩ := advanced
    obtain ⟨position, told⟩ := told
    simp only [RWStream.tell, target] at told
    obtain ⟨st, opened, -⟩ := bind_ok told
    rw [Vfs.stream_ok opened, Option.map_some] at moved
    obtain ⟨st', opened', -⟩ := Option.map_eq_some_iff.mp moved
    exact ⟨st'.i, RWStream.tell_file target' opened'⟩

/-- A copy, if it is one, stays within its text. -/
def Event.within : Event → Bool
  | .copy source size => size ≤ source.length
  | _ => true

/-- A file takes the events in front of a copy that is longer than its text, if it takes what they put out. -/
theorem taken_text {events : List Event} (file : ∀ m size, s.reads m size = size)
    (told : ∃ position, s.tell = .ok position)
    (written : s.writeAll (rows (events.takeWhile Event.within)) = .ok s') : Taken s events := by
  induction events generalizing s with
  | nil => trivial
  | cons event events ih =>
    have further : ∀ {data s1}, s.write data = .ok s1 →
        s1.writeAll (rows (events.takeWhile Event.within)) = .ok s' → Taken s1 events := fun first later =>
      ih (fun m size => by rw [RWStream.write_reads first, file]) ((advanced_write first).tells told) later
    cases event with
    | put data =>
      obtain ⟨s1, first, later⟩ := bind_ok written
      exact ⟨s1, first, further first later⟩
    | copy source size =>
      rw [Taken, file]
      by_cases within : size ≤ source.length
      · rw [List.takeWhile_cons_of_pos (by simpa [Event.within] using within)] at written
        obtain ⟨s1, first, later⟩ := bind_ok written
        refine .inr ⟨s1, ?_, further first later⟩
        rw [RWStream.writeFrom_eq (by rwa [file]), first]
      · exact .inl (Nat.lt_of_not_le within)
    | count outs => exact ⟨told, ih file told written⟩

/-- A file takes every call for whose text in front of such a copy it has room. -/
theorem takes_file {v : Vfs} {t : FileTree} {p : Ptr} {st : Stream} {file : File} (tree : v.Tree t)
    (opened : v.streams p = some st) (labelled : t.label? st.node = some file)
    (room : file.content.length +
      (rows ((script (fmt.length + 1) fmt args).1.takeWhile Event.within)).flatten.length < 2 ^ 32) :
    Takes (.mkFile v p) fmt args := by
  obtain ⟨v', written, -⟩ := RWStream.writeAll_file tree opened labelled (by decide : 0 < 2 ^ 32) room
  exact taken_text (fun _ _ => rfl) ⟨_, RWStream.tell_file rfl opened⟩ written

/-- A directive that is carried out has played its events. -/
theorem directive_played {stores : List Store} {args' : List Arg}
    (ran : runDirective start s d args = .ok (s', stores, args')) :
    play start s (d.events args).1 = .ok (s', stores) ∧ (d.events args).2 = .ok args' := by
  rw [runDirective_events] at ran
  obtain ⟨⟨s1, stores1⟩, played, ran⟩ := bind_ok ran
  obtain ⟨args1, left, same⟩ := bind_ok ran
  cases same
  exact ⟨played, left⟩

theorem PrintTurn.advanced (turn : PrintTurn start st st') (before : Advanced st.produced s st.s) :
    Advanced st'.produced s st'.s := by
  cases turn with
  | literal plain written => exact before.trans (advanced_write written)
  | directive read ran => exact before.trans (advanced_writeAll (play_rows (directive_played ran).1))

/-- The sink takes what is left of the call. -/
def Playable (st : PrintState) : Prop := ∃ fuel, st.fmt.length < fuel ∧ Taken st.s (script fuel st.fmt st.args).1

theorem PrintTurn.playable (turn : PrintTurn start st st') (before : Playable st) : Playable st' := by
  obtain ⟨fuel, enough, taken⟩ := before
  cases fuel with
  | zero => exact absurd enough (Nat.not_lt_zero _)
  | succ fuel =>
    cases turn with
    | @literal s s' c fmt args produced plain written =>
      rw [script, if_neg plain] at taken
      obtain ⟨s1, written', later⟩ := taken
      cases written.symm.trans written'
      exact ⟨fuel, Nat.lt_of_succ_lt_succ enough, later⟩
    | @directive s s' fmt c rest args args' args'' d stores produced read ran =>
      obtain ⟨here, left⟩ := directive_played ran
      rw [script_passed read left] at taken
      refine ⟨fuel, ?_, taken.behind here⟩
      cases outcome fmt args with
      | passed read' ran' shorter inside =>
        cases read.symm.trans read'
        exact Nat.lt_trans shorter (Nat.lt_of_succ_lt_succ enough)
      | ended stuck => exact absurd (Turn.directive read left) (stuck _)

theorem script_events {fuel : Nat} {rest : CString} {args' : List Arg}
    (read : readDirective fmt args = .ok (d, rest, args')) :
    ∃ more, (script (fuel + 1) (chr '%' :: fmt) args).1 = (d.events args').1 ++ more := by
  rw [script, if_pos rfl, read]
  cases run : d.events args' with
  | mk events left =>
    simp only [run]
    cases left with
    | error e => exact ⟨[], (List.append_nil _).symm⟩
    | ok args'' =>
      cases rest with
      | nil => exact ⟨[], (List.append_nil _).symm⟩
      | cons c rest => exact ⟨_, rfl⟩

theorem AtCount.answers (place : AtCount s fmt args st d target behind) (takes : Takes s fmt args) :
    ∃ r, play s.supposedoffs st.s (d.events (.out target :: behind)).1 = .ok r := by
  obtain ⟨fuel, enough, taken⟩ := kept (fun _ _ turn => turn.playable) place.path
    ⟨fmt.length + 1, Nat.lt_succ_self _, takes⟩
  obtain ⟨spec, rest, shape, read⟩ := place.here
  cases fuel with
  | zero => exact absurd enough (Nat.not_lt_zero _)
  | succ fuel =>
    obtain ⟨more, begins⟩ := @script_events spec st.args d fuel rest _ read
    rw [shape, begins] at taken
    have none : ¬ Exceeds st.s 0 (d.events (.out target :: behind)).1 := exceeds_plain (by simp [place.count])
    exact ((taken.front.played fun m size => by rw [Nat.zero_add]).resolve_left fun both => none both.1).2

theorem wrap32_sub_iff {position : Nat} (word : start < 2 ^ 32) :
    wrap32 (position + (2 ^ 32 - start)) = wrap32 n ↔ wrap32 position = wrap32 (start + n) := by
  simp only [wrap32]
  omega

/-- What a call on the sink would compute for a `%n`. -/
theorem inStep_iff {position : Nat} (advanced : Advanced n s s') (told : s'.tell = .ok position)
    (word : s.supposedoffs < 2 ^ 32) :
    InStep s n ↔ wrap32 (position + (2 ^ 32 - s.supposedoffs)) = wrap32 n := by
  rw [wrap32_sub_iff word]
  rw [Advanced] at advanced
  cases target : s.target with
  | str mem =>
    rw [target] at advanced
    obtain ⟨⟨mem', target'⟩, -, offs⟩ := advanced
    cases (RWStream.tell_str target').symm.trans told
    simp only [InStep, RWStream.tell_str target, target, offs, Except.ok.injEq, exists_eq_left']
  | file v p =>
    rw [target] at advanced
    obtain ⟨v', target', moved⟩ := advanced
    simp only [RWStream.tell, target'] at told
    obtain ⟨st', opened', same⟩ := bind_ok told
    cases same
    have opened' := Vfs.stream_ok opened'
    rw [opened', Option.map_some] at moved
    obtain ⟨st, opened, same⟩ := Option.map_eq_some_iff.mp moved.symm
    have stood := RWStream.tell_file target opened
    rw [← same]
    simp only [InStep, stood, target, wrap32, Except.ok.injEq, exists_eq_left']
    omega

theorem storeCount_length {value : Nat} {types : List OutType} {args' : List Arg} {stores : List Store}
    (run : storeCount value types args = .ok (stores, args')) : stores.length = types.length := by
  induction types generalizing args stores with
  | nil =>
    cases run
    rfl
  | cons type rest ih =>
    obtain ⟨x, -, run⟩ := bind_ok run
    obtain ⟨y, later, run⟩ := bind_ok run
    cases run
    rw [List.length_cons, List.length_cons, ih later]

/-- Only the `%n` without a modifier does not fall through. -/
theorem outTypes_single (length : Length) : (outTypes length).length = 1 ↔ length = .none := by
  cases length <;> decide

theorem signed32_natCast {value : Nat} : signed32 value = (n : Int) ↔ wrap32 value = n ∧ n < 2 ^ 31 := by
  rw [signed32, wrap32]
  split <;> omega

theorem count_carried {args' : List Arg} {stores : List Store} (count : d.conv = .count)
    (ran : runDirective start s d args = .ok (s', stores, args')) : ∃ s1 position, s.writeAll d.blanks = .ok s1 ∧
      s1.tell = .ok position ∧
      storeCount (wrap32 (position + (2 ^ 32 - start))) (outTypes d.length) args = .ok (stores, args') := by
  simp only [runDirective, count, countChars] at ran
  obtain ⟨s1, before, ran⟩ := bind_ok ran
  obtain ⟨position, told, ran⟩ := bind_ok ran
  obtain ⟨⟨stores', left⟩, stored, ran⟩ := bind_ok ran
  obtain ⟨s2, after, same⟩ := bind_ok ran
  cases same
  exact ⟨s1, position, before, told, stored⟩

/-- On a sink that takes its blanks, a `%n` stores the right count exactly if it has no modifier, the
count is an `int`, and the sink is in step. -/
theorem storesCount_iff (advanced : Advanced n s s') (count : d.conv = .count) (word : s.supposedoffs < 2 ^ 32)
    (answers : ∃ r, play s.supposedoffs s' (d.events (.out target :: behind)).1 = .ok r) :
    StoresCount s.supposedoffs s' d target behind (n + d.blanks.flatten.length) ↔
      d.length = .none ∧ n + d.blanks.flatten.length < 2 ^ 31 ∧ InStep s (n + d.blanks.flatten.length) := by
  constructor
  · rintro ⟨s2, x, ran, -, -, object⟩
    obtain ⟨s1, position, before, told, stored⟩ := count_carried count ran
    have plain : d.length = .none := (outTypes_single d.length).mp (storeCount_length stored).symm
    rw [plain] at stored
    cases stored
    have there := inStep_iff (advanced.trans (advanced_writeAll before)) told word
    obtain ⟨value, small⟩ := signed32_natCast.mp object
    refine ⟨plain, small, there.mpr ?_⟩
    simp only [wrap32] at value ⊢
    omega
  · rintro ⟨plain, small, there⟩
    obtain ⟨⟨s2, stores⟩, played⟩ := answers
    have outs : takeOuts (outTypes d.length) (.out target :: behind) = .ok ([(target, .int)], behind) := by
      rw [plain]
      rfl
    have ran := @runDirective_events s' s.supposedoffs (.out target :: behind) d
    rw [played] at ran
    simp only [Directive.events, count, outs, bind, Except.bind] at ran
    obtain ⟨s1, position, before, told, stored⟩ := count_carried count ran
    rw [plain] at stored
    cases stored
    refine ⟨s2, _, ran, rfl, by rw [plain]; rfl, signed32_natCast.mpr ⟨?_, small⟩⟩
    have value := (inStep_iff (advanced.trans (advanced_writeAll before)) told word).mp there
    simp only [wrap32] at value ⊢
    omega

/-- Every `%n` of a call takes one pointer and stores the number of bytes before it, exactly if
every `%n` that the loop comes to has no modifier, at most `INT_MAX` bytes before it, and a sink in step. -/
theorem count_law (takes : Takes s fmt args) (word : s.supposedoffs < 2 ^ 32) :
    (∀ st d target behind, AtCount s fmt args st d target behind →
      StoresCount s.supposedoffs st.s d target behind (st.produced + d.blanks.flatten.length)) ↔
    ∀ st d target behind, AtCount s fmt args st d target behind → d.length = .none ∧
      st.produced + d.blanks.flatten.length < 2 ^ 31 ∧ InStep s (st.produced + d.blanks.flatten.length) := by
  have each : ∀ st d target behind, AtCount s fmt args st d target behind →
      (StoresCount s.supposedoffs st.s d target behind (st.produced + d.blanks.flatten.length) ↔ d.length = .none ∧
        st.produced + d.blanks.flatten.length < 2 ^ 31 ∧ InStep s (st.produced + d.blanks.flatten.length)) := by
    intro st d target behind place
    have keeps : ∀ st st', PrintTurn s.supposedoffs st st' → Advanced st.produced s st.s →
        Advanced st'.produced s st'.s := fun _ _ turn => turn.advanced
    have advanced := kept keeps place.path (Advanced.refl s)
    exact storesCount_iff advanced place.count word (place.answers takes)
  constructor
  · exact fun law st d target behind place => (each st d target behind place).mp (law st d target behind place)
  · exact fun kind st d target behind place => (each st d target behind place).mpr (kind st d target behind place)

/-- `"a%n%d"` into a buffer. -/
theorem count_law_plain :
    Takes (.mkStr fun _ => 0) [chr 'a', chr '%', chr 'n', chr '%', chr 'd'] [.out 0, .word 7] ∧ 0 < 2 ^ 32 ∧
    ∀ st d target behind,
      AtCount (.mkStr fun _ => 0) [chr 'a', chr '%', chr 'n', chr '%', chr 'd'] [.out 0, .word 7] st d target behind →
      StoresCount 0 st.s d target behind (st.produced + d.blanks.flatten.length) := by
  have takes := @takes_buffer (.mkStr fun _ => 0) ⟨_, rfl⟩ [chr 'a', chr '%', chr 'n', chr '%', chr 'd'] [.out 0, .word 7]
  refine ⟨takes, by decide, (count_law takes (by decide)).mpr fun st d target behind place => ?_⟩
  obtain ⟨path, ⟨spec, rest, shape, read⟩, count⟩ := place
  rcases Relation.ReflTransGen.cases_head path with rfl | ⟨next, turn, path⟩
  · cases shape
  cases turn with
  | literal plain written =>
    rcases Relation.ReflTransGen.cases_head path with rfl | ⟨next, turn, path⟩
    · cases shape
      cases read
      exact ⟨rfl, (by decide : 1 < 2 ^ 31), 0, rfl, rfl⟩
    cases turn with
    | literal plain => exact absurd rfl plain
    | directive read' ran =>
      have left := (directive_played ran).2
      cases read'
      cases left
      -- what is left is the `%d`
      rcases Relation.ReflTransGen.cases_head path with rfl | ⟨next, turn, path⟩
      · cases shape
        cases read
      cases turn with
      | literal plain => exact absurd rfl plain
      | directive read' ran =>
        cases read'
        rcases Relation.ReflTransGen.cases_head path with rfl | ⟨next, turn, -⟩
        · cases shape
        · cases turn

/-- `"%hn"` asks for further pointers; a file and a full buffer stand elsewhere than at the count. -/
theorem count_mistaken :
    ¬ (∀ st d target behind, AtCount (.mkStr fun _ => 0) [chr '%', chr 'h', chr 'n'] [.out 0] st d target behind →
      StoresCount 0 st.s d target behind (st.produced + d.blanks.flatten.length)) ∧
    (fmtvprintf (.mkFile (fileOf [chr 'x'] 1) 3) [chr '%', chr 'n'] [.out 0]).map (·.2.1) = .ok [⟨0, .int, 1⟩] ∧
    (fmtvprintf (.mkStrS (fun _ => 0) 2) [chr 'a', chr 'b', chr '%', chr 'n'] [.out 0]).map (·.2.1) =
      .ok [⟨0, .int, 1⟩] := by
  refine ⟨fun law => ?_, rfl, rfl⟩
  obtain ⟨s', x, ran, -⟩ := law _ ⟨noFlags, 0, .h, .count⟩ 0 [] ⟨.refl, ⟨_, _, rfl, rfl⟩, rfl⟩
  cases ran

end UmkaOs.Fmt
