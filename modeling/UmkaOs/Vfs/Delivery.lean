import UmkaOs.Vfs.Chunks

namespace UmkaOs.Vfs

open Lib

/-- The calls on the stream `s` that neither move nor close it. -/
def Call.WritesOn (s : Ptr) : Call → Prop
  | write r _ | flush r | read r _ | hookFlush r _ _ => r = s
  | _ => False

/-- Everything a run writes, in order. -/
def written : List (Vfs × Call) → List UInt8
  | [] => []
  | (_, .write _ bytes) :: rest => bytes ++ written rest
  | _ :: rest => written rest

/-- How many hook calls had been made when the current hook was registered. -/
def registered (start : Nat) : List (Vfs × Call) → Nat
  | [] => start
  | (v, .hookFlush ..) :: rest => registered v.flushed.length rest
  | _ :: rest => registered start rest

/-- The hook that was registered last, with its data. -/
def hooked (current : Nat × Nat) : List (Vfs × Call) → Nat × Nat
  | [] => current
  | (_, .hookFlush _ flushdata hook) :: rest => hooked (hook, flushdata) rest
  | _ :: rest => hooked current rest

/-- The hook calls behind the first `start` all went to the hook of the stream, and
their buffers are the first `flushindex` bytes of `whole`. -/
structure Delivered (v : Vfs) (s : Ptr) (st : Stream) (start : Nat) (whole : List UInt8) : Prop where
  mine : ∀ c ∈ v.flushed.drop start, c.stream = s ∧ c.hook = st.flush ∧ c.flushdata = st.flushdata
  front : (v.flushed.drop start).flatMap FlushCall.buffer = whole.take st.flushindex
  below : st.flushindex ≤ whole.length

variable {v v' : Vfs} {t : FileTree} {path : CString} {s : Ptr} {st : Stream} {file : File} {start : Nat}
  {whole bytes : List UInt8} {steps more : List (Vfs × Call)} {call : Call}

theorem written_append : written (steps ++ more) = written steps ++ written more := by
  induction steps with
  | nil => rfl
  | cons step steps ih =>
    obtain ⟨v, call⟩ := step
    cases call <;> simp [written, ih]

theorem registered_append : registered start (steps ++ more) = registered (registered start steps) more := by
  induction steps generalizing start with
  | nil => rfl
  | cons step steps ih =>
    obtain ⟨v, call⟩ := step
    cases call <;> simp [registered, ih]

theorem hooked_append {current : Nat × Nat} : hooked current (steps ++ more) = hooked (hooked current steps) more := by
  induction steps generalizing current with
  | nil => rfl
  | cons step steps ih =>
    obtain ⟨v, call⟩ := step
    cases call <;> simp [hooked, ih]

/-- Where a stream stands that has written its whole file. -/
structure AtEnd (v : Vfs) (t : FileTree) (s : Ptr) (st : Stream) (start : Nat) (whole : List UInt8) : Prop where
  tree : Tree v t
  opened : v.streams s = some st
  labelled : ∃ name, t.label? st.node = some ⟨name, whole⟩
  position : st.i = whole.length
  small : whole.length < 2 ^ 32
  earlier : start ≤ v.flushed.length
  delivered : st.flush ≠ 0 → Delivered v s st start whole

/-- A flush of a hooked stream delivers what was not delivered yet. -/
theorem Tree.flushHooked (tree : Tree v t) (opened : v.streams s = some st) {name : CString}
    (labelled : t.label? st.node = some ⟨name, whole⟩) (position : st.i = whole.length) (hooked : st.flush ≠ 0)
    (earlier : start ≤ v.flushed.length) (delivered : Delivered v s st start whole) :
    ∃ v', v.vfsFlush s = .ok v' ∧ Tree v' t ∧ v'.streams s = some { st with flushindex := whole.length } ∧
      start ≤ v'.flushed.length ∧ Delivered v' s { st with flushindex := whole.length } start whole := by
  obtain ⟨n, found, _, label, _⟩ := tree.lookup (Forest.mem_of_label? labelled)
  cases labelled.symm.trans label
  obtain ⟨mine, front, below⟩ := delivered
  by_cases behind : st.flushindex < st.i
  · let call : FlushCall := ⟨s, st.flush, st.flushdata, st.flushindex, st.i - st.flushindex,
      readBytes (v.dataOf n) st.flushindex (st.i - st.flushindex)⟩
    have stored : (v.contentOf n).length ≤ (v.dataOf n).length := by
      rw [contentOf, List.length_take]
      exact Nat.min_le_right _ _
    have buffer : call.buffer = (v.contentOf n).drop st.flushindex := by
      have whole : (v.contentOf n).length = n.datasize := tree.length_content found
      dsimp only [call]
      rw [readBytes_eq (by omega), contentOf, List.drop_take]
      congr 1
      omega
    refine ⟨{ v.setStream s { st with flushindex := st.i } with flushed := v.flushed ++ [call] }, ?_,
      (tree.setStream opened _).setFlushed _, ?_, ?_, ?_⟩
    · simp only [Vfs.vfsFlush, stream, opened, hooked, behind, if_true, if_false, node, found, bind, Except.bind, pure,
        Except.pure, call]
    · rw [position]
      exact Function.update_self ..
    · simp only [List.length_append]
      omega
    · have later : (v.flushed ++ [call]).drop start = v.flushed.drop start ++ [call] :=
        List.drop_append_of_le_length earlier
      refine ⟨?_, ?_, Nat.le_refl _⟩
      · intro c member
        dsimp only at member
        rw [later, List.mem_append, List.mem_singleton] at member
        rcases member with old | rfl
        · exact mine c old
        · exact ⟨rfl, rfl, rfl⟩
      · dsimp only
        rw [later, List.flatMap_append, front, List.take_length]
        simp [buffer]
  · have done : st.flushindex = (v.contentOf n).length := by omega
    have same : { st with flushindex := (v.contentOf n).length } = st := by rw [← done]
    rw [same]
    refine ⟨v, ?_, tree, opened, earlier, mine, front, below⟩
    simp only [Vfs.vfsFlush, stream, opened, hooked, behind, if_false, bind, Except.bind, pure, Except.pure]

theorem AtEnd.flush (atEnd : AtEnd v t s st start whole) : ∃ v' st', v.vfsFlush s = .ok v' ∧
    AtEnd v' t s st' start whole ∧ (st'.flush, st'.flushdata) = (st.flush, st.flushdata) ∧
    (st'.flush ≠ 0 → st'.flushindex = whole.length) := by
  obtain ⟨tree, opened, ⟨name, labelled⟩, position, small, earlier, delivered⟩ := atEnd
  by_cases hooked : st.flush = 0
  · refine ⟨v, st, ?_, ⟨tree, opened, ⟨name, labelled⟩, position, small, earlier, delivered⟩, rfl,
      fun bad => absurd hooked bad⟩
    simp only [vfsFlush, stream, opened, hooked, if_true, bind, Except.bind, pure, Except.pure]
  · obtain ⟨v', run, tree', opened', earlier', delivered'⟩ :=
      tree.flushHooked opened labelled position hooked earlier (delivered hooked)
    exact ⟨v', _, run, ⟨tree', opened', ⟨name, labelled⟩, position, small, earlier', fun _ => delivered'⟩, rfl,
      fun _ => rfl⟩

theorem AtEnd.write (atEnd : AtEnd v t s st start whole) (room : whole.length + bytes.length < 2 ^ 32) :
    ∃ v' t' st', v.vfsWrite s bytes = .ok (v', bytes.length) ∧ AtEnd v' t' s st' start (whole ++ bytes) ∧
      (st'.flush, st'.flushdata) = (st.flush, st.flushdata) ∧ (st'.flush ≠ 0 → st'.flushindex = (whole ++ bytes).length) := by
  obtain ⟨tree, opened, ⟨name, labelled⟩, position, small, earlier, delivered⟩ := atEnd
  have member := Forest.mem_of_label? labelled
  obtain ⟨w, n, n', appended, tree', rewritten, _⟩ := @Tree.appendData v t st.node bytes tree member _ labelled room
  let moved : Stream := { st with i := wrap32 (st.i + bytes.length) }
  have openedW : w.streams s = some st := by rw [rewritten.streams]; exact opened
  have next : AtEnd (w.setStream s moved) (t.relabel st.node (File.withContent (· ++ bytes))) s moved start
      (whole ++ bytes) := by
    have flushed : (w.setStream s moved).flushed = v.flushed := rewritten.flushed
    refine ⟨tree'.setStream openedW _, Function.update_self .., ⟨name, ?_⟩, ?_, ?_, ?_, fun hooked => ?_⟩
    · rw [Forest.label?_relabel, labelled]
      rfl
    · rw [List.length_append, ← position]
      exact wrap32_of_lt (by omega)
    · rw [List.length_append]
      exact room
    · rw [flushed]
      exact earlier
    · obtain ⟨mine, front, below⟩ := delivered hooked
      refine ⟨?_, ?_, ?_⟩
      · rw [flushed]
        exact mine
      · rw [flushed, front, List.take_append_of_le_length below]
      · rw [List.length_append]
        exact Nat.le_add_right_of_le below
  obtain ⟨v', st', run, atEnd', same, all⟩ := next.flush
  refine ⟨v', _, st', ?_, atEnd', same, all⟩
  simp only [vfsWrite, stream, opened, appended, run, bind, Except.bind, pure, Except.pure, moved] at run ⊢

theorem AtEnd.read (atEnd : AtEnd v t s st start whole) (size : Nat) :
    v.vfsRead s size = .ok (v, []) := by
  obtain ⟨tree, opened, ⟨name, labelled⟩, position, small, _, _⟩ := atEnd
  have run := tree.vfsRead opened labelled small (Nat.le_of_eq position) size
  have here : min (st.i + size) whole.length = st.i := by omega
  have none : (whole.drop st.i).take size = [] := by simp [position]
  rw [run]
  simp only [here, none, setStream_self opened]

theorem AtEnd.hook (atEnd : AtEnd v t s st start whole) (flushdata : Nat) {hook : Nat} (some : hook ≠ 0) :
    ∃ v', v.vfsHookFlush s flushdata hook = .ok v' ∧
      AtEnd v' t s { st with flush := hook, flushdata := flushdata, flushindex := 0 } v.flushed.length whole := by
  obtain ⟨tree, opened, labelled, position, small, _, _⟩ := atEnd
  refine ⟨_, ?_, tree.setStream opened _, Function.update_self .., labelled, position, small, Nat.le_refl _,
    fun _ => ⟨?_, ?_, Nat.zero_le _⟩⟩
  · simp only [vfsHookFlush, stream, opened, some, if_false, bind, Except.bind, pure, Except.pure]
  · intro c member
    simp [setStream] at member
  · simp [setStream]

theorem AtEnd.step (atEnd : AtEnd v t s st start whole) (only : call.WritesOn s) (step : Step v call v') :
    ∃ t' st', AtEnd v' t' s st' (registered start [(v, call)]) (whole ++ written [(v, call)]) ∧
      (st'.flush, st'.flushdata) = hooked (st.flush, st.flushdata) [(v, call)] ∧
      ((∃ bytes, call = .write s bytes) → st'.flush ≠ 0 →
        st'.flushindex = (whole ++ written [(v, call)]).length) := by
  obtain ⟨copied, run⟩ := step
  cases call with
  | write r bytes =>
    cases only
    obtain ⟨⟨w, c⟩, wrote, done⟩ := bind_ok run
    cases done
    obtain ⟨_, _, opened, labelled, room, _⟩ := Moved.write atEnd.tree wrote
    obtain ⟨name, label⟩ := atEnd.labelled
    cases opened.symm.trans atEnd.opened
    cases labelled.symm.trans label
    obtain ⟨v', t', st', ran, next, same, all⟩ := atEnd.write room
    cases wrote.symm.trans ran
    simp only [registered, written, hooked, List.append_nil]
    exact ⟨t', st', next, same, fun _ => all⟩
  | flush r =>
    cases only
    obtain ⟨w, flushed, done⟩ := bind_ok run
    cases done
    obtain ⟨v', st', ran, next, same, all⟩ := atEnd.flush
    cases flushed.symm.trans ran
    simp only [registered, written, hooked, List.append_nil]
    exact ⟨t, st', next, same, fun bad => by cases bad.choose_spec⟩
  | read r size =>
    cases only
    cases (atEnd.read size).symm.trans run
    simp only [registered, written, hooked, List.append_nil]
    exact ⟨t, st, atEnd, rfl, fun bad => by cases bad.choose_spec⟩
  | hookFlush r flushdata hook =>
    cases only
    obtain ⟨w, hooked, done⟩ := bind_ok run
    cases done
    obtain ⟨some, _⟩ := vfsHookFlush_ok hooked
    obtain ⟨v', ran, next⟩ := atEnd.hook flushdata some
    cases hooked.symm.trans ran
    simp only [registered, written, List.append_nil]
    exact ⟨t, _, next, rfl, fun bad => by cases bad.choose_spec⟩
  | create _ => cases only
  | remove _ => cases only
  | «open» _ _ => cases only
  | close _ => cases only
  | seek _ _ _ => cases only

theorem Tree.atEnd (tree : Tree v t) (opened : v.vfsOpen path [119] = .ok (v', s)) (success : s ≠ 0) :
    ∃ t' st, AtEnd v' t' s st v'.flushed.length [] ∧ (st.flush, st.flushdata) = (0, 0) := by
  obtain ⟨t', x, name, tree', _, stream, _, label, _⟩ := tree.openedWrite opened success
  exact ⟨t', _, ⟨tree', stream, ⟨name, label⟩, rfl, Nat.two_pow_pos 32, Nat.le_refl _, fun bad => absurd rfl bad⟩, rfl⟩

/-- The calls that return: all but a write that outgrows a `size_t` and the
registration of a null hook. -/
theorem AtEnd.returns (atEnd : AtEnd v t s st start whole) (only : call.WritesOn s)
    (room : ∀ bytes, call = .write s bytes → whole.length + bytes.length < 2 ^ 32)
    (some : ∀ flushdata, call ≠ .hookFlush s flushdata 0) : ∃ v', Step v call v' := by
  cases call with
  | write r bytes =>
    cases only
    obtain ⟨v', _, _, run, _⟩ := atEnd.write (room bytes rfl)
    exact ⟨v', step_write run⟩
  | flush r =>
    cases only
    obtain ⟨v', _, run, _⟩ := atEnd.flush
    exact ⟨v', [], by simp only [Call.run, run, bind, Except.bind, pure, Except.pure]⟩
  | read r size =>
    cases only
    exact ⟨v, [], atEnd.read size⟩
  | hookFlush r flushdata hook =>
    cases only
    by_cases null : hook = 0
    · exact absurd (by rw [null]) (some flushdata)
    · obtain ⟨v', run, _⟩ := atEnd.hook flushdata null
      exact ⟨v', [], by simp only [Call.run, run, bind, Except.bind, pure, Except.pure]⟩
  | create _ => cases only
  | remove _ => cases only
  | «open» _ _ => cases only
  | close _ => cases only
  | seek _ _ _ => cases only

/-- In every run of writes, flushes, reads and registrations on a stream opened with
`"w"`, the hook is the one that was registered last, and it has been given exactly the
first `flushindex` bytes written; a write leaves nothing to deliver; and the next call
returns as long as the file stays below 2^32 bytes. -/
theorem flush_hook_delivers {v0 v1 last : Vfs} {past : List (Vfs × Call)} (init : vfsInit empty = .ok v0)
    (reached : Run Step v0 past v) (opened : v.vfsOpen path [119] = .ok (v1, s)) (success : s ≠ 0)
    (run : Run Step v1 steps last) (only : ∀ step ∈ steps, step.2.WritesOn s) :
    ∃ st, last.streams s = some st ∧ (st.flush, st.flushdata) = hooked (0, 0) steps ∧
      (st.flush ≠ 0 → Delivered last s st (registered v1.flushed.length steps) (written steps)) ∧
      (∀ front v bytes, steps = front ++ [(v, .write s bytes)] → st.flush ≠ 0 →
        st.flushindex = (written steps).length) ∧
      ∀ call : Call, call.WritesOn s →
        (∀ bytes, call = .write s bytes → (written steps).length + bytes.length < 2 ^ 32) →
        (∀ flushdata, call ≠ .hookFlush s flushdata 0) → ∃ next, Step last call next := by
  obtain ⟨t, tree⟩ : ∃ t, Tree v t := by
    rcases tree_or_gone init reached with there | gone
    · exact there
    · rcases gone.open_ok opened with ⟨_, null⟩ | ⟨writing, _⟩
      · exact absurd null success
      · exact absurd rfl writing
  have inv := @Run.history_of _ _ Step v1 last steps
    (fun v past => ∃ t st, AtEnd v t s st (registered v1.flushed.length past) (written past) ∧
      (st.flush, st.flushdata) = hooked (0, 0) past ∧
      ∀ front w bytes, past = front ++ [(w, .write s bytes)] → st.flush ≠ 0 → st.flushindex = (written past).length)
    (fun step => step.2.WritesOn s) ?_ run only [] ?_
  · obtain ⟨t, st, atEnd, hook, wrote⟩ := inv
    exact ⟨st, atEnd.opened, hook, atEnd.delivered, wrote, fun call only room some => atEnd.returns only room some⟩
  · rintro v call v' past ⟨t, st, atEnd, hook, _⟩ only step
    obtain ⟨t', st', next, hook', wrote⟩ := atEnd.step only step
    rw [← registered_append, ← written_append] at next
    rw [← written_append] at wrote
    rw [hook, ← hooked_append] at hook'
    refine ⟨t', st', next, hook', fun front w bytes same => wrote ⟨bytes, ?_⟩⟩
    have last := List.append_inj_right' same rfl
    exact congrArg Prod.snd (List.singleton_inj.mp last)
  · obtain ⟨t, st, atEnd, none⟩ := tree.atEnd opened success
    exact ⟨t, st, atEnd, none, fun front w bytes same => by simp at same⟩

theorem flush_hook_delivers_stdin : ∃ v v1 s v2 v3 st, vfsInit empty = .ok v ∧
    v.vfsOpen stdinName [119] = .ok (v1, s) ∧ Run Step v1 [(v1, .hookFlush s 5 7), (v2, .write s [1, 2])] v3 ∧
    v3.streams s = some st ∧ st.flush = 7 ∧ st.flushdata = 5 ∧ Delivered v3 s st v1.flushed.length [1, 2] ∧
    st.flushindex = 2 := by
  obtain ⟨v, v1, s, x, w, init, opened, success, _⟩ := stdin_rewritten
  obtain ⟨t, tree⟩ := tree_init init
  obtain ⟨t1, st1, atEnd1, _⟩ := tree.atEnd opened success
  obtain ⟨v2, hooked⟩ := @AtEnd.returns v1 t1 s st1 _ _ (.hookFlush s 5 7) atEnd1 rfl (fun _ bad => by cases bad)
    (fun _ bad => by cases bad)
  obtain ⟨t2, st2, atEnd2, _⟩ := atEnd1.step (show Call.WritesOn s (.hookFlush s 5 7) from rfl) hooked
  obtain ⟨v3, wrote⟩ := @AtEnd.returns v2 t2 s st2 _ _ (.write s [1, 2]) atEnd2 rfl
    (fun bytes same => by cases same; simp [written]) (fun _ bad => by cases bad)
  have run : Run Step v1 [(v1, .hookFlush s 5 7), (v2, .write s [1, 2])] v3 := .next hooked (.single wrote)
  have only : ∀ step ∈ [(v1, Call.hookFlush s 5 7), (v2, Call.write s [1, 2])], step.2.WritesOn s := by
    simp [Call.WritesOn]
  obtain ⟨st, stream, hook, delivered, all, _⟩ := flush_hook_delivers init (.stop v) opened success run only
  obtain ⟨flush, flushdata⟩ := Prod.mk.inj hook
  have some : st.flush ≠ 0 := by
    rw [flush]
    decide
  exact ⟨v, v1, s, v2, v3, st, init, opened, run, stream, flush, flushdata, delivered some,
    all [(v1, .hookFlush s 5 7)] v2 [1, 2] rfl some⟩

end UmkaOs.Vfs
