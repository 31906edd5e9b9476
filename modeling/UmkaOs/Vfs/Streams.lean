import UmkaOs.Vfs.Quiet
import UmkaOs.Vfs.Calls

namespace UmkaOs.Vfs

/-- The calls on paths and streams. -/
inductive Call where
  | create (path : CString)
  | remove (path : CString)
  | open (path perm : CString)
  | close (s : Ptr)
  | seek (s : Ptr) (pos whence : Nat)
  | read (s : Ptr) (size : Nat)
  | write (s : Ptr) (bytes : List UInt8)
  | flush (s : Ptr)
  | hookFlush (s : Ptr) (flushdata hook : Nat)
  deriving DecidableEq

/-- A call, and the bytes it copies out. -/
def Call.run (v : Vfs) : Call → Except Fault (Vfs × List UInt8)
  | create path => do
    let (v, _) ← v.vfsCreate path
    return (v, [])
  | remove path => do
    let (v, _) ← v.vfsRemove path
    return (v, [])
  | .open path perm => do
    let (v, _) ← v.vfsOpen path perm
    return (v, [])
  | close s => do
    let v ← v.vfsClose s
    return (v, [])
  | seek s pos whence => do
    let v ← v.vfsSeek s pos whence
    return (v, [])
  | read s size => v.vfsRead s size
  | write s bytes => do
    let (v, _) ← v.vfsWrite s bytes
    return (v, [])
  | flush s => do
    let v ← v.vfsFlush s
    return (v, [])
  | hookFlush s flushdata hook => do
    let v ← v.vfsHookFlush s flushdata hook
    return (v, [])

/-- The file of stream `s` has a byte at `offset`. -/
def Live (v : Vfs) (s : Ptr) (offset : Nat) : Prop :=
  ∃ st n, v.streams s = some st ∧ v.nodes st.node = some n ∧ offset < n.datasize

/-- Every byte that the call copies out, and every byte it hands to a hook, is
below the size the file has then. -/
def InFile (v : Vfs) (call : Call) : Prop :=
  ∀ v' bytes, call.run v = .ok (v', bytes) →
    (∀ s size st, call = .read s size → v.streams s = some st → ∀ k < bytes.length, v.Live s (st.i + k)) ∧
    ∀ c ∈ v'.flushed.drop v.flushed.length, ∀ k < c.size, v'.Live c.stream (c.start + k)

/-- Where the stream stands and how large its file is. -/
def standing (v : Vfs) (s : Ptr) : Option (Stream × Nat) :=
  match v.streams s with
  | some st => (v.nodes st.node).map (fun n => (st, n.datasize))
  | none => none

/-- A read of something starts inside the file or at its end; what a hooked
stream still has to flush ends inside the file. -/
def Within (v : Vfs) : Call → Prop
  | .read s size => ∀ st length, v.standing s = some (st, length) → size = 0 ∨ st.i ≤ length
  | .flush s => ∀ st length, v.standing s = some (st, length) →
      st.flush = 0 ∨ st.i ≤ st.flushindex ∨ st.i ≤ length
  | .write s bytes => ∀ st length, v.standing s = some (st, length) →
      st.flush = 0 ∨ wrap32 (st.i + bytes.length) ≤ st.flushindex ∨
        wrap32 (st.i + bytes.length) ≤ length + bytes.length
  | _ => True

/-- The calls of a run, each with the state it starts from. -/
inductive Trace : Vfs → List (Vfs × Call) → Prop
  | stop (v : Vfs) : Trace v []
  | call {v v' : Vfs} {call : Call} {bytes : List UInt8} {rest : List (Vfs × Call)}
      (run : call.run v = .ok (v', bytes)) (trace : Trace v' rest) : Trace v ((v, call) :: rest)

variable {v v' : Vfs} {s p : Ptr} {st : Stream} {n : Node} {size : Nat} {bytes : List UInt8}

/-- Sizes and positions fit into a `size_t`. -/
structure Bounded (v : Vfs) : Prop where
  sized : Sized v
  positions : ∀ s st, v.streams s = some st → st.i < 2 ^ 32

theorem Bounded.quiet (bounded : Bounded v) (quiet : Quiet v v') : Bounded v' :=
  ⟨quiet.sized bounded.sized, by rw [quiet.streams]; exact bounded.positions⟩

theorem Bounded.setStream (bounded : Bounded v) (fits : st.i < 2 ^ 32) : Bounded (v.setStream s st) := by
  refine ⟨bounded.sized, fun r m found => ?_⟩
  by_cases here : r = s
  · subst here
    rw [show (v.setStream r st).streams r = some st from Function.update_self ..] at found
    cases found
    exact fits
  · exact bounded.positions r m ((Function.update_of_ne here _ _).symm.trans found)

theorem stream_ok (run : v.stream s = .ok st) : v.streams s = some st := by
  rw [stream] at run
  split at run
  · rename_i m found
    cases run
    exact found
  · cases run

theorem vfsRead_ok (run : v.vfsRead s size = .ok (v', bytes)) : ∃ st n, v.streams s = some st ∧
    v.nodes st.node = some n ∧ bytes.length = readSize n.datasize st.i size ∧
    v' = v.setStream s { st with i := wrap32 (st.i + bytes.length) } := by
  obtain ⟨st, foundS, run⟩ := bind_ok run
  obtain ⟨n, found, run⟩ := bind_ok run
  cases run
  have length : ∀ b start count, (readBytes b start count).length = count := by
    intro b start count
    induction count generalizing start with
    | zero => rfl
    | succ count ih => rw [readBytes, List.length_cons, ih]
  exact ⟨st, n, stream_ok foundS, node_ok found, length .., by rw [length]⟩

theorem vfsFlush_ok (run : v.vfsFlush s = .ok v') : ∃ st, v.streams s = some st ∧
    ((st.flush = 0 ∨ st.i ≤ st.flushindex) ∧ v' = v ∨
      st.flush ≠ 0 ∧ st.flushindex < st.i ∧ ∃ n c, v.nodes st.node = some n ∧
        c.stream = s ∧ c.start = st.flushindex ∧ c.size = st.i - st.flushindex ∧
        v' = { v.setStream s { st with flushindex := st.i } with flushed := v.flushed ++ [c] }) := by
  obtain ⟨st, foundS, run⟩ := bind_ok run
  refine ⟨st, stream_ok foundS, ?_⟩
  split at run
  · rename_i unhooked
    cases run
    exact .inl ⟨.inl unhooked, rfl⟩
  · rename_i hooked
    split at run
    · rename_i behind
      obtain ⟨n, found, run⟩ := bind_ok run
      cases run
      exact .inr ⟨hooked, behind, n, _, node_ok found, rfl, rfl, rfl, rfl⟩
    · rename_i done
      cases run
      exact .inl ⟨.inr (Nat.le_of_not_lt done), rfl⟩

theorem vfsWrite_ok {written : Nat} (run : v.vfsWrite s bytes = .ok (v', written)) : ∃ st w, v.streams s = some st ∧
    v.vfsAppendData st.node bytes = .ok w ∧
    (w.setStream s { st with i := wrap32 (st.i + bytes.length) }).vfsFlush s = .ok v' := by
  obtain ⟨st, foundS, run⟩ := bind_ok run
  obtain ⟨w, appended, run⟩ := bind_ok run
  obtain ⟨u, flushed, run⟩ := bind_ok run
  cases run
  exact ⟨st, w, stream_ok foundS, appended, flushed⟩

theorem vfsClose_ok (run : v.vfsClose s = .ok v') : ∃ st, v.streams s = some st ∧
    v' = { v with streams := Function.update v.streams s none } := by
  obtain ⟨st, found, freed⟩ := bind_ok run
  cases freed
  exact ⟨st, stream_ok found, rfl⟩

/-- A seek moves the stream, or does nothing when `whence` is none of the three. -/
theorem vfsSeek_ok {pos whence : Nat} (run : v.vfsSeek s pos whence = .ok v') : ∃ st, v.streams s = some st ∧
    (v' = v ∨ ∃ i, v' = v.setStream s { st with i := wrap32 i }) := by
  obtain ⟨st, found, moved⟩ := bind_ok run
  refine ⟨st, stream_ok found, ?_⟩
  split at moved
  · cases moved
    exact .inr ⟨_, rfl⟩
  · split at moved
    · cases moved
      exact .inr ⟨_, rfl⟩
    · split at moved
      · obtain ⟨n, _, moved⟩ := bind_ok moved
        cases moved
        exact .inr ⟨_, rfl⟩
      · cases moved
        exact .inl rfl

theorem vfsHookFlush_ok {flushdata hook : Nat} (run : v.vfsHookFlush s flushdata hook = .ok v') : hook ≠ 0 ∧
    ∃ st, v.streams s = some st ∧
      v' = v.setStream s { st with flush := hook, flushdata := flushdata, flushindex := 0 } := by
  obtain ⟨st, found, hooked⟩ := bind_ok run
  by_cases null : hook = 0
  · simp only [null, if_true] at hooked
    cases hooked
  · simp only [null, if_false] at hooked
    cases hooked
    exact ⟨null, st, stream_ok found, rfl⟩

theorem Bounded.flush (bounded : Bounded v) (run : v.vfsFlush s = .ok v') : Bounded v' := by
  obtain ⟨st, found, ⟨_, same⟩ | ⟨_, _, n, c, _, _, _, _, same⟩⟩ := vfsFlush_ok run
  · exact same ▸ bounded
  · subst same
    have moved := @Bounded.setStream v s { st with flushindex := st.i } bounded (bounded.positions s st found)
    exact ⟨moved.sized, moved.positions⟩

/-- Opening is quiet but for the new stream, which starts at 0. -/
theorem vfsOpen_ok {path perm : CString} (run : v.vfsOpen path perm = .ok (v', p)) :
    Quiet v v' ∧ p = 0 ∨ ∃ w x, Quiet v w ∧ v' = (w.newStream ⟨x, 0, 0, 0, 0⟩).1 ∧ p = w.next := by
  rw [vfsOpen] at run
  split at run
  · cases run
    exact .inl ⟨.refl _, rfl⟩
  · rename_i write _
    obtain ⟨⟨v1, x⟩, found, run⟩ := bind_ok run
    have quiet := quiet_vfsGetPath found
    have ending : ∀ (v2 : Vfs) (y : Ptr), Quiet v v2 → (if y = 0 then pure (v2, 0) else
        (if write then v2.vfsClearData y else .ok v2) >>= fun v3 => pure (v3.newStream ⟨y, 0, 0, 0, 0⟩) :
          Except Fault (Vfs × Ptr)) = .ok (v', p) →
        Quiet v v' ∧ p = 0 ∨ ∃ w x, Quiet v w ∧ v' = (w.newStream ⟨x, 0, 0, 0, 0⟩).1 ∧ p = w.next := by
      intro v2 y quiet run
      split at run
      · cases run
        exact .inl ⟨quiet, rfl⟩
      · obtain ⟨v3, cut, made⟩ := bind_ok run
        cases made
        refine .inr ⟨v3, y, quiet.trans ?_, rfl, rfl⟩
        split at cut
        · exact quiet_vfsClearData cut
        · cases cut
          exact .refl _
    dsimp only at run
    split at run
    · obtain ⟨⟨v2, y⟩, made, run⟩ := bind_ok run
      refine ending v2 y (quiet.trans (quiet_vfsCreate_ made)) ?_
      cases write <;> exact run
    · refine ending v1 x quiet ?_
      cases write <;> exact run

theorem Bounded.open {path perm : CString} (bounded : Bounded v) (run : v.vfsOpen path perm = .ok (v', p)) :
    Bounded v' := by
  rcases vfsOpen_ok run with ⟨quiet, _⟩ | ⟨w, x, quiet, same, _⟩
  · exact bounded.quiet quiet
  · rw [same]
    have moved := @Bounded.setStream w w.next ⟨x, 0, 0, 0, 0⟩ (bounded.quiet quiet) (Nat.two_pow_pos 32)
    exact ⟨moved.sized, moved.positions⟩

theorem Bounded.step {call : Call} (bounded : Bounded v) (run : call.run v = .ok (v', bytes)) : Bounded v' := by
  cases call with
  | create path =>
    obtain ⟨⟨w, c⟩, made, done⟩ := bind_ok run
    cases done
    exact bounded.quiet (quiet_vfsCreate made)
  | remove path =>
    obtain ⟨⟨w, c⟩, removed, done⟩ := bind_ok run
    cases done
    exact bounded.quiet (quiet_vfsRemove removed)
  | «open» path perm =>
    obtain ⟨⟨w, c⟩, opened, done⟩ := bind_ok run
    cases done
    exact bounded.open opened
  | close s =>
    obtain ⟨w, closed, done⟩ := bind_ok run
    cases done
    obtain ⟨_, _, same⟩ := vfsClose_ok closed
    subst same
    refine ⟨bounded.sized, fun r st found => ?_⟩
    by_cases here : r = s
    · subst here
      have gone : Function.update v.streams r none r = none := Function.update_self ..
      cases gone.symm.trans found
    · exact bounded.positions r st ((Function.update_of_ne here _ _).symm.trans found)
  | seek s pos whence =>
    obtain ⟨w, moved, done⟩ := bind_ok run
    cases done
    obtain ⟨st, found, same | ⟨i, same⟩⟩ := vfsSeek_ok moved
    · exact same ▸ bounded
    · exact same ▸ bounded.setStream (wrap32_lt _)
  | read s size =>
    obtain ⟨st, n, _, _, _, same⟩ := vfsRead_ok run
    rw [same]
    exact bounded.setStream (wrap32_lt _)
  | write s bytes =>
    obtain ⟨⟨w, c⟩, written, done⟩ := bind_ok run
    cases done
    obtain ⟨st, w, _, appended, flushed⟩ := vfsWrite_ok written
    exact ((bounded.quiet (vfsAppendData_ok appended).1).setStream (wrap32_lt _)).flush flushed
  | flush s =>
    obtain ⟨w, flushed, done⟩ := bind_ok run
    cases done
    exact bounded.flush flushed
  | hookFlush s flushdata hook =>
    obtain ⟨w, hooked, done⟩ := bind_ok run
    cases done
    obtain ⟨_, st, found, same⟩ := vfsHookFlush_ok hooked
    exact same ▸ bounded.setStream (bounded.positions s st found)

theorem standing_of {w : Vfs} (foundS : w.streams s = some st) (found : w.nodes st.node = some n) :
    w.standing s = some (st, n.datasize) := by
  simp [standing, foundS, found]

/-- The unsigned difference is right exactly up to the end of the file. -/
theorem readSize_iff {datasize i : Nat} (sized : datasize < 2 ^ 32) (bound : i < 2 ^ 32) :
    (∀ k < readSize datasize i size, i + k < datasize) ↔ size = 0 ∨ i ≤ datasize := by
  have exact' : i ≤ datasize → readSize datasize i size = min (datasize - i) size := by
    intro inside
    rw [readSize, wrap32]
    congr 1
    omega
  constructor
  · intro all
    by_cases inside : i ≤ datasize
    · exact .inr inside
    · left
      have beyond : readSize datasize i size = min (datasize + (2 ^ 32 - i)) size := by
        rw [readSize, wrap32_of_lt (by omega)]
      by_contra some
      have := all 0 (by omega)
      omega
  · rintro (none | inside) k below
    · simp [readSize, none] at below
    · rw [exact' inside] at below
      omega

theorem flush_iff (run : v.vfsFlush s = .ok v') :
    (∀ c ∈ v'.flushed.drop v.flushed.length, ∀ k < c.size, v'.Live c.stream (c.start + k)) ↔
      ∀ st length, v.standing s = some (st, length) → st.flush = 0 ∨ st.i ≤ st.flushindex ∨ st.i ≤ length := by
  obtain ⟨st, foundS, ⟨idle, same⟩ | ⟨hooked, behind, n, c, found, stream, start, count, same⟩⟩ := vfsFlush_ok run
  · subst same
    simp only [List.drop_length, List.not_mem_nil, false_implies, implies_true, true_iff]
    intro st' length stands
    have : st' = st := by
      cases missing : v'.nodes st.node <;> simp_all [standing]
    rcases idle with unhooked | done
    · exact .inl (this ▸ unhooked)
    · exact .inr (.inl (this ▸ done))
  · subst same
    have moved : Function.update v.streams s (some { st with flushindex := st.i }) s =
      some { st with flushindex := st.i } := Function.update_self ..
    simp only [List.drop_left, List.mem_singleton, forall_eq, standing_of foundS found, Option.some.injEq,
      Prod.mk.injEq]
    constructor
    · rintro all _ _ ⟨rfl, rfl⟩
      obtain ⟨st', n', foundS', found', below⟩ := all (c.size - 1) (by omega)
      rw [stream] at foundS'
      cases moved.symm.trans foundS'
      cases found.symm.trans found'
      omega
    · intro inside k below
      refine ⟨{ st with flushindex := st.i }, n, by rw [stream]; exact moved, found, ?_⟩
      rcases inside st n.datasize ⟨rfl, rfl⟩ with unhooked | done | fits
      · exact absurd unhooked hooked
      · omega
      · omega

/-- What a call that returns has read and flushed. -/
theorem inFile_of_run {call : Call} (run : call.run v = .ok (v', bytes)) : InFile v call ↔
    (∀ s size st, call = .read s size → v.streams s = some st → ∀ k < bytes.length, v.Live s (st.i + k)) ∧
      ∀ c ∈ v'.flushed.drop v.flushed.length, ∀ k < c.size, v'.Live c.stream (c.start + k) := by
  constructor
  · exact fun all => all v' bytes run
  · intro both w bs ran
    cases run.symm.trans ran
    exact both

theorem inFile_silent {call : Call} (run : call.run v = .ok (v', bytes)) (none : v'.flushed = v.flushed)
    (other : ∀ s size, call ≠ .read s size) (within : Within v call) : InFile v call ↔ Within v call := by
  rw [inFile_of_run run, none]
  simp [other, within]

theorem inFile_read (bounded : Bounded v) (run : v.vfsRead s size = .ok (v', bytes)) :
    InFile v (.read s size) ↔ Within v (.read s size) := by
  have only := @inFile_of_run v v' bytes (.read s size) run
  obtain ⟨st, n, foundS, found, count, same⟩ := vfsRead_ok run
  have none : v'.flushed = v.flushed := by rw [same]; rfl
  have range := @readSize_iff size n.datasize st.i (bounded.sized _ n found) (bounded.positions s st foundS)
  rw [only, none, count]
  simp only [Within, standing_of foundS found, List.drop_length, List.not_mem_nil, false_implies, implies_true,
    and_true, Option.some.injEq, Prod.mk.injEq]
  constructor
  · rintro all _ _ ⟨rfl, rfl⟩
    refine range.mp (fun k below => ?_)
    obtain ⟨st', n', foundS', found', inside⟩ := all s size st rfl foundS k below
    cases foundS.symm.trans foundS'
    cases found.symm.trans found'
    exact inside
  · rintro inside _ _ st' ⟨⟩ foundS' k below
    cases foundS.symm.trans foundS'
    exact ⟨st, n, foundS, found, range.mpr (inside st n.datasize ⟨rfl, rfl⟩) k below⟩

theorem inFile_write {written : List UInt8} (run : (Call.write s written).run v = .ok (v', bytes)) :
    InFile v (.write s written) ↔ Within v (.write s written) := by
  have only := inFile_of_run run
  obtain ⟨⟨u, c⟩, wrote, done⟩ := bind_ok run
  cases done
  obtain ⟨st, w, foundS, appended, flushed⟩ := vfsWrite_ok wrote
  obtain ⟨quiet, n, data, found, fits, nodes⟩ := vfsAppendData_ok appended
  have flush := flush_iff flushed
  have stands := @standing_of s { st with i := wrap32 (st.i + written.length) }
    { n with data := data, datasize := n.datasize + written.length }
    (w.setStream s { st with i := wrap32 (st.i + written.length) }) (Function.update_self ..)
    ((congrFun nodes _).trans (Function.update_self ..))
  have before : (w.setStream s { st with i := wrap32 (st.i + written.length) }).flushed = v.flushed :=
    quiet.flushed
  rw [before, stands] at flush
  rw [only]
  simp only [reduceCtorEq, false_implies, implies_true, true_and, flush, Within, standing_of foundS found,
    Option.some.injEq, Prod.mk.injEq]
  constructor
  · rintro all _ _ ⟨rfl, rfl⟩
    exact all _ _ ⟨rfl, rfl⟩
  · rintro all _ _ ⟨rfl, rfl⟩
    exact all _ _ ⟨rfl, rfl⟩

/-- One call stays in the file exactly under its condition. -/
theorem inFile_iff {call : Call} (bounded : Bounded v) (run : call.run v = .ok (v', bytes)) :
    InFile v call ↔ Within v call := by
  have silent := inFile_silent run
  have only := inFile_of_run run
  cases call with
  | create path =>
    obtain ⟨⟨w, c⟩, made, done⟩ := bind_ok run
    cases done
    exact silent (quiet_vfsCreate made).flushed (by simp) trivial
  | remove path =>
    obtain ⟨⟨w, c⟩, removed, done⟩ := bind_ok run
    cases done
    exact silent (quiet_vfsRemove removed).flushed (by simp) trivial
  | «open» path perm =>
    obtain ⟨⟨w, c⟩, opened, done⟩ := bind_ok run
    cases done
    refine silent ?_ (by simp) trivial
    rcases vfsOpen_ok opened with ⟨quiet, _⟩ | ⟨u, x, quiet, same, _⟩
    · exact quiet.flushed
    · exact same ▸ quiet.flushed
  | close s =>
    obtain ⟨w, closed, done⟩ := bind_ok run
    cases done
    obtain ⟨_, _, same⟩ := vfsClose_ok closed
    exact silent (by rw [same]) (by simp) trivial
  | seek s pos whence =>
    obtain ⟨w, moved, done⟩ := bind_ok run
    cases done
    refine silent ?_ (by simp) trivial
    obtain ⟨st, found, same | ⟨i, same⟩⟩ := vfsSeek_ok moved <;> rw [same]
    rfl
  | read s size => exact inFile_read bounded run
  | write s bytes => exact inFile_write run
  | flush s =>
    obtain ⟨w, flushed, done⟩ := bind_ok run
    cases done
    rw [only, flush_iff flushed]
    simp [Within]
  | hookFlush s flushdata hook =>
    obtain ⟨w, hooked, done⟩ := bind_ok run
    cases done
    obtain ⟨_, st, _, same⟩ := vfsHookFlush_ok hooked
    exact silent (by rw [same]; rfl) (by simp) trivial

theorem Trace.bounded {steps : List (Vfs × Call)} (trace : Trace v steps) (bounded : Bounded v) :
    ∀ step ∈ steps, Bounded step.1 ∧ ∃ v' bytes, step.2.run step.1 = .ok (v', bytes) := by
  induction trace with
  | stop => simp
  | call run _ ih =>
    intro step member
    rcases List.mem_cons.mp member with here | later
    · subst here
      exact ⟨bounded, _, _, run⟩
    · exact ih (bounded.step run) step later

theorem bounded_empty : Bounded empty := ⟨fun _ _ found => (by cases found), fun _ _ found => (by cases found)⟩

/-- In every run after `vfsInit` the accesses of all calls lie in their files
exactly if each call meets its condition. -/
theorem accesses_in_file_iff {steps : List (Vfs × Call)} (init : vfsInit empty = .ok v) (trace : Trace v steps) :
    (∀ step ∈ steps, InFile step.1 step.2) ↔ ∀ step ∈ steps, Within step.1 step.2 := by
  have runs := trace.bounded (bounded_empty.quiet (quiet_vfsInit init))
  constructor
  · intro all step member
    obtain ⟨bounded, _, _, run⟩ := runs step member
    exact (inFile_iff bounded run).mp (all step member)
  · intro all step member
    obtain ⟨bounded, _, _, run⟩ := runs step member
    exact (inFile_iff bounded run).mpr (all step member)

theorem open_stdin : ∃ v v1 s x n, vfsInit empty = .ok v ∧ (Call.open stdinName [114]).run v = .ok (v1, []) ∧
    v1.streams s = some ⟨x, 0, 0, 0, 0⟩ ∧ v1.nodes x = some n ∧ n.datasize = 0 := by
  obtain ⟨v, a, b, c, init, tree, root⟩ := vfsInit_tree
  obtain ⟨v1, s, opened, tree1, _, made⟩ := @Tree.vfsOpen v (initTree a b c) stdinName [114] tree false rfl
    (by decide) (fun write => by cases write)
  rw [root] at tree1 made
  obtain ⟨stream, _⟩ : v1.streams s = some ⟨a, 0, 0, 0, 0⟩ ∧ v.next ≤ s := made
  obtain ⟨n, found, _, label, _⟩ := tree1.lookup (q := a) (by simp [FileTree.openFile, initTree])
  have other : (1 : Ptr) ≠ a := fun same => by
    have distinct := tree.distinct
    simp [initTree, Lib.Forest.ids, same] at distinct
  have empty : v1.contentOf n = [] := by
    simp [FileTree.openFile, initTree, Lib.Forest.label?, other] at label
    exact label.2
  have length := tree1.length_content found
  refine ⟨v, v1, s, a, n, init, ?_, stream, found, by rw [← length, empty]; rfl⟩
  simp only [Call.run, opened, bind, Except.bind, pure, Except.pure]

theorem accesses_in_file_iff_open : ∃ v v1 s, vfsInit empty = .ok v ∧
    (∀ step ∈ [(v, Call.open stdinName [114]), (v1, Call.read s 1)], InFile step.1 step.2) := by
  obtain ⟨v, v1, s, x, n, init, opened, stream, found, empty⟩ := open_stdin
  have read : (Call.read s 1).run v1 = .ok (v1.setStream s ⟨x, 0, 0, 0, 0⟩, []) := by
    simp [Call.run, vfsRead, Vfs.stream, stream, node, found, empty, readSize, readBytes, wrap32, bind, Except.bind,
      pure, Except.pure]
  refine ⟨v, v1, s, init, (accesses_in_file_iff init (.call opened (.call read (.stop _)))).mpr ?_⟩
  simp [Within, standing_of stream found]

/-- Seeking one byte past the end of an empty file and reading one byte copies
the byte behind the file. -/
theorem read_past_end : ∃ v v1 v2 s, vfsInit empty = .ok v ∧
    Trace v [(v, .open stdinName [114]), (v1, .seek s 1 0), (v2, .read s 1)] ∧ ¬ InFile v2 (.read s 1) := by
  obtain ⟨v, v1, s, x, n, init, opened, stream, found, empty⟩ := open_stdin
  let v2 := v1.setStream s ⟨x, 0, 0, 0, 1⟩
  have stream2 : v2.streams s = some ⟨x, 0, 0, 0, 1⟩ := Function.update_self ..
  have sought : (Call.seek s 1 0).run v1 = .ok (v2, []) := by
    simp [Call.run, vfsSeek, Vfs.stream, stream, v2, bind, Except.bind, pure, Except.pure]
  have read : (Call.read s 1).run v2 = .ok (v2.setStream s ⟨x, 0, 0, 0, 2⟩, [(v2.dataOf n).getD 1 0]) := by
    simp only [Call.run, vfsRead, Vfs.stream, stream2, node, show v2.nodes x = some n from found, empty, bind,
      Except.bind, pure, Except.pure]
    rfl
  have bounded := ((bounded_empty.quiet (quiet_vfsInit init)).step opened).step sought
  refine ⟨v, v1, v2, s, init, .call opened (.call sought (.call read (.stop _))), fun all => ?_⟩
  rcases (inFile_iff bounded read).mp all _ _ (standing_of stream2 found) with none | fits
  · cases none
  · simp [empty] at fits

end UmkaOs.Vfs
