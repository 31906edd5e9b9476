import UmkaOs.Vfs.Chunks

namespace UmkaOs.Vfs

open Lib

/-- After `vfsSeek(s, p, 0)` and `vfsWrite(s, bytes)`, the bytes stand in the file `x`
from `p` on, the rest of its old content is kept, and seeking back reads them again. -/
def WritesAt (v : Vfs) (s x : Ptr) (old : List UInt8) (p : Nat) (bytes : List UInt8) : Prop :=
  ∃ v1 v2 v3 v4 n, v.vfsSeek s p 0 = .ok v1 ∧ v1.vfsWrite s bytes = .ok (v2, bytes.length) ∧
    v2.contentAt x = some (old.take p ++ bytes ++ old.drop (p + bytes.length)) ∧
    v2.nodes x = some n ∧ n.datasize = max old.length (p + bytes.length) ∧
    v2.vfsTell s = .ok (p + bytes.length) ∧
    v2.vfsSeek s p 0 = .ok v3 ∧ v3.vfsRead s bytes.length = .ok (v4, bytes)

variable {v v' : Vfs} {t : FileTree} {s : Ptr} {st : Stream} {file : File} {old bytes : List UInt8} {p : Nat}

theorem vfsSeek_set (opened : v.streams s = some st) (small : p < 2 ^ 32) :
    v.vfsSeek s p 0 = .ok (v.setStream s { st with i := p }) := by
  simp only [vfsSeek, stream, opened, bind, Except.bind, if_true, wrap32_of_lt small, pure, Except.pure]

/-- Where a write leaves its stream. -/
theorem vfsWrite_position {written : Nat} (opened : v.streams s = some st)
    (run : v.vfsWrite s bytes = .ok (v', written)) :
    ∃ st', v'.streams s = some st' ∧ st'.node = st.node ∧ st'.i = wrap32 (st.i + bytes.length) := by
  obtain ⟨st1, w, opened1, _, flushed⟩ := vfsWrite_ok run
  cases opened.symm.trans opened1
  let moved : Stream := { st with i := wrap32 (st.i + bytes.length) }
  have openedM : (w.setStream s moved).streams s = some moved := Function.update_self ..
  obtain ⟨st2, opened2, ⟨_, rfl⟩ | ⟨_, _, n, c, _, _, _, _, rfl⟩⟩ := vfsFlush_ok flushed
  · exact ⟨moved, openedM, rfl, rfl⟩
  · cases openedM.symm.trans opened2
    exact ⟨_, Function.update_self .., rfl, rfl⟩

/-- What a write does, wherever the stream stands. -/
theorem Tree.write_appends (tree : Tree v t) (opened : v.streams s = some st) (labelled : t.label? st.node = some file)
    (bytes : List UInt8) (room : file.content.length + bytes.length < 2 ^ 32) :
    ∃ v' t' st', v.vfsWrite s bytes = .ok (v', bytes.length) ∧ Tree v' t' ∧
      t'.label? st.node = some ⟨file.name, file.content ++ bytes⟩ ∧ v'.streams s = some st' ∧ st'.node = st.node ∧
      st'.i = wrap32 (st.i + bytes.length) := by
  obtain ⟨v', run, tree', _⟩ := tree.vfsWrite opened labelled room
  obtain ⟨st', opened', node, position⟩ := vfsWrite_position opened run
  refine ⟨v', _, st', run, tree', ?_, opened', node, position⟩
  rw [Forest.label?_relabel, labelled]
  rfl

theorem Tree.datasize (tree : Tree v t) {x : Ptr} (labelled : t.label? x = some file) :
    ∃ n, v.nodes x = some n ∧ n.datasize = file.content.length := by
  obtain ⟨n, found, _, label, _⟩ := tree.lookup (Forest.mem_of_label? labelled)
  cases labelled.symm.trans label
  exact ⟨n, found, (tree.length_content found).symm⟩

/-- Appending is writing at the position exactly at the end of the file. -/
theorem Tree.writesAt_iff (tree : Tree v t) (opened : v.streams s = some st) (labelled : t.label? st.node = some file)
    (small : file.content.length < 2 ^ 32) (inside : p ≤ file.content.length)
    (bytes : List UInt8) :
    WritesAt v s st.node file.content p bytes ↔
      bytes = [] ∨ p = file.content.length ∧ file.content.length + bytes.length < 2 ^ 32 := by
  have sought := vfsSeek_set opened (Nat.lt_of_le_of_lt inside small)
  have treeS := tree.setStream opened { st with i := p }
  have openedS : (v.setStream s { st with i := p }).streams s = some { st with i := p } := Function.update_self ..
  by_cases room : file.content.length + bytes.length < 2 ^ 32
  · obtain ⟨v2, t2, st2, written, tree2, label2, opened2, node2, position2⟩ :=
      treeS.write_appends openedS labelled bytes room
    have content := tree2.contentAt st.node
    rw [label2, Option.map_some] at content
    obtain ⟨n2, found2, size2⟩ := tree2.datasize label2
    rw [wrap32_of_lt (by dsimp only; omega)] at position2
    constructor
    · rintro ⟨v1, w2, _, _, m, seek, write, _, found, size, _⟩
      cases sought.symm.trans seek
      cases written.symm.trans write
      cases found2.symm.trans found
      rw [size, List.length_append] at size2
      by_cases some : bytes = []
      · exact .inl some
      · have longer := List.length_pos_iff_ne_nil.mpr some
        exact .inr ⟨by omega, room⟩
    · intro condition
      have front : file.content.take p ++ bytes ++ file.content.drop (p + bytes.length) = file.content ++ bytes := by
        rcases condition with rfl | ⟨rfl, _⟩
        · simp
        · simp
      have size : n2.datasize = max file.content.length (p + bytes.length) := by
        rw [size2, List.length_append]
        rcases condition with rfl | ⟨rfl, _⟩
        · simpa using inside
        · omega
      have below : p < 2 ^ 32 := Nat.lt_of_le_of_lt inside small
      have back := vfsSeek_set opened2 below
      rw [← node2] at label2
      have opened3 : (v2.setStream s { st2 with i := p }).streams s = some { st2 with i := p } :=
        Function.update_self ..
      have read := (tree2.setStream opened2 { st2 with i := p }).vfsRead opened3 label2 (by simpa using room)
        (by simp; omega) bytes.length
      have again : ((file.content ++ bytes).drop p).take bytes.length = bytes := by
        rcases condition with rfl | ⟨rfl, _⟩
        · simp
        · simp
      rw [again] at read
      refine ⟨_, v2, _, _, n2, sought, written, by rw [content, front], found2, size, ?_, back, read⟩
      simp only [vfsTell, stream, opened2, position2, bind, Except.bind, pure, Except.pure]
  · have overrun := treeS.vfsWrite_long openedS labelled (Nat.le_of_not_lt room)
    constructor
    · rintro ⟨v1, w2, _, _, _, seek, write, _⟩
      cases sought.symm.trans seek
      cases overrun.symm.trans write
    · rintro (rfl | ⟨_, fits⟩)
      · exact absurd small (by simpa using room)
      · exact absurd fits room

theorem bounded_run {v0 : Vfs} {steps : List (Vfs × Call)} (init : vfsInit empty = .ok v0)
    (run : Run Step v0 steps v) : Bounded v := by
  refine run.invariant (fun bounded step => ?_) (bounded_empty.quiet (quiet_vfsInit init))
  obtain ⟨bytes, ran⟩ := step
  exact bounded.step ran

/-- After every run, a write at a position inside a file does what it should exactly
if there is nothing to write, or the position is the end and the file may grow. -/
theorem write_at_position_iff {v0 : Vfs} {steps : List (Vfs × Call)} (init : vfsInit empty = .ok v0)
    (run : Run Step v0 steps v) (opened : v.streams s = some st) (stored : v.contentAt st.node = some old)
    (inside : p ≤ old.length) (bytes : List UInt8) :
    WritesAt v s st.node old p bytes ↔ bytes = [] ∨ p = old.length ∧ old.length + bytes.length < 2 ^ 32 := by
  rcases tree_or_gone init run with ⟨t, tree⟩ | gone
  · rw [tree.contentAt] at stored
    obtain ⟨file, labelled, rfl⟩ := Option.map_eq_some_iff.mp stored
    obtain ⟨n, found, size⟩ := tree.datasize labelled
    have small := (bounded_run init run).sized _ n found
    rw [size] at small
    exact tree.writesAt_iff opened labelled small inside bytes
  · simp [contentAt, gone.nodes] at stored

theorem write_at_position_iff_first : ∃ v v1 s x, vfsInit empty = .ok v ∧ Step v (.open stdinName [119]) v1 ∧
    v1.streams s = some ⟨x, 0, 0, 0, 0⟩ ∧ WritesAt v1 s x [] 0 [1] := by
  obtain ⟨v, v1, s, x, w, init, opened, _, stream, _, t, name, tree, label⟩ := stdin_rewritten
  have stored : v1.contentAt x = some [] := by rw [tree.contentAt, label]; rfl
  refine ⟨v, v1, s, x, init, step_open opened, stream, ?_⟩
  refine (write_at_position_iff init (.single (step_open opened)) stream stored (Nat.zero_le _) [1]).mpr ?_
  exact .inr ⟨rfl, by simp⟩

/-- The bytes 1 and 2 are written to `"$stdin"` and the 1 is to be replaced by a 3. -/
theorem middle_not_replaced : ∃ v v1 v2 s x, vfsInit empty = .ok v ∧
    Run Step v [(v, .open stdinName [119]), (v1, .write s [1, 2])] v2 ∧ v2.contentAt x = some [1, 2] ∧
    (v2.streams s).map Stream.node = some x ∧ ¬ WritesAt v2 s x [1, 2] 0 [3] := by
  obtain ⟨v, v1, s, x, w, init, opened, _, stream, _, t, name, tree, label⟩ := stdin_rewritten
  obtain ⟨v2, t2, st2, written, tree2, label2, stream2, node2, _⟩ :=
    tree.write_appends stream label [1, 2] (by simp)
  have run := Run.next (step_open opened) (.single (step_write written))
  refine ⟨v, v1, v2, s, x, init, run, ?_, by simp [stream2, node2], ?_⟩
  · rw [tree2.contentAt, label2]
    rfl
  · rw [← node2] at label2
    have exact' := tree2.writesAt_iff stream2 label2 (by simp) (Nat.zero_le _) [3]
    rw [node2] at exact'
    rw [show ([1, 2] : List UInt8) = [] ++ [1, 2] from rfl, exact']
    simp

end UmkaOs.Vfs
