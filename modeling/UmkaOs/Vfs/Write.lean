import UmkaOs.Vfs.Data

namespace UmkaOs.Vfs

open Lib

variable {v v' : Vfs} {t : FileTree} {s : Ptr} {st st' : Stream} {bytes : List UInt8}

theorem Tree.stream_lt (tree : Tree v t) (opened : v.streams s = some st) : s < v.next := by
  apply Nat.lt_of_not_le
  intro late
  rw [(tree.unused s late).2.1] at opened
  cases opened

theorem Tree.setStream (tree : Tree v t) (opened : v.streams s = some st) (st' : Stream) :
    Tree (v.setStream s st') t where
  top := tree.top
  reps := tree.reps.congr (fun _ _ => ⟨rfl, fun _ _ => rfl⟩)
  distinct := tree.distinct
  exact := tree.exact
  positive := tree.positive
  unused q late := by
    obtain ⟨noNode, noStream, noBlock⟩ := tree.unused q late
    have other : q ≠ s := Nat.ne_of_gt (Nat.lt_of_lt_of_le (tree.stream_lt opened) late)
    exact ⟨noNode, (Function.update_of_ne other _ _).trans noStream, noBlock⟩
  stored := tree.stored
  apart := tree.apart
  null := tree.null

theorem Tree.setFlushed (tree : Tree v t) (calls : List FlushCall) : Tree { v with flushed := calls } t :=
  ⟨tree.top, tree.reps.congr (fun _ _ => ⟨rfl, fun _ _ => rfl⟩), tree.distinct, tree.exact, tree.positive,
    tree.unused, tree.stored, tree.apart, tree.null⟩

/-- What a call on the stream `s` leaves alone. -/
structure OnStream (v v' : Vfs) (s : Ptr) (st : Stream) : Prop where
  root : v'.root = v.root
  next : v.next ≤ v'.next
  others : ∀ r, r ≠ s → v'.streams r = v.streams r
  own : ∃ st', v'.streams s = some st' ∧ st'.node = st.node ∧ st'.flush = st.flush

theorem Tree.vfsFlush (tree : Tree v t) (opened : v.streams s = some st) (member : st.node ∈ t.ids) :
    ∃ v', v.vfsFlush s = .ok v' ∧ Tree v' t ∧ OnStream v v' s st ∧ v'.nodes = v.nodes ∧ v'.blocks = v.blocks := by
  obtain ⟨n, found, _⟩ := tree.lookup member
  have alone : OnStream v v s st := ⟨rfl, Nat.le_refl _, fun _ _ => rfl, st, opened, rfl, rfl⟩
  simp only [Vfs.vfsFlush, stream, opened, node, found, bind, Except.bind]
  by_cases unhooked : st.flush = 0
  · exact ⟨v, by simp [unhooked, pure, Except.pure], tree, alone, rfl, rfl⟩
  · by_cases behind : st.flushindex < st.i
    · refine ⟨_, by simp [unhooked, behind, pure, Except.pure]; rfl,
        (tree.setStream opened { st with flushindex := st.i }).setFlushed _, ?_, rfl, rfl⟩
      exact ⟨rfl, Nat.le_refl _, fun r other => Function.update_of_ne other _ _, _, Function.update_self .., rfl, rfl⟩
    · exact ⟨v, by simp [unhooked, behind, pure, Except.pure], tree, alone, rfl, rfl⟩

theorem OnStream.trans {w : Vfs} (first : OnStream v v' s st) (same : st'.node = st.node)
    (hooked : st'.flush = st.flush) (second : OnStream v' w s st') : OnStream v w s st where
  root := second.root.trans first.root
  next := Nat.le_trans first.next second.next
  others r other := (second.others r other).trans (first.others r other)
  own := by
    obtain ⟨st'', found, node, hook⟩ := second.own
    exact ⟨st'', found, node.trans same, hook.trans hooked⟩

/-- A write appends to the file of its stream, wherever the stream stands. -/
theorem Tree.vfsWrite (tree : Tree v t) (opened : v.streams s = some st) {file : File}
    (labelled : t.label? st.node = some file) (room : file.content.length + bytes.length < 2 ^ 32) :
    ∃ v', v.vfsWrite s bytes = .ok (v', bytes.length) ∧
      Tree v' (t.relabel st.node (File.withContent (· ++ bytes))) ∧ OnStream v v' s st := by
  have member := Forest.mem_of_label? labelled
  obtain ⟨w, n, n', appended, tree', rewritten, next⟩ := tree.appendData member labelled room
  have openedW : w.streams s = some st := by rw [rewritten.streams]; exact opened
  let moved : Stream := { st with i := wrap32 (st.i + bytes.length) }
  have openedM : (w.setStream s moved).streams s = some moved := Function.update_self ..
  obtain ⟨v', flushed, tree'', alone, _, _⟩ :=
    (tree'.setStream openedW moved).vfsFlush openedM (by rw [Forest.ids_relabel]; exact member)
  refine ⟨v', ?_, tree'', ?_⟩
  · simp only [Vfs.vfsWrite, stream, opened, appended, bind, Except.bind, moved] at flushed ⊢
    rw [flushed]
    rfl
  · obtain ⟨st', found, node, hook⟩ := alone.own
    refine ⟨alone.root.trans rewritten.root, Nat.le_trans rewritten.next alone.next, ?_, st', found, node, hook⟩
    intro r other
    rw [alone.others r other, show (w.setStream s moved).streams r = w.streams r from
      Function.update_of_ne other _ _, rewritten.streams]

/-- A write that outgrows a `size_t` runs over its block. -/
theorem Tree.vfsWrite_long (tree : Tree v t) (opened : v.streams s = some st) {file : File}
    (labelled : t.label? st.node = some file) (long : 2 ^ 32 ≤ file.content.length + bytes.length) :
    v.vfsWrite s bytes = .error .overrun := by
  obtain ⟨n, found, _, label, _⟩ := tree.lookup (Forest.mem_of_label? labelled)
  cases labelled.symm.trans label
  dsimp only at long
  rw [tree.length_content found] at long
  have append : v.vfsAppendData st.node bytes = .error .overrun := by
    simp only [vfsAppendData, node, found, long, if_true, bind, Except.bind, throw, throwThe, MonadExceptOf.throw]
  simp only [Vfs.vfsWrite, stream, opened, append, bind, Except.bind]

theorem Tree.vfsClose (tree : Tree v t) (opened : v.streams s = some st) :
    ∃ v', v.vfsClose s = .ok v' ∧ Tree v' t ∧ v'.root = v.root ∧ v'.next = v.next ∧
      ∀ r, r ≠ s → v'.streams r = v.streams r := by
  refine ⟨{ v with streams := Function.update v.streams s none }, ?_, ?_, rfl, rfl,
    fun r other => Function.update_of_ne other _ _⟩
  · simp [Vfs.vfsClose, freeStream, stream, opened, bind, Except.bind, pure, Except.pure]
  · refine { tree with reps := tree.reps.congr (fun _ _ => ⟨rfl, fun _ _ => rfl⟩), unused := ?_ }
    intro q late
    obtain ⟨noNode, noStream, noBlock⟩ := tree.unused q late
    have other : q ≠ s := Nat.ne_of_gt (Nat.lt_of_lt_of_le (tree.stream_lt opened) late)
    exact ⟨noNode, (Function.update_of_ne other _ _).trans noStream, noBlock⟩

end UmkaOs.Vfs
