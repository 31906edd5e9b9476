import UmkaOs.Vfs.Resolve
import UmkaOs.Vfs.Runs
import Mathlib.Algebra.GroupWithZero.Nat

namespace UmkaOs.Vfs

open Lib

/-- `vfsWrite` for one chunk after the other. -/
def writeChunks (v : Vfs) (s : Ptr) : List (List UInt8) → Except Fault Vfs
  | [] => .ok v
  | chunk :: chunks => do
    let r ← v.vfsWrite s chunk
    r.1.writeChunks s chunks

/-- `vfsRead` with one size after the other, and the pieces it reads. -/
def readSizes (v : Vfs) (s : Ptr) : List Nat → Except Fault (Vfs × List (List UInt8))
  | [] => .ok (v, [])
  | size :: sizes => do
    let r ← v.vfsRead s size
    let rest ← r.1.readSizes s sizes
    return (rest.1, r.2 :: rest.2)

/-- The content of a node. -/
def contentAt (v : Vfs) (p : Ptr) : Option (List UInt8) := (v.nodes p).map v.contentOf

variable {v v' : Vfs} {t : FileTree} {path : CString} {s x p : Ptr} {st : Stream} {file : File}

theorem Tree.contentAt (tree : Tree v t) (q : Ptr) : v.contentAt q = (t.label? q).map File.content := by
  by_cases member : q ∈ t.ids
  · obtain ⟨n, found, _, label, _⟩ := tree.lookup member
    simp [Vfs.contentAt, found, label]
  · have dead : v.nodes q = none := by
      rw [← Option.not_isSome_iff_eq_none, tree.exact]
      exact member
    simp [Vfs.contentAt, dead, Forest.label?_of_not_mem member]

theorem withContent_append (front back : List UInt8) :
    File.withContent (· ++ back) ∘ File.withContent (· ++ front) = File.withContent (· ++ (front ++ back)) := by
  funext file
  simp [File.withContent]

theorem Tree.writeChunks (tree : Tree v t) (opened : v.streams s = some st) (labelled : t.label? st.node = some file)
    {chunks : List (List UInt8)} (room : file.content.length + chunks.flatten.length < 2 ^ 32) :
    ∃ v', v.writeChunks s chunks = .ok v' ∧
      Tree v' (t.relabel st.node (File.withContent (· ++ chunks.flatten))) ∧ OnStream v v' s st := by
  induction chunks generalizing v t st file with
  | nil =>
    refine ⟨v, rfl, ?_, rfl, Nat.le_refl _, fun _ _ => rfl, st, opened, rfl, rfl⟩
    have same : File.withContent (· ++ ([] : List (List UInt8)).flatten) = id := by
      funext file
      simp [File.withContent]
    rw [same, Forest.relabel_id]
    exact tree
  | cons chunk chunks ih =>
    rw [List.flatten_cons, List.length_append] at room
    obtain ⟨w, written, tree', alone⟩ := @Tree.vfsWrite v t s st chunk tree opened file labelled (by omega)
    obtain ⟨st', opened', node, hooked⟩ := alone.own
    have labelled' : (t.relabel st.node (File.withContent (· ++ chunk))).label? st'.node =
        some ⟨file.name, file.content ++ chunk⟩ := by
      rw [node, Forest.label?_relabel, labelled]
      rfl
    obtain ⟨v', rest, tree'', later⟩ := ih tree' opened' labelled' (by
      rw [List.length_append]
      omega)
    refine ⟨v', ?_, ?_, alone.trans node hooked later⟩
    · rw [Vfs.writeChunks, written]
      exact rest
    · rw [node, Forest.relabel_relabel, withContent_append] at tree''
      rw [List.flatten_cons]
      exact tree''

theorem setStream_self (opened : v.streams s = some st) : v.setStream s st = v := by
  rw [setStream, ← opened, Function.update_eq_self]

theorem setStream_setStream (st st' : Stream) : (v.setStream s st).setStream s st' = v.setStream s st' := by
  simp [setStream]

theorem drop_min {l : List UInt8} (k : Nat) : l.drop (min k l.length) = l.drop k := by
  rcases Nat.le_total k l.length with short | long
  · rw [Nat.min_eq_left short]
  · rw [Nat.min_eq_right long, List.drop_length, List.drop_eq_nil_of_le long]

theorem readBytes_eq {b : List UInt8} {start count : Nat} (inside : start + count ≤ b.length) :
    readBytes b start count = (b.drop start).take count := by
  induction count generalizing start with
  | zero => simp [readBytes]
  | succ count ih =>
    have below : start < b.length := by omega
    rw [readBytes, ih (by omega), List.drop_eq_getElem_cons below, List.take_succ_cons]
    simp [below]

theorem readSize_eq {length i : Nat} (small : length < 2 ^ 32) (inside : i ≤ length) (size : Nat) :
    readSize length i size = min (length - i) size := by
  rw [readSize, wrap32]
  congr 1
  omega

/-- A read from inside the file takes what is asked for, as far as the file goes. -/
theorem vfsRead_inside (opened : v.streams s = some st) (found : v.nodes st.node = some n) (small : n.datasize < 2 ^ 32)
    (stored : n.datasize ≤ (v.dataOf n).length) (inside : st.i ≤ n.datasize) (size : Nat) :
    v.vfsRead s size = .ok (v.setStream s { st with i := min (st.i + size) n.datasize },
      ((v.contentOf n).drop st.i).take size) := by
  have count := readSize_eq small inside size
  have bytes : readBytes (v.dataOf n) st.i (min (n.datasize - st.i) size) =
      ((v.contentOf n).drop st.i).take size := by
    rw [readBytes_eq (by omega), contentOf, List.drop_take, List.take_take, Nat.min_comm]
  have position : wrap32 (st.i + min (n.datasize - st.i) size) = min (st.i + size) n.datasize := by
    rw [wrap32_of_lt (by omega)]
    omega
  simp only [Vfs.vfsRead, stream, opened, node, found, count, bytes, position, bind, Except.bind, pure, Except.pure]

theorem Tree.vfsRead (tree : Tree v t) (opened : v.streams s = some st) (labelled : t.label? st.node = some file)
    (small : file.content.length < 2 ^ 32) (inside : st.i ≤ file.content.length) (size : Nat) :
    v.vfsRead s size = .ok (v.setStream s { st with i := min (st.i + size) file.content.length },
      (file.content.drop st.i).take size) := by
  obtain ⟨n, found, _, label, _⟩ := tree.lookup (Forest.mem_of_label? labelled)
  cases labelled.symm.trans label
  have length := tree.length_content found
  have stored : n.datasize ≤ (v.dataOf n).length := by
    rw [← length, contentOf, List.length_take]
    exact Nat.min_le_right _ _
  dsimp only at small inside ⊢
  rw [length] at small inside ⊢
  exact vfsRead_inside opened found small stored inside size

/-- The pieces follow each other, and the stream stands behind them. -/
theorem Tree.readSizes (tree : Tree v t) (opened : v.streams s = some st) (labelled : t.label? st.node = some file)
    (small : file.content.length < 2 ^ 32) (inside : st.i ≤ file.content.length) (sizes : List Nat) :
    ∃ pieces, v.readSizes s sizes =
        .ok (v.setStream s { st with i := min (st.i + sizes.sum) file.content.length }, pieces) ∧
      pieces.flatten = (file.content.drop st.i).take sizes.sum := by
  induction sizes generalizing v st with
  | nil =>
    refine ⟨[], ?_, by simp⟩
    have same : { st with i := min (st.i + [].sum) file.content.length } = st := by
      simp [inside]
    rw [same, setStream_self opened, Vfs.readSizes]
  | cons size sizes ih =>
    have first := tree.vfsRead opened labelled small inside size
    have opened' : (v.setStream s { st with i := min (st.i + size) file.content.length }).streams s =
        some { st with i := min (st.i + size) file.content.length } := Function.update_self ..
    obtain ⟨pieces, rest, joined⟩ := ih (tree.setStream opened _) opened' labelled (Nat.min_le_right _ _)
    refine ⟨(file.content.drop st.i).take size :: pieces, ?_, ?_⟩
    · have position : min (min (st.i + size) file.content.length + sizes.sum) file.content.length =
          min (st.i + (size :: sizes).sum) file.content.length := by
        rw [List.sum_cons]
        omega
      simp only [Vfs.readSizes, first, rest, bind, Except.bind, pure, Except.pure]
      rw [setStream_setStream, position]
    · rw [List.flatten_cons, joined, List.sum_cons, List.take_add, List.drop_drop, drop_min]

/-- At the end is who has read everything. -/
theorem Tree.vfsEof (tree : Tree v t) (opened : v.streams s = some st) (labelled : t.label? st.node = some file) :
    v.vfsEof s = .ok (decide (file.content.length ≤ st.i)) := by
  obtain ⟨n, found, _, label, _⟩ := tree.lookup (Forest.mem_of_label? labelled)
  cases labelled.symm.trans label
  simp only [Vfs.vfsEof, stream, opened, node, found, tree.length_content found, bind, Except.bind, pure, Except.pure]

theorem label?_create {root fresh q : Ptr} (made : (t.create root fresh path).2 = some x) (other : q ≠ x) :
    (t.create root fresh path).1.label? q = t.label? q := by
  rw [FileTree.create] at made ⊢
  cases missing : resolve t root path with
  | some y => rfl
  | none =>
    rw [missing] at made
    cases base : resolveBase t root path with
    | none => rfl
    | some parent =>
      rw [base] at made
      cases made
      dsimp only
      rw [Forest.addLeaf_eq_attach]
      exact Forest.label?_attach (by simpa [Forest.ids] using other)

theorem Tree.openedWrite (tree : Tree v t) (opened : v.vfsOpen path [119] = .ok (v', s)) (success : s ≠ 0) :
    ∃ t' x name, Tree v' t' ∧ v'.root = v.root ∧ v'.streams s = some ⟨x, 0, 0, 0, 0⟩ ∧
      (∀ r, r ≠ s → v'.streams r = v.streams r) ∧ t'.label? x = some ⟨name, []⟩ ∧
      ∀ q, q ≠ x → t'.label? q = t.label? q := by
  obtain ⟨moved, made⟩ := @Moved.open v v' t path [119] s true tree rfl opened
  simp only [FileTree.openFile, if_true] at moved made
  cases target : t.create v.root (v.next + 3 * (components path).length) path with
  | mk t' found =>
    rw [target] at moved made
    cases found with
    | none => exact absurd made.1 success
    | some x =>
      obtain ⟨stream, _, others⟩ := made
      have member : x ∈ (t'.relabel x (File.withContent fun _ => [])).ids := by
        rw [Forest.ids_relabel]
        exact create_mem tree target
      obtain ⟨n, _, _, label, _⟩ := moved.tree.lookup member
      have empty : v'.contentOf n = [] := by
        rw [Forest.label?_relabel] at label
        obtain ⟨file, _, same⟩ := Option.map_eq_some_iff.mp label
        exact (congrArg File.content same).symm
      rw [empty] at label
      refine ⟨_, x, n.filename, moved.tree, moved.root, stream, others, label, fun q other => ?_⟩
      have old := @label?_create t path x v.root (v.next + 3 * (components path).length) q (by rw [target]) other
      rw [target] at old
      rw [Forest.label?_relabel_of_ne other]
      exact old

theorem Tree.openedRead (tree : Tree v t) (short : (components path).length ≤ subSize)
    (lead : resolve t v.root path = some x) :
    ∃ v' s, v.vfsOpen path [114] = .ok (v', s) ∧ s ≠ 0 ∧ Tree v' t ∧ v'.streams s = some ⟨x, 0, 0, 0, 0⟩ := by
  obtain ⟨v', s, run, tree', _, made⟩ := @Tree.vfsOpen v t path [114] tree false rfl short (fun write => by cases write)
  simp only [FileTree.openFile, Bool.false_eq_true, if_false, lead] at tree' made
  exact ⟨v', s, run, Nat.ne_of_gt (Nat.lt_of_lt_of_le tree.positive made.2), tree', made.1⟩

/-- A file that was opened for writing is empty, and its path leads to it. -/
theorem fresh_file {v0 v1 w : Vfs} {steps : List (Vfs × Call)} (init : vfsInit empty = .ok v0)
    (run : Run Step v0 steps v) (opened : v.vfsOpen path [119] = .ok (v1, s)) (success : s ≠ 0)
    (stream : v1.streams s = some st) (resolves : v1.vfsGetPath path false = .ok (w, st.node)) :
    ∃ t t1 name, Tree v t ∧ Tree v1 t1 ∧ t1.label? st.node = some ⟨name, []⟩ ∧
      resolve t1 v1.root path = some st.node ∧ ∀ q, q ≠ st.node → t1.label? q = t.label? q := by
  rcases tree_or_gone init run with ⟨t, tree⟩ | gone
  · obtain ⟨t1, x, name, tree1, _, stream1, _, label1, others1⟩ := tree.openedWrite opened success
    cases stream1.symm.trans stream
    refine ⟨t, t1, name, tree, tree1, label1, ?_, others1⟩
    obtain ⟨_, lead⟩ := tree1.getPath_ok resolves
    cases found : resolve t1 v1.root path with
    | none =>
      rw [show resolveFrom t1 v1.root (resolved path false) = none from found] at lead
      exact absurd lead (tree1.reps.nonnull x (Forest.mem_of_label? label1))
    | some y =>
      rw [show resolveFrom t1 v1.root (resolved path false) = some y from found] at lead
      exact congrArg some lead.symm
  · rcases gone.open_ok opened with ⟨_, null⟩ | ⟨writing, _⟩
    · exact absurd null success
    · exact absurd rfl writing

/-- Chunks for an empty file, which is then closed and opened for reading. -/
theorem Tree.chunks_reopened {name : CString} (tree : Tree v t) (stream : v.streams s = some st)
    (label : t.label? st.node = some ⟨name, []⟩) (short : (components path).length ≤ subSize)
    (lead : resolve t v.root path = some st.node) {chunks : List (List UInt8)}
    (room : chunks.flatten.length < 2 ^ 32) :
    ∃ v2 v3 v4 r, v.writeChunks s chunks = .ok v2 ∧ v2.vfsClose s = .ok v3 ∧ v3.vfsOpen path [114] = .ok (v4, r) ∧
      r ≠ 0 ∧ Tree v4 (t.relabel st.node (File.withContent (· ++ chunks.flatten))) ∧
      v4.streams r = some ⟨st.node, 0, 0, 0, 0⟩ ∧
      (t.relabel st.node (File.withContent (· ++ chunks.flatten))).label? st.node = some ⟨name, chunks.flatten⟩ := by
  obtain ⟨v2, written, tree2, alone⟩ := tree.writeChunks stream label (by simpa using room)
  obtain ⟨st2, stream2, _⟩ := alone.own
  obtain ⟨v3, closed, tree3, root3, _⟩ := tree2.vfsClose stream2
  have lead3 : resolve (t.relabel st.node (File.withContent (· ++ chunks.flatten))) v3.root path = some st.node := by
    rw [resolve, resolveFrom_relabel, root3, alone.root]
    exact lead
  obtain ⟨v4, r, reopened, nonnull, tree4, stream4⟩ := tree3.openedRead short lead3
  refine ⟨v2, v3, v4, r, written, closed, reopened, nonnull, tree4, stream4, ?_⟩
  rw [Forest.label?_relabel, label]
  rfl

/-- What is written to a fresh `"w"` stream in chunks of less than 2^32 bytes in all,
and read back through an `"r"` stream in pieces, is the front of the chunks; the end of
file is reached with the whole, and no other file changes. -/
theorem chunks_round_trip {v0 v1 w : Vfs} {steps : List (Vfs × Call)} (init : vfsInit empty = .ok v0)
    (run : Run Step v0 steps v) (opened : v.vfsOpen path [119] = .ok (v1, s)) (success : s ≠ 0)
    (stream : v1.streams s = some st) (resolves : v1.vfsGetPath path false = .ok (w, st.node))
    {chunks : List (List UInt8)} (room : chunks.flatten.length < 2 ^ 32) (sizes : List Nat) :
    ∃ v2 v3 v4 r v5 pieces ended, v1.writeChunks s chunks = .ok v2 ∧ v2.vfsClose s = .ok v3 ∧
      v3.vfsOpen path [114] = .ok (v4, r) ∧ r ≠ 0 ∧ v4.readSizes r sizes = .ok (v5, pieces) ∧
      pieces.flatten = chunks.flatten.take sizes.sum ∧
      v5.vfsEof r = .ok ended ∧ (ended = true ↔ pieces.flatten = chunks.flatten) ∧
      ∀ q, q ≠ st.node → v5.contentAt q = v.contentAt q := by
  obtain ⟨t, t1, name, tree, tree1, label1, lead1, others1⟩ := fresh_file init run opened success stream resolves
  obtain ⟨v2, v3, v4, r, written, closed, reopened, nonnull, tree4, stream4, label4⟩ :=
    tree1.chunks_reopened stream label1 (getPath_short resolves) lead1 room
  obtain ⟨pieces, read, joined⟩ := tree4.readSizes stream4 label4 room (Nat.zero_le _) sizes
  have tree5 := tree4.setStream stream4 ⟨st.node, 0, 0, 0, min (0 + sizes.sum) chunks.flatten.length⟩
  have ended := tree5.vfsEof (Function.update_self ..) label4
  refine ⟨v2, v3, v4, r, _, pieces, _, written, closed, reopened, nonnull, read, joined, ended, ?_, ?_⟩
  · rw [joined, List.drop_zero, List.take_eq_self_iff, decide_eq_true_eq]
    dsimp only
    omega
  · intro q other
    rw [tree5.contentAt, tree.contentAt, Forest.label?_relabel_of_ne other, others1 q other]

theorem stdin_rewritten : ∃ v v1 s x w, vfsInit empty = .ok v ∧ v.vfsOpen stdinName [119] = .ok (v1, s) ∧ s ≠ 0 ∧
    v1.streams s = some ⟨x, 0, 0, 0, 0⟩ ∧ v1.vfsGetPath stdinName false = .ok (w, x) ∧
    ∃ t name, Tree v1 t ∧ t.label? x = some ⟨name, []⟩ := by
  obtain ⟨v, a, b, c, init, tree, root⟩ := vfsInit_tree
  have lead : resolve (initTree a b c) v.root stdinName = some a := by rw [root]; rfl
  obtain ⟨v1, s, opened, tree1, kept, made⟩ := @Tree.vfsOpen v (initTree a b c) stdinName [119] tree true rfl
    (by decide) (fun _ => pathFits _ (by decide))
  simp only [FileTree.openFile, FileTree.create, lead, if_true] at tree1 made
  have success : s ≠ 0 := Nat.ne_of_gt (Nat.lt_of_lt_of_le tree.positive made.2)
  obtain ⟨t, x, name, tree', _, stream, _, label, _⟩ := tree.openedWrite opened success
  cases stream.symm.trans made.1
  have short : (components stdinName).length ≤ subSize := by decide
  have first := tree1.getPath short false
  rw [resolveFrom_relabel, kept.root,
    show resolveFrom (initTree a b c) v.root (resolved stdinName false) = some a from lead] at first
  exact ⟨v, v1, s, a, _, init, opened, success, stream, first, t, name, tree', label⟩

theorem chunks_round_trip_stdin : ∃ v v1 s v2 v3 v4 r v5 pieces, vfsInit empty = .ok v ∧
    v.vfsOpen stdinName [119] = .ok (v1, s) ∧ v1.writeChunks s [[1], [], [2, 3]] = .ok v2 ∧ v2.vfsClose s = .ok v3 ∧
    v3.vfsOpen stdinName [114] = .ok (v4, r) ∧ v4.readSizes r [1, 0, 1] = .ok (v5, pieces) ∧
    pieces.flatten = [1, 2] := by
  obtain ⟨v, v1, s, x, w, init, opened, success, stream, resolves, _⟩ := stdin_rewritten
  obtain ⟨v2, v3, v4, r, v5, pieces, _, written, closed, reopened, _, read, joined, _⟩ :=
    @chunks_round_trip v stdinName s _ v v1 w [] init (.stop v) opened success stream resolves [[1], [], [2, 3]]
      (by decide) [1, 0, 1]
  exact ⟨v, v1, s, v2, v3, v4, r, v5, pieces, init, opened, written, closed, reopened, read, joined⟩

/-- Two chunks of 2^31 bytes do not fit: the second write runs over its block. -/
theorem chunks_too_long : ∃ v v1 s x w, vfsInit empty = .ok v ∧ v.vfsOpen stdinName [119] = .ok (v1, s) ∧ s ≠ 0 ∧
    v1.streams s = some ⟨x, 0, 0, 0, 0⟩ ∧ v1.vfsGetPath stdinName false = .ok (w, x) ∧
    v1.writeChunks s [List.replicate (2 ^ 31) 0, List.replicate (2 ^ 31) 0] = .error .overrun := by
  obtain ⟨v, v1, s, x, w, init, opened, success, stream, resolves, t, name, tree, label⟩ := stdin_rewritten
  refine ⟨v, v1, s, x, w, init, opened, success, stream, resolves, ?_⟩
  have length : (List.replicate (2 ^ 31) (0 : UInt8)).length = 2 ^ 31 := List.length_replicate
  generalize List.replicate (2 ^ 31) (0 : UInt8) = chunk at length
  obtain ⟨v2, written, tree2, alone⟩ := @Tree.vfsWrite v1 t s _ chunk tree stream _ label (by simp [length])
  obtain ⟨st2, stream2, node, _⟩ := alone.own
  have label2 : (t.relabel x (File.withContent (· ++ chunk))).label? st2.node = some ⟨name, [] ++ chunk⟩ := by
    rw [node, Forest.label?_relabel, label]
    rfl
  have overrun := @Tree.vfsWrite_long v2 _ s st2 chunk tree2 stream2 _ label2 (by simp [length])
  simp only [writeChunks, written, overrun, bind, Except.bind]

end UmkaOs.Vfs
