import UmkaOs.Vfs.Remove

namespace UmkaOs.Vfs

open Lib

variable {v v' : Vfs} {t f : FileTree} {parent p q x : Ptr} {n n' : Node} {bytes : List UInt8}

theorem Reps.relabel {change : File → File} (reps : Reps v parent p f) (distinct : f.ids.Nodup)
    (found : v.nodes x = some n) (found' : v'.nodes x = some n')
    (kept : n' = { n with data := n'.data, datasize := n'.datasize })
    (changed : change ⟨n.filename, v.contentOf n⟩ = ⟨n.filename, v'.contentOf n'⟩)
    (others : ∀ q ∈ f.ids, q ≠ x → Agree v v' q) : Reps v' parent p (f.relabel x change) := by
  induction f generalizing parent p with
  | nil => exact reps
  | node id file children rest ihc ihr =>
    obtain ⟨_, _, distinctC, distinctR, _⟩ := Forest.nodup_node distinct
    obtain ⟨here, nonnull, m, foundM, name, content, above, below, behind⟩ := reps
    have below' : Reps v' id m.child (children.relabel x change) :=
      ihc below distinctC (fun q inside => others q (by simp [inside]))
    have behind' : Reps v' parent m.sibling (rest.relabel x change) :=
      ihr behind distinctR (fun q inside => others q (by simp [inside]))
    rw [Forest.relabel]
    by_cases same : id = x
    · subst same
      cases foundM.symm.trans found
      have label : file = ⟨n.filename, v.contentOf n⟩ := by rw [name, content]
      rw [if_pos rfl, label, changed]
      refine ⟨here, nonnull, n', found', ?_, rfl, ?_, ?_, ?_⟩ <;> rw [kept]
      · exact above
      · exact below'
      · exact behind'
    · obtain ⟨keptM, bytesM⟩ := others id (by simp) same
      rw [if_neg same]
      exact ⟨here, nonnull, m, keptM.trans foundM, name, (bytesM m foundM).trans content, above, below', behind'⟩

/-- What a change of one file's data leaves alone. -/
structure Rewritten (v v' : Vfs) (x : Ptr) (n n' : Node) : Prop where
  root : v'.root = v.root
  streams : v'.streams = v.streams
  flushed : v'.flushed = v.flushed
  next : v.next ≤ v'.next
  nodes : v'.nodes = Function.update v.nodes x (some n')
  kept : n' = { n with data := n'.data, datasize := n'.datasize }

/-- The new data of `x` lives in the old block or in a new one. -/
theorem Tree.rewritten {change : List UInt8 → List UInt8} (tree : Tree v t) (member : x ∈ t.ids)
    (found : v.nodes x = some n) (rewritten : Rewritten v v' x n n')
    (changed : v'.contentOf n' = change (v.contentOf n))
    (stored : n'.data = 0 ∧ n'.datasize = 0 ∨
      n'.data ≠ 0 ∧ ∃ b, v'.blocks n'.data = some b ∧ n'.datasize ≤ b.length)
    (place : n'.data = n.data ∨ v.next ≤ n'.data ∧ n'.data < v'.next)
    (blocks : ∀ r, r ≠ n.data → r ≠ n'.data → v'.blocks r = v.blocks r) (null : v'.blocks 0 = none) :
    Tree v' (t.relabel x (File.withContent change)) := by
  have notNew : ∀ q m, v.nodes q = some m → q ≠ x → m.data ≠ 0 → m.data ≠ n.data ∧ m.data ≠ n'.data := by
    intro q m foundQ other nonnull
    have notOld : m.data ≠ n.data := fun clash => other (tree.apart q x m n foundQ found clash nonnull)
    refine ⟨notOld, ?_⟩
    rcases place with same | ⟨late, _⟩
    · rw [same]
      exact notOld
    · exact Nat.ne_of_lt (Nat.lt_of_lt_of_le (tree.data_lt foundQ) late)
  have agree : ∀ q ∈ t.ids, q ≠ x → Agree v v' q := by
    intro q _ other
    refine ⟨by rw [rewritten.nodes, Function.update_of_ne other], fun m foundQ => ?_⟩
    by_cases nonnull : m.data = 0
    · rcases tree.stored q m foundQ with ⟨_, empty⟩ | ⟨bad, _⟩
      · simp [contentOf, empty]
      · exact absurd nonnull bad
    · obtain ⟨notOld, notNew⟩ := notNew q m foundQ other nonnull
      simp [contentOf, dataOf, blocks _ notOld notNew]
  have nodeCases : ∀ q m, v'.nodes q = some m → q = x ∧ m = n' ∨ q ≠ x ∧ v.nodes q = some m := by
    intro q m foundQ
    rw [rewritten.nodes] at foundQ
    by_cases here : q = x
    · subst here
      rw [Function.update_self] at foundQ
      exact .inl ⟨rfl, (Option.some.inj foundQ).symm⟩
    · rw [Function.update_of_ne here] at foundQ
      exact .inr ⟨here, foundQ⟩
  refine {
    top := by rw [Forest.spine_relabel, rewritten.root]; exact tree.top
    reps := ?_
    distinct := by rw [Forest.ids_relabel]; exact tree.distinct
    exact := ?_
    positive := Nat.lt_of_lt_of_le tree.positive rewritten.next
    unused := ?_
    stored := ?_
    apart := ?_
    null := null }
  · rw [rewritten.root]
    refine tree.reps.relabel tree.distinct found (by rw [rewritten.nodes, Function.update_self])
      rewritten.kept ?_ agree
    simp [File.withContent, changed]
  · intro q
    rw [Forest.ids_relabel, ← tree.exact, rewritten.nodes]
    by_cases here : q = x
    · simp [here, found]
    · rw [Function.update_of_ne here]
  · intro q late
    obtain ⟨noNode, noStream, noBlock⟩ := tree.unused q (Nat.le_trans rewritten.next late)
    have qx : q ≠ x := Nat.ne_of_gt (Nat.lt_of_lt_of_le (tree.lt_next member) (Nat.le_trans rewritten.next late))
    have qOld : q ≠ n.data :=
      Nat.ne_of_gt (Nat.lt_of_lt_of_le (tree.data_lt found) (Nat.le_trans rewritten.next late))
    have qNew : q ≠ n'.data := by
      rcases place with same | ⟨_, early⟩
      · rw [same]
        exact qOld
      · exact Nat.ne_of_gt (Nat.lt_of_lt_of_le early late)
    rw [rewritten.nodes, Function.update_of_ne qx, rewritten.streams, blocks q qOld qNew]
    exact ⟨noNode, noStream, noBlock⟩
  · intro q m foundQ
    rcases nodeCases q m foundQ with ⟨_, rfl⟩ | ⟨other, old⟩
    · exact stored
    · rcases tree.stored q m old with empty | ⟨nonnull, b, has, fits⟩
      · exact .inl empty
      · obtain ⟨notOld, notNew⟩ := notNew q m old other nonnull
        exact .inr ⟨nonnull, b, by rw [blocks _ notOld notNew, has], fits⟩
  · intro p q m m' foundP foundQ clash nonnull
    rcases nodeCases p m foundP with ⟨rfl, rfl⟩ | ⟨otherP, oldP⟩ <;>
      rcases nodeCases q m' foundQ with ⟨rfl, rfl⟩ | ⟨otherQ, oldQ⟩
    · rfl
    · rw [clash] at nonnull
      exact absurd clash.symm (notNew q m' oldQ otherQ nonnull).2
    · exact absurd clash (notNew p m oldP otherP nonnull).2
    · exact tree.apart p q m m' oldP oldQ clash nonnull

theorem Tree.clearData (tree : Tree v t) (member : x ∈ t.ids) :
    ∃ v' n n', v.vfsClearData x = .ok v' ∧ Tree v' (t.relabel x (File.withContent fun _ => [])) ∧
      Rewritten v v' x n n' ∧ v'.next = v.next := by
  obtain ⟨n, found, _⟩ := tree.lookup member
  have rewritten : Rewritten v (v.setNode x { n with datasize := 0 }) x n { n with datasize := 0 } :=
    ⟨rfl, rfl, rfl, Nat.le_refl _, rfl, rfl⟩
  refine ⟨_, n, _, ?_, ?_, rewritten, rfl⟩
  · simp [vfsClearData, node, found, bind, Except.bind, pure, Except.pure]
  · refine tree.rewritten member found rewritten (by simp [contentOf]) ?_ (.inl rfl) (fun _ _ _ => rfl) tree.null
    rcases tree.stored x n found with ⟨zero, _⟩ | ⟨nonnull, b, has, _⟩
    · exact .inl ⟨zero, rfl⟩
    · exact .inr ⟨nonnull, b, has, Nat.zero_le _⟩

/-- Growing the data of a node moves it to a new block that starts with the old
content. -/
theorem Tree.realloc (tree : Tree v t) (found : v.nodes x = some n) {size : Nat} (grows : n.datasize ≤ size) :
    ∃ blocks b, v.realloc n.data size = .ok ({ v with blocks := blocks, next := v.next + 1 }, v.next) ∧
      blocks v.next = some b ∧ b.length = size ∧ b.take n.datasize = v.contentOf n ∧
      (∀ r, r ≠ n.data → r ≠ v.next → blocks r = v.blocks r) ∧ blocks 0 = none := by
  have nonzero : (0 : Ptr) ≠ v.next := Nat.ne_of_lt tree.positive
  rcases tree.stored x n found with ⟨zero, empty⟩ | ⟨nonnull, b, has, fits⟩
  · refine ⟨Function.update v.blocks v.next (some (List.replicate size 0)), List.replicate size 0,
      ?_, Function.update_self .., List.length_replicate, ?_, ?_, ?_⟩
    · simp [Vfs.realloc, zero, malloc]
    · simp [contentOf, empty]
    · exact fun r _ other => Function.update_of_ne other _ _
    · rw [Function.update_of_ne nonzero]
      exact tree.null
  · refine ⟨Function.update (Function.update v.blocks n.data none) v.next
      (some (b.take size ++ List.replicate (size - b.length) 0)), _, ?_, Function.update_self .., ?_, ?_, ?_, ?_⟩
    · simp [Vfs.realloc, nonnull, block, has, free, malloc, bind, Except.bind, pure, Except.pure]
    · simp only [List.length_append, List.length_take, List.length_replicate]
      omega
    · rw [List.take_append_of_le_length (by simp only [List.length_take]; omega), List.take_take,
        Nat.min_eq_left grows]
      simp [contentOf, dataOf, has]
    · intro r other fresh
      rw [Function.update_of_ne fresh, Function.update_of_ne other]
    · rw [Function.update_of_ne nonzero, Function.update_of_ne (Ne.symm nonnull)]
      exact tree.null

theorem Tree.length_content (tree : Tree v t) (found : v.nodes x = some n) :
    (v.contentOf n).length = n.datasize := by
  rcases tree.stored x n found with ⟨_, empty⟩ | ⟨_, b, has, fits⟩
  · simp [contentOf, empty]
  · simp [contentOf, dataOf, has, fits]

theorem Tree.appendData (tree : Tree v t) (member : x ∈ t.ids) {file : File} (labelled : t.label? x = some file)
    (room : file.content.length + bytes.length < 2 ^ 32) :
    ∃ v' n n', v.vfsAppendData x bytes = .ok v' ∧ Tree v' (t.relabel x (File.withContent (· ++ bytes))) ∧
      Rewritten v v' x n n' ∧ v'.next = v.next + 1 := by
  obtain ⟨n, found, _, label, _⟩ := tree.lookup member
  cases labelled.symm.trans label
  have length := tree.length_content found
  rw [length] at room
  obtain ⟨blocks, b, grown, has, size, front, others, null⟩ :=
    tree.realloc found (Nat.le_add_right n.datasize bytes.length)
  have filled : b.take n.datasize ++ bytes ++ b.drop (n.datasize + bytes.length) = v.contentOf n ++ bytes := by
    rw [front, List.drop_eq_nil_of_le (Nat.le_of_eq size), List.append_nil]
  let n' : Node := { n with data := v.next, datasize := n.datasize + bytes.length }
  let v' : Vfs := { v with
    nodes := Function.update v.nodes x (some n')
    blocks := Function.update blocks v.next (some (v.contentOf n ++ bytes))
    next := v.next + 1 }
  have rewritten : Rewritten v v' x n n' := ⟨rfl, rfl, rfl, Nat.le_succ _, rfl, rfl⟩
  have nonzero : v.next ≠ 0 := Nat.ne_of_gt tree.positive
  have small : n.datasize + bytes.length < 4294967296 := room
  refine ⟨v', n, n', ?_, ?_, rewritten, rfl⟩
  · simp [vfsAppendData, node, found, small, grown, block, has, filled, setNode, v', n', bind, Except.bind,
      pure, Except.pure]
  · have data : v'.dataOf n' = v.contentOf n ++ bytes := by simp [dataOf, v', n']
    have whole : (v.contentOf n ++ bytes).length = n'.datasize := by simp [length, n']
    refine tree.rewritten member found rewritten ?_ (.inr ⟨nonzero, _, Function.update_self .., ?_⟩)
      (.inr ⟨Nat.le_refl _, Nat.lt_succ_self _⟩) ?_ ?_
    · rw [contentOf, data, List.take_of_length_le (Nat.le_of_eq whole)]
    · exact Nat.le_of_eq whole.symm
    · intro r other fresh
      exact (Function.update_of_ne fresh _ _).trans (others r other fresh)
    · exact (Function.update_of_ne nonzero.symm _ _).trans null

end UmkaOs.Vfs
