import UmkaOs.Vfs.Path

namespace UmkaOs.Vfs

open Lib

variable {v v' : Vfs} {t f : FileTree} {parent p q x last : Ptr} {file : File} {name : CString}

theorem lastSibling_spec {front : List Ptr} {fuel : Nat} (reps : Reps v parent p f)
    (split : f.spine = front ++ [last]) (enough : f.ids.length ≤ fuel) :
    v.lastSibling fuel p = .ok last := by
  induction f generalizing p front fuel with
  | nil => simp [Forest.spine] at split
  | node id file children rest _ ih =>
    obtain ⟨same, nonnull, n, found, _, _, _, _, behind⟩ := reps
    subst same
    cases fuel with
    | zero => simp at enough
    | succ fuel =>
      simp only [lastSibling, node, found, bind, Except.bind]
      by_cases ends : n.sibling = 0
      · have none : rest.spine = [] := by
          cases rest with
          | nil => rfl
          | node id' _ _ _ => exact absurd (behind.1.symm.trans ends) behind.2.1
        rw [Forest.spine, none] at split
        obtain ⟨_, same⟩ := List.append_inj' (show [] ++ [p] = front ++ [last] from split) rfl
        cases same
        simp [ends]
        rfl
      · have more : rest.spine ≠ [] := by
          cases rest with
          | nil => exact absurd behind ends
          | node _ _ _ _ => simp [Forest.spine]
        cases front with
        | nil =>
          rw [Forest.spine, List.nil_append, List.cons.injEq] at split
          exact absurd split.2 more
        | cons first front =>
          rw [Forest.spine, List.cons_append, List.cons.injEq] at split
          simp only [ends, if_false]
          exact ih behind split.2
            (by simp only [Forest.ids_node, List.length_cons, List.length_append] at enough; omega)

theorem Reps.snoc {front : List Ptr} {n leaf : Node} (reps : Reps v parent p f) (distinct : f.ids.Nodup)
    (split : f.spine = front ++ [last]) (nonnull : x ≠ 0) (found : v.nodes last = some n)
    (linked : v'.nodes last = some { n with sibling := x })
    (bytes : v'.contentOf { n with sibling := x } = v.contentOf n)
    (new : v'.nodes x = some leaf) (called : leaf.filename = file.name)
    (content : v'.contentOf leaf = file.content) (above : leaf.parent = parent)
    (childless : leaf.child = 0) (ends : leaf.sibling = 0)
    (others : ∀ q ∈ f.ids, q ≠ last → Agree v v' q) : Reps v' parent p (f.snoc x file) := by
  induction f generalizing p front with
  | nil => simp [Forest.spine] at split
  | node id fl children rest _ ih =>
    obtain ⟨notChild, notRest, _, distinctR, apart⟩ := Forest.nodup_node distinct
    obtain ⟨same, idNonnull, m, foundM, nameM, contentM, aboveM, below, behind⟩ := reps
    have lastMember : last ∈ (Forest.node id fl children rest).spine := by simp [split]
    have lastNotBelow : last ∉ children.ids := by
      rcases List.mem_cons.mp lastMember with here | later
      · exact here ▸ notChild
      · exact fun bad => apart last bad (Forest.spine_sub later)
    have belowKept : Reps v' id m.child children := below.congr (fun q inside =>
      others q (by simp [inside]) (fun bad => lastNotBelow (bad ▸ inside)))
    rw [Forest.snoc]
    cases front with
    | nil =>
      -- the chain ends here
      simp only [Forest.spine, List.nil_append, List.cons.injEq] at split
      obtain ⟨here, none⟩ := split
      subst here
      cases foundM.symm.trans found
      have empty : rest = .nil := by
        cases rest with
        | nil => rfl
        | node _ _ _ _ => simp [Forest.spine] at none
      subst empty
      refine ⟨same, idNonnull, _, linked, nameM, bytes.trans contentM, aboveM, belowKept, ?_⟩
      exact ⟨rfl, nonnull, leaf, new, called, content, above, childless, ends⟩
    | cons first front =>
      simp only [Forest.spine, List.cons_append, List.cons.injEq] at split
      have other : id ≠ last := by
        intro bad
        have : last ∈ rest.spine := by simp [split.2]
        exact notRest (bad ▸ Forest.spine_sub this)
      obtain ⟨kept, bytesM⟩ := others id (by simp) other
      refine ⟨same, idNonnull, m, kept.trans foundM, nameM, (bytesM m foundM).trans contentM, aboveM,
        belowKept, ?_⟩
      exact ih behind distinctR split.2 (fun q inside => others q (by simp [inside]))

/-- The two nodes differ at most in their child and sibling links. -/
def SameFile (n n' : Node) : Prop := n' = { n with child := n'.child, sibling := n'.sibling }

theorem SameFile.content {n n' : Node} (same : SameFile n n')
    (kept : ∀ p b, v.blocks p = some b → v'.blocks p = some b)
    (stored : n.data = 0 ∧ n.datasize = 0 ∨
      n.data ≠ 0 ∧ ∃ b, v.blocks n.data = some b ∧ n.datasize ≤ b.length) :
    v'.contentOf n' = v.contentOf n := by
  rw [same]
  rcases stored with ⟨_, empty⟩ | ⟨_, b, found, _⟩
  · simp [contentOf, empty]
  · simp [contentOf, dataOf, found, kept _ _ found]

/-- What a creation leaves alone. -/
structure Created (v v' : Vfs) (x data : Ptr) : Prop where
  root : v'.root = v.root
  streams : v'.streams = v.streams
  flushed : v'.flushed = v.flushed
  next : v'.next = v.next + 2
  blocks : v'.blocks = Function.update v.blocks data (some [0])
  old : ∀ q, q ≠ x → (v'.nodes q).isSome = (v.nodes q).isSome ∧
    ∀ n n', v.nodes q = some n → v'.nodes q = some n' → SameFile n n'

theorem Tree.created (tree : Tree v t) (parentMember : parent ∈ t.ids)
    (created : Created v v' v.next (v.next + 1))
    (leaf : v'.nodes v.next = some ⟨0, v.next + 1, name, parent, 0, 0⟩)
    (reps : Reps v' 0 v.root (t.addLeaf parent v.next ⟨name, []⟩)) :
    Tree v' (t.addLeaf parent v.next ⟨name, []⟩) := by
  have perm := Forest.ids_addLeaf_perm (x := v.next) (l := File.mk name []) tree.distinct parentMember
  have fresh := tree.next_not_mem
  have blockOld : ∀ p, p ≠ v.next + 1 → v'.blocks p = v.blocks p := by
    intro p other
    rw [created.blocks, Function.update_of_ne other]
  have oldNode : ∀ q m, q ≠ v.next → v'.nodes q = some m → ∃ n, v.nodes q = some n ∧ SameFile n m := by
    intro q m other foundM
    obtain ⟨alive, same⟩ := created.old q other
    rw [foundM] at alive
    obtain ⟨n, found⟩ := Option.isSome_iff_exists.mp alive.symm
    exact ⟨n, found, same n m found foundM⟩
  have dataOld : ∀ q n, v.nodes q = some n → n.data ≠ v.next + 1 :=
    fun q n found => Nat.ne_of_lt (Nat.lt_succ_of_lt (tree.data_lt found))
  refine {
    top := by rw [Forest.spine_addLeaf, created.root]; exact tree.top
    reps := by rw [created.root]; exact reps
    distinct := perm.nodup_iff.mpr (List.nodup_cons.mpr ⟨fresh, tree.distinct⟩)
    exact := ?_
    positive := by rw [created.next]; omega
    unused := ?_
    stored := ?_
    apart := ?_
    null := by rw [blockOld 0 (by simp)]; exact tree.null }
  · intro q
    rw [perm.mem_iff, List.mem_cons]
    by_cases here : q = v.next
    · simp [here, leaf]
    · rw [(created.old q here).1, tree.exact]
      simp [here]
  · intro q later
    rw [created.next] at later
    obtain ⟨noNode, noStream, noBlock⟩ := tree.unused q (by omega)
    have other : q ≠ v.next := Nat.ne_of_gt (by omega)
    have otherData : q ≠ v.next + 1 := Nat.ne_of_gt (by omega)
    refine ⟨?_, by rw [created.streams, noStream], by rw [blockOld q otherData, noBlock]⟩
    have := (created.old q other).1
    rw [noNode] at this
    simpa using this
  · intro q m foundM
    by_cases here : q = v.next
    · subst here
      cases foundM.symm.trans leaf
      right
      exact ⟨Nat.succ_ne_zero _, [0], by rw [created.blocks, Function.update_self], Nat.zero_le _⟩
    · obtain ⟨n, found, same⟩ := oldNode q m here foundM
      rw [same]
      rcases tree.stored q n found with empty | ⟨nonnull, b, stored, fits⟩
      · exact .inl empty
      · exact .inr ⟨nonnull, b, by rw [blockOld _ (dataOld q n found)]; exact stored, fits⟩
  · intro p q m m' foundP foundQ clash nonnull
    by_cases hereP : p = v.next <;> by_cases hereQ : q = v.next
    · exact hereP.trans hereQ.symm
    · subst hereP
      cases foundP.symm.trans leaf
      obtain ⟨n, found, same⟩ := oldNode q m' hereQ foundQ
      rw [same] at clash
      exact absurd clash.symm (dataOld q n found)
    · subst hereQ
      cases foundQ.symm.trans leaf
      obtain ⟨n, found, same⟩ := oldNode p m hereP foundP
      rw [same] at clash
      exact absurd clash (dataOld p n found)
    · obtain ⟨n, found, same⟩ := oldNode p m hereP foundP
      obtain ⟨n', found', same'⟩ := oldNode q m' hereQ foundQ
      rw [same, same'] at clash
      rw [same] at nonnull
      exact tree.apart p q n n' found found' clash nonnull

/-- The store once the new node is filled in but not yet linked. -/
def withLeaf (v : Vfs) (parent : Ptr) (name : CString) : Vfs :=
  { v with
    nodes := Function.update v.nodes v.next (some ⟨0, v.next + 1, name, parent, 0, 0⟩)
    blocks := Function.update v.blocks (v.next + 1) (some [0])
    next := v.next + 2 }

theorem vfsAlloc_eq (short : name.length < filenameSize) :
    v.vfsAlloc parent name = (do
      let w := v.withLeaf parent name
      let n ← w.node parent
      if n.child = 0 then return (w.setNode parent { n with child := v.next }, v.next)
      else
        let last ← w.lastSibling w.next n.child
        let l ← w.node last
        return (w.setNode last { l with sibling := v.next }, v.next)) := by
  have fits : ¬ filenameSize ≤ name.length := Nat.not_le.mpr short
  simp only [vfsAlloc, newNode, malloc, setNode, Function.update_idem, fits, if_false]
  rfl

/-- Only `changed`, an old node, got a new link. -/
theorem Created.ofLink (parent : Ptr) (name : CString) {n n' : Node} {changed : Ptr} (found : v.nodes changed = some n)
    (fresh : changed ≠ v.next) (same : SameFile n n') :
    Created v ((v.withLeaf parent name).setNode changed n') v.next (v.next + 1) where
  root := rfl
  streams := rfl
  flushed := rfl
  next := rfl
  blocks := rfl
  old q other := by
    simp only [setNode, withLeaf]
    by_cases here : q = changed
    · subst here
      rw [Function.update_self, found]
      refine ⟨rfl, ?_⟩
      intro m m' hm hm'
      cases hm
      cases hm'
      exact same
    · rw [Function.update_of_ne here, Function.update_of_ne other]
      refine ⟨rfl, ?_⟩
      intro m m' hm hm'
      cases hm.symm.trans hm'
      rfl

theorem Tree.withLeaf_blocks (tree : Tree v t) (parent : Ptr) (name : CString) :
    ∀ p b, v.blocks p = some b → (v.withLeaf parent name).blocks p = some b := by
  intro p b stored
  have other : p ≠ v.next + 1 := Nat.ne_of_lt (Nat.lt_succ_of_lt (tree.block_lt stored))
  simpa [withLeaf, Function.update_of_ne other] using stored

/-- A creation appends exactly one leaf at the end of its parent's chain. -/
theorem Tree.vfsAlloc (tree : Tree v t) (parentMember : parent ∈ t.ids)
    (short : name.length < filenameSize) :
    ∃ v', v.vfsAlloc parent name = .ok (v', v.next) ∧
      Tree v' (t.addLeaf parent v.next ⟨name, []⟩) ∧ Created v v' v.next (v.next + 1) := by
  obtain ⟨n, found, _, _, kids⟩ := tree.lookup parentMember
  have fresh : ∀ q ∈ t.ids, q ≠ v.next := fun q member same => tree.next_not_mem (same ▸ member)
  have foundW : (v.withLeaf parent name).nodes parent = some n := by
    simp [withLeaf, Function.update_of_ne (fresh parent parentMember), found]
  have kept := tree.withLeaf_blocks parent name
  have oldNode : ∀ q ∈ t.ids, (v.withLeaf parent name).nodes q = v.nodes q :=
    fun q member => Function.update_of_ne (fresh q member) _ _
  have agreeW : ∀ q ∈ t.ids, Agree v (v.withLeaf parent name) q := by
    intro q member
    refine ⟨oldNode q member, fun m foundM => ?_⟩
    exact SameFile.content rfl kept (tree.stored q m foundM)
  have leafW : ∀ (changed : Ptr) (n' : Node), changed ≠ v.next →
      ((v.withLeaf parent name).setNode changed n').nodes v.next =
        some ⟨0, v.next + 1, name, parent, 0, 0⟩ := by
    intro changed n' other
    simp [setNode, withLeaf, Function.update_of_ne other.symm]
  rw [vfsAlloc_eq short]
  simp only [node, foundW, bind, Except.bind]
  by_cases childless : n.child = 0
  · -- the parent had no children
    have none : t.kids parent = .nil := by
      cases shape : t.kids parent with
      | nil => rfl
      | node id _ _ _ =>
        rw [shape] at kids
        exact absurd (kids.1.symm.trans childless) kids.2.1
    have same : SameFile n { n with child := v.next } := rfl
    have created := Created.ofLink parent name found (fresh _ parentMember) same
    have leaf := leafW parent { n with child := v.next } (fresh _ parentMember)
    refine ⟨(v.withLeaf parent name).setNode parent { n with child := v.next }, ?_, ?_, created⟩
    · simp [childless, pure, Except.pure]
    refine tree.created parentMember created leaf ?_
    rw [Forest.addLeaf_eq_mapKids]
    refine tree.reps.mapKids tree.distinct found (Function.update_self ..) rfl
      (SameFile.content same kept (tree.stored _ n found)) ?_ ?_ parentMember
    · rw [none]
      exact ⟨rfl, Nat.ne_of_gt tree.positive, _, leaf, rfl, by simp [contentOf], rfl, rfl, rfl⟩
    · intro q member other _
      obtain ⟨nodeEq, bytes⟩ := agreeW q member
      exact ⟨(Function.update_of_ne other _ _).trans nodeEq, bytes⟩
  · -- the leaf goes behind the last child
    have some : (t.kids parent).spine ≠ [] := by
      cases shape : t.kids parent with
      | nil =>
        rw [shape] at kids
        exact absurd kids childless
      | node _ _ _ _ => simp [Forest.spine]
    obtain ⟨front, last, split⟩ := (List.eq_nil_or_concat (t.kids parent).spine).resolve_left some
    rw [List.concat_eq_append] at split
    have lastKid : last ∈ (t.kids parent).ids := Forest.spine_sub (by simp [split])
    have lastMember : last ∈ t.ids := Forest.kids_sub lastKid
    have lastOther : last ≠ parent := fun same => Forest.not_mem_kids tree.distinct (same ▸ lastKid)
    obtain ⟨l, foundL, _, _, _⟩ := tree.lookup lastMember
    have foundLW : (v.withLeaf parent name).nodes last = Option.some l := (oldNode last lastMember).trans foundL
    have kidsW : Reps (v.withLeaf parent name) parent n.child (t.kids parent) :=
      kids.congr (fun q member => agreeW q (Forest.kids_sub member))
    have walked := @lastSibling_spec (v.withLeaf parent name) (t.kids parent) parent n.child last front
      (v.withLeaf parent name).next kidsW split
      (Nat.le_of_lt (Nat.lt_of_lt_of_le (tree.kids_lt parent) (Nat.le_add_right _ _)))
    have same : SameFile l { l with sibling := v.next } := rfl
    have created := Created.ofLink parent name foundL (fresh _ lastMember) same
    have leaf := leafW last { l with sibling := v.next } (fresh _ lastMember)
    refine ⟨(v.withLeaf parent name).setNode last { l with sibling := v.next }, ?_, ?_, created⟩
    · simp [childless, walked, foundLW, pure, Except.pure]
    refine tree.created parentMember created leaf ?_
    rw [Forest.addLeaf_eq_mapKids]
    have parentKept : ((v.withLeaf parent name).setNode last { l with sibling := v.next }).nodes parent =
        Option.some n := (Function.update_of_ne lastOther.symm _ _).trans foundW
    refine tree.reps.mapKids tree.distinct found parentKept rfl
      (SameFile.content rfl kept (tree.stored _ n found)) ?_ ?_ parentMember
    · refine kids.snoc (tree.kids_distinct parent) split (Nat.ne_of_gt tree.positive) foundL
        (Function.update_self ..) (SameFile.content same kept (tree.stored _ l foundL)) leaf rfl
        (by simp [contentOf]) rfl rfl rfl ?_
      intro q member other
      obtain ⟨nodeEq, bytes⟩ := agreeW q (Forest.kids_sub member)
      exact ⟨(Function.update_of_ne other _ _).trans nodeEq, bytes⟩
    · intro q member _ notKid
      obtain ⟨nodeEq, bytes⟩ := agreeW q member
      have other : q ≠ last := fun same => notKid (same ▸ lastKid)
      exact ⟨(Function.update_of_ne other _ _).trans nodeEq, bytes⟩

end UmkaOs.Vfs
