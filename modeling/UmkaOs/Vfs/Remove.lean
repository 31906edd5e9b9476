import UmkaOs.Vfs.Create

/-! Removal: `vfsFree` unlinks a node, frees everything below it and then the
node itself, although its callers walk the chains it is unlinking from. -/

namespace UmkaOs.Vfs

open Lib

variable {v v' : Vfs} {t f : FileTree} {parent p q x : Ptr} {n : Node} {fuel : Nat}

theorem agree_setNode (other : q ≠ x) : Agree v (v.setNode x n) q :=
  ⟨Function.update_of_ne other _ _, fun _ _ => rfl⟩

/-- The store with `x` relinked and the nodes `dead` freed. -/
def pruned (v : Vfs) (x : Ptr) (n : Node) (dead : List Ptr) : Vfs :=
  { v with nodes := fun q => if q ∈ dead then none else (v.setNode x n).nodes q }

theorem agree_pruned {dead : List Ptr} (other : q ≠ x) (live : q ∉ dead) : Agree v (v.pruned x n dead) q :=
  ⟨by simpa [pruned, live] using (agree_setNode (v := v) (n := n) other).1, fun _ _ => rfl⟩

theorem freeTree_eq {u : Vfs} {dead : List Ptr} (unlinked : v.unlink x = .ok u) (found : u.nodes x = some n)
    (below : freeChildren fuel u n.child = .ok (u.pruned x { n with child := 0 } dead)) (outside : x ∉ dead) :
    freeTree (fuel + 1) v x = .ok { u with nodes := fun q => if q ∈ x :: dead then none else u.nodes q } := by
  have still : (u.pruned x { n with child := 0 } dead).nodes x = some { n with child := 0 } := by
    simp [pruned, outside, setNode]
  simp only [freeTree, unlinked, node, found, below, freeNode, still, bind, Except.bind, pure, Except.pure]
  simp only [pruned]
  congr 2
  funext q
  by_cases same : q = x
  · simp [same]
  · simp [same, setNode]

/-- The loop that frees the children of `x`: each child is at the head of the
chain when its turn comes, so unlinking it only moves the child pointer of `x`. -/
theorem freeChildren_spec (found : v.nodes x = some n) (reps : Reps v x n.child f)
    (distinct : f.ids.Nodup) (outside : x ∉ f.ids) (nonnull : x ≠ 0) (positive : 0 < v.next)
    (enough : 2 * f.ids.length + 1 ≤ fuel) :
    freeChildren fuel v n.child = .ok (v.pruned x { n with child := 0 } f.ids) := by
  induction f generalizing v x n fuel with
  | nil =>
    have none : n.child = 0 := reps
    cases fuel with
    | zero => simp at enough
    | succ fuel =>
      have same : { n with child := 0 } = n := by rw [← none]
      rw [freeChildren, if_pos none, same]
      simp [pruned, setNode, Forest.ids, ← found, Function.update_eq_self]
  | node c file below rest ihc ihr =>
    obtain ⟨notBelow, notRest, distinctB, distinctR, apart⟩ := Forest.nodup_node distinct
    obtain ⟨head, nonnullC, m, foundC, _, _, parentC, repsB, repsR⟩ := reps
    simp only [Forest.ids_node, List.mem_cons, List.mem_append, not_or] at outside
    obtain ⟨xc, xBelow, xRest⟩ := outside
    simp only [Forest.ids_node, List.length_cons, List.length_append] at enough
    obtain ⟨k, rfl⟩ : ∃ k, fuel = k + 2 := ⟨fuel - 2, by omega⟩
    obtain ⟨g, nextEq⟩ : ∃ g, v.next = g + 1 := ⟨v.next - 1, by omega⟩
    -- unlinking the child
    have unlinked : v.unlink c = .ok (v.setNode x { n with child := m.sibling }) := by
      simp [unlink, node, foundC, parentC, nonnull, found, nextEq, unlinkFrom, head, nonnullC,
        bind, Except.bind, pure, Except.pure]
    have foundC1 : (v.setNode x { n with child := m.sibling }).nodes c = some m :=
      (Function.update_of_ne (Ne.symm xc) _ _).trans foundC
    have repsB1 : Reps (v.setNode x { n with child := m.sibling }) c m.child below := by
      refine repsB.congr (fun q inside => agree_setNode ?_)
      exact fun same => xBelow (same ▸ inside)
    -- freeing what is below it
    have freedB := @ihc (v.setNode x { n with child := m.sibling }) c m k foundC1 repsB1 distinctB
      notBelow nonnullC positive (by omega)
    have freed : freeTree (k + 1) v c = .ok (v.pruned x { n with child := m.sibling } (c :: below.ids)) :=
      freeTree_eq unlinked foundC1 freedB notBelow
    -- and the siblings behind it
    have foundX : (v.pruned x { n with child := m.sibling } (c :: below.ids)).nodes x =
        some { n with child := m.sibling } := by
      simp [pruned, setNode, xc, xBelow]
    have repsR1 : Reps (v.pruned x { n with child := m.sibling } (c :: below.ids)) x m.sibling rest := by
      refine repsR.congr (fun q inside => agree_pruned ?_ ?_)
      · exact fun same => xRest (same ▸ inside)
      · simp only [List.mem_cons, not_or]
        exact ⟨fun same => notRest (same ▸ inside), fun bad => apart q bad inside⟩
    have freedR := @ihr _ x { n with child := m.sibling } (k + 1) foundX repsR1 distinctR xRest nonnull
      positive (by omega)
    rw [freeChildren, head, if_neg nonnullC]
    simp only [node, foundC, bind, Except.bind, freed]
    rw [freedR]
    simp only [pruned]
    congr 2
    funext q
    simp only [Forest.ids_node, List.mem_cons, List.mem_append]
    by_cases inRest : q ∈ rest.ids
    · simp [inRest]
    · by_cases isX : q = x
      · subst isX
        simp [setNode, xc, xBelow, inRest]
      · simp [setNode, inRest, Function.update_of_ne isX]

/-- `x` is first in its chain: the child pointer of the parent skips it. -/
theorem unlinkFrom_first {back : List Ptr} {above : Node} (reps : Reps v parent p f) (split : f.spine = x :: back)
    (found : v.nodes n.parent = some above) :
    v.unlinkFrom x n (fuel + 1) 0 p = .ok (v.setNode n.parent { above with child := n.sibling }) := by
  cases f with
  | nil => simp [Forest.spine] at split
  | node id file children rest =>
    obtain ⟨here, nonnull, _⟩ := reps
    have first : p = x := here.trans (List.cons.inj split).1
    subst first
    rw [unlinkFrom, if_neg (here ▸ nonnull), if_pos rfl]
    simp [node, found, bind, Except.bind, pure, Except.pure]

/-- `x` is behind `q`: the sibling pointer of `q` skips it. -/
theorem unlinkFrom_behind {front back : List Ptr} {before : Node} {prev : Ptr} (reps : Reps v parent p f)
    (distinct : f.ids.Nodup) (split : f.spine = front ++ q :: x :: back) (found : v.nodes q = some before)
    (enough : f.ids.length < fuel) :
    v.unlinkFrom x n fuel prev p = .ok (v.setNode q { before with sibling := n.sibling }) := by
  induction f generalizing p front prev fuel with
  | nil => simp [Forest.spine] at split
  | node id file children rest _ ih =>
    obtain ⟨_, notRest, _, distinctR, _⟩ := Forest.nodup_node distinct
    obtain ⟨here, nonnull, m, foundM, _, _, _, _, behind⟩ := reps
    subst here
    simp only [Forest.ids_node, List.length_cons, List.length_append] at enough
    obtain ⟨k, rfl⟩ : ∃ k, fuel = k + 2 := ⟨fuel - 2, by omega⟩
    rw [unlinkFrom, if_neg nonnull]
    have xRest : x ∈ rest.spine := by
      cases front with
      | nil => simp [(List.cons.inj split).2]
      | cons first front => simp [(List.cons.inj split).2]
    have notX : p ≠ x := fun same => notRest (same ▸ Forest.spine_sub xRest)
    simp only [notX, if_false, node, foundM, bind, Except.bind]
    cases front with
    | nil =>
      obtain ⟨same, tail⟩ := List.cons.inj split
      subst same
      cases rest with
      | nil => simp [Forest.spine] at tail
      | node next _ _ _ =>
        obtain ⟨there, nonnullX, _⟩ := behind
        have target : m.sibling = x := there.trans (List.cons.inj tail).1
        rw [unlinkFrom, if_neg (there ▸ nonnullX), if_pos target, if_pos nonnull]
        simp [node, found, bind, Except.bind, pure, Except.pure]
    | cons first front =>
      exact ih behind distinctR (List.cons.inj split).2 (by omega)

theorem Reps.eraseFirst {back : List Ptr} (reps : Reps v parent p f) (split : f.spine = x :: back)
    (found : v.nodes x = some n) (others : ∀ q ∈ (f.eraseTop x).ids, Agree v v' q) :
    Reps v' parent n.sibling (f.eraseTop x) := by
  cases f with
  | nil => simp [Forest.spine] at split
  | node id file children rest =>
    obtain ⟨_, _, m, foundM, _, _, _, _, behind⟩ := reps
    have same : id = x := (List.cons.inj split).1
    subst same
    cases foundM.symm.trans found
    rw [Forest.eraseTop, if_pos rfl] at others ⊢
    exact behind.congr others

/-- The chain without a later node, the one before it being relinked. -/
theorem Reps.eraseBehind {front back : List Ptr} {before : Node} (reps : Reps v parent p f)
    (distinct : f.ids.Nodup) (split : f.spine = front ++ q :: x :: back) (found : v.nodes x = some n)
    (foundQ : v.nodes q = some before) (linked : v'.nodes q = some { before with sibling := n.sibling })
    (bytes : v'.contentOf { before with sibling := n.sibling } = v.contentOf before)
    (others : ∀ r ∈ (f.eraseTop x).ids, r ≠ q → Agree v v' r) : Reps v' parent p (f.eraseTop x) := by
  induction f generalizing p front with
  | nil => simp [Forest.spine] at split
  | node id file children rest _ ih =>
    obtain ⟨notChild, notRest, _, distinctR, apart⟩ := Forest.nodup_node distinct
    obtain ⟨here, nonnull, m, foundM, nameM, contentM, aboveM, below, behind⟩ := reps
    have later : x ∈ rest.spine ∧ (q = id ∨ q ∈ rest.spine) := by
      cases front with
      | nil => simp [(List.cons.inj split).2, (List.cons.inj split).1]
      | cons first front => simp [(List.cons.inj split).2]
    have notX : id ≠ x := fun same => notRest (same ▸ Forest.spine_sub later.1)
    rw [Forest.eraseTop, if_neg notX] at others ⊢
    have belowKept : Reps v' id m.child children := by
      refine below.congr (fun r inside => others r (by simp [inside]) ?_)
      rintro rfl
      rcases later.2 with same | behindId
      · exact notChild (same ▸ inside)
      · exact apart r inside (Forest.spine_sub behindId)
    cases front with
    | nil =>
      obtain ⟨same, tail⟩ := List.cons.inj split
      subst same
      cases foundM.symm.trans foundQ
      refine ⟨here, nonnull, _, linked, nameM, bytes.trans contentM, aboveM, belowKept, ?_⟩
      refine behind.eraseFirst (n := n) tail found (fun r inside => others r (by simp [inside]) ?_)
      rintro rfl
      exact notRest (Forest.ids_eraseTop_sublist.subset inside)
    | cons first front =>
      have tail := (List.cons.inj split).2
      have other : id ≠ q := by
        rintro rfl
        exact notRest (Forest.spine_sub (by simp [tail]))
      obtain ⟨kept, bytesM⟩ := others id (by simp) other
      refine ⟨here, nonnull, m, kept.trans foundM, nameM, (bytesM m foundM).trans contentM, aboveM,
        belowKept, ?_⟩
      exact ih behind distinctR tail (fun r inside => others r (by simp [inside]))

/-- What unlinking the child `x` of `P` does: one relinked node, which is `P` or
another child, and a chain without `x`. -/
theorem unlink_spec {above : Node} (nonnull : n.parent ≠ 0) (foundX : v.nodes x = some n)
    (found : v.nodes n.parent = some above) (reps : Reps v n.parent above.child f)
    (distinct : f.ids.Nodup) (outside : n.parent ∉ f.ids) (top : x ∈ f.spine) (enough : f.ids.length < v.next) :
    ∃ q m m', v.unlink x = .ok (v.setNode q m') ∧ v.nodes q = some m ∧ SameFile m m' ∧ q ≠ x ∧
      (q = n.parent ∨ q ∈ (f.eraseTop x).ids) ∧
      ∀ w : Vfs, w.nodes q = some m' → w.blocks = v.blocks →
        (∀ r, r = n.parent ∨ r ∈ (f.eraseTop x).ids → r ≠ q → w.nodes r = v.nodes r) →
        ∃ above', w.nodes n.parent = some above' ∧ above' = { above with child := above'.child } ∧
          Reps w n.parent above'.child (f.eraseTop x) := by
  have agree : ∀ w : Vfs, w.blocks = v.blocks → ∀ m m', SameFile m m' → w.contentOf m' = v.contentOf m := by
    intro w blocks m m' same
    rw [same]
    simp [contentOf, dataOf, blocks]
  obtain ⟨front, back, split⟩ := List.append_of_mem top
  obtain ⟨g, nextEq⟩ : ∃ g, v.next = g + 1 := ⟨v.next - 1, by omega⟩
  have unlinked : ∀ r, v.unlinkFrom x n v.next 0 above.child = r → v.unlink x = r := by
    rintro _ rfl
    simp only [unlink, node, foundX, found, nonnull, if_false, bind, Except.bind]
  have xMember := Forest.spine_sub top
  rcases List.eq_nil_or_concat front with first | ⟨before, q, last⟩
  · subst first
    rw [List.nil_append] at split
    have run := @unlinkFrom_first v f n.parent above.child x n g back above reps split found
    refine ⟨n.parent, above, { above with child := n.sibling }, unlinked _ (by rw [nextEq]; exact run), found,
      rfl, fun same => outside (same ▸ xMember), .inl rfl, ?_⟩
    intro w linked blocks others
    refine ⟨_, linked, rfl, ?_⟩
    refine reps.eraseFirst (n := n) split foundX (fun r inside => ⟨others r (.inr inside) ?_, ?_⟩)
    · exact fun same => outside (same ▸ Forest.ids_eraseTop_sublist.subset inside)
    · exact fun m _ => agree w blocks m m rfl
  · rw [last, List.concat_eq_append, List.append_assoc, List.singleton_append] at split
    have qSpine : q ∈ f.spine := by simp [split]
    have qx : q ≠ x := by
      rintro rfl
      have twice := Forest.spine_nodup distinct
      rw [split] at twice
      simp [List.nodup_append] at twice
    obtain ⟨m, foundQ, _⟩ := reps.lookup distinct (Forest.spine_sub qSpine)
    have run := @unlinkFrom_behind v f n.parent above.child q x n v.next before back m 0 reps distinct split
      foundQ enough
    have qKept : q ∈ (f.eraseTop x).ids := Forest.mem_eraseTop qSpine qx
    have other : n.parent ≠ q := fun same => outside (same ▸ Forest.spine_sub qSpine)
    refine ⟨q, m, { m with sibling := n.sibling }, unlinked _ run, foundQ, rfl, qx, .inr qKept, ?_⟩
    intro w linked blocks others
    refine ⟨above, (others _ (.inl rfl) other).trans found, rfl, ?_⟩
    refine reps.eraseBehind (n := n) distinct split foundX foundQ linked (agree w blocks _ _ rfl) ?_
    exact fun r inside rq => ⟨others r (.inr inside) rq, fun m _ => agree w blocks m m rfl⟩

/-- What a removal takes away and what it leaves alone. -/
structure Removed (v v' : Vfs) (dead : List Ptr) : Prop where
  root : v'.root = v.root
  streams : v'.streams = v.streams
  blocks : v'.blocks = v.blocks
  next : v'.next = v.next
  flushed : v'.flushed = v.flushed
  freed : ∀ q ∈ dead, (v.nodes q).isSome ∧ v'.nodes q = none
  old : ∀ q ∉ dead, (v'.nodes q).isSome = (v.nodes q).isSome ∧
    ∀ n n', v.nodes q = some n → v'.nodes q = some n' → SameFile n n'

theorem Tree.removed (tree : Tree v t) (removed : Removed v v' (t.subtree x)) (notRoot : x ≠ v.root)
    (reps : Reps v' 0 v.root (t.erase x)) : Tree v' (t.erase x) := by
  have oldNode : ∀ q m, v'.nodes q = some m → ∃ n, v.nodes q = some n ∧ SameFile n m := by
    intro q m foundM
    by_cases dead : q ∈ t.subtree x
    · rw [(removed.freed q dead).2] at foundM
      cases foundM
    · obtain ⟨alive, same⟩ := removed.old q dead
      rw [foundM] at alive
      obtain ⟨n, found⟩ := Option.isSome_iff_exists.mp alive.symm
      exact ⟨n, found, same n m found foundM⟩
  refine {
    top := ?_
    reps := by rw [removed.root]; exact reps
    distinct := tree.distinct.sublist Forest.ids_erase_sublist
    exact := ?_
    positive := by rw [removed.next]; exact tree.positive
    unused := ?_
    stored := ?_
    apart := ?_
    null := by rw [removed.blocks]; exact tree.null }
  · have top : x ∉ t.spine := by simpa [tree.top] using notRoot
    rw [Forest.spine_erase top, removed.root, tree.top]
  · intro q
    rw [Forest.mem_ids_erase tree.distinct, ← tree.exact]
    by_cases dead : q ∈ t.subtree x
    · simp [dead, (removed.freed q dead).2]
    · simp [dead, (removed.old q dead).1]
  · intro q later
    rw [removed.next] at later
    obtain ⟨noNode, noStream, noBlock⟩ := tree.unused q later
    rw [removed.streams, removed.blocks]
    refine ⟨?_, noStream, noBlock⟩
    cases found : v'.nodes q with
    | none => rfl
    | some m =>
      obtain ⟨n, bad, _⟩ := oldNode q m found
      rw [noNode] at bad
      cases bad
  · intro q m foundM
    obtain ⟨n, found, same⟩ := oldNode q m foundM
    rw [same, removed.blocks]
    exact tree.stored q n found
  · intro p q m m' foundP foundQ clash nonnull
    obtain ⟨n, found, same⟩ := oldNode p m foundP
    obtain ⟨n', found', same'⟩ := oldNode q m' foundQ
    rw [same, same'] at clash
    rw [same] at nonnull
    exact tree.apart p q n n' found found' clash nonnull

/-- A removal frees the subtree, each node once, and takes it out of the tree. -/
theorem Tree.vfsFree (tree : Tree v t) (member : x ∈ t.ids) (notRoot : x ≠ v.root) :
    ∃ v', v.vfsFree x = .ok v' ∧ Tree v' (t.erase x) ∧ Removed v v' (t.subtree x) := by
  have top : x ∉ t.spine := by simpa [tree.top] using notRoot
  obtain ⟨n, foundX, parentOf, _, kidsX⟩ := tree.lookup member
  obtain ⟨parentMember, isKid⟩ := Forest.parentOf_kids tree.distinct top parentOf
  obtain ⟨above, found, _, _, kids⟩ := tree.lookup parentMember
  have xKid : x ∈ (t.kids n.parent).ids := Forest.spine_sub isKid
  have distinctK := tree.kids_distinct n.parent
  have notSelf := Forest.not_mem_kids (x := n.parent) tree.distinct
  obtain ⟨q, m, m', unlinked, foundQ, same, qx, qLives, relinked⟩ := unlink_spec
    (tree.reps.nonnull _ parentMember) foundX found kids distinctK notSelf isKid (tree.kids_lt _)
  have subtree := Forest.subtree_eq tree.distinct member
  have among := Forest.subtree_kids tree.distinct xKid
  -- the nodes that stay in the chain are not below `x`
  have apart : ∀ r ∈ ((t.kids n.parent).eraseTop x).ids, r ∉ t.subtree x := by
    intro r kept
    rw [← among]
    exact Forest.not_mem_of_eraseTop distinctK isKid kept
  have subKids : ∀ r ∈ t.subtree x, r ∈ (t.kids n.parent).ids := by
    intro r dead
    rw [← among] at dead
    exact Forest.subtree_sub dead
  have parentLives : n.parent ∉ t.subtree x := fun bad => notSelf (subKids _ bad)
  have qOut : q ∉ t.subtree x := by
    rcases qLives with here | kept
    · exact here ▸ parentLives
    · exact apart q kept
  have qMember : q ∈ t.ids := (tree.exact q).mp (by simp [foundQ])
  -- freeing what is below `x`, then `x`
  have foundX1 : (v.setNode q m').nodes x = some n := (Function.update_of_ne (Ne.symm qx) _ _).trans foundX
  have kidsX1 : Reps (v.setNode q m') x n.child (t.kids x) := by
    refine kidsX.congr (fun r inside => agree_setNode ?_)
    rintro rfl
    exact qOut (by simp [subtree, inside])
  obtain ⟨k, fuelEq⟩ : ∃ k, 2 * v.next = k + 1 := ⟨2 * v.next - 1, by have := tree.positive; omega⟩
  have below := @freeChildren_spec (v.setNode q m') (t.kids x) x n k foundX1 kidsX1 (tree.kids_distinct x)
    (Forest.not_mem_kids tree.distinct) (tree.reps.nonnull x member) tree.positive (by
      have := tree.kids_lt x
      omega)
  let v' : Vfs := { v with nodes := fun r => if r ∈ t.subtree x then none else (v.setNode q m').nodes r }
  have run : v.vfsFree x = .ok v' := by
    rw [Vfs.vfsFree, fuelEq, freeTree_eq unlinked foundX1 below (Forest.not_mem_kids tree.distinct)]
    simp only [v', subtree, setNode]
  have nodes' : ∀ r, r ∉ t.subtree x → v'.nodes r = (v.setNode q m').nodes r :=
    fun r live => if_neg live
  have foundQ' : v'.nodes q = some m' := (nodes' q qOut).trans (Function.update_self ..)
  have others : ∀ r, r ∉ t.subtree x → r ≠ q → v'.nodes r = v.nodes r :=
    fun r live other => (nodes' r live).trans (Function.update_of_ne other _ _)
  have removed : Removed v v' (t.subtree x) := by
    refine ⟨rfl, rfl, rfl, rfl, rfl, ?_, ?_⟩
    · exact fun r dead => ⟨(tree.exact r).mpr (Forest.subtree_sub dead), if_pos dead⟩
    · intro r live
      by_cases here : r = q
      · subst here
        rw [foundQ', foundQ]
        refine ⟨rfl, ?_⟩
        intro a b ha hb
        cases ha
        cases hb
        exact same
      · rw [others r live here]
        refine ⟨rfl, ?_⟩
        intro a b ha hb
        cases ha.symm.trans hb
        rfl
  refine ⟨v', run, tree.removed removed notRoot ?_, removed⟩
  obtain ⟨above', foundP', kept, chain⟩ := relinked v' foundQ' rfl (by
    intro r inside other
    refine others r ?_ other
    rcases inside with rfl | inside
    · exact parentLives
    · exact apart r inside)
  rw [Forest.erase_eq_mapKids tree.distinct top parentOf]
  refine tree.reps.mapKids tree.distinct found foundP' kept ?_ chain ?_ parentMember
  · rw [kept]
    rfl
  · intro r _ notParent notKid
    have live : r ∉ t.subtree x := fun dead => notKid (subKids r dead)
    have other : r ≠ q := by
      rintro rfl
      rcases qLives with here | inside
      · exact notParent here
      · exact notKid (Forest.ids_eraseTop_sublist.subset inside)
    exact ⟨others r live other, fun _ _ => rfl⟩

end UmkaOs.Vfs
