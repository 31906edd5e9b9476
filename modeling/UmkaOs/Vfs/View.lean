import UmkaOs.Vfs.Browse
import UmkaOs.Vfs.Lookup
import UmkaOs.Vfs.Names
import UmkaOs.Vfs.References
import UmkaOs.Vfs.Siblings

namespace UmkaOs.Vfs

open Lib

variable {v v0 : Vfs} {t f : FileTree} {parent x y p : Ptr} {a : CString} {n : Node}

theorem Tree.kid (tree : Tree v t) (found : v.nodes x = some n) (below : n.parent ≠ 0) :
    x ∈ (t.kids n.parent).spine := by
  obtain ⟨m, foundM, parentOf, _, _⟩ := tree.lookup ((tree.exact x).mp (by simp [found]))
  cases found.symm.trans foundM
  exact Forest.kid_of_parentOf tree.distinct parentOf below

/-- A plain name leads from the parent to the one child that is called so. -/
theorem Tree.stepName_kid (tree : Tree v t) (twins : NoTwins v) (found : v.nodes x = some n) (below : n.parent ≠ 0)
    (plain : Plain n.filename) : stepName t n.parent n.filename = some x := by
  have kid := tree.kid found below
  rw [stepName, if_neg plain.climbs, if_neg plain.stays]
  cases hit : (t.kids n.parent).firstWith (fun file => file.name == n.filename) with
  | none =>
    obtain ⟨m, foundM, _, label, _⟩ := tree.lookup ((tree.exact x).mp (by simp [found]))
    cases found.symm.trans foundM
    rw [← Forest.label?_kids tree.distinct (Forest.spine_sub kid)] at label
    have other := Forest.firstWith_none hit (tree.kids_distinct n.parent) kid label
    simp at other
  | some y =>
    have kidY := Forest.firstWith_mem hit
    have above := @Forest.parentOf_kid _ _ _ t n.parent y 0 tree.distinct kidY
    obtain ⟨file, labelled, named⟩ := Forest.firstWith_label (tree.kids_distinct n.parent) hit
    rw [Forest.label?_kids tree.distinct (Forest.spine_sub kidY)] at labelled
    obtain ⟨m, foundY, parentY, labelY, _⟩ := tree.lookup (Forest.kids_sub (Forest.spine_sub kidY))
    have sameName : m.filename = n.filename := by
      rw [← beq_iff_eq.mp named, Option.some.inj (labelled.symm.trans labelY)]
    rw [twins y x m n foundY found (Option.some.inj (parentY.symm.trans above)) sameName]

/-- The path of every leaf below `a` leads to its node. -/
theorem Tree.leaf_resolves (tree : Tree v t) (twins : NoTwins v)
    (plain : ∀ q n, v.nodes q = some n → n.parent ≠ 0 → Plain n.filename) (reps : Reps v parent p f)
    (nonnull : parent ≠ 0) (lead : resolve t v.root a = some parent) {label arg : CString} {button : Bool}
    (leaf : Item.leaf x label arg button ∈ listing (a ++ [slash]) (shown f)) : resolve t v.root arg = some x := by
  induction f generalizing parent p a with
  | nil => cases leaf
  | node id file children rest ihc ihr =>
    obtain ⟨rfl, nonnullP, n, found, called, _, rfl, below, behind⟩ := reps
    have later := ihr behind nonnull lead
    rw [shown_node] at leaf
    split at leaf
    · exact later leaf
    · have name := plain p n found nonnull
      have here : resolve t v.root (a ++ slash :: file.name) = some p := by
        have step := tree.stepName_kid twins found nonnull name
        rw [called] at name step
        rw [resolve] at lead ⊢
        rw [components_append, name.components, resolveFrom_append, lead, Option.bind_some, resolveFrom, step]
        rfl
      have inside := ihc below nonnullP here
      revert leaf inside
      cases shown children with
      | nil =>
        intro leaf _
        rcases List.mem_cons.mp leaf with same | behindLeaf
        · obtain ⟨rfl, _, rfl, _⟩ := Item.leaf.inj same
          rwa [List.append_assoc]
        · exact later behindLeaf
      | node id' file' children' rest' =>
        intro leaf inside
        rw [listing, List.mem_cons, List.mem_append] at leaf
        rcases leaf with same | belowLeaf | behindLeaf
        · cases same
        · have longer : a ++ [slash] ++ (file.name ++ [slash]) = a ++ slash :: file.name ++ [slash] := by simp
          rw [longer] at belowLeaf
          exact inside belowLeaf
        · exact later behindLeaf

/-- Names that paths can tell apart, and something to see in the root. -/
structure Browsable (v : Vfs) : Prop where
  twins : NoTwins v
  plain : ∀ p n, v.nodes p = some n → n.parent ≠ 0 → Plain n.filename
  shows : ∃ p n, v.nodes p = some n ∧ n.parent = v.root ∧ hidden n.filename = false

/-- A node without a `$` in front of its name or of the name of a node above it. -/
def Visible (v : Vfs) (x : Ptr) : Prop :=
  (v.nodes x).isSome ∧ ∀ y n, Under v y x → v.nodes y = some n → hidden n.filename = false

/-- What is shown: every visible node once, each before what is below it and behind
all that is below an older sibling of it or of a node above it, and leaves under paths
that lead to them. -/
structure Browsed (v : Vfs) (steps : List (Vfs × Call)) (items : List Item) : Prop where
  complete : ∀ x, x ∈ items.map Item.node ↔ Visible v x
  once : (items.map Item.node).Nodup
  order : (items.map Item.node).Pairwise fun x y => ¬ Under v y x ∧ ∀ a b n m, Under v a x → Under v b y → a ≠ b →
    v.nodes a = some n → v.nodes b = some m → n.parent = m.parent → CreatedBefore steps a b
  leaves : ∀ x label arg button, Item.leaf x label arg button ∈ items → (components arg).length ≤ subSize →
    v.target arg false = .ok x

theorem Tree.visible_iff (tree : Tree v t) : x ∈ (shown t).ids ↔ Visible v x := by
  refine (Forest.mem_prune tree.distinct).trans (Iff.trans ?_ (and_congr_left' (tree.exact x).symm))
  refine and_congr_right fun member => ⟨fun clear y n under found => ?_, fun clear y file inside labelled => ?_⟩
  · have upper := (tree.exact y).mp (by simp [found])
    obtain ⟨m, foundM, _, label, _⟩ := tree.lookup upper
    cases found.symm.trans foundM
    exact clear y _ ((tree.under_iff member (tree.reps.nonnull y upper)).mp under) label
  · have upper := Forest.mem_of_subtree inside
    obtain ⟨n, found, _, label, _⟩ := tree.lookup upper
    cases labelled.symm.trans label
    exact clear y n ((tree.under_iff member (tree.reps.nonnull y upper)).mpr inside) found

theorem shown_some (distinct : f.ids.Nodup) (top : x ∈ f.spine) {file : File} (labelled : f.label? x = some file)
    (seen : hidden file.name = false) : shown f ≠ .nil := by
  induction f with
  | nil => cases top
  | node id file' children rest _ ih =>
    obtain ⟨_, _, _, distinctR, _⟩ := Forest.nodup_node distinct
    rw [shown_node]
    split
    · rename_i skipped
      have other : id ≠ x := by
        intro here
        rw [Forest.label?, if_pos here] at labelled
        rw [Option.some.inj labelled, seen] at skipped
        cases skipped
      have behind := (List.mem_cons.mp top).resolve_left (Ne.symm other)
      rw [Forest.label?_behind distinct (Forest.spine_sub behind)] at labelled
      exact ih distinctR behind labelled
    · simp

/-- The walk lists the shown nodes of the tree, and every leaf with a path to it. -/
theorem Tree.browse (tree : Tree v t) (browsable : Browsable v)
    (unnamed : ∀ n, v.nodes v.root = some n → n.filename = []) :
    ∃ items, v.browse = .ok items ∧ items.map Item.node = (shown t).ids ∧
      ∀ x label arg button, Item.leaf x label arg button ∈ items → resolve t v.root arg = some x := by
  obtain ⟨file, children, rfl⟩ := tree.shape
  have small := tree.length_lt
  have distinct := tree.distinct
  obtain ⟨notBelow, _, distinctC, _, _⟩ := Forest.nodup_node distinct
  obtain ⟨_, nonnull, n, found, called, _, _, below, _⟩ := tree.reps
  have blank : file.name = [] := by rw [← called, unnamed n found]
  have room : children.ids.length + 1 < v.next := by simpa [Forest.ids] using small
  have child := vfsChild_spec found nonnull below (by omega)
  have name := apiVfsFSOName_spec found nonnull
  rw [unnamed n found] at name
  have named : ∀ q ∈ children.ids, ∀ m, v.nodes q = some m → m.filename ≠ [] := by
    intro q member m foundM
    refine (browsable.plain q m foundM fun top => notBelow ?_).nonempty
    obtain ⟨m', foundM', parentOf, _, _⟩ := tree.lookup (q := q) (by simp [member])
    cases foundM.symm.trans foundM'
    rw [top] at parentOf
    have alone := Forest.mem_spine_of_parentOf distinct (fun null => tree.reps.nonnull 0 null rfl) parentOf
    rwa [← List.mem_singleton.mp alone]
  have some : shown children ≠ .nil := by
    obtain ⟨c, m, foundC, kid, seen⟩ := browsable.shows
    have top := tree.kid foundC (kid ▸ nonnull)
    rw [kid, Forest.kids, if_pos rfl] at top
    obtain ⟨m', foundC', _, label, _⟩ := tree.lookup ((tree.exact c).mp (by simp [foundC]))
    cases foundC.symm.trans foundC'
    rw [Forest.label?_below distinct (Forest.spine_sub top)] at label
    exact shown_some distinctC top label seen
  obtain ⟨k, fuel⟩ : ∃ k, 2 * v.next = k + 1 := ⟨2 * v.next - 1, by omega⟩
  have walked := @displayChildren_spec v children v.root n.child [slash] k below (by omega) named (by omega)
  have more : first (shown children) ≠ 0 := fun null => some (below.first_shown.mp null)
  refine ⟨.tree v.root [slash] :: listing [slash] (shown children), ?_, ?_, fun x label arg button leaf => ?_⟩
  · simp only [Vfs.browse, fuel, displayTree, child, name, more, List.nil_append, if_true, if_false, bind, Except.bind]
    rw [walked]
    rfl
  · have top : hidden file.name = false := by rw [blank]; rfl
    rw [shown_node, top, List.map_cons, listing_nodes]
    simp [Item.node, shown, Forest.prune, Forest.ids]
  · rcases List.mem_cons.mp leaf with same | inside
    · cases same
    · exact tree.leaf_resolves browsable.twins browsable.plain below nonnull (a := []) rfl inside

/-- `y` has been hidden from the start. -/
def HiddenIn (t0 : FileTree) (_ y : Ptr) : Prop := ∃ file, t0.label? y = some file ∧ hidden file.name = true

/-- The siblings that `vfsInit` makes are hidden. -/
theorem chains_init {a b c : Ptr} (tree : Tree v (initTree a b c)) :
    (initTree a b c).Chains (HiddenIn (initTree a b c)) := by
  intro z member
  refine List.pairwise_of_forall_mem_list fun x _ y kid => ?_
  have distinct := tree.distinct
  have above := @Forest.parentOf_kid _ _ _ _ z y 0 distinct kid
  have inside := Forest.kids_sub (Forest.spine_sub kid)
  have notRoot : y ≠ 1 := by
    rintro rfl
    exact tree.reps.nonnull z member (Option.some.inj (above.symm.trans (show _ = some 0 from rfl)))
  simp only [initTree, Forest.ids, List.append_nil, List.nil_append, List.nodup_cons, List.mem_cons,
    not_or] at distinct inside
  rcases inside with same | rfl | rfl | rfl | none
  · exact absurd same notRoot
  · exact ⟨⟨stdinName, []⟩, by simp [initTree, Forest.label?, Ne.symm notRoot], rfl⟩
  · exact ⟨⟨stdoutName, []⟩, by simp [initTree, Forest.label?, Ne.symm notRoot, distinct], rfl⟩
  · exact ⟨⟨stderrName, []⟩, by simp [initTree, Forest.label?, Ne.symm notRoot, distinct], rfl⟩
  · cases none

/-- The order of what is shown, for nodes that were hidden or siblings by age. -/
theorem Aged.order {steps : List (Vfs × Call)} {t0 : FileTree} (aged : Aged (HiddenIn t0) v0 t0 steps v t) :
    (shown t).ids.Pairwise fun x y => ¬ Under v y x ∧ ∀ a b n m, Under v a x → Under v b y → a ≠ b →
      v.nodes a = some n → v.nodes b = some m → n.parent = m.parent → CreatedBefore steps a b := by
  have tree := aged.tree
  have part : (shown t).ids.Sublist t.ids := Forest.ids_prune_sublist
  have outside : 0 ∉ t.ids := fun null => tree.reps.nonnull 0 null rfl
  have top : t.spine.Pairwise fun x y => HiddenIn t0 x y ∨ CreatedBefore steps x y := by
    rw [tree.top]
    exact List.pairwise_singleton _ _
  have branches := Forest.ids_pairwise_branches tree.distinct outside top aged.chains
  refine (((Forest.ids_pairwise_subtree tree.distinct).and branches).sublist part).imp_of_mem ?_
  rintro x y memberX memberY ⟨notAbove, related⟩
  have inside : ∀ {p q n}, v.nodes p = some n → q ∈ (shown t).ids → Under v p q → p ∈ t.ids ∧ q ∈ t.subtree p := by
    intro p q n found member under
    have upper := (tree.exact p).mp (by simp [found])
    exact ⟨upper, (tree.under_iff (part.subset member) (tree.reps.nonnull p upper)).mp under⟩
  refine ⟨fun under => notAbove ?_, fun a b n m underA underB other foundA foundB same => ?_⟩
  · obtain ⟨n, found, _⟩ := tree.lookup (part.subset memberY)
    exact (inside found memberX under).2
  · obtain ⟨memberA, insideA⟩ := inside foundA memberX underA
    obtain ⟨memberB, insideB⟩ := inside foundB memberY underB
    obtain ⟨n', foundA', parentA, _, _⟩ := tree.lookup memberA
    obtain ⟨m', foundB', parentB, labelB, _⟩ := tree.lookup memberB
    cases foundA.symm.trans foundA'
    cases foundB.symm.trans foundB'
    rcases related a b n.parent insideA insideB other parentA (same ▸ parentB) with ⟨file, label, skipped⟩ | older
    · -- what was hidden from the start is not shown
      have seen := (tree.visible_iff.mp memberY).2 b m underB foundB
      rw [show m.filename = file.name from aged.names b _ _ labelB label, skipped] at seen
      cases seen
    · exact older

/-- After every run, the view of a file system with plain names shows every visible node
once, in an order in which siblings come by age, and the paths of the leaves lead back. -/
theorem browsing_complete {steps : List (Vfs × Call)} (init : vfsInit empty = .ok v0) (run : Run Step v0 steps v)
    (browsable : Browsable v) : ∃ items, v.browse = .ok items ∧ Browsed v steps items := by
  obtain ⟨w, a, b, c, ran, tree0, root⟩ := vfsInit_tree
  cases ran.symm.trans init
  rcases Aged.run tree0 (chains_init tree0) run with ⟨t, aged⟩ | gone
  · have tree := aged.tree
    have unnamed : ∀ n, v.nodes v.root = some n → n.filename = [] := by
      intro n found
      obtain ⟨m, foundM, _, label, _⟩ := tree.lookup tree.root_mem
      cases found.symm.trans foundM
      have label0 : (initTree a b c).label? v.root = some ⟨[], []⟩ := by
        rw [aged.root, root]
        rfl
      exact aged.names v.root _ _ label label0
    obtain ⟨items, walked, nodes, paths⟩ := tree.browse browsable unnamed
    refine ⟨items, walked, fun x => ?_, ?_, ?_, fun x label arg button leaf short => ?_⟩
    · rw [nodes]
      exact tree.visible_iff
    · rw [nodes]
      exact tree.distinct.sublist Forest.ids_prune_sublist
    · rw [nodes]
      exact aged.order
    · rw [tree.target_eq short, reference_eq]
      have lead : resolveFrom t v.root (resolved arg false) = some x := paths x label arg button leaf
      rw [lead]
      rfl
  · obtain ⟨p, n, found, _⟩ := browsable.shows
    rw [gone.nodes] at found
    cases found

/-- The tree after `vfsInit` and the creation of `"a"` over `below` and of `"b"`. -/
def madeTree (a b c x y : Ptr) (below : FileTree) : FileTree :=
  .node 1 ⟨[], []⟩ (.node a ⟨stdinName, []⟩ .nil (.node b ⟨stdoutName, []⟩ .nil (.node c ⟨stderrName, []⟩ .nil
    (.node x ⟨[97], []⟩ below (.node y ⟨[98], []⟩ .nil .nil))))) .nil

theorem nested_made : ∃ v v1 v2 v3 a b c x y z, vfsInit empty = .ok v ∧
    Run Step v [(v, .create [97]), (v1, .create [98]), (v2, .create [97, slash, 99])] v3 ∧
    Tree v3 (madeTree a b c x y (.node z ⟨[99], []⟩ .nil .nil)) ∧ v3.root = 1 ∧
    CreatedBefore [(v2, .create [97, slash, 99])] y z ∧
    ∀ step ∈ [(v, Call.create [97]), (v1, .create [98]), (v2, .create [97, slash, 99])], step.2.Nameable step.1 := by
  obtain ⟨v, a, b, c, init, tree, root⟩ := vfsInit_tree
  obtain ⟨v1, run1, tree1, kept1⟩ := tree.vfsCreate_ (pathFits v.root (show PathOk [97] by decide))
  have root1 : v1.root = 1 := kept1.root.trans root
  rw [root] at tree1
  generalize v.next + 2 * (components [97]).length = x at tree1
  obtain ⟨v2, run2, tree2, kept2⟩ := tree1.vfsCreate_ (pathFits v1.root (show PathOk [98] by decide))
  have root2 : v2.root = 1 := kept2.root.trans root1
  rw [root1] at tree2
  generalize v1.next + 2 * (components [98]).length = y at tree2
  have tree2 : Tree v2 (madeTree a b c x y .nil) := tree2
  obtain ⟨v3, run3, tree3, kept3⟩ := tree2.vfsCreate_ (pathFits v2.root (show PathOk [97, slash, 99] by decide))
  have late : v2.next ≤ v2.next + 2 * (components [97, slash, 99]).length := Nat.le_add_right _ _
  generalize v2.next + 2 * (components [97, slash, 99]).length = z at tree3 late
  have distinct := tree2.distinct
  simp only [madeTree, Forest.ids, List.append_nil, List.nil_append, List.nodup_cons, List.mem_cons, not_or] at distinct
  have names : components [97, slash, 99] = [[97], [99]] := rfl
  have base : resolveBase (madeTree a b c x y .nil) 1 [97, slash, 99] = some x := rfl
  have missing : resolve (madeTree a b c x y .nil) 1 [97, slash, 99] = none := by
    have lead : stepName (madeTree a b c x y .nil) 1 [97] = some x := rfl
    rw [resolve, names, resolveFrom, lead]
    simp [resolveFrom, stepName, madeTree, Forest.kids, Forest.firstWith, Forest.ids, distinct, dot]
  have grown : (madeTree a b c x y .nil).addLeaf x z ⟨[99], []⟩ =
      madeTree a b c x y (.node z ⟨[99], []⟩ .nil .nil) := by
    simp [madeTree, Forest.addLeaf, Forest.snoc, distinct]
  rw [root2, FileTree.create, missing, base] at tree3
  have run := Run.next (step_create run1) (.next (step_create run2) (.single (step_create run3)))
  refine ⟨v, v1, v2, v3, a, b, c, x, y, z, init, run,
    grown ▸ tree3, kept3.root.trans root2, ⟨_, List.mem_singleton_self _, ?_, (tree2.unused z late).1⟩, ?_⟩
  · exact (tree2.exact y).mpr (by simp [madeTree, Forest.ids])
  · have findable : ∀ {v t path}, Tree v t → PathOk path → vfsBasename path ≠ [] ∧ vfsBasename path ≠ [dot, dot] →
        Call.Nameable v (.create path) := by
      rintro v t path tree ok good path' (same | ⟨_, bad, _⟩)
      · cases same
        exact (tree.nameable_iff ok.1).mpr fun _ _ _ => good
      · cases bad
    simp only [List.forall_mem_cons]
    exact ⟨findable tree (by decide) (by decide), findable tree1 (by decide) (by decide),
      findable tree2 (by decide) (by decide), by simp⟩

theorem madeTree_plain {a b c z : Ptr} {file : File}
    (labelled : (madeTree a b c x y (.node z ⟨[99], []⟩ .nil .nil)).label? p = some file) :
    p = 1 ∨ Plain file.name := by
  have names : ∀ name ∈ [stdinName, stdoutName, stderrName, [97], [98], [99]], Plain name := by
    intro name member
    simp only [List.mem_cons, List.not_mem_nil, or_false] at member
    rcases member with rfl | rfl | rfl | rfl | rfl | rfl <;> exact ⟨by decide, by decide, by decide, by decide⟩
  simp only [madeTree, Forest.label?, Option.or_none, Option.none_or] at labelled
  grind

theorem madeTree_browsable {a b c z : Ptr} (tree : Tree v (madeTree a b c x y (.node z ⟨[99], []⟩ .nil .nil)))
    (root : v.root = 1) (twins : NoTwins v) : Browsable v := by
  refine ⟨twins, fun q n found below => ?_, ?_⟩
  · obtain ⟨m, foundM, parentOf, label, _⟩ := tree.lookup ((tree.exact q).mp (by simp [found]))
    cases found.symm.trans foundM
    refine (madeTree_plain label).resolve_left fun top => below ?_
    rw [top] at parentOf
    exact (Option.some.inj parentOf).symm
  · obtain ⟨n, found, parentOf, label, _⟩ := tree.lookup (q := x) (by simp [madeTree, Forest.ids])
    have distinct := tree.distinct
    simp only [madeTree, Forest.ids, List.append_nil, List.nil_append, List.nodup_cons, List.mem_cons,
      not_or] at distinct
    simp [madeTree, Forest.parentOf, Forest.label?, distinct] at parentOf label
    exact ⟨x, n, found, by rw [← parentOf, root], by rw [← label.1]; rfl⟩

/-- The view of this file system: what is in `"a"` stands before `"b"`, which is older. -/
theorem nested_view : ∃ v v3 steps items x y z, vfsInit empty = .ok v ∧ Run Step v steps v3 ∧ Browsable v3 ∧
    CreatedBefore steps y z ∧ v3.browse = .ok items ∧ items.map Item.node = [v3.root, x, z, y] := by
  obtain ⟨v, v1, v2, v3, a, b, c, x, y, z, init, run, tree, root, older, nameable⟩ := nested_made
  have twins : NoTwins v3 := by
    rcases twinless_run init run nameable with ⟨t, tree', twinless⟩ | gone
    · exact twinless.noTwins tree'
    · exact absurd (gone.nodes _) (Option.isSome_iff_ne_none.mp ((tree.exact _).mpr tree.root_mem))
  have browsable := madeTree_browsable tree root twins
  obtain ⟨items, walked, nodes, _⟩ := tree.browse browsable fun n found => by
    obtain ⟨m, foundM, _, label, _⟩ := tree.lookup tree.root_mem
    cases found.symm.trans foundM
    rw [root] at label
    exact congrArg File.name (Option.some.inj label).symm
  refine ⟨v, v3, _, items, x, y, z, init, run, browsable, ?_, walked, ?_⟩
  · obtain ⟨step, listed, seen⟩ := older
    exact ⟨step, List.mem_cons_of_mem _ (List.mem_cons_of_mem _ listed), seen⟩
  · rw [nodes, root]
    rfl

theorem browsing_complete_nested : ∃ v v3 steps items, vfsInit empty = .ok v ∧ Run Step v steps v3 ∧
    v3.browse = .ok items ∧ Browsed v3 steps items := by
  obtain ⟨v, v3, steps, _, x, y, z, init, run, browsable, _⟩ := nested_view
  obtain ⟨items, walked, browsed⟩ := browsing_complete init run browsable
  exact ⟨v, v3, steps, items, init, run, walked, browsed⟩

/-- The view is not in the order of creation: `"a/c"` comes before `"b"`. -/
theorem browsing_not_by_age : ∃ v v3 steps items, vfsInit empty = .ok v ∧ Run Step v steps v3 ∧ Browsable v3 ∧
    v3.browse = .ok items ∧ ¬ (items.map Item.node).Pairwise fun x y => ¬ CreatedBefore steps y x := by
  obtain ⟨v, v3, steps, items, x, y, z, init, run, browsable, older, walked, nodes⟩ := nested_view
  refine ⟨v, v3, steps, items, init, run, browsable, walked, fun byAge => ?_⟩
  simp only [nodes, List.pairwise_cons] at byAge
  exact byAge.2.2.1 y (by simp) older

end UmkaOs.Vfs
