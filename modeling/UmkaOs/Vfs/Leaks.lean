import UmkaOs.Vfs.Failures
import UmkaOs.Vfs.References
import UmkaOs.Vfs.Names

/-! Who owns which block: a sequence that only makes and fills files owns one data
block for each of them, and `vfsRemove` frees the nodes but not these blocks. -/

namespace UmkaOs.Vfs

open Lib

/-- `p` is the name of a live node, stream or byte block. -/
def Alive (v : Vfs) (p : Ptr) : Prop := (v.nodes p).isSome ∨ (v.streams p).isSome ∨ (v.blocks p).isSome

/-- The `data` and `parent` pointers of a node. -/
def owner (v : Vfs) (q : Ptr) : Option (Ptr × Ptr) := (v.nodes q).map (fun n => (n.data, n.parent))

/-- The calls of a sequence that started in `v`: it removes nothing, writes only to
files it made, and closes only streams it opened. -/
def Builds (v u : Vfs) : Call → Prop
  | .remove _ => False
  | .write s _ => ∀ st, u.streams s = some st → v.nodes st.node = none
  | .close s => v.streams s = none
  | _ => True

/-- The same nodes own the same blocks. -/
structure SameOwners (u u' : Vfs) : Prop where
  next : u.next ≤ u'.next
  owners : ∀ q, u'.owner q = u.owner q
  blocks : ∀ p, (u'.blocks p).isSome = (u.blocks p).isSome
  streams : ∀ s, (u.streams s).isSome → (u'.streams s).isSome

/-- Since `v`, nodes were added, each with a block of its own; nothing else lives
in addition but streams. -/
structure Grown (v u : Vfs) : Prop where
  next : v.next ≤ u.next
  old : ∀ q, (v.nodes q).isSome → u.owner q = v.owner q
  new : ∀ q d above, v.nodes q = none → u.owner q = some (d, above) → v.next ≤ d
  blocks : ∀ p, (u.blocks p).isSome ↔ (v.blocks p).isSome ∨ ∃ q above, v.nodes q = none ∧ u.owner q = some (p, above)
  streams : ∀ s, (v.streams s).isSome → (u.streams s).isSome

variable {v u u' w w' : Vfs} {t t' : FileTree} {path perm : CString} {p q s x : Ptr} {n m : Node} {st : Stream}
  {call : Call}

theorem isSome_owner : (v.owner q).isSome = (v.nodes q).isSome := by
  rw [owner, Option.isSome_map]

theorem Grown.refl (v : Vfs) : Grown v v where
  next := Nat.le_refl _
  old _ _ := rfl
  new q d above dead found := by simp [owner, dead] at found
  blocks p := by
    refine ⟨.inl, ?_⟩
    rintro (live | ⟨q, above, dead, found⟩)
    · exact live
    · simp [owner, dead] at found
  streams _ := id

theorem Grown.same (grown : Grown v u) (same : SameOwners u u') : Grown v u' where
  next := Nat.le_trans grown.next same.next
  old q live := (same.owners q).trans (grown.old q live)
  new q d above dead found := grown.new q d above dead ((same.owners q).symm.trans found)
  blocks p := by
    rw [same.blocks p, grown.blocks p]
    simp only [same.owners]
  streams s live := same.streams s (grown.streams s live)

theorem same_tick (k : Nat) : SameOwners u (u.tick k) := ⟨Nat.le_add_right _ _, fun _ => rfl, fun _ => rfl, fun _ => id⟩

theorem owner_update (nodes : u'.nodes = Function.update u.nodes x (some m)) (found : u.nodes x = some n)
    (same : m.data = n.data ∧ m.parent = n.parent) : ∀ q, u'.owner q = u.owner q := by
  intro q
  rw [owner, owner, nodes]
  by_cases here : q = x
  · subst here
    simp [found, same]
  · rw [Function.update_of_ne here]

theorem same_setStream (s : Ptr) (st' : Stream) : SameOwners u (u.setStream s st') := by
  refine ⟨Nat.le_refl _, fun _ => rfl, fun _ => rfl, fun r live => ?_⟩
  by_cases here : r = s
  · have moved : (u.setStream s st').streams r = some st' := here ▸ Function.update_self ..
    rw [moved]
    rfl
  · rwa [show (u.setStream s st').streams r = u.streams r from Function.update_of_ne here _ _]

theorem same_newStream (st : Stream) : SameOwners u (u.newStream st).1 := by
  refine ⟨Nat.le_succ _, fun _ => rfl, fun _ => rfl, fun r live => ?_⟩
  by_cases here : r = u.next
  · have made : (u.newStream st).1.streams r = some st := here ▸ Function.update_self ..
    rw [made]
    rfl
  · rwa [show (u.newStream st).1.streams r = u.streams r from Function.update_of_ne here _ _]

theorem same_flush (run : u.vfsFlush s = .ok u') : SameOwners u u' := by
  obtain ⟨st, opened, ⟨_, rfl⟩ | ⟨_, _, n, c, _, _, _, _, rfl⟩⟩ := vfsFlush_ok run
  · exact same_tick 0
  · obtain ⟨next, owners, blocks, streams⟩ := @same_setStream u s { st with flushindex := st.i }
    exact ⟨next, owners, blocks, streams⟩

theorem same_clearData (run : u.vfsClearData x = .ok u') : SameOwners u u' := by
  obtain ⟨n, found, done⟩ := bind_ok run
  cases done
  exact ⟨Nat.le_refl _, owner_update rfl (node_ok found) ⟨rfl, rfl⟩, fun _ => rfl, fun _ => id⟩

/-- What `vfsAlloc` made: a node with a data block of its own. -/
theorem vfsAlloc_owner {file : CString} (run : u.vfsAlloc p file = .ok (u', q)) :
    q = u.next ∧ u'.next = u.next + 2 ∧ u'.streams = u.streams ∧ u'.owner u.next = some (u.next + 1, p) ∧
      (∀ r, r ≠ u.next → u'.owner r = u.owner r) ∧
      ∀ r, (u'.blocks r).isSome ↔ r = u.next + 1 ∨ (u.blocks r).isSome := by
  have leaf : (u.withLeaf p file).owner u.next = some (u.next + 1, p) := by simp [owner, withLeaf]
  have others : ∀ r, r ≠ u.next → (u.withLeaf p file).owner r = u.owner r := by
    intro r other
    simp [owner, withLeaf, Function.update_of_ne other]
  have blocks : ∀ r, ((u.withLeaf p file).blocks r).isSome ↔ r = u.next + 1 ∨ (u.blocks r).isSome := by
    intro r
    by_cases here : r = u.next + 1 <;> simp [withLeaf, here]
  -- the last change is one link
  have linked : ∀ {changed : Ptr} {n m : Node}, u' = (u.withLeaf p file).setNode changed m ∧ q = u.next →
      (u.withLeaf p file).node changed = .ok n → m.data = n.data ∧ m.parent = n.parent →
      q = u.next ∧ u'.next = u.next + 2 ∧ u'.streams = u.streams ∧ u'.owner u.next = some (u.next + 1, p) ∧
        (∀ r, r ≠ u.next → u'.owner r = u.owner r) ∧
        ∀ r, (u'.blocks r).isSome ↔ r = u.next + 1 ∨ (u.blocks r).isSome := by
    rintro changed n m ⟨rfl, rfl⟩ found same
    have owners : ∀ r, ((u.withLeaf p file).setNode changed m).owner r = (u.withLeaf p file).owner r :=
      owner_update rfl (node_ok found) same
    exact ⟨rfl, rfl, rfl, (owners _).trans leaf, fun r other => (owners r).trans (others r other), blocks⟩
  rw [vfsAlloc_eq (vfsAlloc_short run)] at run
  obtain ⟨n, found, run⟩ := bind_ok run
  split at run
  · cases run
    exact linked ⟨rfl, rfl⟩ found ⟨rfl, rfl⟩
  · obtain ⟨last, _, run⟩ := bind_ok run
    obtain ⟨l, found, run⟩ := bind_ok run
    cases run
    exact linked ⟨rfl, rfl⟩ found ⟨rfl, rfl⟩

theorem realloc_blocks {d data : Ptr} {size : Nat} (null : u.blocks 0 = none)
    (run : u.realloc d size = .ok (u', data)) :
    data = u.next ∧ u'.next = u.next + 1 ∧ u'.streams = u.streams ∧ u'.nodes = u.nodes ∧
      ∀ r, (u'.blocks r).isSome ↔ r = u.next ∨ r ≠ d ∧ (u.blocks r).isSome := by
  rw [realloc] at run
  by_cases unset : d = 0
  · rw [if_pos unset] at run
    cases run
    refine ⟨rfl, rfl, rfl, rfl, fun r => ?_⟩
    by_cases new : r = u.next
    · simp [new]
    · simp only [Function.update_of_ne new, new, false_or, unset, ne_eq]
      exact ⟨fun live => ⟨fun zero => by simp [zero, null] at live, live⟩, And.right⟩
  · rw [if_neg unset] at run
    obtain ⟨old, stored, run⟩ := bind_ok run
    obtain ⟨w, freed, run⟩ := bind_ok run
    obtain ⟨_, _, done⟩ := bind_ok freed
    cases done
    cases run
    refine ⟨rfl, rfl, rfl, rfl, fun r => ?_⟩
    by_cases new : r = u.next
    · simp [new]
    · by_cases here : r = d
      · subst here
        simp [new]
      · simp [new, here]

/-- What `vfsAppendData` did: the data of the node moved to a new block. -/
theorem vfsAppendData_owner {bytes : List UInt8} (null : u.blocks 0 = none) (run : u.vfsAppendData x bytes = .ok u') :
    ∃ d above, u.owner x = some (d, above) ∧ u'.next = u.next + 1 ∧ u'.streams = u.streams ∧
      u'.owner x = some (u.next, above) ∧ (∀ r, r ≠ x → u'.owner r = u.owner r) ∧
      ∀ r, (u'.blocks r).isSome ↔ r = u.next ∨ r ≠ d ∧ (u.blocks r).isSome := by
  obtain ⟨n, w, data, b, found, _, grown, rfl⟩ := vfsAppendData_run run
  obtain ⟨rfl, next, streams, nodes, blocks⟩ := realloc_blocks null grown
  refine ⟨n.data, n.parent, by simp [owner, found], next, streams, ?_, fun r other => ?_, fun r => ?_⟩
  · simp [owner, setNode]
  · simp [owner, setNode, Function.update_of_ne other, nodes]
  · rw [← blocks]
    by_cases new : r = u.next
    · simp [setNode, new, blocks]
    · simp [setNode, Function.update_of_ne new]

theorem Grown.alloc {file : CString} (grown : Grown v u) (tree : Tree v t) (absent : u.nodes u.next = none)
    (run : u.vfsAlloc p file = .ok (u', q)) : Grown v u' := by
  obtain ⟨_, next, streams, leaf, others, blocks⟩ := vfsAlloc_owner run
  have fresh : v.nodes u.next = none := (tree.unused _ grown.next).1
  have elsewhere : ∀ r, (v.nodes r).isSome → r ≠ u.next := by
    rintro r live rfl
    rw [fresh] at live
    cases live
  refine ⟨?_, fun r live => ?_, fun r d above dead found => ?_, fun r => ?_, fun s live => ?_⟩
  · exact Nat.le_trans grown.next (by omega)
  · rw [others r (elsewhere r live), grown.old r live]
  · by_cases here : r = u.next
    · subst here
      cases leaf.symm.trans found
      exact Nat.le_succ_of_le grown.next
    · exact grown.new r d above dead ((others r here).symm.trans found)
  · rw [blocks, grown.blocks]
    constructor
    · rintro (rfl | live | ⟨r', above, dead, found⟩)
      · exact .inr ⟨u.next, p, fresh, leaf⟩
      · exact .inl live
      · have here : r' ≠ u.next := by
          rintro rfl
          simp [owner, absent] at found
        exact .inr ⟨r', above, dead, (others r' here).trans found⟩
    · rintro (live | ⟨r', above, dead, found⟩)
      · exact .inr (.inl live)
      · by_cases here : r' = u.next
        · subst here
          cases leaf.symm.trans found
          exact .inl rfl
        · exact .inr (.inr ⟨r', above, dead, (others r' here).symm.trans found⟩)
  · rw [streams]
    exact grown.streams s live

theorem Grown.append {bytes : List UInt8} (grown : Grown v u) (tree : Tree v t) (treeU : Tree u t')
    (made : v.nodes x = none) (run : u.vfsAppendData x bytes = .ok u') : Grown v u' := by
  obtain ⟨d, above, owned, next, streams, moved, others, blocks⟩ := vfsAppendData_owner treeU.null run
  have late := grown.new x d above made owned
  have positive : 0 < d := Nat.lt_of_lt_of_le tree.positive late
  have elsewhere : ∀ r, (v.nodes r).isSome → r ≠ x := by
    rintro r live rfl
    rw [made] at live
    cases live
  -- no other node owns the old block
  have alone : ∀ r above', u.owner r = some (d, above') → r = x := by
    intro r above' found
    obtain ⟨n, foundR, sameR⟩ := Option.map_eq_some_iff.mp found
    obtain ⟨m, foundX, sameX⟩ := Option.map_eq_some_iff.mp owned
    have dataR : n.data = d := congrArg Prod.fst sameR
    have dataX : m.data = d := congrArg Prod.fst sameX
    exact treeU.apart r x n m foundR foundX (dataR.trans dataX.symm) (dataR ▸ Nat.ne_of_gt positive)
  refine ⟨Nat.le_trans grown.next (by omega), fun r live => ?_, fun r d' above' dead found => ?_, fun r => ?_,
    fun s live => ?_⟩
  · rw [others r (elsewhere r live), grown.old r live]
  · by_cases here : r = x
    · subst here
      cases moved.symm.trans found
      exact grown.next
    · exact grown.new r d' above' dead ((others r here).symm.trans found)
  · rw [blocks, grown.blocks]
    constructor
    · rintro (rfl | ⟨other, live | ⟨r', above', dead, found⟩⟩)
      · exact .inr ⟨x, above, made, moved⟩
      · exact .inl live
      · have here : r' ≠ x := by
          rintro rfl
          cases owned.symm.trans found
          exact other rfl
        exact .inr ⟨r', above', dead, (others r' here).trans found⟩
    · rintro (live | ⟨r', above', dead, found⟩)
      · obtain ⟨b, stored⟩ := Option.isSome_iff_exists.mp live
        have early : r < v.next := tree.block_lt stored
        exact .inr ⟨Nat.ne_of_lt (Nat.lt_of_lt_of_le early late), .inl live⟩
      · by_cases here : r' = x
        · subst here
          cases moved.symm.trans found
          exact .inl rfl
        · have found := (others r' here).symm.trans found
          exact .inr ⟨fun same => here (alone r' above' (same ▸ found)), .inr ⟨r', above', dead, found⟩⟩
  · rw [streams]
    exact grown.streams s live

theorem Grown.create (grown : Grown v u) (tree : Tree v t) (treeU : Tree u t') (run : u.vfsCreate_ path = .ok (u', q)) :
    Grown v u' := by
  obtain ⟨⟨u1, x⟩, first, run⟩ := bind_ok run
  obtain rfl := treeU.fresh.getPath first
  have grown := grown.same (same_tick (components path).length)
  dsimp only at run
  split at run
  · cases run
    exact grown
  · have ticked := treeU.tick (components path).length
    obtain ⟨⟨u2, y⟩, second, run⟩ := bind_ok run
    obtain rfl := ticked.fresh.getPath second
    have grown := grown.same (same_tick (components path).length)
    dsimp only at run
    split at run
    · cases run
      exact grown
    · exact grown.alloc tree ((ticked.tick _).unused _ (Nat.le_refl _)).1 run

theorem same_openNode (x s : Ptr) (write : Bool) (run : (if x = 0 then pure (u, 0) else
    (if write then u.vfsClearData x else .ok u) >>= fun w => pure (w.newStream ⟨x, 0, 0, 0, 0⟩) :
      Except Fault (Vfs × Ptr)) = .ok (u', s)) : SameOwners u u' := by
  by_cases missing : x = 0
  · rw [if_pos missing] at run
    cases run
    exact same_tick 0
  · rw [if_neg missing] at run
    obtain ⟨w, cut, made⟩ := bind_ok run
    cases made
    obtain ⟨next, owners, blocks, streams⟩ : SameOwners u w := by
      cases write with
      | false =>
        cases cut
        exact same_tick 0
      | true => exact same_clearData cut
    obtain ⟨next', owners', blocks', streams'⟩ := @same_newStream w ⟨x, 0, 0, 0, 0⟩
    exact ⟨Nat.le_trans next next', fun q => (owners' q).trans (owners q), fun p => (blocks' p).trans (blocks p),
      fun r live => streams' r (streams r live)⟩

theorem Grown.open (grown : Grown v u) (tree : Tree v t) (treeU : Tree u t') (run : u.vfsOpen path perm = .ok (u', s)) :
    Grown v u' := by
  rw [vfsOpen] at run
  cases mode : scanPerm false perm with
  | none =>
    rw [mode] at run
    cases run
    exact grown
  | some write =>
    rw [mode] at run
    obtain ⟨⟨u1, x⟩, first, run⟩ := bind_ok run
    obtain rfl := treeU.fresh.getPath first
    have grown := grown.same (same_tick (components path).length)
    dsimp only at run
    split at run
    · obtain ⟨⟨u2, y⟩, made, run⟩ := bind_ok run
      refine (grown.create tree (treeU.tick _) made).same (same_openNode y s write ?_)
      cases write <;> exact run
    · refine grown.same (same_openNode x s write ?_)
      cases write <;> exact run

theorem Grown.step (grown : Grown v u) (tree : Tree v t) (treeU : Tree u t') (builds : Builds v u call)
    (step : Step u call u') : Grown v u' := by
  obtain ⟨bytes, run⟩ := step
  cases call with
  | create path =>
    obtain ⟨⟨w, c⟩, made, done⟩ := bind_ok run
    cases done
    obtain ⟨⟨w, p⟩, created, done⟩ := bind_ok made
    cases done
    exact grown.create tree treeU created
  | remove path => exact builds.elim
  | «open» path perm =>
    obtain ⟨⟨w, s⟩, opened, done⟩ := bind_ok run
    cases done
    exact grown.open tree treeU opened
  | close s =>
    obtain ⟨w, closed, done⟩ := bind_ok run
    cases done
    obtain ⟨st, _, rfl⟩ := vfsClose_ok closed
    refine ⟨grown.next, grown.old, grown.new, grown.blocks, fun r live => ?_⟩
    have other : r ≠ s := by
      rintro rfl
      rw [show v.streams r = none from builds] at live
      cases live
    exact (congrArg Option.isSome (Function.update_of_ne other none u.streams)).trans (grown.streams r live)
  | seek s pos whence =>
    obtain ⟨w, moved, done⟩ := bind_ok run
    cases done
    obtain ⟨st, _, rfl | ⟨i, rfl⟩⟩ := vfsSeek_ok moved
    · exact grown
    · exact grown.same (same_setStream ..)
  | read s size =>
    obtain ⟨st, n, _, _, _, rfl⟩ := vfsRead_ok run
    exact grown.same (same_setStream ..)
  | write s bytes =>
    obtain ⟨⟨w, c⟩, written, done⟩ := bind_ok run
    cases done
    obtain ⟨st, w, opened, appended, flushed⟩ := vfsWrite_ok written
    exact ((grown.append tree treeU (builds st opened) appended).same (same_setStream ..)).same (same_flush flushed)
  | flush s =>
    obtain ⟨w, flushed, done⟩ := bind_ok run
    cases done
    exact grown.same (same_flush flushed)
  | hookFlush s flushdata hook =>
    obtain ⟨w, hooked, done⟩ := bind_ok run
    cases done
    obtain ⟨_, st, _, rfl⟩ := vfsHookFlush_ok hooked
    exact grown.same (same_setStream ..)

theorem create_new_or_same (path : CString) (tree : Tree u t) {fresh : Ptr} (late : u.next ≤ fresh) :
    (∃ x ∈ (t.create u.root fresh path).1.ids, u.next ≤ x) ∨ (t.create u.root fresh path).1 = t := by
  rw [FileTree.create]
  cases resolve t u.root path with
  | some x => exact .inr rfl
  | none =>
    cases base : resolveBase t u.root path with
    | none => exact .inr rfl
    | some parent =>
      have perm := Forest.ids_addLeaf_perm (x := fresh) (l := File.mk (vfsBasename path) []) tree.distinct
        (resolveFrom_mem tree.root_mem base)
      exact .inl ⟨fresh, perm.mem_iff.mpr List.mem_cons_self, late⟩

/-- A call that is no removal adds a node, or every path leads where it did. -/
theorem effect_resolves (tree : Tree u t) (stays : ∀ path, call ≠ .remove path) :
    (∃ x ∈ (call.effect u t).ids, u.next ≤ x) ∨
      ∀ q names, resolveFrom (call.effect u t) q names = resolveFrom t q names := by
  cases call with
  | create path =>
    rw [Call.effect]
    rcases create_new_or_same path tree (Nat.le_add_right u.next _) with new | same
    · exact .inl new
    · exact .inr (fun q names => by rw [same])
  | remove path => exact absurd rfl (stays path)
  | «open» path perm =>
    rw [Call.effect]
    cases scanPerm false perm with
    | none => exact .inr (fun _ _ => rfl)
    | some writing =>
      cases writing with
      | false => exact .inr (fun _ _ => rfl)
      | true =>
        have made := create_new_or_same path tree (Nat.le_add_right u.next (3 * (components path).length))
        simp only [FileTree.openFile, if_true]
        cases target : t.create u.root (u.next + 3 * (components path).length) path with
        | mk t' found =>
          rw [target] at made
          cases found with
          | none =>
            rcases made with new | same
            · exact .inl new
            · exact .inr (fun q names => by rw [show t' = t from same])
          | some x =>
            rcases made with ⟨y, member, late⟩ | same
            · exact .inl ⟨y, by simpa using member, late⟩
            · exact .inr (fun q names => by rw [resolveFrom_relabel, show t' = t from same])
  | write s bytes =>
    rw [Call.effect]
    cases u.streams s with
    | none => exact .inr (fun _ _ => rfl)
    | some st => exact .inr (fun _ _ => resolveFrom_relabel _)
  | close _ => exact .inr (fun _ _ => rfl)
  | seek _ _ _ => exact .inr (fun _ _ => rfl)
  | read _ _ => exact .inr (fun _ _ => rfl)
  | flush _ => exact .inr (fun _ _ => rfl)
  | hookFlush _ _ _ => exact .inr (fun _ _ => rfl)

/-- Where a sequence that builds has got since `v`, a tree `t0`. -/
structure Built (v : Vfs) (t0 : FileTree) (u : Vfs) (t : FileTree) : Prop where
  tree : Tree u t
  grown : Grown v u
  root : u.root = v.root
  resolves : (∃ x ∈ t.ids, v.nodes x = none) ∨ ∀ names, resolveFrom t v.root names = resolveFrom t0 v.root names

theorem Built.step (built : Built v t u t') (tree : Tree v t) (builds : Builds v u call) (step : Step u call u') :
    ∃ t'', Built v t u' t'' := by
  have stays : ∀ path, call ≠ .remove path := by
    rintro path rfl
    exact builds.elim
  have moved := built.tree.step step (fun path same => absurd same (stays path))
  refine ⟨_, moved.tree, built.grown.step tree built.tree builds step, moved.root.trans built.root, ?_⟩
  rcases effect_resolves built.tree stays with ⟨x, member, late⟩ | same
  · exact .inl ⟨x, member, (tree.unused x (Nat.le_trans built.grown.next late)).1⟩
  · rcases built.resolves with ⟨x, member, dead⟩ | before
    · refine .inl ⟨x, effect_sub built.tree member (fun path _ removes => absurd removes (stays path)), dead⟩
    · exact .inr (fun names => (same _ names).trans (before names))

theorem Built.run {steps : List (Vfs × Call)} (run : Run Step u steps w) (tree : Tree v t) (built : Built v t u t')
    (builds : ∀ step ∈ steps, Builds v step.1 step.2) : ∃ t'', Built v t w t'' := by
  refine @Run.history_of _ _ Step u w steps (fun u _ => ∃ t'', Built v t u t'') (fun step => Builds v step.1 step.2)
    ?_ run builds [] ⟨t', built⟩
  rintro u call u' _ ⟨t'', built⟩ good step
  exact built.step tree good step

theorem remove_blocks (treeW : Tree w t') (removal : Step w (.remove path) w') : w'.blocks = w.blocks := by
  obtain ⟨bytes, run⟩ := removal
  obtain ⟨⟨y, c⟩, removed, done⟩ := bind_ok run
  cases done
  exact (treeW.fresh.remove removed).2

/-- A path that led nowhere still does after a sequence that made nothing. -/
theorem Built.remove_missing (built : Built v t w t') (missing : resolve t v.root path = none)
    (nothing : ∀ q, (w.nodes q).isSome → (v.nodes q).isSome) (removal : Step w (.remove path) w') :
    ∃ k, w' = w.tick k := by
  have lead : resolve t' w.root path = none := by
    rcases built.resolves with ⟨x, member, dead⟩ | same
    · have live := nothing x ((built.tree.exact x).mpr member)
      rw [dead] at live
      cases live
    · rw [resolve, built.root, same]
      exact missing
  obtain ⟨bytes, run⟩ := removal
  obtain ⟨⟨y, c⟩, removed, done⟩ := bind_ok run
  cases done
  obtain ⟨⟨z, x⟩, first, removed⟩ := bind_ok removed
  obtain ⟨rfl, rfl⟩ := built.tree.getPath_ok first
  rw [show resolveFrom t' w.root (resolved path false) = none from lead] at removed
  cases removed
  exact ⟨_, rfl⟩

theorem Grown.owned (grown : Grown v w) (live : (w.nodes q).isSome) (made : v.nodes q = none) :
    ∃ d above, w.owner q = some (d, above) ∧ v.next ≤ d ∧ (w.blocks d).isSome := by
  obtain ⟨⟨d, above⟩, owned⟩ := Option.isSome_iff_exists.mp (isSome_owner.trans live)
  exact ⟨d, above, owned, grown.new q d above made owned, (grown.blocks d).mpr (.inr ⟨q, above, made, owned⟩)⟩

/-- Removing what a sequence has made gives back everything exactly if it made no
file or directory at all. -/
theorem removal_leaks_iff {v0 : Vfs} {past steps : List (Vfs × Call)} (init : vfsInit empty = .ok v0)
    (run : Run Step v0 past v) (missing : v.vfsGetPath path false = .ok (u, 0)) (sequence : Run Step v steps w)
    (builds : ∀ step ∈ steps, Builds v step.1 step.2) (closed : ∀ s, (w.streams s).isSome → (v.streams s).isSome)
    (removal : Step w (.remove path) w') :
    (∀ p, Alive w' p ↔ Alive v p) ↔ ∀ q, (w.nodes q).isSome → (v.nodes q).isSome := by
  rcases tree_or_gone init run with ⟨t, tree⟩ | gone
  · have missing : resolve t v.root path = none := by
      obtain ⟨_, null⟩ := tree.getPath_ok missing
      cases found : resolve t v.root path with
      | none => rfl
      | some x =>
        rw [show resolveFrom t v.root (resolved path false) = some x from found] at null
        exact absurd null.symm (tree.reps.nonnull x (resolveFrom_mem tree.root_mem found))
    obtain ⟨t', built⟩ := Built.run sequence tree ⟨tree, .refl v, rfl, .inr fun _ => rfl⟩ builds
    constructor
    · intro same q live
      by_contra made
      rw [Option.not_isSome_iff_eq_none] at made
      -- the data block of `q` outlives its node
      obtain ⟨d, above, _, late, stored⟩ := built.grown.owned live made
      obtain ⟨noNode, noStream, noBlock⟩ := tree.unused d late
      rw [← remove_blocks built.tree removal] at stored
      rcases (same d).mp (.inr (.inr stored)) with live | live | live
      · simp [noNode] at live
      · simp [noStream] at live
      · simp [noBlock] at live
    · intro nothing p
      obtain ⟨k, rfl⟩ := built.remove_missing missing nothing removal
      have nodes : (w.nodes p).isSome ↔ (v.nodes p).isSome := by
        refine ⟨nothing p, fun live => ?_⟩
        rw [← isSome_owner, built.grown.old p live, isSome_owner]
        exact live
      have blocks : (w.blocks p).isSome ↔ (v.blocks p).isSome := by
        refine ⟨fun live => ?_, fun live => (built.grown.blocks p).mpr (.inl live)⟩
        rcases (built.grown.blocks p).mp live with old | ⟨q, above, made, owned⟩
        · exact old
        · have live := nothing q (by rw [← isSome_owner, owned]; rfl)
          rw [made] at live
          cases live
      have streams : (w.streams p).isSome ↔ (v.streams p).isSome := ⟨closed p, built.grown.streams p⟩
      exact or_congr nodes (or_congr streams blocks)
  · obtain ⟨_, null⟩ := gone.getPath_ok missing
    exact absurd null.symm gone.root

/-- A node of `v` lies below old nodes only. -/
theorem Grown.not_under (grown : Grown v w) (tree : Tree v t) (treeW : Tree w t') (made : v.nodes x = none)
    (nonnull : x ≠ 0) (under : Under w x q) : v.nodes q = none := by
  induction under with
  | self => exact made
  | @up y n found above ih =>
    by_contra live
    have live := Option.isSome_iff_ne_none.mpr live
    obtain ⟨m, foundV, parentOf, _⟩ := tree.lookup ((tree.exact y).mp live)
    have kept := grown.old y live
    simp only [owner, found, foundV, Option.map_some, Option.some.injEq, Prod.mk.injEq] at kept
    rcases Forest.parentOf_mem parentOf with top | inside
    · -- nothing lies above the root
      rw [kept.2, top] at above
      cases above with
      | self => exact nonnull rfl
      | up found0 _ => exact treeW.reps.nonnull 0 ((treeW.exact 0).mp (by simp [found0])) rfl
    · have alive := (tree.exact _).mpr inside
      rw [← kept.2, ih] at alive
      cases alive

/-- When all that was made lies below the path, its nodes are freed, and exactly
their data blocks stay behind. -/
theorem Built.removal_leaves_data (built : Built v t w t') (tree : Tree v t) (lead : resolve t' w.root path = some x)
    (made : v.nodes x = none) (below : ∀ q, (w.nodes q).isSome → v.nodes q = none → Under w x q)
    (removal : Step w (.remove path) w') (p : Ptr) :
    ((w'.nodes p).isSome ↔ (v.nodes p).isSome) ∧ w'.streams = w.streams ∧
      ((w'.blocks p).isSome ↔ (v.blocks p).isSome ∨ ∃ q above, v.nodes q = none ∧ w.owner q = some (p, above)) := by
  have treeW := built.tree
  have nonnull := treeW.reps.nonnull x (resolveFrom_mem treeW.root_mem lead)
  have notRoot : resolve t' w.root path ≠ some w.root := by
    rw [lead, built.root]
    intro same
    have live := (tree.exact _).mpr tree.root_mem
    rw [← Option.some.inj same, made] at live
    cases live
  have blocks := remove_blocks treeW removal
  obtain ⟨bytes, run⟩ := removal
  obtain ⟨⟨y, c⟩, ran, done⟩ := bind_ok run
  cases done
  obtain ⟨⟨z, x'⟩, first, _⟩ := bind_ok ran
  obtain ⟨w1, c1, ran1, _, _, removed⟩ := treeW.vfsRemove (getPath_short first) notRoot
  cases ran.symm.trans ran1
  have removed := removed x lead
  refine ⟨?_, removed.streams, ?_⟩
  · by_cases dead : p ∈ t'.subtree x
    · have under := (treeW.under_iff (Forest.subtree_sub dead) nonnull).mpr dead
      rw [(removed.freed p dead).2, built.grown.not_under tree treeW made nonnull under]
    · rw [(removed.old p dead).1]
      constructor
      · intro live
        by_contra new
        have under := below p live (Option.not_isSome_iff_eq_none.mp new)
        exact dead ((treeW.under_iff ((treeW.exact p).mp live) nonnull).mp under)
      · intro live
        rw [show (w.tick (components path).length).nodes p = w.nodes p from rfl, ← isSome_owner, built.grown.old p live,
          isSome_owner]
        exact live
  · rw [blocks]
    exact built.grown.blocks p

theorem removal_leaks_iff_nested : ∃ v w w', vfsInit empty = .ok v ∧ Run Step v [(v, .create [97, slash, 98])] w ∧
    Step w (.remove [97, slash, 98]) w' ∧ ∀ p, Alive w' p ↔ Alive v p := by
  obtain ⟨v, a, b, c, init, tree, root⟩ := vfsInit_tree
  have ok : PathOk [97, slash, 98] := by decide
  have missing : resolve (initTree a b c) v.root [97, slash, 98] = none := by
    rw [root]
    rfl
  obtain ⟨w, created, tree', kept⟩ := tree.vfsCreate_ (pathFits v.root ok)
  have none : (initTree a b c).create v.root (v.next + 2 * (components [97, slash, 98]).length) [97, slash, 98] =
      (initTree a b c, Option.none) := by
    rw [root]
    rfl
  rw [none] at created tree'
  have step := step_create created
  have first := tree.getPath ok.1 false
  rw [show resolveFrom (initTree a b c) v.root (resolved [97, slash, 98] false) = Option.none from missing] at first
  obtain ⟨w', d, removed, _⟩ := tree'.vfsRemove ok.1 (by
    rw [kept.root, missing]
    exact fun bad => by cases bad)
  have removal := step_remove removed
  refine ⟨v, w, w', init, .single step, removal, ?_⟩
  refine (removal_leaks_iff init (.stop v) first (.single step) ?_ (fun s live => ?_) removal).mpr (fun q live => ?_)
  · rintro step (_ | ⟨_, bad⟩)
    · trivial
    · cases bad
  · rwa [← (quiet_vfsCreate_ created).streams]
  · exact (tree.exact q).mpr ((tree'.exact q).mp live)

/-- After `vfsInit`, `vfsCreate("a")` and `vfsRemove("a")` leave the data block of the
file behind. -/
theorem data_leaks : ∃ v u w w' p, vfsInit empty = .ok v ∧ v.vfsGetPath [97] false = .ok (u, 0) ∧
    Run Step v [(v, .create [97])] w ∧ w.streams = v.streams ∧ Step w (.remove [97]) w' ∧ Alive w' p ∧ ¬ Alive v p := by
  obtain ⟨v, a, b, c, init, tree, root⟩ := vfsInit_tree
  have ok : PathOk [97] := by decide
  have missing : resolve (initTree a b c) v.root [97] = none := by
    rw [root]
    rfl
  have first := tree.getPath ok.1 false
  rw [show resolveFrom (initTree a b c) v.root (resolved [97] false) = none from missing] at first
  obtain ⟨w, created, tree', kept⟩ := tree.vfsCreate_ (pathFits v.root ok)
  have made : (initTree a b c).create v.root (v.next + 2 * (components [97]).length) [97] =
      ((initTree a b c).addLeaf v.root (v.next + 2 * (components [97]).length) ⟨[97], []⟩,
        some (v.next + 2 * (components [97]).length)) := by
    rw [root]
    rfl
  have fresh := tree.later_not_mem (Nat.le_add_right v.next (2 * (components [97]).length))
  have step := step_create created
  have lead := resolve_created tree fresh missing (show resolveBase (initTree a b c) v.root [97] = some v.root from rfl)
  rw [if_neg (by decide)] at lead
  rw [made] at tree'
  obtain ⟨w', d, removed, _⟩ := tree'.vfsRemove ok.1 (by
    rw [kept.root]
    intro same
    exact fresh (Option.some.inj (lead.symm.trans same) ▸ tree.root_mem))
  have removal := step_remove removed
  -- the block that the new node owns
  have grown := (Grown.refl v).create tree tree created
  have live := (tree'.exact _).mpr (resolveFrom_mem (kept.root ▸ tree'.root_mem) lead)
  obtain ⟨p, above, _, late, stored⟩ := grown.owned live (tree.unused _ (Nat.le_add_right _ _)).1
  obtain ⟨noNode, noStream, noBlock⟩ := tree.unused p late
  refine ⟨v, _, w, w', p, init, first, .single step, (quiet_vfsCreate_ created).streams, removal, ?_, ?_⟩
  · rw [← remove_blocks tree' removal] at stored
    exact .inr (.inr stored)
  · simp [Alive, noNode, noStream, noBlock]

end UmkaOs.Vfs
