import UmkaOs.Vfs.Runs

namespace UmkaOs.Vfs

open Lib

/-- The nodes that child and sibling pointers lead to from the root. -/
inductive InTree (v : Vfs) : Ptr → Prop
  | root : InTree v v.root
  | child {p : Ptr} {n : Node} (above : InTree v p) (found : v.nodes p = some n) (some : n.child ≠ 0) :
      InTree v n.child
  | sibling {p : Ptr} {n : Node} (before : InTree v p) (found : v.nodes p = some n) (some : n.sibling ≠ 0) :
      InTree v n.sibling

/-- `x` is the node `y` or a node above it. -/
inductive Under (v : Vfs) (x : Ptr) : Ptr → Prop
  | self : Under v x x
  | up {y : Ptr} {n : Node} (found : v.nodes y = some n) (above : Under v x n.parent) : Under v x y

/-- A call on a path, or on a stream that is open. -/
def Call.OnOpen (v : Vfs) : Call → Prop
  | create _ | remove _ | .open _ _ => True
  | close s | seek s _ _ | read s _ | write s _ | flush s | hookFlush s _ _ => (v.streams s).isSome

/-- The root and the nodes of the streams live in the tree, and no call on a path
or an open stream follows a dangling pointer. -/
structure Intact (v : Vfs) : Prop where
  root : (v.nodes v.root).isSome
  streams : ∀ s st, v.streams s = some st → (v.nodes st.node).isSome ∧ InTree v st.node
  calls : ∀ call : Call, call.OnOpen v → call.run v ≠ .error .dangling
  existence : ∀ path, v.vfsExists path ≠ .error .dangling
  atEnd : ∀ s, (v.streams s).isSome → v.vfsEof s ≠ .error .dangling

/-- A removal takes neither the root nor a node of an open stream, nor one above it. -/
def Spares (v : Vfs) (call : Call) : Prop :=
  ∀ path w x, call = .remove path → v.vfsGetPath path false = .ok (w, x) → x ≠ 0 →
    x ≠ v.root ∧ ∀ s st, v.streams s = some st → ¬ Under v x st.node

variable {v v' : Vfs} {t f : FileTree} {path : CString} {s x y p parent : Ptr} {call : Call}

/-- A tree that holds the node of every stream. -/
structure Sound (v : Vfs) (t : FileTree) : Prop where
  tree : Tree v t
  streams : ∀ s st, v.streams s = some st → st.node ∈ t.ids

theorem Reps.inTree (reps : Reps v parent p f) (start : p ≠ 0 → InTree v p) : ∀ q ∈ f.ids, InTree v q := by
  induction f generalizing parent p with
  | nil => simp [Forest.ids]
  | node id file children rest ihc ihr =>
    obtain ⟨rfl, nonnull, n, found, _, _, _, below, behind⟩ := reps
    have here := start nonnull
    intro q member
    simp only [Forest.ids_node, List.mem_cons, List.mem_append] at member
    rcases member with rfl | inside | inside
    · exact here
    · exact ihc below (fun some => .child here found some) q inside
    · exact ihr behind (fun some => .sibling here found some) q inside

theorem Under.trans {z : Ptr} (upper : Under v x y) (lower : Under v y z) : Under v x z := by
  induction lower with
  | self => exact upper
  | up found _ ih => exact .up found ih

theorem Reps.under (reps : Reps v parent p f) : ∀ q ∈ f.ids, Under v parent q := by
  induction f generalizing parent p with
  | nil => simp [Forest.ids]
  | node id file children rest ihc ihr =>
    obtain ⟨rfl, _, n, found, _, _, rfl, below, behind⟩ := reps
    have here : Under v n.parent p := .up found .self
    intro q member
    simp only [Forest.ids_node, List.mem_cons, List.mem_append] at member
    rcases member with rfl | inside | inside
    · exact here
    · exact here.trans (ihc below q inside)
    · exact ihr behind q inside

/-- Parent pointers climb the tree. -/
theorem Tree.under_iff (tree : Tree v t) (member : y ∈ t.ids) (nonnull : x ≠ 0) : Under v x y ↔ y ∈ t.subtree x := by
  constructor
  · intro under
    induction under with
    | self => simp [Forest.subtree_eq tree.distinct member]
    | @up y n found above ih =>
      obtain ⟨m, foundM, parentOf, _, _⟩ := tree.lookup member
      cases found.symm.trans foundM
      have upper : n.parent ∈ t.ids := by
        cases above with
        | self => exact (Forest.parentOf_mem parentOf).resolve_left nonnull
        | up found' _ => exact (tree.exact _).mp (by simp [found'])
      have kid := Forest.kid_of_parentOf tree.distinct parentOf (tree.reps.nonnull _ upper)
      exact Forest.kids_subtree tree.distinct (ih upper) (Forest.spine_sub kid)
  · intro inside
    have upper : x ∈ t.ids := by
      by_contra absent
      simp [Forest.subtree_of_not_mem absent] at inside
    obtain ⟨n, _, _, _, kids⟩ := tree.lookup upper
    rw [Forest.subtree_eq tree.distinct upper, List.mem_cons] at inside
    rcases inside with rfl | inside
    · exact .self
    · exact kids.under y inside

theorem Tree.returns_vfsWrite (tree : Tree v t) {st : Stream} (opened : v.streams s = some st)
    (member : st.node ∈ t.ids) (bytes : List UInt8) : Returns (v.vfsWrite s bytes) := by
  obtain ⟨n, found, _, label, _⟩ := tree.lookup member
  by_cases room : (v.contentOf n).length + bytes.length < 2 ^ 32
  · obtain ⟨v', run, _⟩ := tree.vfsWrite opened label room
    exact .inl ⟨_, run⟩
  · exact .inr (tree.vfsWrite_long opened label (Nat.le_of_not_lt room))

theorem Returns.safe {α : Type} {run : Except Fault α} (returns : Returns run) : run ≠ .error .dangling := by
  rcases returns with ⟨r, same⟩ | same <;> simp [same]

/-- The node of a stream is found, so no call follows a dangling pointer. -/
theorem Sound.safe (sound : Sound v t) (onOpen : call.OnOpen v) : call.run v ≠ .error .dangling := by
  obtain ⟨tree, streams⟩ := sound
  cases call with
  | create path =>
    exact (((tree.returns_vfsCreate_ path).bind fun _ _ => .inl ⟨_, rfl⟩).bind fun _ _ => .inl ⟨_, rfl⟩).safe
  | remove path => exact ((tree.returns_vfsRemove path).bind fun _ _ => .inl ⟨_, rfl⟩).safe
  | «open» path perm => exact ((tree.returns_vfsOpen path perm).bind fun _ _ => .inl ⟨_, rfl⟩).safe
  | close s =>
    obtain ⟨st, opened⟩ := Option.isSome_iff_exists.mp onOpen
    obtain ⟨v', run, _⟩ := tree.vfsClose opened
    simp [Call.run, run, bind, Except.bind, pure, Except.pure]
  | seek s pos whence =>
    obtain ⟨st, opened⟩ := Option.isSome_iff_exists.mp onOpen
    obtain ⟨n, found, _⟩ := tree.lookup (streams s st opened)
    simp only [Call.run, vfsSeek, stream, opened, node, found, bind, Except.bind, pure, Except.pure]
    split_ifs <;> simp
  | read s size =>
    obtain ⟨st, opened⟩ := Option.isSome_iff_exists.mp onOpen
    obtain ⟨n, found, _⟩ := tree.lookup (streams s st opened)
    simp [Call.run, vfsRead, stream, opened, node, found, bind, Except.bind, pure, Except.pure]
  | write s bytes =>
    obtain ⟨st, opened⟩ := Option.isSome_iff_exists.mp onOpen
    exact ((tree.returns_vfsWrite opened (streams s st opened) bytes).bind fun _ _ => .inl ⟨_, rfl⟩).safe
  | flush s =>
    obtain ⟨st, opened⟩ := Option.isSome_iff_exists.mp onOpen
    obtain ⟨v', run, _⟩ := tree.vfsFlush opened (streams s st opened)
    simp [Call.run, run, bind, Except.bind, pure, Except.pure]
  | hookFlush s flushdata hook =>
    obtain ⟨st, opened⟩ := Option.isSome_iff_exists.mp onOpen
    simp only [Call.run, vfsHookFlush, stream, opened, bind, Except.bind]
    by_cases null : hook = 0
    · simp [null, throw, throwThe, MonadExceptOf.throw]
    · simp [null, pure, Except.pure]

theorem Sound.intact (sound : Sound v t) : Intact v where
  root := (sound.tree.exact _).mpr sound.tree.root_mem
  streams s st opened := by
    have member := sound.streams s st opened
    have nonnull := fun _ : v.root ≠ 0 => InTree.root (v := v)
    exact ⟨(sound.tree.exact _).mpr member, sound.tree.reps.inTree nonnull _ member⟩
  calls call onOpen := sound.safe onOpen
  existence path := ((sound.tree.returns_getPath path false).bind fun _ _ => .inl ⟨_, rfl⟩).safe
  atEnd s isOpen := by
    obtain ⟨st, opened⟩ := Option.isSome_iff_exists.mp isOpen
    obtain ⟨n, found, _⟩ := sound.tree.lookup (sound.streams s st opened)
    simp [vfsEof, stream, opened, node, found, bind, Except.bind, pure, Except.pure]

theorem create_sub (tree : Tree v t) {fresh : Ptr} (member : y ∈ t.ids) : y ∈ (t.create v.root fresh path).1.ids := by
  rw [FileTree.create]
  cases resolve t v.root path with
  | some x => exact member
  | none =>
    cases base : resolveBase t v.root path with
    | none => exact member
    | some parent =>
      exact (Forest.ids_addLeaf_perm tree.distinct (resolveFrom_mem tree.root_mem base)).mem_iff.mpr
        (List.mem_cons_of_mem _ member)

/-- Only a removal takes nodes away, those of a subtree. -/
theorem effect_sub (tree : Tree v t) (member : y ∈ t.ids)
    (spared : ∀ path x, call = .remove path → resolve t v.root path = some x → y ∉ t.subtree x) :
    y ∈ (call.effect v t).ids := by
  cases call with
  | create path => exact create_sub tree member
  | «open» path perm =>
    rw [Call.effect]
    cases scanPerm false perm with
    | none => exact member
    | some writing =>
      cases writing with
      | false => exact member
      | true =>
        have kept := @create_sub v t path y tree (v.next + 3 * (components path).length) member
        simp only [FileTree.openFile, if_true]
        cases made : t.create v.root (v.next + 3 * (components path).length) path with
        | mk t' target =>
          rw [made] at kept
          cases target with
          | none => exact kept
          | some x => simpa using kept
  | remove path =>
    rw [Call.effect, FileTree.remove]
    cases lead : resolve t v.root path with
    | none => exact member
    | some x => exact (Forest.mem_ids_erase tree.distinct).mpr ⟨member, spared path x rfl lead⟩
  | write s bytes =>
    rw [Call.effect]
    cases v.streams s with
    | none => exact member
    | some st => simpa using member
  | close _ => exact member
  | seek _ _ _ => exact member
  | read _ _ => exact member
  | flush _ => exact member
  | hookFlush _ _ _ => exact member

/-- The node a removal takes is the one its path leads to. -/
theorem Tree.leads (tree : Tree v t) (step : Step v (.remove path) v') (lead : resolve t v.root path = some x) :
    (components path).length ≤ subSize ∧ ∃ w, v.vfsGetPath path false = .ok (w, x) := by
  obtain ⟨bytes, run⟩ := step
  obtain ⟨r, removed, _⟩ := bind_ok run
  obtain ⟨⟨w, q⟩, first, _⟩ := bind_ok removed
  obtain ⟨rfl, rfl⟩ := tree.getPath_ok first
  have here : resolveFrom t v.root (Vfs.resolved path false) = some x := lead
  exact ⟨getPath_short first, _, by rw [first, here]; rfl⟩

theorem Sound.step (sound : Sound v t) (spares : Spares v call) (step : Step v call v') : ∃ t', Sound v' t' := by
  obtain ⟨tree, streams⟩ := sound
  have target : ∀ path x, call = .remove path → resolve t v.root path = some x →
      x ≠ v.root ∧ ∀ s st, v.streams s = some st → st.node ∉ t.subtree x := by
    rintro path x rfl lead
    obtain ⟨_, w, first⟩ := tree.leads step lead
    have nonnull := tree.reps.nonnull x (resolveFrom_mem tree.root_mem lead)
    obtain ⟨notRoot, apart⟩ := spares path w x rfl first nonnull
    refine ⟨notRoot, fun s st opened inside => apart s st opened ?_⟩
    exact (tree.under_iff (streams s st opened) nonnull).mpr inside
  have keeps : KeepsRoot v t call := fun path same lead => (target path v.root same lead).1 rfl
  have moved := tree.step step keeps
  refine ⟨_, moved.tree, fun s st' opened => ?_⟩
  rcases moved.streams s st' opened with ⟨st, before, same⟩ | ⟨_, member⟩
  · rw [← same]
    exact effect_sub tree (streams s st before) (fun path x removes lead => (target path x removes lead).2 s st before)
  · exact member

/-- A removal that does not spare the references leaves one dangling. -/
theorem Sound.spares_of_intact (sound : Sound v t) (step : Step v call v') (intact : Intact v') : Spares v call := by
  obtain ⟨tree, streams⟩ := sound
  rintro path w x rfl first nonnull
  obtain ⟨bytes, run⟩ := step
  obtain ⟨⟨u, c⟩, removed, done⟩ := bind_ok run
  cases done
  have lead : resolve t v.root path = some x := by
    obtain ⟨_, same⟩ := tree.getPath_ok first
    cases found : resolve t v.root path with
    | none =>
      rw [show resolveFrom t v.root (Vfs.resolved path false) = none from found] at same
      exact absurd same nonnull
    | some y =>
      rw [show resolveFrom t v.root (Vfs.resolved path false) = some y from found] at same
      exact congrArg some same.symm
  by_cases isRoot : x = v.root
  · -- the root is freed
    obtain ⟨u', ran, gone, _⟩ := tree.removeRoot (getPath_short first) (isRoot ▸ lead)
    cases removed.symm.trans ran
    have dead := intact.root
    rw [gone.nodes] at dead
    cases dead
  · have notRoot : resolve t v.root path ≠ some v.root := fun bad => isRoot (Option.some.inj (lead.symm.trans bad))
    obtain ⟨_, kept, freed⟩ := Moved.remove tree notRoot removed
    refine ⟨isRoot, fun s st opened under => ?_⟩
    have dead := freed x lead _ ((tree.under_iff (streams s st opened) nonnull).mp under)
    have live := (intact.streams s st (by rw [kept]; exact opened)).1
    rw [dead] at live
    cases live

/-- In every run after `vfsInit` all references are intact exactly if every
removal spares them. -/
theorem references_intact_iff {last : Vfs} {steps : List (Vfs × Call)} (init : vfsInit empty = .ok v)
    (run : Run Step v steps last) :
    ((∀ step ∈ steps, Intact step.1) ∧ Intact last) ↔ ∀ step ∈ steps, Spares step.1 step.2 := by
  obtain ⟨t, start⟩ : ∃ t, Sound v t := by
    obtain ⟨t, tree⟩ := tree_init init
    refine ⟨t, tree, fun s st opened => ?_⟩
    rw [(quiet_vfsInit init).streams] at opened
    cases opened
  clear init
  induction run generalizing t with
  | stop v => simp [start.intact]
  | @next v v' last call rest first later ih =>
    constructor
    · rintro ⟨all, end_⟩
      have after : Intact v' := by
        cases later with
        | stop => exact end_
        | @next _ _ _ label _ _ _ => exact all (v', label) (by simp)
      have spares := start.spares_of_intact first after
      obtain ⟨t', next⟩ := start.step spares first
      have rest := (ih t' next).mp ⟨fun step member => all step (List.mem_cons_of_mem _ member), end_⟩
      exact List.forall_mem_cons.mpr ⟨spares, rest⟩
    · intro all
      obtain ⟨spares, rest⟩ := List.forall_mem_cons.mp all
      obtain ⟨t', next⟩ := start.step spares first
      obtain ⟨states, end_⟩ := (ih t' next).mpr rest
      exact ⟨List.forall_mem_cons.mpr ⟨start.intact, states⟩, end_⟩

theorem stdin_opened : ∃ v v1 s a b c, vfsInit empty = .ok v ∧ Step v (.open stdinName [114]) v1 ∧
    Tree v1 (initTree a b c) ∧ v1.root = 1 ∧ v1.streams s = some ⟨a, 0, 0, 0, 0⟩ ∧
    ∀ r st, v1.streams r = some st → st.node = a := by
  obtain ⟨v, a, b, c, init, tree, root⟩ := vfsInit_tree
  obtain ⟨v1, s, opened, _⟩ := @Tree.vfsOpen v (initTree a b c) stdinName [114] tree false rfl (by decide)
    (fun write => by cases write)
  obtain ⟨moved, made⟩ := @Moved.open v v1 (initTree a b c) stdinName [114] s false tree rfl opened
  have target : (FileTree.openFile (initTree a b c) v.root (v.next + 3 * (components stdinName).length) stdinName
      false) = (initTree a b c, some a) := by
    rw [root]
    rfl
  rw [target] at moved made
  obtain ⟨stream, _, others⟩ := made
  refine ⟨v, v1, s, a, b, c, init, step_open opened, moved.tree, moved.root.trans root, stream, fun r st found => ?_⟩
  by_cases here : r = s
  · subst here
    cases stream.symm.trans found
    rfl
  · rw [others r here, (quiet_vfsInit init).streams] at found
    cases found

theorem removed_beside {v1 : Vfs} {name : CString} {a b c q : Ptr} (tree : Tree v1 (initTree a b c))
    (lead : resolve (initTree a b c) v1.root name = some q) (below : q ≠ v1.root)
    (short : (components name).length ≤ subSize) : ∃ v2, Step v1 (.remove name) v2 ∧
      v1.vfsGetPath name false = .ok (v1.tick (components name).length, q) := by
  have notRoot : resolve (initTree a b c) v1.root name ≠ some v1.root := by
    rw [lead]
    exact fun same => below (Option.some.inj same)
  obtain ⟨v2, code, removed, _⟩ := tree.vfsRemove short notRoot
  refine ⟨v2, step_remove removed, ?_⟩
  rw [tree.getPath short false]
  rw [resolve] at lead
  simp [resolved, lead]

theorem references_intact_iff_stdout : ∃ v v1 v2, vfsInit empty = .ok v ∧
    Run Step v [(v, .open stdinName [114]), (v1, .remove stdoutName)] v2 ∧ Intact v2 := by
  obtain ⟨v, v1, s, a, b, c, init, opened, tree, root, stream, only⟩ := stdin_opened
  have distinct := tree.distinct
  simp only [initTree, Forest.ids, List.append_nil, List.nil_append, List.nodup_cons, List.mem_cons,
    List.not_mem_nil, or_false, not_or] at distinct
  obtain ⟨⟨_, rootB, _⟩, ⟨ab, _⟩, _⟩ := distinct
  have lead : resolve (initTree a b c) v1.root stdoutName = some b := by rw [root]; rfl
  obtain ⟨v2, step, first⟩ := removed_beside tree lead (by rw [root]; exact Ne.symm rootB) (by decide)
  have run : Run Step v [(v, .open stdinName [114]), (v1, .remove stdoutName)] v2 := .next opened (.single step)
  refine ⟨v, v1, v2, init, run, ((references_intact_iff init run).mpr ?_).2⟩
  have member : a ∈ (initTree a b c).ids := by simp [initTree]
  have nonnull := tree.reps.nonnull b (by simp [initTree])
  rintro step (_ | ⟨_, _ | ⟨_, none⟩⟩) path w x same found _
  · cases same
  · cases same
    cases first.symm.trans found
    refine ⟨by rw [root]; exact Ne.symm rootB, fun r st opened under => ?_⟩
    rw [only r st opened] at under
    have inside := (tree.under_iff member nonnull).mp under
    simp [initTree, Forest.subtree, Forest.ids, rootB, ab] at inside
  · cases none

/-- Removing `$stdin` while a stream is open on it frees the node of the stream. -/
theorem stream_dangles : ∃ v v1 v2, vfsInit empty = .ok v ∧
    Run Step v [(v, .open stdinName [114]), (v1, .remove stdinName)] v2 ∧ ¬ Intact v2 := by
  obtain ⟨v, v1, s, a, b, c, init, opened, tree, root, stream, only⟩ := stdin_opened
  have distinct := tree.distinct
  simp only [initTree, Forest.ids, List.append_nil, List.nil_append, List.nodup_cons, List.mem_cons,
    List.not_mem_nil, or_false, not_or] at distinct
  obtain ⟨⟨rootA, _⟩, _⟩ := distinct
  have lead : resolve (initTree a b c) v1.root stdinName = some a := by rw [root]; rfl
  obtain ⟨v2, step, first⟩ := removed_beside tree lead (by rw [root]; exact Ne.symm rootA) (by decide)
  have nonnull := tree.reps.nonnull a (by simp [initTree])
  refine ⟨v, v1, v2, init, .next opened (.single step), fun intact => ?_⟩
  have sound : Sound v1 (initTree a b c) := by
    refine ⟨tree, fun r st found => ?_⟩
    rw [only r st found]
    simp [initTree]
  exact (sound.spares_of_intact step intact stdinName _ a rfl first nonnull).2 s _ stream .self

end UmkaOs.Vfs
