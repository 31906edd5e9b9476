import UmkaOs.Vfs.Resolve
import UmkaOs.Vfs.Runs

namespace UmkaOs.Vfs

open Lib

/-- No parent has two children of the same name. -/
def NoTwins (v : Vfs) : Prop :=
  ∀ p q n m, v.nodes p = some n → v.nodes q = some m → n.parent = m.parent → n.filename = m.filename → p = q

/-- The name that `vfsBasename` cuts off is one that resolution can find, if a
node is to be made. -/
def Nameable (v : Vfs) (path : CString) : Prop :=
  ∀ w w' x, v.vfsGetPath path false = .ok (w, 0) → v.vfsGetPath path true = .ok (w', x) → x ≠ 0 →
    vfsBasename path ≠ [] ∧ vfsBasename path ≠ [dot, dot]

/-- Calls that create nodes, on paths whose names can be found. -/
def Call.Nameable (v : Vfs) (call : Call) : Prop :=
  ∀ path, (call = .create path ∨ ∃ perm, call = .open path perm ∧ scanPerm false perm = some true) → v.Nameable path

/-- The path leads to `x`, and creating or opening it again reaches `x` and adds
no node. -/
structure Resolvable (v : Vfs) (path : CString) (x : Ptr) : Prop where
  found : ∃ w, v.vfsExists path = .ok (w, true)
  again : ∃ w, v.vfsCreate_ path = .ok (w, x) ∧ w.nodes = v.nodes
  reopened : (v.nodes x).isSome → ∃ w s st, v.vfsOpen path [119] = .ok (w, s) ∧ s ≠ 0 ∧ w.streams s = some st ∧
    st.node = x ∧ ∀ q, (w.nodes q).isSome = (v.nodes q).isSome

/-- What was created, or opened with `"w"`, can be resolved. -/
structure Creates (v : Vfs) (path : CString) : Prop where
  create : ∀ v1, v.vfsCreate path = .ok (v1, 0) → ∃ x, v.vfsCreate_ path = .ok (v1, x) ∧ Resolvable v1 path x
  open_ : ∀ v1 s, v.vfsOpen path [119] = .ok (v1, s) → s ≠ 0 →
    ∃ st, v1.streams s = some st ∧ Resolvable v1 path st.node

/-- Siblings have different names. -/
def Twinless (t : FileTree) : Prop :=
  ∀ p q above l m, t.parentOf 0 p = some above → t.parentOf 0 q = some above →
    t.label? p = some l → t.label? q = some m → l.name = m.name → p = q

variable {v v' : Vfs} {t : FileTree} {path perm : CString} {x y p parent fresh : Ptr} {call : Call}

theorem Twinless.noTwins (twinless : Twinless t) (tree : Tree v t) : NoTwins v := by
  intro p q n m foundP foundQ above named
  obtain ⟨n', foundP', parentP, labelP, _⟩ := tree.lookup ((tree.exact p).mp (by simp [foundP]))
  obtain ⟨m', foundQ', parentQ, labelQ, _⟩ := tree.lookup ((tree.exact q).mp (by simp [foundQ]))
  cases foundP.symm.trans foundP'
  cases foundQ.symm.trans foundQ'
  exact twinless p q _ _ _ parentP (by rw [above]; exact parentQ) labelP labelQ named

theorem Twinless.relabel (twinless : Twinless t) (change : List UInt8 → List UInt8) :
    Twinless (t.relabel x (File.withContent change)) := by
  intro p q above l m parentP parentQ labelP labelQ same
  rw [Forest.parentOf_relabel] at parentP parentQ
  obtain ⟨l', labelP, nameP⟩ := label?_withContent labelP
  obtain ⟨m', labelQ, nameQ⟩ := label?_withContent labelQ
  exact twinless p q above l' m' parentP parentQ labelP labelQ (by rw [nameP, nameQ, same])

theorem Twinless.erase (twinless : Twinless t) (distinct : t.ids.Nodup) : Twinless (t.erase x) := by
  intro p q above l m parentP parentQ labelP labelQ same
  have live : ∀ y k, (t.erase x).label? y = some k → y ∉ t.subtree x :=
    fun y k labelled => ((Forest.mem_ids_erase distinct).mp (Forest.mem_of_label? labelled)).2
  have liveP := live p l labelP
  have liveQ := live q m labelQ
  rw [Forest.parentOf_erase distinct liveP] at parentP
  rw [Forest.parentOf_erase distinct liveQ] at parentQ
  rw [Forest.label?_erase distinct liveP] at labelP
  rw [Forest.label?_erase distinct liveQ] at labelQ
  exact twinless p q above l m parentP parentQ labelP labelQ same

theorem Twinless.addLeaf {file : File} (twinless : Twinless t) (distinct : t.ids.Nodup) (member : parent ∈ t.ids)
    (absent : fresh ∉ t.ids)
    (new : ∀ q l, t.parentOf 0 q = some parent → t.label? q = some l → l.name ≠ file.name) :
    Twinless (t.addLeaf parent fresh file) := by
  have leaf := @Forest.attach_leaf_new _ _ t parent fresh file _ 0 distinct member absent
  have old : ∀ y, y ≠ fresh → y ∉ (Forest.node fresh file .nil .nil : FileTree).ids := by
    intro y other
    simpa [Forest.ids] using other
  intro p q above l m parentP parentQ labelP labelQ same
  rw [Forest.addLeaf_eq_attach] at parentP parentQ labelP labelQ
  by_cases hereP : p = fresh <;> by_cases hereQ : q = fresh
  · exact hereP.trans hereQ.symm
  · subst hereP
    cases leaf.1.symm.trans parentP
    cases leaf.2.symm.trans labelP
    rw [Forest.parentOf_attach (old q hereQ)] at parentQ
    rw [Forest.label?_attach (old q hereQ)] at labelQ
    exact absurd same.symm (new q m parentQ labelQ)
  · subst hereQ
    cases leaf.1.symm.trans parentQ
    cases leaf.2.symm.trans labelQ
    rw [Forest.parentOf_attach (old p hereP)] at parentP
    rw [Forest.label?_attach (old p hereP)] at labelP
    exact absurd same (new p l parentP labelP)
  · rw [Forest.parentOf_attach (old p hereP)] at parentP
    rw [Forest.label?_attach (old p hereP)] at labelP
    rw [Forest.parentOf_attach (old q hereQ)] at parentQ
    rw [Forest.label?_attach (old q hereQ)] at labelQ
    exact twinless p q above l m parentP parentQ labelP labelQ same

theorem missing_last {root : Ptr} (missing : resolve t root path = none)
    (base : resolveBase t root path = some parent) :
    ∃ front last, components path = front ++ [last] ∧ last ≠ [] ∧ resolveFrom t root front = some parent ∧
      stepName t parent last = none ∧ (vfsBasename path = [] ∨ vfsBasename path = last) := by
  rw [resolve] at missing
  rw [resolveBase] at base
  rcases List.eq_nil_or_concat (components path) with none | ⟨front, last, split⟩
  · rw [none] at missing
    cases missing
  · rw [List.concat_eq_append] at split
    rw [split, List.dropLast_concat] at base
    rw [split, resolveFrom_append, base, Option.bind_some] at missing
    refine ⟨front, last, split, ?_, base, ?_, ?_⟩
    · exact componentsFrom_nonempty (show last ∈ componentsFrom [] path by
        rw [show componentsFrom [] path = components path from rfl, split]
        simp)
    · cases found : stepName t parent last with
      | none => rfl
      | some x => simp [resolveFrom, found] at missing
    · rcases vfsBasename_last path with empty | tail
      · exact .inl empty
      · rw [split, List.getLast?_concat] at tail
        exact .inr (Option.some.inj tail).symm

/-- The created node is found unless its name is empty or `..`. -/
theorem resolve_created (tree : Tree v t) (absent : fresh ∉ t.ids) (missing : resolve t v.root path = none)
    (base : resolveBase t v.root path = some parent) :
    resolve (t.addLeaf parent fresh ⟨vfsBasename path, []⟩) v.root path =
      if vfsBasename path = [] ∨ vfsBasename path = [dot, dot] then none else some fresh := by
  obtain ⟨front, last, split, nonempty, lead, ends, named⟩ := missing_last missing base
  have member := resolveFrom_mem tree.root_mem lead
  have apart : ∀ z ∈ t.ids, z ∉ (Forest.node fresh ⟨vfsBasename path, []⟩ .nil .nil : FileTree).ids := by
    intro z inside
    simpa [Forest.ids] using fun same : z = fresh => absent (same ▸ inside)
  rw [Forest.addLeaf_eq_attach, resolve, split, resolveFrom_append,
    resolveFrom_attach tree.distinct apart tree.root_mem lead, Option.bind_some, resolveFrom]
  rw [stepName] at ends
  by_cases up : last = [dot, dot]
  · rw [if_pos up] at ends
    rw [stepName, if_pos up, Forest.parentOf_attach (apart parent member), ends, Option.bind_none, if_pos]
    exact named.imp_right (fun same => same.trans up)
  · rw [if_neg up] at ends
    by_cases stay : last = [dot]
    · rw [if_pos stay] at ends
      cases ends
    · rw [if_neg stay] at ends
      rw [stepName, if_neg up, if_neg stay, Forest.kids_attach tree.distinct apart member, if_pos rfl,
        Forest.firstWith_append, ends, Option.none_or]
      rcases named with empty | same
      · rw [if_pos (.inl empty)]
        simp [Forest.firstWith, empty, nonempty]
      · rw [if_neg (by rw [same]; simp [nonempty, up])]
        simp [Forest.firstWith, same, resolveFrom]

theorem created_new (tree : Tree v t) (missing : resolve t v.root path = none)
    (base : resolveBase t v.root path = some parent)
    (findable : vfsBasename path ≠ [] ∧ vfsBasename path ≠ [dot, dot]) :
    ∀ q l, t.parentOf 0 q = some parent → t.label? q = some l → l.name ≠ vfsBasename path := by
  obtain ⟨front, last, split, nonempty, lead, ends, named⟩ := missing_last missing base
  have member := resolveFrom_mem tree.root_mem lead
  have same := named.resolve_left findable.1
  rw [stepName, if_neg (same ▸ findable.2)] at ends
  split at ends
  · cases ends
  · intro q l above labelled clash
    have kid := Forest.kid_of_parentOf tree.distinct above (tree.reps.nonnull _ member)
    rw [← Forest.label?_kids tree.distinct (Forest.spine_sub kid)] at labelled
    have other := Forest.firstWith_none ends (tree.kids_distinct parent) kid labelled
    simp [clash, same] at other

theorem Tree.nameable_iff (tree : Tree v t) (short : (components path).length ≤ subSize) :
    v.Nameable path ↔ ∀ parent, resolve t v.root path = none → resolveBase t v.root path = some parent →
      vfsBasename path ≠ [] ∧ vfsBasename path ≠ [dot, dot] := by
  constructor
  · intro nameable parent missing base
    have first := tree.getPath short false
    have second := tree.getPath short true
    rw [show resolveFrom t v.root (Vfs.resolved path false) = none from missing] at first
    rw [show resolveFrom t v.root (Vfs.resolved path true) = some parent from base] at second
    exact nameable _ _ _ first second (tree.reps.nonnull _ (resolveFrom_mem tree.root_mem base))
  · intro good w w' x first second nonnull
    obtain ⟨_, none⟩ := tree.getPath_ok first
    obtain ⟨_, some⟩ := tree.getPath_ok second
    have missing : resolve t v.root path = .none := by
      cases found : resolve t v.root path with
      | none => rfl
      | some y =>
        rw [show resolveFrom t v.root (Vfs.resolved path false) = .some y from found] at none
        exact absurd none.symm (tree.reps.nonnull _ (resolveFrom_mem tree.root_mem found))
    cases base : resolveBase t v.root path with
    | none =>
      rw [show resolveFrom t v.root (Vfs.resolved path true) = .none from base] at some
      exact absurd some nonnull
    | some parent => exact good parent missing base

theorem Tree.resolvable (tree : Tree v t) (short : (components path).length ≤ subSize)
    (lead : resolve t v.root path = some x) : Resolvable v path x := by
  have here : resolveFrom t v.root (Vfs.resolved path false) = some x := lead
  have nonnull := tree.reps.nonnull x (resolveFrom_mem tree.root_mem lead)
  have first := tree.getPath short false
  rw [here, Option.getD_some] at first
  refine ⟨⟨v.tick (components path).length, ?_⟩, ⟨v.tick (components path).length, ?_, rfl⟩, fun _ => ?_⟩
  · simp [vfsExists, first, nonnull, bind, Except.bind, pure, Except.pure]
  · simp [Vfs.vfsCreate_, first, nonnull, bind, Except.bind, pure, Except.pure]
  · obtain ⟨w, s, run, tree', kept, made⟩ := @Tree.vfsOpen v t path [119] tree true rfl short
      (fun _ => ⟨short, fun missing => by cases missing.symm.trans lead⟩)
    have target : t.openFile v.root (v.next + 3 * (components path).length) path true =
        (t.relabel x (File.withContent fun _ => []), some x) := by
      simp [FileTree.openFile, FileTree.create, lead]
    rw [target] at tree' made
    obtain ⟨stream, late⟩ := made
    refine ⟨w, s, _, run, Nat.ne_of_gt (Nat.lt_of_lt_of_le tree.positive late), stream, rfl, fun q => ?_⟩
    rw [Bool.eq_iff_iff, tree'.exact, tree.exact, Forest.ids_relabel]

/-- What a creation returns is what the path leads to, if the name can be found. -/
theorem create_leads (tree : Tree v t) (absent : fresh ∉ t.ids)
    (findable : ∀ parent, resolve t v.root path = none → resolveBase t v.root path = some parent →
      vfsBasename path ≠ [] ∧ vfsBasename path ≠ [dot, dot])
    (made : (t.create v.root fresh path).2 = some x) : resolve (t.create v.root fresh path).1 v.root path = some x := by
  rw [FileTree.create] at made ⊢
  cases lead : resolve t v.root path with
  | some y =>
    rw [lead] at made
    exact lead.trans made
  | none =>
    rw [lead] at made
    cases base : resolveBase t v.root path with
    | none =>
      rw [base] at made
      cases made
    | some parent =>
      rw [base] at made
      cases made
      obtain ⟨some, notUp⟩ := findable parent lead base
      exact (resolve_created tree absent lead base).trans (if_neg (by simp [some, notUp]))

/-- Where creation succeeds, the path is resolvable exactly if its name can be found. -/
theorem Tree.creates_iff (tree : Tree v t) (ok : PathOk path) : Creates v path ↔ v.Nameable path := by
  rw [tree.nameable_iff ok.1]
  have fits : PathFits t v.root path := pathFits v.root ok
  have later := fun k => @Tree.later_not_mem v t (v.next + k) tree (Nat.le_add_right _ _)
  obtain ⟨v1, created, tree1, kept1⟩ := tree.vfsCreate_ fits
  obtain ⟨v2, s, opened, tree2, kept2, made⟩ := @Tree.vfsOpen v t path [119] tree true rfl ok.1 (fun _ => fits)
  constructor
  · intro creates parent missing base
    by_contra bad
    -- the node is made, and cannot be found
    have target : t.create v.root (v.next + 2 * (components path).length) path =
        (t.addLeaf parent (v.next + 2 * (components path).length) ⟨vfsBasename path, []⟩,
          some (v.next + 2 * (components path).length)) := by
      simp [FileTree.create, missing, base]
    have hidden := resolve_created tree (later (2 * (components path).length)) missing base
    rw [if_pos (by tauto)] at hidden
    rw [target] at created tree1
    have nonnull : v.next + 2 * (components path).length ≠ 0 := by
      have := tree.positive
      omega
    have success : v.vfsCreate path = .ok (v1, 0) := by
      simp only [Vfs.vfsCreate, created, Option.getD_some, bind, Except.bind, pure, Except.pure]
      rw [if_pos nonnull]
    obtain ⟨x, _, resolvable⟩ := creates.create v1 success
    obtain ⟨w, there⟩ := resolvable.found
    have first := tree1.getPath ok.1 false
    rw [kept1.root, show resolveFrom _ v.root (Vfs.resolved path false) = none from hidden] at first
    simp [vfsExists, first, bind, Except.bind, pure, Except.pure] at there
  · intro findable
    constructor
    · intro w run
      simp only [Vfs.vfsCreate, created, bind, Except.bind, pure, Except.pure] at run
      cases target : (t.create v.root (v.next + 2 * (components path).length) path).2 with
      | none => simp [target] at run
      | some x =>
        simp only [target, Option.getD_some, Except.ok.injEq, Prod.mk.injEq] at run
        obtain ⟨rfl, _⟩ := run
        have lead := create_leads tree (later _) findable target
        rw [target] at created
        exact ⟨x, created, tree1.resolvable ok.1 (by rw [kept1.root]; exact lead)⟩
    · intro w r run nonnull
      cases opened.symm.trans run
      simp only [FileTree.openFile, if_true] at tree2 made
      cases target : t.create v.root (v.next + 3 * (components path).length) path with
      | mk t' found =>
        rw [target] at tree2 made
        cases found with
        | none => exact absurd made nonnull
        | some x =>
          have lead := create_leads tree (later (3 * (components path).length)) findable (by rw [target])
          rw [target] at lead
          refine ⟨_, made.1, tree2.resolvable ok.1 ?_⟩
          rw [kept2.root, resolve, resolveFrom_relabel]
          exact lead

theorem Gone.nameable (gone : Gone v) (path : CString) : v.Nameable path := by
  intro w w' x first
  obtain ⟨_, null⟩ := gone.getPath_ok first
  exact absurd null.symm gone.root

theorem Gone.creates (gone : Gone v) (path : CString) : Creates v path := by
  constructor
  · intro v1 run
    obtain ⟨⟨u, x⟩, created, done⟩ := bind_ok run
    simp only [pure, Except.pure, Except.ok.injEq, Prod.mk.injEq] at done
    obtain ⟨rfl, _⟩ := done
    obtain ⟨rfl, rfl⟩ := gone.create created
    obtain ⟨⟨u, q⟩, first, _⟩ := bind_ok created
    have short := getPath_short first
    rw [gone.getPath short] at first
    have dots : (Vfs.resolved path false).all (· == [dot]) := by
      by_contra bad
      rw [if_neg bad] at first
      cases first
    have again := (gone.tick (components path).length).getPath short false
    rw [if_pos dots] at again
    have nonnull := gone.root
    let w := (v.tick (components path).length).tick (components path).length
    refine ⟨v.root, created, ⟨w, ?_⟩, ⟨w, ?_, rfl⟩, fun live => ?_⟩
    · simp only [vfsExists, again, bind, Except.bind, pure, Except.pure]
      simp [Vfs.tick, nonnull]
      rfl
    · simp only [Vfs.vfsCreate_, again, bind, Except.bind, pure, Except.pure]
      simp [Vfs.tick, nonnull]
      rfl
    · rw [(gone.tick _).nodes] at live
      cases live
  · intro v1 s run nonnull
    rcases gone.open_ok run with ⟨_, null⟩ | ⟨writing, _⟩
    · exact absurd null nonnull
    · exact absurd rfl writing

theorem Twinless.create (twinless : Twinless t) (tree : Tree v t) (absent : fresh ∉ t.ids)
    (findable : ∀ parent, resolve t v.root path = none → resolveBase t v.root path = some parent →
      vfsBasename path ≠ [] ∧ vfsBasename path ≠ [dot, dot]) :
    Twinless (t.create v.root fresh path).1 := by
  rw [FileTree.create]
  cases missing : resolve t v.root path with
  | some x => exact twinless
  | none =>
    cases base : resolveBase t v.root path with
    | none => exact twinless
    | some parent =>
      exact twinless.addLeaf tree.distinct (resolveFrom_mem tree.root_mem base) absent
        (created_new tree missing base (findable parent missing base))

theorem Twinless.step (twinless : Twinless t) (tree : Tree v t) (nameable : call.Nameable v)
    (step : Step v call v') : Twinless (call.effect v t) := by
  obtain ⟨bytes, run⟩ := step
  have later := fun k => @Tree.later_not_mem v t (v.next + k) tree (Nat.le_add_right _ _)
  cases call with
  | create path =>
    obtain ⟨⟨w, c⟩, made, _⟩ := bind_ok run
    obtain ⟨⟨u, p⟩, created, _⟩ := bind_ok made
    have findable := (tree.nameable_iff (tree.create_fits created).short).mp (nameable path (.inl rfl))
    exact twinless.create tree (later _) findable
  | «open» path perm =>
    obtain ⟨⟨w, s⟩, opened, _⟩ := bind_ok run
    rw [Call.effect]
    cases mode : scanPerm false perm with
    | none => exact twinless
    | some writing =>
      cases writing with
      | false => exact twinless
      | true =>
        have short := (tree.open_fits mode opened).1
        have findable := (tree.nameable_iff short).mp (nameable path (.inr ⟨perm, rfl, mode⟩))
        have grown := twinless.create tree (later (3 * (components path).length)) findable
        simp only [FileTree.openFile, if_true]
        cases target : t.create v.root (v.next + 3 * (components path).length) path with
        | mk t' found =>
          rw [target] at grown
          cases found with
          | none => exact grown
          | some x => exact grown.relabel _
  | remove path =>
    rw [Call.effect, FileTree.remove]
    cases resolve t v.root path with
    | none => exact twinless
    | some x => exact twinless.erase tree.distinct
  | write s bytes =>
    rw [Call.effect]
    cases v.streams s with
    | none => exact twinless
    | some st => exact twinless.relabel _
  | close _ => exact twinless
  | seek _ _ _ => exact twinless
  | read _ _ => exact twinless
  | flush _ => exact twinless
  | hookFlush _ _ _ => exact twinless

theorem twinless_init (init : vfsInit empty = .ok v) : ∃ t, Tree v t ∧ Twinless t := by
  obtain ⟨w, a, b, c, run, tree, _⟩ := vfsInit_tree
  cases run.symm.trans init
  refine ⟨_, tree, fun p q above l m _ _ labelP labelQ same => ?_⟩
  have named : ∀ p l, (initTree a b c).label? p = some l → p = 1 ∧ l.name = [] ∨ p = a ∧ l.name = stdinName ∨
      p = b ∧ l.name = stdoutName ∨ p = c ∧ l.name = stderrName := by
    intro p l labelled
    simp only [initTree, Forest.label?, Option.or_none] at labelled
    grind
  have apart : [[], stdinName, stdoutName, stderrName].Pairwise (· ≠ ·) := by decide
  have first := named p l labelP
  have second := named q m labelQ
  grind

/-- Names that can be found keep siblings apart for a whole run. -/
theorem twinless_run {last : Vfs} {steps : List (Vfs × Call)} (init : vfsInit empty = .ok v)
    (run : Run Step v steps last) (nameable : ∀ step ∈ steps, step.2.Nameable step.1) :
    (∃ t, Tree last t ∧ Twinless t) ∨ Gone last := by
  refine @Run.history_of _ _ Step v last steps (fun v _ => (∃ t, Tree v t ∧ Twinless t) ∨ Gone v)
    (fun step => step.2.Nameable step.1) ?_ run nameable [] (.inl (twinless_init init))
  rintro v call v' _ (⟨t, tree, twinless⟩ | gone) good step
  · rcases tree.keeps_or_gone step with keeps | gone
    · exact .inl ⟨_, (tree.step step keeps).tree, twinless.step tree good step⟩
    · exact .inr gone
  · exact .inr (gone.step step).1

/-- After every run whose calls only make names that can be found, no parent has
two children of one name, and a path that is created can be resolved exactly if its
name can be found. -/
theorem creation_resolvable {last : Vfs} {steps : List (Vfs × Call)} (init : vfsInit empty = .ok v)
    (run : Run Step v steps last) (nameable : ∀ step ∈ steps, step.2.Nameable step.1) :
    NoTwins last ∧ ∀ path, PathOk path → (Creates last path ↔ last.Nameable path) := by
  rcases twinless_run init run nameable with ⟨t, tree, twinless⟩ | gone
  · exact ⟨twinless.noTwins tree, fun path ok => tree.creates_iff ok⟩
  · refine ⟨fun p q n m found => ?_, fun path _ => ⟨fun _ => gone.nameable path, fun _ => gone.creates path⟩⟩
    rw [gone.nodes] at found
    cases found

theorem creation_resolvable_once : ∃ v v1, vfsInit empty = .ok v ∧ Run Step v [(v, .create [97])] v1 ∧
    NoTwins v1 ∧ ∀ path, PathOk path → (Creates v1 path ↔ v1.Nameable path) := by
  obtain ⟨v, a, b, c, init, tree, _⟩ := vfsInit_tree
  have ok : PathOk [97] := by decide
  obtain ⟨v1, created, _⟩ := tree.vfsCreate_ (pathFits v.root ok)
  have step := step_create created
  refine ⟨v, v1, init, .single step, creation_resolvable init (.single step) ?_⟩
  rintro _ (_ | ⟨_, none⟩)
  · rintro path (same | ⟨_, bad, _⟩)
    · cases same
      exact (tree.nameable_iff ok.1).mpr (fun _ _ _ => by decide)
    · cases bad
  · cases none

/-- After `vfsInit`, `vfsCreate("a/")` returns 0, but `"a/"` does not exist then. -/
theorem trailing_slash_lost : ∃ v v1 w, vfsInit empty = .ok v ∧ PathOk [97, slash] ∧
    v.vfsCreate [97, slash] = .ok (v1, 0) ∧ v1.vfsExists [97, slash] = .ok (w, false) := by
  obtain ⟨v, a, b, c, init, tree, root⟩ := vfsInit_tree
  have ok : PathOk [97, slash] := by decide
  obtain ⟨v1, created, tree1, kept⟩ := tree.vfsCreate_ (pathFits v.root ok)
  have missing : resolve (initTree a b c) v.root [97, slash] = none := by
    rw [root]
    rfl
  have base : resolveBase (initTree a b c) v.root [97, slash] = some v.root := rfl
  have fresh := tree.later_not_mem (Nat.le_add_right v.next (2 * (components [97, slash]).length))
  have hidden := resolve_created tree fresh missing base
  rw [if_pos (.inl rfl)] at hidden
  simp only [FileTree.create, missing, base, Option.getD_some] at created tree1
  have nonnull : v.next + 2 * (components [97, slash]).length ≠ 0 := by
    have := tree.positive
    omega
  have first := tree1.getPath ok.1 false
  rw [kept.root, show resolveFrom _ v.root (Vfs.resolved [97, slash] false) = none from hidden] at first
  refine ⟨v, v1, v1.tick (components [97, slash]).length, init, ok, ?_, ?_⟩
  · simp only [Vfs.vfsCreate, created, bind, Except.bind, pure, Except.pure]
    rw [if_pos nonnull]
  · simp only [vfsExists, first, bind, Except.bind, pure, Except.pure]
    rfl

end UmkaOs.Vfs
