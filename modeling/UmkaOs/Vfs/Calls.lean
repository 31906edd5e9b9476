import UmkaOs.Vfs.Data

namespace UmkaOs

open Lib

/-- A path that fits into the fixed arrays. -/
def PathOk (path : CString) : Prop :=
  (components path).length ≤ subSize ∧ ∀ name ∈ components path, name.length < filenameSize

instance (path : CString) : Decidable (PathOk path) := inferInstanceAs (Decidable (_ ∧ _))

/-- Where a path leads. -/
def resolve (t : FileTree) (root : Ptr) (path : CString) : Option Ptr :=
  resolveFrom t root (components path)

/-- Where the last component of a path would be created. -/
def resolveBase (t : FileTree) (root : Ptr) (path : CString) : Option Ptr :=
  resolveFrom t root (components path).dropLast

namespace FileTree

/-- What `path` names, a new leaf `fresh` when it does not exist yet. -/
def create (t : FileTree) (root fresh : Ptr) (path : CString) : FileTree × Option Ptr :=
  match resolve t root path with
  | some x => (t, some x)
  | none =>
    match resolveBase t root path with
    | some parent => (t.addLeaf parent fresh ⟨Vfs.vfsBasename path, []⟩, some fresh)
    | none => (t, none)

/-- Opening for writing creates the file and cuts it to length 0. -/
def openFile (t : FileTree) (root fresh : Ptr) (path : CString) (write : Bool) : FileTree × Option Ptr :=
  if write then
    match t.create root fresh path with
    | (t, some x) => (t.relabel x (File.withContent fun _ => []), some x)
    | (t, none) => (t, none)
  else (t, resolve t root path)

/-- Removal takes the whole subtree. -/
def remove (t : FileTree) (root : Ptr) (path : CString) : FileTree :=
  match resolve t root path with
  | some x => t.erase x
  | none => t

end FileTree

namespace Vfs

variable {v v' : Vfs} {t : FileTree} {path perm : CString} {x p : Ptr}

theorem basenameFrom_last {current rest : CString} : basenameFrom (current ++ rest) rest = [] ∨
    (componentsFrom current rest).getLast? = some (basenameFrom (current ++ rest) rest) := by
  induction rest generalizing current with
  | nil =>
    by_cases empty : current = []
    · simp [basenameFrom, empty]
    · simp [basenameFrom, componentsFrom, empty]
  | cons c rest ih =>
    rw [basenameFrom, componentsFrom]
    by_cases cut : c = slash
    · rw [if_pos cut, if_pos cut]
      rcases @ih [] with empty | last
      · exact .inl empty
      · right
        rw [List.nil_append] at last
        split
        · exact last
        · rw [List.getLast?_cons, last]
          rfl
    · rw [if_neg cut, if_neg cut]
      have further := @ih (current ++ [c])
      rwa [List.append_assoc, List.singleton_append] at further

/-- The base name is empty or the last component. -/
theorem vfsBasename_last (path : CString) :
    vfsBasename path = [] ∨ (components path).getLast? = some (vfsBasename path) := @basenameFrom_last [] path

theorem vfsBasename_mem (path : CString) : vfsBasename path = [] ∨ vfsBasename path ∈ components path :=
  (vfsBasename_last path).imp_right List.mem_of_getLast?

theorem basename_short (ok : PathOk path) : (vfsBasename path).length < filenameSize := by
  rcases vfsBasename_mem path with empty | member
  · simp [empty, filenameSize]
  · exact ok.2 _ member

/-- The components fit into `sub`, and the name of a node that the path would
create fits into `filename`. -/
structure PathFits (t : FileTree) (root : Ptr) (path : CString) : Prop where
  short : (components path).length ≤ subSize
  named : resolve t root path = none → (resolveBase t root path).isSome →
    (vfsBasename path).length < filenameSize

theorem pathFits (root : Ptr) (ok : PathOk path) : PathFits t root path := ⟨ok.1, fun _ _ => basename_short ok⟩

/-- The state was only changed in its tree. -/
structure Kept (v v' : Vfs) : Prop where
  root : v'.root = v.root
  flushed : v'.flushed = v.flushed
  streams : ∀ s, s < v.next → v'.streams s = v.streams s
  next : v.next ≤ v'.next

theorem Kept.trans {w : Vfs} (first : Kept v v') (second : Kept v' w) : Kept v w where
  root := second.root.trans first.root
  flushed := second.flushed.trans first.flushed
  streams s early := (second.streams s (Nat.lt_of_lt_of_le early first.next)).trans (first.streams s early)
  next := Nat.le_trans first.next second.next

theorem kept_tick (k : Nat) : Kept v (v.tick k) := ⟨rfl, rfl, fun _ _ => rfl, Nat.le_add_right _ _⟩

theorem tick_tick (k l : Nat) : (v.tick k).tick l = v.tick (k + l) := by
  simp [Vfs.tick, Nat.add_assoc]

theorem create_mem (tree : Tree v t) {fresh : Ptr} {t' : FileTree}
    (made : t.create v.root fresh path = (t', some x)) : x ∈ t'.ids := by
  rw [FileTree.create] at made
  cases found : resolve t v.root path with
  | some y =>
    rw [found] at made
    cases made
    exact resolveFrom_mem tree.root_mem found
  | none =>
    rw [found] at made
    cases base : resolveBase t v.root path with
    | none =>
      rw [base] at made
      cases made
    | some parent =>
      rw [base] at made
      cases made
      have perm := Forest.ids_addLeaf_perm (x := x) (l := File.mk (vfsBasename path) []) tree.distinct
        (resolveFrom_mem tree.root_mem base)
      exact perm.mem_iff.mpr List.mem_cons_self

theorem Tree.vfsCreate_ (tree : Tree v t) (fits : PathFits t v.root path) :
    ∃ v', v.vfsCreate_ path = .ok (v', (t.create v.root (v.next + 2 * (components path).length) path).2.getD 0) ∧
      Tree v' (t.create v.root (v.next + 2 * (components path).length) path).1 ∧ Kept v v' := by
  have first := tree.getPath fits.short false
  have second := (tree.tick (components path).length).getPath fits.short true
  rw [tick_tick, ← Nat.two_mul] at second
  simp only [resolved, if_true, Bool.false_eq_true, if_false] at first second
  simp only [Vfs.vfsCreate_, first, second, bind, Except.bind, FileTree.create, resolve, resolveBase]
  cases found : resolveFrom t v.root (components path) with
  | some x =>
    have nonnull := tree.reps.nonnull x (resolveFrom_mem tree.root_mem found)
    exact ⟨_, if_pos nonnull, tree.tick _, kept_tick _⟩
  | none =>
    have sameRoot : (v.tick (components path).length).root = v.root := rfl
    rw [sameRoot]
    cases base : resolveFrom t v.root (components path).dropLast with
    | none => exact ⟨_, rfl, tree.tick _, kept_tick _⟩
    | some parent =>
      have parentMember := resolveFrom_mem tree.root_mem base
      have nonnull := tree.reps.nonnull parent parentMember
      obtain ⟨v', run, grown, created⟩ :=
        (tree.tick (2 * (components path).length)).vfsAlloc parentMember
          (fits.named found (by simp [resolveBase, base]))
      refine ⟨v', ?_, grown, created.root, created.flushed, fun s _ => by rw [created.streams]; rfl, ?_⟩
      · exact (if_neg nonnull).trans run
      · rw [created.next]
        exact Nat.le_add_right_of_le (Nat.le_add_right _ _)

theorem Tree.newStream (tree : Tree v t) (st : Stream) : Tree (v.newStream st).1 t where
  top := tree.top
  reps := tree.reps.congr (fun _ _ => ⟨rfl, fun _ _ => rfl⟩)
  distinct := tree.distinct
  exact := tree.exact
  positive := Nat.succ_pos _
  unused q later := by
    obtain ⟨noNode, noStream, noBlock⟩ := tree.unused q (Nat.le_of_succ_le later)
    have other : q ≠ v.next := Nat.ne_of_gt later
    exact ⟨noNode, (Function.update_of_ne other _ _).trans noStream, noBlock⟩
  stored := tree.stored
  apart := tree.apart
  null := tree.null

theorem kept_newStream (st : Stream) : Kept v (v.newStream st).1 :=
  ⟨rfl, rfl, fun _ early => Function.update_of_ne (Nat.ne_of_lt early) _ _, Nat.le_succ _⟩

theorem Tree.openNode (tree : Tree v t) (member : x ∈ t.ids) (write : Bool) :
    ∃ v' s, (do
        let v ← if write then v.vfsClearData x else .ok v
        return v.newStream ⟨x, 0, 0, 0, 0⟩ : Except Fault (Vfs × Ptr)) = .ok (v', s) ∧
      Tree v' (if write then t.relabel x (File.withContent fun _ => []) else t) ∧ Kept v v' ∧
      v'.streams s = some ⟨x, 0, 0, 0, 0⟩ ∧ v.next ≤ s := by
  cases write with
  | false =>
    exact ⟨_, _, rfl, tree.newStream _, kept_newStream _, Function.update_self .., Nat.le_refl _⟩
  | true =>
    obtain ⟨w, _, _, run, cleared, rewritten, next⟩ := tree.clearData member
    have kept : Kept v w :=
      ⟨rewritten.root, rewritten.flushed, fun s _ => by rw [rewritten.streams], rewritten.next⟩
    refine ⟨_, _, by simp only [if_true, run]; rfl, cleared.newStream _, kept.trans (kept_newStream _),
      Function.update_self .., Nat.le_of_eq next.symm⟩

theorem Tree.vfsOpen (tree : Tree v t) {write : Bool} (mode : scanPerm false perm = some write)
    (short : (components path).length ≤ subSize) (fits : write = true → PathFits t v.root path) :
    ∃ v' s, v.vfsOpen path perm = .ok (v', s) ∧
      Tree v' (t.openFile v.root (v.next + 3 * (components path).length) path write).1 ∧ Kept v v' ∧
      match (t.openFile v.root (v.next + 3 * (components path).length) path write).2 with
      | some x => v'.streams s = some ⟨x, 0, 0, 0, 0⟩ ∧ v.next ≤ s
      | none => s = 0 := by
  have first := tree.getPath short false
  simp only [resolved, Bool.false_eq_true, if_false] at first
  have ticked := tree.tick (components path).length
  have fresh : (v.tick (components path).length).next + 2 * (components path).length =
      v.next + 3 * (components path).length := by
    simp only [Vfs.tick]
    omega
  simp only [Vfs.vfsOpen, mode, first, FileTree.openFile]
  cases found : resolveFrom t v.root (components path) with
  | some x =>
    -- the file exists
    have member := resolveFrom_mem tree.root_mem found
    have nonnull := tree.reps.nonnull x member
    obtain ⟨v', s, run, tree', kept, made, later⟩ := ticked.openNode member write
    have created : t.create v.root (v.next + 3 * (components path).length) path = (t, some x) := by
      simp [FileTree.create, resolve, found]
    refine ⟨v', s, ?_, ?_, (kept_tick _).trans kept, ?_⟩
    · simpa [nonnull, bind, Except.bind] using run
    · cases write <;> simpa [created] using tree'
    · have late : v.next ≤ s := Nat.le_trans (Nat.le_add_right _ _) later
      cases write
      · simpa [resolve, found] using ⟨made, late⟩
      · simpa [created] using ⟨made, late⟩
  | none =>
    cases write with
    | false =>
      refine ⟨_, 0, rfl, ticked, kept_tick _, ?_⟩
      simp [resolve, found]
    | true =>
      obtain ⟨w, run, grown, kept⟩ := ticked.vfsCreate_ (fits rfl)
      rw [fresh] at run grown
      have sameRoot : (v.tick (components path).length).root = v.root := rfl
      rw [sameRoot] at run grown
      simp only [if_true, bind, Except.bind, Option.getD_none, Bool.and_true, decide_true, run]
      cases made : t.create v.root (v.next + 3 * (components path).length) path with
      | mk t' target =>
        rw [made] at grown
        cases target with
        | none => exact ⟨_, 0, rfl, grown, (kept_tick _).trans kept, rfl⟩
        | some x =>
          have member : x ∈ t'.ids := create_mem tree made
          have nonnull := grown.reps.nonnull x member
          obtain ⟨v', s, run, tree', kept', made', later⟩ := grown.openNode member true
          have late : v.next ≤ s := Nat.le_trans ((kept_tick _).trans kept).next later
          refine ⟨v', s, ?_, tree', ((kept_tick _).trans kept).trans kept', made', late⟩
          simpa [nonnull, bind, Except.bind] using run

theorem Tree.vfsRemove (tree : Tree v t) (short : (components path).length ≤ subSize)
    (notRoot : resolve t v.root path ≠ some v.root) :
    ∃ v' c, v.vfsRemove path = .ok (v', c) ∧ Tree v' (t.remove v.root path) ∧ Kept v v' ∧
      ∀ x, resolve t v.root path = some x → Removed (v.tick (components path).length) v' (t.subtree x) := by
  have first := tree.getPath short false
  simp only [resolved, Bool.false_eq_true, if_false] at first
  have ticked := tree.tick (components path).length
  rw [resolve] at notRoot
  simp only [Vfs.vfsRemove, first, FileTree.remove, resolve, bind, Except.bind]
  cases found : resolveFrom t v.root (components path) with
  | none => exact ⟨_, -1, rfl, ticked, kept_tick _, fun x bad => by cases bad⟩
  | some x =>
    have member := resolveFrom_mem tree.root_mem found
    have nonnull := tree.reps.nonnull x member
    have other : x ≠ v.root := fun same => notRoot (by rw [found, same])
    obtain ⟨v', run, shrunk, removed⟩ := ticked.vfsFree member other
    refine ⟨v', 0, ?_, shrunk, ?_, ?_⟩
    · simp [nonnull, run, pure, Except.pure]
    · refine (kept_tick _).trans ⟨removed.root, removed.flushed, fun s _ => by rw [removed.streams], ?_⟩
      exact Nat.le_of_eq removed.next.symm
    · rintro y same
      cases same
      exact removed

end Vfs

/-- The calls that may change the tree. -/
inductive TreeCall where
  | create (path : CString)
  | open (path perm : CString)
  | remove (path : CString)
  deriving DecidableEq

namespace TreeCall

def run (v : Vfs) : TreeCall → Except Fault Vfs
  | create path => do
    let (v, _) ← v.vfsCreate path
    return v
  | .open path perm => do
    let (v, _) ← v.vfsOpen path perm
    return v
  | remove path => do
    let (v, _) ← v.vfsRemove path
    return v

/-- Paths fit into the arrays, and the root is not removed. -/
def Legal (v : Vfs) : TreeCall → Prop
  | create path => PathOk path
  | .open path _ => PathOk path
  | remove path => PathOk path ∧ ∀ w, v.vfsGetPath path false ≠ .ok (w, v.root)

/-- What a call does to the abstract tree, `fresh` being the name of a new node. -/
def effect (t : FileTree) (root fresh : Ptr) : TreeCall → FileTree
  | create path => (t.create root fresh path).1
  | .open path perm =>
    match Vfs.scanPerm false perm with
    | some write => (t.openFile root fresh path write).1
    | none => t
  | remove path => t.remove root path

end TreeCall

namespace Vfs

/-- The states that calls lead to after `vfsInit`. -/
inductive Reached : Vfs → Prop
  | start {v : Vfs} (init : vfsInit empty = .ok v) : Reached v
  | call {v v' : Vfs} {call : TreeCall} (reached : Reached v) (legal : call.Legal v) (run : call.run v = .ok v') :
      Reached v'

/-- Taking `x` out of the tree freed it and everything below it; all other nodes
keep their name, content and parent, and the order of their children. -/
structure TakenOut (v v' : Vfs) (t t' : FileTree) (x : Ptr) : Prop where
  freed : ∀ q ∈ t.subtree x, (v.nodes q).isSome ∧ v'.nodes q = none
  others : ∀ q ∈ t.ids, q ∉ t.subtree x → t'.label? q = t.label? q ∧ t'.parentOf 0 q = t.parentOf 0 q ∧
    (t'.kids q).spine = (t.kids q).spine.filter (· ≠ x)

/-- The state is an ordered tree, and every legal call acts on it like its
abstract effect. -/
def OrderedTree (v : Vfs) : Prop :=
  ∃ t, Tree v t ∧ ∀ call : TreeCall, call.Legal v →
    ∃ v' fresh, call.run v = .ok v' ∧ fresh ∉ t.ids ∧ v'.root = v.root ∧
      Tree v' (call.effect t v.root fresh) ∧
      ∀ path x, call = .remove path → resolve t v.root path = some x →
        TakenOut v v' t (call.effect t v.root fresh) x

theorem Tree.later_not_mem (tree : Tree v t) (late : v.next ≤ p) : p ∉ t.ids :=
  fun bad => Nat.not_le.mpr (tree.lt_next bad) late

theorem Tree.call (tree : Tree v t) {call : TreeCall} (legal : call.Legal v) :
    ∃ v' fresh, call.run v = .ok v' ∧ fresh ∉ t.ids ∧ v'.root = v.root ∧
      Tree v' (call.effect t v.root fresh) ∧
      ∀ path x, call = .remove path → resolve t v.root path = some x →
        TakenOut v v' t (call.effect t v.root fresh) x := by
  cases call with
  | create path =>
    obtain ⟨v', run, tree', kept⟩ := tree.vfsCreate_ (pathFits v.root legal)
    refine ⟨v', _, ?_, tree.later_not_mem (Nat.le_add_right _ _), kept.root, tree', fun _ _ bad => by cases bad⟩
    simp only [TreeCall.run, vfsCreate, run, bind, Except.bind, pure, Except.pure]
  | «open» path perm =>
    cases mode : scanPerm false perm with
    | none =>
      refine ⟨v, v.next, ?_, tree.next_not_mem, rfl, ?_, fun _ _ bad => by cases bad⟩
      · simp only [TreeCall.run, Vfs.vfsOpen, mode, bind, Except.bind, pure, Except.pure]
      · simpa only [TreeCall.effect, mode] using tree
    | some write =>
      obtain ⟨v', s, run, tree', kept, _⟩ := tree.vfsOpen mode legal.1 (fun _ => pathFits v.root legal)
      refine ⟨v', v.next + 3 * (components path).length, ?_, tree.later_not_mem (Nat.le_add_right _ _),
        kept.root, ?_, fun _ _ bad => by cases bad⟩
      · simp only [TreeCall.run, run, bind, Except.bind, pure, Except.pure]
      · simpa only [TreeCall.effect, mode] using tree'
  | remove path =>
    obtain ⟨ok, notRoot⟩ := legal
    have resolved : resolve t v.root path ≠ some v.root := by
      intro bad
      have lead : resolveFrom t v.root (resolved path false) = some v.root := bad
      have run := tree.getPath ok.1 false
      rw [lead] at run
      exact notRoot _ run
    obtain ⟨v', c, run, tree', kept, removed⟩ := tree.vfsRemove ok.1 resolved
    refine ⟨v', v.next, ?_, tree.next_not_mem, kept.root, tree', ?_⟩
    · simp only [TreeCall.run, run, bind, Except.bind, pure, Except.pure]
    · rintro _ x ⟨⟩ found
      have same : TreeCall.effect t v.root v.next (.remove path) = t.erase x := by
        simp only [TreeCall.effect, FileTree.remove, found]
      rw [same]
      refine ⟨(removed x found).freed, fun q _ live => ⟨?_, ?_, ?_⟩⟩
      · exact Forest.label?_erase tree.distinct live
      · exact Forest.parentOf_erase tree.distinct live
      · exact Forest.spine_kids_erase tree.distinct live

/-- The tree after `vfsInit`: a root without a name over the three `$` files. -/
def initTree (stdin stdout stderr : Ptr) : FileTree :=
  .node 1 ⟨[], []⟩ (.node stdin ⟨stdinName, []⟩ .nil
    (.node stdout ⟨stdoutName, []⟩ .nil (.node stderr ⟨stderrName, []⟩ .nil .nil))) .nil

/-- The state in which `vfsInit` has only made the root. -/
def rooted : Vfs := { (empty.newNode ⟨0, 0, [], 0, 0, 0⟩).1 with root := 1 }

theorem rooted_tree : Tree rooted (.node 1 ⟨[], []⟩ .nil .nil) where
  top := rfl
  reps := ⟨rfl, by decide, ⟨0, 0, [], 0, 0, 0⟩, rfl, rfl, rfl, rfl, rfl, rfl⟩
  distinct := by decide
  exact p := by
    by_cases here : p = 1 <;> simp [rooted, newNode, empty, Forest.ids, here]
  positive := by decide
  unused p late := by
    have other : p ≠ 1 := Nat.ne_of_gt late
    exact ⟨Function.update_of_ne other _ _, rfl, rfl⟩
  stored p n found := by
    by_cases here : p = 1
    · subst here
      cases found
      exact .inl ⟨rfl, rfl⟩
    · rw [show rooted.nodes p = none from Function.update_of_ne here _ _] at found
      cases found
  apart p q n m foundP foundQ _ _ := by
    have only : ∀ r k, rooted.nodes r = some k → r = 1 := by
      intro r k found
      by_contra here
      rw [show rooted.nodes r = none from Function.update_of_ne here _ _] at found
      cases found
    exact (only p n foundP).trans (only q m foundQ).symm
  null := rfl

theorem vfsInit_tree : ∃ v a b c, vfsInit empty = .ok v ∧ Tree v (initTree a b c) ∧ v.root = 1 := by
  have ok : ∀ name ∈ [stdinName, stdoutName, stderrName], PathOk name := by decide
  obtain ⟨v1, run1, tree1, kept1⟩ := rooted_tree.vfsCreate_ (pathFits 1 (ok stdinName (by simp)))
  obtain ⟨v2, run2, tree2, kept2⟩ := tree1.vfsCreate_ (pathFits v1.root (ok stdoutName (by simp)))
  obtain ⟨v3, run3, tree3, kept3⟩ := tree2.vfsCreate_ (pathFits v2.root (ok stderrName (by simp)))
  have root1 : v1.root = 1 := kept1.root
  have root2 : v2.root = 1 := kept2.root.trans root1
  rw [root1] at tree2 tree3
  rw [root2] at tree3
  refine ⟨v3, _, _, _, ?_, tree3, kept3.root.trans root2⟩
  have start : vfsInit empty = (do
      let (v, _) ← rooted.vfsCreate stdinName
      let (v, _) ← v.vfsCreate stdoutName
      let (v, _) ← v.vfsCreate stderrName
      return v) := rfl
  rw [start]
  simp only [vfsCreate, run1, run2, run3, bind, Except.bind, pure, Except.pure]

theorem vfs_is_ordered_tree {v : Vfs} (reached : Reached v) : OrderedTree v := by
  have tree : ∃ t, Tree v t := by
    induction reached with
    | start init =>
      obtain ⟨w, _, _, _, run, tree, _⟩ := vfsInit_tree
      cases run.symm.trans init
      exact ⟨_, tree⟩
    | call _ legal run ih =>
      obtain ⟨t, tree⟩ := ih
      obtain ⟨w, fresh, ran, _, _, tree', _⟩ := tree.call legal
      cases ran.symm.trans run
      exact ⟨_, tree'⟩
  obtain ⟨t, tree⟩ := tree
  exact ⟨t, tree, fun call legal => tree.call legal⟩

theorem vfs_is_ordered_tree_init : ∃ v, vfsInit empty = .ok v ∧ OrderedTree v := by
  obtain ⟨v, _, _, _, run, _⟩ := vfsInit_tree
  exact ⟨v, run, vfs_is_ordered_tree (.start run)⟩

end Vfs

end UmkaOs
