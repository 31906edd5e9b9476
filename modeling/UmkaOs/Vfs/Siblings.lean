import UmkaOs.Lib.ForestOrder
import UmkaOs.Vfs.Resolve
import UmkaOs.Vfs.Runs

namespace UmkaOs.Vfs

open Lib

/-- At some step of the run `x` is there and `y` is not yet. -/
def CreatedBefore (steps : List (Vfs × Call)) (x y : Ptr) : Prop :=
  ∃ step ∈ steps, (step.1.nodes x).isSome ∧ step.1.nodes y = none

/-- What one call can do to a tree whose nodes are named below `limit`. -/
inductive Change (limit : Nat) (t : FileTree) : FileTree → Prop
  | rewrite (x : Ptr) (change : List UInt8 → List UInt8) : Change limit t (t.relabel x (File.withContent change))
  | grow {parent fresh : Ptr} (file : File) (change : List UInt8 → List UInt8) (member : parent ∈ t.ids)
      (late : limit ≤ fresh) : Change limit t ((t.addLeaf parent fresh file).relabel fresh (File.withContent change))
  | cut (x : Ptr) : Change limit t (t.erase x)

variable {v v' : Vfs} {t t' t0 : FileTree} {path : CString} {x y : Ptr} {limit fresh : Nat} {call : Call}
  {past steps : List (Vfs × Call)} {start : Ptr → Ptr → Prop}

theorem relabel_same : t.relabel x (File.withContent id) = t := Forest.relabel_id

theorem Change.same : Change limit t t := by
  have rewrite : Change limit t (t.relabel 0 (File.withContent id)) := .rewrite 0 id
  rwa [relabel_same] at rewrite

theorem Tree.change_create (tree : Tree v t) (late : v.next ≤ fresh) :
    t.create v.root fresh path = (t, none) ∨ ∃ t' x, t.create v.root fresh path = (t', some x) ∧
      ∀ change, Change v.next t (t'.relabel x (File.withContent change)) := by
  rw [FileTree.create]
  cases resolve t v.root path with
  | some x => exact .inr ⟨t, x, rfl, .rewrite x⟩
  | none =>
    cases base : resolveBase t v.root path with
    | none => exact .inl rfl
    | some parent =>
      exact .inr ⟨_, fresh, rfl, fun change => .grow _ change (resolveFrom_mem tree.root_mem base) late⟩

theorem Tree.change_effect (tree : Tree v t) (call : Call) : Change v.next t (call.effect v t) := by
  have late := fun k => Nat.le_add_right v.next k
  cases call with
  | create path =>
    rw [Call.effect]
    rcases @Tree.change_create v t path _ tree (late (2 * (components path).length)) with none | ⟨t', x, made, change⟩
    · rw [none]
      exact .same
    · have created := change id
      rw [relabel_same] at created
      rw [made]
      exact created
  | «open» path perm =>
    rw [Call.effect]
    cases scanPerm false perm with
    | none => exact .same
    | some writing =>
      cases writing with
      | false => exact .same
      | true =>
        simp only [FileTree.openFile, if_true]
        rcases @Tree.change_create v t path _ tree (late (3 * (components path).length)) with
          none | ⟨t', x, made, change⟩
        · rw [none]
          exact .same
        · rw [made]
          exact change _
  | remove path =>
    rw [Call.effect, FileTree.remove]
    cases resolve t v.root path with
    | none => exact .same
    | some x => exact .cut x
  | write s bytes =>
    rw [Call.effect]
    cases v.streams s with
    | none => exact .same
    | some st => exact .rewrite ..
  | close _ => exact .same
  | seek _ _ _ => exact .same
  | read _ _ => exact .same
  | flush _ => exact .same
  | hookFlush _ _ _ => exact .same

/-- The nodes that stay keep their names. -/
theorem Change.label (change : Change limit t t') (distinct : t.ids.Nodup) (early : y < limit) {file : File}
    (labelled : t'.label? y = some file) : ∃ old, t.label? y = some old ∧ old.name = file.name := by
  cases change with
  | rewrite x change => exact label?_withContent labelled
  | @grow parent fresh file change member late =>
    obtain ⟨old, label, name⟩ := label?_withContent labelled
    have other : y ≠ fresh := Nat.ne_of_lt (Nat.lt_of_lt_of_le early late)
    rw [Forest.addLeaf_eq_attach, Forest.label?_attach (by simpa [Forest.ids] using other)] at label
    exact ⟨old, label, name⟩
  | cut x =>
    have live := ((Forest.mem_ids_erase distinct).mp (Forest.mem_of_label? labelled)).2
    rw [Forest.label?_erase distinct live] at labelled
    exact ⟨file, labelled, rfl⟩

/-- New nodes come behind all their siblings. -/
theorem Change.chains {R : Ptr → Ptr → Prop} (change : Change limit t t') (distinct : t.ids.Nodup)
    (below : ∀ x ∈ t.ids, x < limit) (new : ∀ x ∈ t.ids, ∀ y, limit ≤ y → R x y) (chains : t.Chains R) :
    t'.Chains R := by
  cases change with
  | rewrite => exact chains.relabel
  | @grow parent fresh file change member late =>
    have absent : fresh ∉ t.ids := fun old => Nat.not_lt.mpr late (below fresh old)
    refine (chains.addLeaf distinct member absent fun y kid => ?_).relabel
    exact new y (Forest.kids_sub (Forest.spine_sub kid)) fresh late
  | cut => exact chains.erase distinct

/-- The tree `t` of the state `v`, to which the calls `past` have led from the tree
`t0` of `v0`. -/
structure Aged (start : Ptr → Ptr → Prop) (v0 : Vfs) (t0 : FileTree) (past : List (Vfs × Call)) (v : Vfs)
    (t : FileTree) : Prop where
  tree : Tree v t
  root : v.root = v0.root
  later : v0.next ≤ v.next
  names : ∀ y file file0, t.label? y = some file → t0.label? y = some file0 → file.name = file0.name
  chains : t.Chains fun x y => start x y ∨ CreatedBefore past x y

variable {v0 : Vfs}

theorem Aged.init (tree0 : Tree v0 t0) (chains : t0.Chains start) : Aged start v0 t0 [] v0 t0 where
  tree := tree0
  root := rfl
  later := Nat.le_refl _
  names y file file0 label label0 := by rw [Option.some.inj (label.symm.trans label0)]
  chains := chains.imp fun x y related => .inl related

theorem Aged.step (tree0 : Tree v0 t0) (aged : Aged start v0 t0 past v t) (keeps : KeepsRoot v t call)
    (step : Step v call v') : Aged start v0 t0 (past ++ [(v, call)]) v' (call.effect v t) := by
  have tree := aged.tree
  have moved := tree.step step keeps
  have change := tree.change_effect call
  refine ⟨moved.tree, moved.root.trans aged.root, Nat.le_trans aged.later moved.next, ?_, ?_⟩
  · intro y file file0 label label0
    have early := Nat.lt_of_lt_of_le (tree0.lt_next (Forest.mem_of_label? label0)) aged.later
    obtain ⟨old, labelOld, name⟩ := change.label tree.distinct early label
    exact name.symm.trans (aged.names y old file0 labelOld label0)
  · refine change.chains tree.distinct (fun x member => tree.lt_next member) (fun x member y late => .inr ?_)
      (aged.chains.imp fun x y related => related.imp_right ?_)
    · exact ⟨(v, call), by simp, (tree.exact x).mpr member, (tree.unused y late).1⟩
    · rintro ⟨step, listed, seen⟩
      exact ⟨step, List.mem_append_left _ listed, seen⟩

/-- Along every run from a tree, siblings stand in the order of their creation. -/
theorem Aged.run (tree0 : Tree v0 t0) (chains : t0.Chains start) (run : Run Step v0 steps v) :
    (∃ t, Aged start v0 t0 steps v t) ∨ Gone v := by
  refine @Run.history _ _ Step v0 v steps (fun v past => (∃ t, Aged start v0 t0 past v t) ∨ Gone v) ?_ run []
    (.inl ⟨t0, .init tree0 chains⟩)
  rintro v call v' past (⟨t, aged⟩ | gone) step
  · rcases aged.tree.keeps_or_gone step with keeps | gone
    · exact .inl ⟨_, aged.step tree0 keeps step⟩
    · exact .inr gone
  · exact .inr (gone.step step).1

end UmkaOs.Vfs
