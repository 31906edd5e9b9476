import UmkaOs.Vfs.Runs
import UmkaOs.Vfs.Resolve

namespace UmkaOs

open Lib

variable {t : FileTree} {names ins back : List CString} {name : CString} {p q child root : Ptr}
  {a b path current : CString} {base : Bool}

/-- The reference: `.` stays, `..` climbs and fails at the root, any other name
goes to the first child called so; `base` leaves out the last component. -/
def reference (t : FileTree) (root : Ptr) (path : CString) (base : Bool) : Option Ptr :=
  let names := (path.splitOn slash).filter (· ≠ [])
  (if base then names.dropLast else names).foldlM (stepName t) root

theorem componentsFrom_eq : componentsFrom current path =
    ((path.splitOn slash).modifyHead (current ++ ·)).filter (· ≠ []) := by
  induction path generalizing current with
  | nil =>
    rw [componentsFrom]
    by_cases empty : current = [] <;> simp [empty]
  | cons c rest ih =>
    rw [componentsFrom, List.splitOn_cons_eq_if_modifyHead]
    by_cases cut : c = slash
    · have blank : (rest.splitOn slash).modifyHead ([] ++ ·) = rest.splitOn slash := by
        cases rest.splitOn slash <;> rfl
      have further := @ih []
      rw [blank] at further
      by_cases empty : current = [] <;> simp [cut, empty, further]
    · obtain ⟨first, others, pieces⟩ := List.exists_cons_of_ne_nil (List.splitOn_ne_nil slash rest)
      simp [cut, ih, pieces]

/-- The components are the non-empty pieces between the slashes. -/
theorem components_eq (path : CString) : components path = (path.splitOn slash).filter (· ≠ []) := by
  rw [components, componentsFrom_eq]
  cases path.splitOn slash <;> rfl

theorem components_append (a b : CString) : components (a ++ slash :: b) = components a ++ components b := by
  rw [components_eq, components_eq, components_eq, List.splitOn_append_cons_self, List.filter_append]

theorem resolveFrom_eq : resolveFrom t q names = names.foldlM (stepName t) q := by
  induction names generalizing q with
  | nil => rfl
  | cons name rest ih =>
    rw [resolveFrom, List.foldlM_cons]
    congr 1
    funext r
    exact ih

theorem reference_eq : reference t root path base = resolveFrom t root (Vfs.resolved path base) := by
  rw [reference, ← components_eq, resolveFrom_eq, Vfs.resolved]

/-- Neither `.` nor `..`, and a component of its own. -/
structure Plain (name : CString) : Prop where
  nonempty : name ≠ []
  whole : slash ∉ name
  stays : name ≠ [dot]
  climbs : name ≠ [dot, dot]

theorem Plain.components (plain : Plain name) : components name = [name] := by
  simp [components_eq, List.splitOn_eq_singleton plain.whole, plain.nonempty]

/-- A slash at an end of the path, or beside another one, adds no component. -/
theorem components_slash (beside : a = [] ∨ b = [] ∨ a.getLast? = some slash ∨ b.head? = some slash) :
    components (a ++ slash :: b) = components (a ++ b) := by
  rw [components_append]
  rcases beside with rfl | rfl | ends | starts
  · rfl
  · rw [List.append_nil]
    exact List.append_nil _
  · obtain ⟨front, rfl⟩ := List.getLast?_eq_some_iff.mp ends
    rw [components_append, List.append_assoc front, List.singleton_append, components_append]
    simp [components, componentsFrom]
  · obtain ⟨rest, rfl⟩ := List.head?_eq_some_iff.mp starts
    rw [components_append, ← List.nil_append (slash :: rest), components_append]
    rfl

/-- Components that lead back to where they start may be left out. -/
theorem resolveFrom_insert (returns : ∀ r, resolveFrom t q names = some r → resolveFrom t r ins = some r) :
    resolveFrom t q (names ++ ins ++ back) = resolveFrom t q (names ++ back) := by
  rw [List.append_assoc, resolveFrom_append, resolveFrom_append]
  cases found : resolveFrom t q names with
  | none => rfl
  | some r => rw [Option.bind_some, Option.bind_some, resolveFrom_append, returns r found, Option.bind_some]

namespace Vfs

variable {v v' : Vfs}

/-- What `vfsGetPath` returns. -/
def target (v : Vfs) (path : CString) (base : Bool) : Except Fault Ptr := (v.vfsGetPath path base).map Prod.snd

theorem Tree.target_eq (tree : Tree v t) (short : (components path).length ≤ subSize) (base : Bool) :
    v.target path base = .ok ((reference t v.root path base).getD 0) := by
  rw [target, tree.getPath short base, reference_eq]
  rfl

theorem Tree.around (tree : Tree v t) {file : File} (member : p ∈ t.ids) (plain : Plain name)
    (kid : child ∈ (t.kids p).spine) (labelled : t.label? child = some file) (called : file.name = name) :
    resolveFrom t p [name, [dot, dot]] = some p := by
  have some : ∃ c, (t.kids p).firstWith (fun file => file.name == name) = some c := by
    apply Option.isSome_iff_exists.mp
    rw [Option.isSome_iff_ne_none]
    intro none
    rw [← Forest.label?_kids tree.distinct (Forest.spine_sub kid)] at labelled
    have other := Forest.firstWith_none none (tree.kids_distinct p) kid labelled
    simp [called] at other
  obtain ⟨c, found⟩ := some
  have nonnull := tree.reps.nonnull p member
  have above := @Forest.parentOf_kid _ _ _ t p c 0 tree.distinct (Forest.firstWith_mem found)
  simp [resolveFrom, stepName, plain.stays, plain.climbs, found, above, nonnull]

/-- Extra components that lead back to where they start are not seen, unless the
last of them is dropped for `base`. -/
theorem Tree.target_insert (tree : Tree v t) {piece : CString} (kept : base = false ∨ components b ≠ [])
    (short : (components (a ++ slash :: piece ++ slash :: b)).length ≤ subSize)
    (returns : ∀ r ∈ t.ids, resolve t v.root a = some r → resolveFrom t r (components piece) = some r) :
    v.target (a ++ slash :: piece ++ slash :: b) base = v.target (a ++ slash :: b) base := by
  have whole : components (a ++ slash :: piece ++ slash :: b) =
      components a ++ components piece ++ components b := by rw [components_append, components_append]
  have less : (components (a ++ slash :: b)).length ≤ subSize := by
    rw [components_append]
    simp only [whole, List.length_append] at short ⊢
    omega
  rw [tree.target_eq short, tree.target_eq less, reference_eq, reference_eq]
  have front := fun r found => returns r (resolveFrom_mem tree.root_mem found) found
  have inserted := fun back => @resolveFrom_insert t (components a) (components piece) back v.root front
  cases base with
  | false =>
    simp only [resolved, Bool.false_eq_true, if_false]
    rw [whole, components_append, inserted]
  | true =>
    have some := kept.resolve_left (by simp)
    simp only [resolved, if_true]
    rw [whole, components_append, List.dropLast_append_of_ne_nil some, List.dropLast_append_of_ne_nil some, inserted]

/-- `vfsGetPath` returns what the reference does. Slashes at the ends or beside
others never matter; neither do `.` and a child followed by `..`, unless `base`
drops the last of them. -/
theorem path_resolution (tree : Tree v t) (base : Bool) :
    (∀ path, (components path).length ≤ subSize → v.target path base = .ok ((reference t v.root path base).getD 0)) ∧
    (∀ a b, a = [] ∨ b = [] ∨ a.getLast? = some slash ∨ b.head? = some slash →
      (components (a ++ b)).length ≤ subSize → v.target (a ++ slash :: b) base = v.target (a ++ b) base) ∧
    (∀ a b, base = false ∨ components b ≠ [] → (components (a ++ slash :: [dot] ++ slash :: b)).length ≤ subSize →
      v.target (a ++ slash :: [dot] ++ slash :: b) base = v.target (a ++ slash :: b) base) ∧
    ∀ a b name p child file, base = false ∨ components b ≠ [] →
      (components (a ++ slash :: (name ++ slash :: [dot, dot]) ++ slash :: b)).length ≤ subSize → Plain name →
      reference t v.root a false = some p → child ∈ (t.kids p).spine → t.label? child = some file → file.name = name →
      v.target (a ++ slash :: (name ++ slash :: [dot, dot]) ++ slash :: b) base = v.target (a ++ slash :: b) base := by
  refine ⟨fun path short => tree.target_eq short base, fun a b beside short => ?_, fun a b kept short => ?_, ?_⟩
  · have same := components_slash beside
    rw [tree.target_eq (by rw [same]; exact short), tree.target_eq short, reference_eq, reference_eq, resolved,
      resolved, same]
  · exact tree.target_insert kept short (fun r _ _ => rfl)
  · intro a b name p child file kept short plain lead kid labelled called
    refine tree.target_insert kept short (fun r member found => ?_)
    rw [reference_eq] at lead
    cases found.symm.trans lead
    rw [components_append, plain.components]
    exact tree.around member plain kid labelled called

theorem path_resolution_stdin : ∃ v a, vfsInit empty = .ok v ∧ v.target stdinName false = .ok a ∧
    v.target (slash :: stdinName) false = .ok a := by
  obtain ⟨v, a, b, c, init, tree, root⟩ := vfsInit_tree
  obtain ⟨whole, slashes, _⟩ := path_resolution tree false
  have found : reference (initTree a b c) v.root stdinName false = some a := by
    rw [reference_eq, root]
    rfl
  have here := whole stdinName (by decide)
  rw [found, Option.getD_some] at here
  have leading := slashes [] stdinName (.inl rfl) (by decide)
  exact ⟨v, a, init, here, leading.trans here⟩

/-- With `base`, a `.` behind `"$stdin"` leads to the file instead of the root. -/
theorem base_drops_dot : ∃ v a, vfsInit empty = .ok v ∧ a ≠ v.root ∧ v.target stdinName true = .ok v.root ∧
    v.target (stdinName ++ slash :: [dot]) true = .ok a := by
  obtain ⟨v, a, b, c, init, tree, root⟩ := vfsInit_tree
  have distinct := tree.distinct
  simp only [initTree, Forest.ids, List.append_nil, List.nil_append, List.nodup_cons, List.mem_cons, not_or] at distinct
  have plain : reference (initTree a b c) v.root stdinName true = some v.root := rfl
  have dotted : reference (initTree a b c) v.root (stdinName ++ slash :: [dot]) true = some a := by
    rw [reference_eq, root]
    rfl
  refine ⟨v, a, init, ?_, ?_, ?_⟩
  · rw [root]
    exact Ne.symm distinct.1.1
  · rw [tree.target_eq (by decide), plain]
    rfl
  · rw [tree.target_eq (by decide), dotted]
    rfl

end Vfs

end UmkaOs
