import UmkaOs.Vfs.Tree

namespace UmkaOs

open Lib

/-- The non-empty components of a path, `current` being the bytes of the one
that is being read. -/
def componentsFrom (current : CString) : CString → List CString
  | [] => if current = [] then [] else [current]
  | c :: rest =>
    if c = slash then
      if current = [] then componentsFrom [] rest else current :: componentsFrom [] rest
    else componentsFrom (current ++ [c]) rest

def components (path : CString) : List CString := componentsFrom [] path

theorem componentsFrom_nonempty {current path name : CString}
    (member : name ∈ componentsFrom current path) : name ≠ [] := by
  induction path generalizing current with
  | nil =>
    rw [componentsFrom] at member
    split at member
    · simp at member
    · simp only [List.mem_singleton] at member
      simpa [member]
  | cons c rest ih =>
    rw [componentsFrom] at member
    split at member
    · split at member
      · exact ih member
      · rcases List.mem_cons.mp member with same | later
        · simpa [same]
        · exact ih later
    · exact ih member

/-- One resolving step in the abstract tree. -/
def stepName (t : FileTree) (cur : Ptr) (name : CString) : Option Ptr :=
  if name = [dot, dot] then (t.parentOf 0 cur).filter (· != 0)
  else if name = [dot] then some cur
  else (t.kids cur).firstWith (fun file => file.name == name)

/-- Where a list of components leads from `cur`. -/
def resolveFrom (t : FileTree) (cur : Ptr) : List CString → Option Ptr
  | [] => some cur
  | name :: rest => (stepName t cur name).bind (resolveFrom t · rest)

namespace Vfs

/-- Using up `k` names changes nothing else. -/
def tick (v : Vfs) (k : Nat) : Vfs := { v with next := v.next + k }

/-- The heap with the components of a path copied into it. -/
def addNames (v : Vfs) : List CString → Vfs
  | [] => v
  | name :: rest => (v.malloc (name ++ [0])).1.addNames rest

variable {v : Vfs} {t f : FileTree} {names : List CString} {p q : Ptr}

@[simp] theorem addNames_nodes : (v.addNames names).nodes = v.nodes := by
  induction names generalizing v with
  | nil => rfl
  | cons name rest ih => rw [addNames, ih]; rfl

@[simp] theorem addNames_root : (v.addNames names).root = v.root := by
  induction names generalizing v with
  | nil => rfl
  | cons name rest ih => rw [addNames, ih]; rfl

@[simp] theorem addNames_streams : (v.addNames names).streams = v.streams := by
  induction names generalizing v with
  | nil => rfl
  | cons name rest ih => rw [addNames, ih]; rfl

@[simp] theorem addNames_flushed : (v.addNames names).flushed = v.flushed := by
  induction names generalizing v with
  | nil => rfl
  | cons name rest ih => rw [addNames, ih]; rfl

@[simp] theorem addNames_next : (v.addNames names).next = v.next + names.length := by
  induction names generalizing v with
  | nil => rfl
  | cons name rest ih =>
    rw [addNames, ih, List.length_cons]
    simp only [malloc]
    omega

theorem addNames_blocks_old (old : q < v.next) : (v.addNames names).blocks q = v.blocks q := by
  induction names generalizing v with
  | nil => rfl
  | cons name rest ih =>
    rw [addNames, ih (Nat.lt_succ_of_lt old)]
    exact Function.update_of_ne (Nat.ne_of_lt old) _ _

theorem addNames_blocks_unused (fresh : v.next + names.length ≤ q) :
    (v.addNames names).blocks q = v.blocks q := by
  induction names generalizing v with
  | nil => rfl
  | cons name rest ih =>
    rw [List.length_cons] at fresh
    rw [addNames, ih (by simp only [malloc]; omega)]
    exact Function.update_of_ne (Nat.ne_of_gt (by omega)) _ _

theorem addNames_blocks : (List.range' v.next names.length).map (v.addNames names).blocks =
    names.map (fun name => some (name ++ [0])) := by
  induction names generalizing v with
  | nil => rfl
  | cons name rest ih =>
    rw [List.length_cons, List.range'_succ, List.map_cons, List.map_cons]
    refine congrArg₂ _ ?_ ih
    rw [addNames, addNames_blocks_old (Nat.lt_succ_self _)]
    exact Function.update_self _ _ _

theorem splitPath_spec {sub : List Ptr} {current path : CString}
    (short : sub.length + (componentsFrom current path).length ≤ subSize) :
    v.splitPath sub current path = .ok (v.addNames (componentsFrom current path),
      sub ++ List.range' v.next (componentsFrom current path).length) := by
  induction path generalizing v sub current with
  | nil =>
    rw [splitPath, componentsFrom]
    rw [componentsFrom] at short
    split
    · simp [addNames]
    · rename_i some
      have room : sub.length < subSize := by
        rw [if_neg some] at short
        exact short
      simp [pushSub, room, addNames, malloc]
  | cons c rest ih =>
    rw [componentsFrom] at short ⊢
    rw [splitPath]
    by_cases cut : c = slash
    · by_cases empty : current = []
      · simp only [cut, empty, if_true] at short ⊢
        exact ih short
      · simp only [cut, empty, if_true, if_false, List.length_cons] at short ⊢
        have room : sub.length < subSize := by omega
        have further := @ih (v.malloc (current ++ [0])).1 (sub ++ [v.next]) [] (by simp; omega)
        simp only [pushSub, room, if_true, bind, Except.bind, malloc] at further ⊢
        rw [further]
        simp [addNames, malloc, List.range'_succ]
    · simp only [cut, if_false] at short ⊢
      exact ih short

theorem findChild_spec {parent : Ptr} {name : CString} {fuel : Nat} (reps : Reps v parent p f)
    (enough : f.ids.length < fuel) :
    v.findChild (name ++ [0]) fuel p =
      .ok ((f.firstWith (fun file => file.name == name)).getD 0) := by
  induction f generalizing p fuel with
  | nil =>
    cases fuel with
    | zero => simp at enough
    | succ fuel =>
      have none : p = 0 := reps
      simp [findChild, none, Forest.firstWith]
  | node id file children rest _ ih =>
    obtain ⟨same, nonnull, n, found, called, _, _, _, behind⟩ := reps
    subst same
    cases fuel with
    | zero => simp at enough
    | succ fuel =>
      rw [findChild, if_neg nonnull]
      simp only [node, found, bind, Except.bind, List.append_cancel_right_eq, called, Forest.firstWith,
        beq_iff_eq]
      by_cases match' : file.name = name
      · simp [match']
        rfl
      · simp only [match', if_false]
        exact ih behind (by simp only [Forest.ids_node, List.length_cons, List.length_append] at enough; omega)

theorem stepName_mem (member : q ∈ t.ids) {name : CString}
    (found : stepName t q name = some p) : p ∈ t.ids := by
  rw [stepName] at found
  split at found
  · obtain ⟨parent, nonnull⟩ := Option.filter_eq_some_iff.mp found
    rcases Forest.parentOf_mem parent with same | inside
    · simp [same] at nonnull
    · exact inside
  · split at found
    · exact Option.some.inj found ▸ member
    · exact Forest.kids_sub (Forest.spine_sub (Forest.firstWith_mem found))

theorem resolveFrom_mem (member : q ∈ t.ids)
    (found : resolveFrom t q names = some p) : p ∈ t.ids := by
  induction names generalizing q with
  | nil => exact Option.some.inj found ▸ member
  | cons name rest ih =>
    obtain ⟨next, step, further⟩ := Option.bind_eq_some_iff.mp found
    exact ih (stepName_mem member step) further

/-- The resolving loop, on the state that also holds the components. -/
theorem walkPath_spec {w : Vfs} {sub : List Ptr} (tree : Tree v t) (nodes : w.nodes = v.nodes)
    (later : v.next ≤ w.next) (kept : ∀ p b, v.blocks p = some b → w.blocks p = some b)
    (named : sub.map w.blocks = names.map (fun name => some (name ++ [0])))
    (nonempty : ∀ name ∈ names, name ≠ []) (member : q ∈ t.ids) :
    w.walkPath sub q = .ok ((resolveFrom t q names).getD 0) := by
  induction names generalizing sub q with
  | nil =>
    rw [List.map_nil, List.map_eq_nil_iff] at named
    subst named
    rfl
  | cons name names ih =>
    obtain ⟨s, sub, rfl, stored, named⟩ := List.map_eq_cons_iff.mp named
    have rest : ∀ r ∈ t.ids, w.walkPath sub r = .ok ((resolveFrom t r names).getD 0) :=
      fun r hr => ih named (fun name hn => nonempty name (by simp [hn])) hr
    have some := nonempty name (by simp)
    obtain ⟨n, found, parentOf, _, kids⟩ := tree.lookup member
    have foundW : w.node q = .ok n := by simp [node, nodes, found]
    rw [walkPath, resolveFrom]
    simp only [block, stored, bind, Except.bind]
    by_cases up : name = [dot, dot]
    · -- '..' follows the parent pointer and fails at the root
      simp only [stepName, up, List.cons_append, List.nil_append, if_true, foundW, parentOf,
        Option.filter_some]
      by_cases top : n.parent = 0
      · simp [top]
        rfl
      · have inside : n.parent ∈ t.ids := by
          rcases Forest.parentOf_mem parentOf with same | inside
          · exact absurd same top
          · exact inside
        simp [top, rest _ inside]
    · have notUp : name ++ [0] ≠ [dot, dot, 0] := by
        intro same
        exact up (List.append_cancel_right (show name ++ [0] = [dot, dot] ++ [0] from same))
      simp only [notUp, if_false]
      by_cases stay : name = [dot]
      · simp [stepName, stay, rest _ member]
      · have notStay : name ++ [0] ≠ [dot, 0] := by
          intro same
          exact stay (List.append_cancel_right (show name ++ [0] = [dot] ++ [0] from same))
        have notEmpty : name ++ [0] ≠ [0] := by simpa using some
        have kidsW : Reps w q n.child (t.kids q) :=
          kids.congr (fun r _ => tree.agree_of_blocks nodes kept r)
        have search := @findChild_spec w (t.kids q) n.child q name w.next kidsW
          (Nat.lt_of_lt_of_le (tree.kids_lt q) later)
        simp only [notStay, notEmpty, if_false, foundW, search, stepName, up, stay]
        cases hit : (t.kids q).firstWith (fun file => file.name == name) with
        | none => simp; rfl
        | some child =>
          have inside : child ∈ t.ids := Forest.kids_sub (Forest.spine_sub (Forest.firstWith_mem hit))
          have nonnull := tree.reps.nonnull child inside
          simp [nonnull, rest _ inside]

theorem freeAll_spec {sub : List Ptr} (distinct : sub.Nodup)
    (live : ∀ p ∈ sub, (v.blocks p).isSome) :
    v.freeAll sub = .ok { v with blocks := fun q => if q ∈ sub then none else v.blocks q } := by
  induction sub generalizing v with
  | nil => simp [freeAll]
  | cons p rest ih =>
    obtain ⟨notRest, distinctRest⟩ := List.nodup_cons.mp distinct
    obtain ⟨b, stored⟩ := Option.isSome_iff_exists.mp (live p (by simp))
    have step := @ih { v with blocks := Function.update v.blocks p none } distinctRest (by
      intro q member
      have other : q ≠ p := fun same => notRest (same ▸ member)
      simpa [Function.update_of_ne other] using live q (by simp [member]))
    simp only [freeAll, free, block, stored, bind, Except.bind, pure, Except.pure]
    rw [step]
    congr 2
    funext q
    by_cases same : q = p
    · simp [same]
    · simp [same]

/-- The names that `vfsGetPath` resolves. -/
def resolved (path : CString) (base : Bool) : List CString :=
  if base then (components path).dropLast else components path

theorem Tree.tick (tree : Tree v t) (k : Nat) : Tree (v.tick k) t where
  top := tree.top
  reps := tree.reps.congr (fun _ _ => ⟨rfl, fun _ _ => rfl⟩)
  distinct := tree.distinct
  exact := tree.exact
  positive := Nat.lt_of_lt_of_le tree.positive (Nat.le_add_right _ _)
  unused p later := tree.unused p (Nat.le_of_add_right_le later)
  stored := tree.stored
  apart := tree.apart
  null := tree.null

/-- `w` is `v` with the components `names` copied into the blocks `sub`. -/
structure Reading (v w : Vfs) (k : Nat) (sub : List Ptr) (names : List CString) : Prop where
  nodes : w.nodes = v.nodes
  root : w.root = v.root
  streams : w.streams = v.streams
  flushed : w.flushed = v.flushed
  next : w.next = v.next + k
  others : ∀ q, q ∉ sub → w.blocks q = v.blocks q
  named : sub.map w.blocks = names.map (fun name => some (name ++ [0]))
  fresh : ∀ q ∈ sub, v.next ≤ q
  distinct : sub.Nodup

theorem reading_split (path : CString) : Reading v (v.addNames (components path))
    (components path).length (List.range' v.next (components path).length) (components path) where
  nodes := addNames_nodes
  root := addNames_root
  streams := addNames_streams
  flushed := addNames_flushed
  next := addNames_next
  others q outside := by
    rw [List.mem_range'_1, not_and_or, Nat.not_le, Nat.not_lt] at outside
    rcases outside with before | behind
    · exact addNames_blocks_old before
    · exact addNames_blocks_unused behind
  named := addNames_blocks
  fresh q inside := (List.mem_range'_1.mp inside).1
  distinct := List.nodup_range'

theorem Reading.live {w : Vfs} {k : Nat} {sub : List Ptr} (reading : Reading v w k sub names) :
    ∀ p ∈ sub, (w.blocks p).isSome := by
  intro p member
  have listed : w.blocks p ∈ sub.map w.blocks := List.mem_map_of_mem member
  rw [reading.named] at listed
  obtain ⟨name, _, stored⟩ := List.mem_map.mp listed
  simp [← stored]

theorem Reading.freeAll {w : Vfs} {k : Nat} {sub : List Ptr} (reading : Reading v w k sub names)
    (unused : ∀ q, v.next ≤ q → v.blocks q = none) : w.freeAll sub = .ok (v.tick k) := by
  rw [freeAll_spec reading.distinct reading.live]
  have blocks : (fun q => if q ∈ sub then none else w.blocks q) = v.blocks := by
    funext q
    split
    · rename_i inside
      exact (unused q (reading.fresh q inside)).symm
    · rename_i outside
      exact reading.others q outside
  rw [blocks]
  obtain ⟨root, nodes, streams, _, next, flushed⟩ := w
  cases reading.nodes
  cases reading.root
  cases reading.streams
  cases reading.flushed
  cases reading.next
  rfl

/-- Dropping the last component frees its block. -/
theorem Reading.dropLast {w : Vfs} {k : Nat} {sub : List Ptr} (reading : Reading v w k sub names)
    (unused : ∀ q, v.next ≤ q → v.blocks q = none) (base : Bool) :
    ∃ w' sub', w.dropLast sub base = .ok (w', sub') ∧
      Reading v w' k sub' (if base then names.dropLast else names) := by
  rcases List.eq_nil_or_concat sub with empty | ⟨front, last, split⟩
  · subst empty
    have none : names = [] := by simpa using reading.named.symm
    subst none
    exact ⟨w, [], by cases base <;> rfl, by simpa using reading⟩
  · rw [List.concat_eq_append] at split
    subst split
    cases base with
    | false => exact ⟨w, front ++ [last], rfl, reading⟩
    | true =>
      have live := reading.live last (by simp)
      obtain ⟨b, stored⟩ := Option.isSome_iff_exists.mp live
      obtain ⟨notFront, distinct⟩ : last ∉ front ∧ front.Nodup :=
        List.nodup_cons.mp (List.nodup_append_comm.mp reading.distinct)
      refine ⟨{ w with blocks := Function.update w.blocks last none }, front, ?_, ?_⟩
      · simp [Vfs.dropLast, free, block, stored, bind, Except.bind, pure, Except.pure]
      · refine { reading with
          others := ?_
          named := ?_
          fresh := fun q member => reading.fresh q (by simp [member])
          distinct := distinct }
        · intro q outside
          by_cases same : q = last
          · subst same
            simpa using (unused q (reading.fresh q (by simp))).symm
          · simpa [Function.update_of_ne same] using reading.others q (by simp [outside, same])
        · have shorter := congrArg List.dropLast reading.named
          rw [← List.map_dropLast, ← List.map_dropLast, List.dropLast_concat] at shorter
          rw [if_pos rfl, ← shorter]
          apply List.map_congr_left
          intro q member
          have other : q ≠ last := fun same => notFront (same ▸ member)
          exact Function.update_of_ne other _ _

theorem resolved_nonempty {path : CString} {base : Bool} : ∀ name ∈ resolved path base, name ≠ [] := by
  intro name member
  rw [resolved] at member
  have listed : name ∈ components path := by
    split at member
    · exact List.mem_of_mem_dropLast member
    · exact member
  exact componentsFrom_nonempty listed

/-- `vfsGetPath` folds over the components and leaves only used-up names. -/
theorem Tree.getPath (tree : Tree v t) {path : CString} (short : (components path).length ≤ subSize)
    (base : Bool) :
    v.vfsGetPath path base = .ok (v.tick (components path).length,
      (resolveFrom t v.root (resolved path base)).getD 0) := by
  have unused := fun q late => (tree.unused q late).2.2
  have split := @splitPath_spec v [] [] path (by simpa [components] using short)
  obtain ⟨w, sub, dropped, reading⟩ := (reading_split path).dropLast unused base
  have later : v.next ≤ w.next := by rw [reading.next]; exact Nat.le_add_right _ _
  have kept : ∀ p b, v.blocks p = some b → w.blocks p = some b := by
    intro p b stored
    rw [reading.others p, stored]
    exact fun inside => Nat.not_lt_of_le (reading.fresh p inside) (tree.block_lt stored)
  have walked := walkPath_spec tree reading.nodes later kept reading.named resolved_nonempty tree.root_mem
  simp only [vfsGetPath, split, List.nil_append, bind, Except.bind, pure, Except.pure]
  rw [show componentsFrom [] path = components path from rfl, dropped]
  simp only [reading.root]
  rw [walked, reading.freeAll unused]
  rfl

end Vfs

end UmkaOs
