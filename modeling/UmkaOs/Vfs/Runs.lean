import UmkaOs.Vfs.Streams
import UmkaOs.Vfs.Write
import UmkaOs.Lib.Run

namespace UmkaOs.Vfs

open Lib

/-- A call that returns. -/
def Step (v : Vfs) (call : Call) (v' : Vfs) : Prop := ∃ bytes, call.run v = .ok (v', bytes)

/-- What a call does to the tree `t` of the state `v`. -/
def Call.effect (v : Vfs) (t : FileTree) : Call → FileTree
  | create path => (t.create v.root (v.next + 2 * (components path).length) path).1
  | .open path perm =>
    match scanPerm false perm with
    | some writing => (t.openFile v.root (v.next + 3 * (components path).length) path writing).1
    | none => t
  | remove path => t.remove v.root path
  | write s bytes =>
    match v.streams s with
    | some st => t.relabel st.node (File.withContent (· ++ bytes))
    | none => t
  | _ => t

variable {v v' : Vfs} {t t' : FileTree} {path perm : CString} {s x p : Ptr} {st : Stream} {call : Call}

theorem step_create (created : v.vfsCreate_ path = .ok (v', p)) : Step v (.create path) v' := by
  refine ⟨[], ?_⟩
  simp only [Call.run, Vfs.vfsCreate, created, bind, Except.bind, pure, Except.pure]

theorem step_open (opened : v.vfsOpen path perm = .ok (v', s)) : Step v (.open path perm) v' := by
  refine ⟨[], ?_⟩
  simp only [Call.run, opened, bind, Except.bind, pure, Except.pure]

theorem step_remove {code : Int} (removed : v.vfsRemove path = .ok (v', code)) : Step v (.remove path) v' := by
  refine ⟨[], ?_⟩
  simp only [Call.run, removed, bind, Except.bind, pure, Except.pure]

theorem step_write {bytes : List UInt8} {size : Nat} (written : v.vfsWrite s bytes = .ok (v', size)) :
    Step v (.write s bytes) v' := by
  refine ⟨[], ?_⟩
  simp only [Call.run, written, bind, Except.bind, pure, Except.pure]

theorem pushSub_ok {sub sub' : List Ptr} {name : CString} (run : v.pushSub sub name = .ok (v', sub')) :
    sub.length < subSize ∧ sub'.length = sub.length + 1 := by
  rw [pushSub] at run
  split at run
  · rename_i below
    cases run
    exact ⟨below, by simp⟩
  · cases run

theorem splitPath_short {sub sub' : List Ptr} {current path : CString} (room : sub.length ≤ subSize)
    (run : v.splitPath sub current path = .ok (v', sub')) :
    sub.length + (componentsFrom current path).length ≤ subSize := by
  induction path generalizing v sub current with
  | nil =>
    rw [splitPath] at run
    rw [componentsFrom]
    split at run
    · rename_i none
      simpa [none] using room
    · rename_i some
      rw [if_neg some]
      exact (pushSub_ok run).1
  | cons c rest ih =>
    rw [splitPath] at run
    rw [componentsFrom]
    by_cases cut : c = slash
    · by_cases none : current = []
      · simp only [cut, none, if_true] at run ⊢
        exact ih room run
      · simp only [cut, none, if_true, if_false] at run ⊢
        obtain ⟨⟨w, sub1⟩, pushed, further⟩ := bind_ok run
        obtain ⟨below, length⟩ := pushSub_ok pushed
        have room' : sub1.length ≤ subSize := by omega
        have later := ih room' further
        rw [List.length_cons]
        omega
    · simp only [cut, if_false] at run ⊢
      exact ih room run

/-- A resolution that returns did not run over the array of components. -/
theorem getPath_short {base : Bool} (run : v.vfsGetPath path base = .ok (v', p)) :
    (components path).length ≤ subSize := by
  obtain ⟨⟨w, sub⟩, split, _⟩ := bind_ok run
  simpa [components] using @splitPath_short v w [] sub [] path (Nat.zero_le _) split

theorem Tree.getPath_ok {base : Bool} (tree : Tree v t) (run : v.vfsGetPath path base = .ok (v', p)) :
    v' = v.tick (components path).length ∧ p = (resolveFrom t v.root (resolved path base)).getD 0 := by
  cases run.symm.trans (tree.getPath (getPath_short run) base)
  exact ⟨rfl, rfl⟩

theorem vfsAlloc_short {name : CString} (run : v.vfsAlloc p name = .ok (v', x)) : name.length < filenameSize := by
  apply Nat.lt_of_not_le
  intro long
  simp only [vfsAlloc, long, if_true] at run
  cases run

/-- A creation that returns did not run over a file name either. -/
theorem Tree.create_fits (tree : Tree v t) (run : v.vfsCreate_ path = .ok (v', p)) : PathFits t v.root path := by
  obtain ⟨⟨v1, q⟩, first, run⟩ := bind_ok run
  obtain ⟨rfl, rfl⟩ := tree.getPath_ok first
  refine ⟨getPath_short first, fun missing base => ?_⟩
  obtain ⟨parent, base⟩ := Option.isSome_iff_exists.mp base
  have nothing : resolveFrom t v.root (Vfs.resolved path false) = none := missing
  simp only [nothing, Option.getD_none, ne_eq, not_true_eq_false, if_false] at run
  obtain ⟨⟨v2, q'⟩, second, run⟩ := bind_ok run
  obtain ⟨rfl, rfl⟩ := (tree.tick (components path).length).getPath_ok second
  have lead : resolveFrom t v.root (Vfs.resolved path true) = some parent := base
  have nonnull := tree.reps.nonnull parent (resolveFrom_mem tree.root_mem lead)
  simp only [Vfs.tick, lead, Option.getD_some, nonnull, if_false] at run
  exact vfsAlloc_short run

theorem Tree.open_fits {writing : Bool} (tree : Tree v t) (mode : scanPerm false perm = some writing)
    (run : v.vfsOpen path perm = .ok (v', s)) :
    (components path).length ≤ subSize ∧ (writing = true → PathFits t v.root path) := by
  simp only [Vfs.vfsOpen, mode] at run
  obtain ⟨⟨v1, q⟩, first, run⟩ := bind_ok run
  refine ⟨getPath_short first, fun write => ?_⟩
  obtain ⟨rfl, rfl⟩ := tree.getPath_ok first
  cases found : resolveFrom t v.root (Vfs.resolved path false) with
  | some x => exact ⟨getPath_short first, fun missing => by cases missing.symm.trans found⟩
  | none =>
    simp only [found, write, Option.getD_none, decide_true, Bool.and_true, if_true] at run
    obtain ⟨⟨v2, q'⟩, made, _⟩ := bind_ok run
    exact (tree.tick (components path).length).create_fits made

/-- The root stands alone over its children. -/
theorem Tree.shape (tree : Tree v t) : ∃ file children, t = .node v.root file children .nil := by
  have top := tree.top
  cases t with
  | nil => cases top
  | node id file children rest =>
    obtain ⟨rfl, none⟩ := List.cons.inj top
    cases rest with
    | nil => exact ⟨file, children, rfl⟩
    | node _ _ _ _ => cases none

theorem Tree.ids_eq (tree : Tree v t) : t.ids = v.root :: (t.kids v.root).ids := by
  obtain ⟨file, children, rfl⟩ := tree.shape
  simp [Forest.ids, Forest.kids]

/-- `vfs.root` is left, but no node lives. -/
structure Gone (v : Vfs) : Prop where
  root : v.root ≠ 0
  nodes : ∀ q, v.nodes q = none
  unused : ∀ q, v.next ≤ q → v.blocks q = none

theorem Tree.freeRoot (tree : Tree v t) :
    ∃ v', v.vfsFree v.root = .ok v' ∧ Gone v' ∧ v'.root = v.root ∧ v'.streams = v.streams := by
  have nonnull := tree.reps.nonnull _ tree.root_mem
  obtain ⟨n, found, above, _, kids⟩ := tree.lookup tree.root_mem
  have top : n.parent = 0 := by
    have alone := @Forest.parentOf_spine _ _ _ t v.root 0 tree.distinct (by simp [tree.top])
    exact Option.some.inj (above.symm.trans alone)
  obtain ⟨k, fuelEq⟩ : ∃ k, 2 * v.next = k + 1 := ⟨2 * v.next - 1, by have := tree.positive; omega⟩
  have below := @freeChildren_spec v (t.kids v.root) v.root n k found kids (tree.kids_distinct _)
    (Forest.not_mem_kids tree.distinct) nonnull tree.positive (by
      have := tree.kids_lt v.root
      omega)
  have still : (v.pruned v.root { n with child := 0 } (t.kids v.root).ids).nodes v.root =
      some { n with child := 0 } := by
    simp [pruned, setNode, Forest.not_mem_kids tree.distinct]
  have unlinked : v.unlink v.root = .ok v := by
    simp only [unlink, node, found, top, if_true, bind, Except.bind, pure, Except.pure]
  let w := v.pruned v.root { n with child := 0 } (t.kids v.root).ids
  refine ⟨{ w with nodes := Function.update w.nodes v.root none }, ?_,
    ⟨nonnull, fun q => ?_, fun q late => (tree.unused q late).2.2⟩, rfl, rfl⟩
  · simp only [Vfs.vfsFree, fuelEq, freeTree, unlinked, node, found, below, still, freeNode, bind, Except.bind, pure,
      Except.pure]
    rfl
  · by_cases isRoot : q = v.root
    · subst isRoot
      exact Function.update_self ..
    · refine (Function.update_of_ne isRoot _ _).trans ?_
      by_cases inside : q ∈ (t.kids v.root).ids
      · exact if_pos inside
      · have outside : q ∉ t.ids := by simp [tree.ids_eq, isRoot, inside]
        have dead : v.nodes q = none := by
          rw [← Option.not_isSome_iff_eq_none, tree.exact]
          exact outside
        exact (if_neg inside).trans ((Function.update_of_ne isRoot _ _).trans dead)

/-- Removing the root returns. -/
theorem Tree.removeRoot (tree : Tree v t) (short : (components path).length ≤ subSize)
    (lead : resolve t v.root path = some v.root) :
    ∃ v', v.vfsRemove path = .ok (v', 0) ∧ Gone v' ∧ v'.root = v.root ∧ v'.streams = v.streams := by
  obtain ⟨v', freed, gone, root, streams⟩ := (tree.tick (components path).length).freeRoot
  have here : resolveFrom t v.root (Vfs.resolved path false) = some v.root := lead
  have nonnull := tree.reps.nonnull _ tree.root_mem
  have freed : (v.tick (components path).length).vfsFree v.root = .ok v' := freed
  refine ⟨v', ?_, gone, root, streams⟩
  simp only [Vfs.vfsRemove, tree.getPath short false, here, Option.getD_some, nonnull, if_false, freed, bind,
    Except.bind, pure, Except.pure]

/-- A call returns, or an array or a size is too small. -/
def Returns {α : Type} (run : Except Fault α) : Prop := (∃ r, run = .ok r) ∨ run = .error .overrun

theorem Returns.bind {α β : Type} {m : Except Fault α} {next : α → Except Fault β} (first : Returns m)
    (later : ∀ r, m = .ok r → Returns (next r)) : Returns (m >>= next) := by
  rcases first with ⟨r, run⟩ | run
  · rw [run]
    exact later r run
  · rw [run]
    exact .inr rfl

theorem returns_pushSub (v : Vfs) (sub : List Ptr) (name : CString) : Returns (v.pushSub sub name) := by
  rw [pushSub]
  split
  · exact .inl ⟨_, rfl⟩
  · exact .inr rfl

theorem returns_splitPath (v : Vfs) (sub : List Ptr) (current path : CString) :
    Returns (v.splitPath sub current path) := by
  induction path generalizing v sub current with
  | nil =>
    rw [splitPath]
    split
    · exact .inl ⟨_, rfl⟩
    · exact returns_pushSub ..
  | cons c rest ih =>
    rw [splitPath]
    split
    · split
      · exact ih ..
      · exact (returns_pushSub ..).bind (fun r _ => ih ..)
    · exact ih ..

theorem Tree.returns_getPath (tree : Tree v t) (path : CString) (base : Bool) : Returns (v.vfsGetPath path base) := by
  rcases returns_splitPath v [] [] path with ⟨⟨w, sub⟩, split⟩ | overrun
  · have short : (components path).length ≤ subSize := by
      simpa [components] using @splitPath_short v w [] sub [] path (Nat.zero_le _) split
    exact .inl ⟨_, tree.getPath short base⟩
  · right
    rw [vfsGetPath, overrun]
    rfl

theorem Tree.returns_vfsAlloc (tree : Tree v t) (member : p ∈ t.ids) (name : CString) :
    Returns (v.vfsAlloc p name) := by
  by_cases short : name.length < filenameSize
  · obtain ⟨v', run, _⟩ := tree.vfsAlloc member short
    exact .inl ⟨_, run⟩
  · right
    have long : filenameSize ≤ name.length := Nat.le_of_not_lt short
    simp only [Vfs.vfsAlloc, long, if_true]
    rfl

theorem Tree.returns_vfsCreate_ (tree : Tree v t) (path : CString) : Returns (v.vfsCreate_ path) := by
  refine (tree.returns_getPath path false).bind (fun r first => ?_)
  obtain ⟨w, q⟩ := r
  obtain ⟨rfl, rfl⟩ := tree.getPath_ok first
  dsimp only
  split
  · exact .inl ⟨_, rfl⟩
  · have ticked := tree.tick (components path).length
    refine (ticked.returns_getPath path true).bind (fun r second => ?_)
    obtain ⟨w, q⟩ := r
    obtain ⟨rfl, rfl⟩ := ticked.getPath_ok second
    dsimp only
    split
    · exact .inl ⟨_, rfl⟩
    · rename_i found
      refine (ticked.tick _).returns_vfsAlloc ?_ _
      cases base : resolveFrom t v.root (Vfs.resolved path true) with
      | none => exact absurd (by rw [show (v.tick _).root = v.root from rfl, base]; rfl) found
      | some parent =>
        rw [show (v.tick (components path).length).root = v.root from rfl, base]
        exact resolveFrom_mem tree.root_mem base

theorem Tree.returns_vfsOpen (tree : Tree v t) (path perm : CString) : Returns (v.vfsOpen path perm) := by
  cases mode : scanPerm false perm with
  | none => exact .inl ⟨_, by rw [Vfs.vfsOpen, mode]⟩
  | some writing =>
    rcases tree.returns_getPath path false with ⟨⟨w, q⟩, first⟩ | overrun
    · have short := getPath_short first
      by_cases fits : writing = true → PathFits t v.root path
      · obtain ⟨v', s, run, _⟩ := tree.vfsOpen mode short fits
        exact .inl ⟨_, run⟩
      · -- the new name is too long
        obtain ⟨rfl, long⟩ := Classical.not_imp.mp fits
        have missing : resolveFrom t v.root (Vfs.resolved path false) = none := by
          cases found : resolveFrom t v.root (Vfs.resolved path false) with
          | none => rfl
          | some x => exact absurd ⟨short, fun missing => by cases missing.symm.trans found⟩ long
        have ticked := tree.tick (components path).length
        have overrun : (v.tick (components path).length).vfsCreate_ path = .error .overrun := by
          rcases ticked.returns_vfsCreate_ path with ⟨⟨w, q⟩, run⟩ | overrun
          · exact absurd (ticked.create_fits run) long
          · exact overrun
        right
        simp only [Vfs.vfsOpen, mode, tree.getPath short false, missing, Option.getD_none, decide_true, Bool.and_true,
          if_true, overrun, bind, Except.bind]
    · right
      simp only [Vfs.vfsOpen, mode, overrun]
      rfl

theorem Tree.returns_vfsRemove (tree : Tree v t) (path : CString) : Returns (v.vfsRemove path) := by
  rcases tree.returns_getPath path false with ⟨⟨w, q⟩, first⟩ | overrun
  · have short := getPath_short first
    by_cases lead : resolve t v.root path = some v.root
    · obtain ⟨v', run, _⟩ := tree.removeRoot short lead
      exact .inl ⟨_, run⟩
    · obtain ⟨v', c, run, _⟩ := tree.vfsRemove short lead
      exact .inl ⟨_, run⟩
  · right
    rw [Vfs.vfsRemove, overrun]
    rfl

/-- What a call does to the state around its tree. -/
structure Moved (v v' : Vfs) (t' : FileTree) : Prop where
  tree : Tree v' t'
  root : v'.root = v.root
  next : v.next ≤ v'.next
  streams : ∀ s st', v'.streams s = some st' →
    (∃ st, v.streams s = some st ∧ st.node = st'.node) ∨ v.next ≤ s ∧ st'.node ∈ t'.ids

theorem Moved.refl (tree : Tree v t) : Moved v v t :=
  ⟨tree, rfl, Nat.le_refl _, fun _ st' found => .inl ⟨st', found, rfl⟩⟩

theorem Moved.ofQuiet (tree' : Tree v' t') (kept : Kept v v') (quiet : Quiet v v') : Moved v v' t' :=
  ⟨tree', kept.root, kept.next, fun s st' found => .inl ⟨st', by rw [← quiet.streams]; exact found, rfl⟩⟩

theorem Moved.setStream {st' : Stream} (tree : Tree v t) (opened : v.streams s = some st) (same : st'.node = st.node) :
    Moved v (v.setStream s st') t := by
  refine ⟨tree.setStream opened st', rfl, Nat.le_refl _, fun r st'' found => .inl ?_⟩
  by_cases here : r = s
  · subst here
    cases (show (v.setStream r st').streams r = some st' from Function.update_self ..).symm.trans found
    exact ⟨st, opened, same.symm⟩
  · exact ⟨st'', (Function.update_of_ne here _ _).symm.trans found, rfl⟩

theorem Moved.flush (tree : Tree v t) (run : v.vfsFlush s = .ok v') : Moved v v' t := by
  obtain ⟨st, opened, ⟨_, same⟩ | ⟨_, _, n, c, _, _, _, _, same⟩⟩ := vfsFlush_ok run
  · subst same
    exact .refl tree
  · subst same
    have moved := @Moved.setStream v t s st { st with flushindex := st.i } tree opened rfl
    exact ⟨moved.tree.setFlushed _, moved.root, moved.next, moved.streams⟩

theorem openFile_mem (tree : Tree v t) {fresh : Ptr} {writing : Bool}
    (made : (t.openFile v.root fresh path writing).2 = some x) : x ∈ (t.openFile v.root fresh path writing).1.ids := by
  cases writing with
  | false => exact resolveFrom_mem tree.root_mem made
  | true =>
    simp only [FileTree.openFile, if_true] at made ⊢
    cases created : t.create v.root fresh path with
    | mk t' target =>
      cases target with
      | none => simp [created] at made
      | some y =>
        simp only [created, Option.some.injEq, Forest.ids_relabel] at made ⊢
        exact made ▸ create_mem tree created

theorem Moved.create (tree : Tree v t) (run : v.vfsCreate_ path = .ok (v', p)) :
    Moved v v' (t.create v.root (v.next + 2 * (components path).length) path).1 ∧
      p = (t.create v.root (v.next + 2 * (components path).length) path).2.getD 0 := by
  obtain ⟨w, ran, tree', kept⟩ := tree.vfsCreate_ (tree.create_fits run)
  cases run.symm.trans ran
  exact ⟨.ofQuiet tree' kept (quiet_vfsCreate_ run), rfl⟩

/-- Opening hands out a stream at the start of the file, or nothing. -/
theorem Moved.open {writing : Bool} (tree : Tree v t) (mode : scanPerm false perm = some writing)
    (run : v.vfsOpen path perm = .ok (v', s)) :
    Moved v v' (t.openFile v.root (v.next + 3 * (components path).length) path writing).1 ∧
      match (t.openFile v.root (v.next + 3 * (components path).length) path writing).2 with
      | some x => v'.streams s = some ⟨x, 0, 0, 0, 0⟩ ∧ v.next ≤ s ∧ ∀ r, r ≠ s → v'.streams r = v.streams r
      | none => s = 0 ∧ v'.streams = v.streams := by
  obtain ⟨short, fits⟩ := tree.open_fits mode run
  obtain ⟨w, s', ran, tree', kept, made⟩ := tree.vfsOpen mode short fits
  cases run.symm.trans ran
  have inside := fun x => @openFile_mem v t path x tree (v.next + 3 * (components path).length) writing
  revert made
  cases target : (t.openFile v.root (v.next + 3 * (components path).length) path writing).2 with
  | none =>
    rintro rfl
    rcases vfsOpen_ok run with ⟨quiet, _⟩ | ⟨u, y, quiet, same, null⟩
    · exact ⟨.ofQuiet tree' kept quiet, rfl, quiet.streams⟩
    · -- a name is never 0
      have two : 2 ≤ v.next := Nat.lt_of_le_of_lt
        (Nat.pos_of_ne_zero (tree.reps.nonnull _ tree.root_mem)) (tree.lt_next tree.root_mem)
      have grows : v.next ≤ u.next + 1 := by simpa [same, newStream] using kept.next
      have zero : u.next = 0 := null.symm
      omega
  | some x =>
    rintro ⟨opened, late⟩
    rcases vfsOpen_ok run with ⟨_, null⟩ | ⟨u, y, quiet, same, new⟩
    · exact absurd (null ▸ late) (Nat.not_le.mpr tree.positive)
    · have others : ∀ r, r ≠ s → v'.streams r = v.streams r := by
        intro r other
        rw [same, ← quiet.streams]
        exact Function.update_of_ne (new ▸ other) _ _
      refine ⟨⟨tree', kept.root, kept.next, fun r st' found => ?_⟩, opened, late, others⟩
      by_cases here : r = s
      · subst here
        cases opened.symm.trans found
        exact .inr ⟨late, inside x target⟩
      · exact .inl ⟨st', (others r here).symm.trans found, rfl⟩

/-- Only the removal of the root leaves the tree. -/
def KeepsRoot (v : Vfs) (t : FileTree) (call : Call) : Prop :=
  ∀ path, call = .remove path → resolve t v.root path ≠ some v.root

theorem Moved.remove (tree : Tree v t) {c : Int} (notRoot : resolve t v.root path ≠ some v.root)
    (run : v.vfsRemove path = .ok (v', c)) : Moved v v' (t.remove v.root path) ∧ v'.streams = v.streams ∧
      ∀ x, resolve t v.root path = some x → ∀ q ∈ t.subtree x, v'.nodes q = none := by
  obtain ⟨⟨w, q⟩, first, _⟩ := bind_ok run
  obtain ⟨u, d, ran, tree', kept, removed⟩ := tree.vfsRemove (getPath_short first) notRoot
  cases run.symm.trans ran
  have quiet := quiet_vfsRemove run
  exact ⟨.ofQuiet tree' kept quiet, quiet.streams, fun x found q dead => ((removed x found).freed q dead).2⟩

theorem Moved.write (tree : Tree v t) {written : Nat} {bytes : List UInt8}
    (run : v.vfsWrite s bytes = .ok (v', written)) : ∃ st file, v.streams s = some st ∧
      t.label? st.node = some file ∧ file.content.length + bytes.length < 2 ^ 32 ∧
      Moved v v' (t.relabel st.node (File.withContent (· ++ bytes))) := by
  obtain ⟨st, w, opened, appended, _⟩ := vfsWrite_ok run
  obtain ⟨_, n, data, found, fits, _⟩ := vfsAppendData_ok appended
  have member : st.node ∈ t.ids := (tree.exact _).mp (by simp [found])
  obtain ⟨m, foundM, _, label, _⟩ := tree.lookup member
  cases found.symm.trans foundM
  have length := tree.length_content found
  have room : (File.mk n.filename (v.contentOf n)).content.length + bytes.length < 2 ^ 32 := by
    rw [length]
    exact fits
  obtain ⟨u, ran, tree', alone⟩ := tree.vfsWrite opened label room
  cases run.symm.trans ran
  refine ⟨st, _, opened, label, room, tree', alone.root, alone.next, fun r st' foundR => .inl ?_⟩
  by_cases here : r = s
  · subst here
    obtain ⟨st'', own, node, _⟩ := alone.own
    cases own.symm.trans foundR
    exact ⟨st, opened, node.symm⟩
  · exact ⟨st', (alone.others r here).symm.trans foundR, rfl⟩

/-- One call that returns acts on the tree by its effect. -/
theorem Tree.step (tree : Tree v t) (step : Step v call v') (keeps : KeepsRoot v t call) :
    Moved v v' (call.effect v t) := by
  obtain ⟨bytes, run⟩ := step
  cases call with
  | create path =>
    obtain ⟨⟨w, c⟩, made, done⟩ := bind_ok run
    cases done
    obtain ⟨⟨u, p⟩, created, done⟩ := bind_ok made
    cases done
    exact (Moved.create tree created).1
  | remove path =>
    obtain ⟨⟨w, c⟩, removed, done⟩ := bind_ok run
    cases done
    exact (Moved.remove tree (keeps path rfl) removed).1
  | «open» path perm =>
    obtain ⟨⟨w, s⟩, opened, done⟩ := bind_ok run
    cases done
    cases mode : scanPerm false perm with
    | none =>
      simp only [Vfs.vfsOpen, mode] at opened
      cases opened
      simpa only [Call.effect, mode] using Moved.refl tree
    | some writing => simpa only [Call.effect, mode] using (Moved.open tree mode opened).1
  | close s =>
    obtain ⟨w, closed, done⟩ := bind_ok run
    cases done
    obtain ⟨st, opened, same⟩ := vfsClose_ok closed
    obtain ⟨u, ran, tree', root, next, others⟩ := tree.vfsClose opened
    cases closed.symm.trans ran
    refine ⟨tree', root, Nat.le_of_eq next.symm, fun r st' found => .inl ?_⟩
    by_cases here : r = s
    · subst here same
      cases (Function.update_self ..).symm.trans found
    · exact ⟨st', (others r here).symm.trans found, rfl⟩
  | seek s pos whence =>
    obtain ⟨w, moved, done⟩ := bind_ok run
    cases done
    obtain ⟨st, opened, same | ⟨i, same⟩⟩ := vfsSeek_ok moved <;> subst same
    · exact .refl tree
    · exact .setStream tree opened rfl
  | read s size =>
    obtain ⟨st, n, opened, _, _, same⟩ := vfsRead_ok run
    subst same
    exact .setStream tree opened rfl
  | write s bytes =>
    obtain ⟨⟨w, c⟩, written, done⟩ := bind_ok run
    cases done
    obtain ⟨st, _, opened, _, _, moved⟩ := Moved.write tree written
    simpa only [Call.effect, opened] using moved
  | flush s =>
    obtain ⟨w, flushed, done⟩ := bind_ok run
    cases done
    exact .flush tree flushed
  | hookFlush s flushdata hook =>
    obtain ⟨w, hooked, done⟩ := bind_ok run
    cases done
    obtain ⟨_, st, opened, same⟩ := vfsHookFlush_ok hooked
    subst same
    exact .setStream tree opened rfl

/-- The resolving loop gets past `.` and nothing else. -/
theorem Gone.walkPath {w : Vfs} (gone : ∀ q, w.nodes q = none) {sub : List Ptr} {names : List CString}
    (named : sub.map w.blocks = names.map (fun name => some (name ++ [0]))) (nonempty : ∀ name ∈ names, name ≠ []) :
    w.walkPath sub p = if names.all (· == [dot]) then .ok p else .error .dangling := by
  induction names generalizing sub with
  | nil =>
    rw [List.map_nil, List.map_eq_nil_iff] at named
    simp [named, Vfs.walkPath]
  | cons name names ih =>
    obtain ⟨s, sub, rfl, stored, named⟩ := List.map_eq_cons_iff.mp named
    have rest := ih named (fun other member => nonempty other (by simp [member]))
    have some := nonempty name (by simp)
    have dead : w.node p = .error .dangling := by simp [node, gone]
    rw [Vfs.walkPath]
    simp only [block, stored, bind, Except.bind]
    by_cases stay : name = [dot]
    · simp [stay, rest]
    · have notStay : name ++ [0] ≠ [dot, 0] := by
        intro same
        exact stay (List.append_cancel_right (show name ++ [0] = [dot] ++ [0] from same))
      have notEmpty : name ++ [0] ≠ [0] := by simpa using some
      simp [notStay, notEmpty, dead, stay]

/-- Only a path of dots resolves, to the freed root. -/
theorem Gone.getPath (gone : Gone v) (short : (components path).length ≤ subSize) (base : Bool) :
    v.vfsGetPath path base = if (Vfs.resolved path base).all (· == [dot])
      then .ok (v.tick (components path).length, v.root) else .error .dangling := by
  have split := @splitPath_spec v [] [] path (by simpa [components] using short)
  obtain ⟨w, sub, dropped, reading⟩ := (reading_split path).dropLast gone.unused base
  have reading : Reading v w (components path).length sub (Vfs.resolved path base) := reading
  have walked := @Gone.walkPath w.root w (by rw [reading.nodes]; exact gone.nodes) sub _ reading.named resolved_nonempty
  simp only [vfsGetPath, split, List.nil_append, bind, Except.bind, pure, Except.pure]
  rw [show componentsFrom [] path = components path from rfl, dropped]
  dsimp only
  rw [walked]
  by_cases dots : (Vfs.resolved path base).all (· == [dot])
  · rw [if_pos dots, if_pos dots]
    dsimp only
    rw [reading.freeAll gone.unused, reading.root]
  · rw [if_neg dots, if_neg dots]

theorem Gone.tick (gone : Gone v) (k : Nat) : Gone (v.tick k) :=
  ⟨gone.root, gone.nodes, fun q late => gone.unused q (Nat.le_of_add_right_le late)⟩

theorem Gone.getPath_ok {base : Bool} (gone : Gone v) (run : v.vfsGetPath path base = .ok (v', p)) :
    v' = v.tick (components path).length ∧ p = v.root := by
  rw [gone.getPath (getPath_short run)] at run
  split at run
  · cases run
    exact ⟨rfl, rfl⟩
  · cases run

theorem Gone.create (gone : Gone v) (run : v.vfsCreate_ path = .ok (v', p)) :
    v' = v.tick (components path).length ∧ p = v.root := by
  obtain ⟨⟨v1, q⟩, first, run⟩ := bind_ok run
  obtain ⟨rfl, rfl⟩ := gone.getPath_ok first
  dsimp only at run
  rw [if_pos gone.root] at run
  cases run
  exact ⟨rfl, rfl⟩

/-- The freed root can still be opened, but not for writing. -/
theorem Gone.open_ok (gone : Gone v) (run : v.vfsOpen path perm = .ok (v', s)) : v' = v ∧ s = 0 ∨
    scanPerm false perm ≠ some true ∧
      v' = ((v.tick (components path).length).newStream ⟨v.root, 0, 0, 0, 0⟩).1 := by
  rw [Vfs.vfsOpen] at run
  cases mode : scanPerm false perm with
  | none =>
    rw [mode] at run
    cases run
    exact .inl ⟨rfl, rfl⟩
  | some writing =>
    rw [mode] at run
    obtain ⟨⟨u, q⟩, first, run⟩ := bind_ok run
    obtain ⟨rfl, rfl⟩ := gone.getPath_ok first
    simp only [gone.root, decide_false, Bool.false_and, Bool.false_eq_true, if_false] at run
    obtain ⟨_, same, run⟩ := bind_ok run
    cases same
    dsimp only at run
    rw [if_neg gone.root] at run
    cases writing with
    | false =>
      cases run
      exact .inr ⟨by simp, rfl⟩
    | true =>
      obtain ⟨y, cut, _⟩ := bind_ok run
      obtain ⟨n, found, _⟩ := bind_ok cut
      cases (gone.nodes _).symm.trans (node_ok found)

/-- Without nodes, a call that returns makes none. -/
theorem Gone.step (gone : Gone v) (step : Step v call v') : Gone v' ∧ v'.root = v.root ∧ v.next ≤ v'.next := by
  have dead : ∀ {w : Vfs} {q n}, w.nodes = v.nodes → w.nodes q ≠ some n := by
    intro w q n same found
    rw [same, gone.nodes] at found
    cases found
  have still : ∀ {w : Vfs}, w.root = v.root → w.nodes = v.nodes → w.blocks = v.blocks → v.next ≤ w.next →
      Gone w ∧ w.root = v.root ∧ v.next ≤ w.next := by
    intro w root nodes blocks next
    refine ⟨⟨by rw [root]; exact gone.root, by rw [nodes]; exact gone.nodes, fun q late => ?_⟩, root, next⟩
    rw [blocks]
    exact gone.unused q (Nat.le_trans next late)
  obtain ⟨bytes, run⟩ := step
  cases call with
  | create path =>
    obtain ⟨⟨w, c⟩, made, done⟩ := bind_ok run
    cases done
    obtain ⟨⟨u, p⟩, created, done⟩ := bind_ok made
    cases done
    obtain ⟨rfl, _⟩ := gone.create created
    exact still rfl rfl rfl (Nat.le_add_right _ _)
  | remove path =>
    obtain ⟨⟨w, c⟩, removed, done⟩ := bind_ok run
    cases done
    obtain ⟨⟨u, q⟩, first, removed⟩ := bind_ok removed
    obtain ⟨rfl, rfl⟩ := gone.getPath_ok first
    dsimp only at removed
    rw [if_neg gone.root] at removed
    obtain ⟨x, freed, _⟩ := bind_ok removed
    -- the root would be freed a second time
    rw [vfsFree] at freed
    cases fuel : 2 * (v.tick (components path).length).next with
    | zero =>
      rw [fuel] at freed
      cases freed
    | succ k =>
      rw [fuel] at freed
      obtain ⟨_, unlinked, _⟩ := bind_ok freed
      obtain ⟨n, found, _⟩ := bind_ok unlinked
      cases (gone.nodes _).symm.trans (node_ok found)
  | «open» path perm =>
    obtain ⟨⟨w, s⟩, opened, done⟩ := bind_ok run
    cases done
    rcases gone.open_ok opened with ⟨rfl, _⟩ | ⟨_, rfl⟩
    · exact still rfl rfl rfl (Nat.le_refl _)
    · exact still rfl rfl rfl (Nat.le_succ_of_le (Nat.le_add_right _ _))
  | close s =>
    obtain ⟨w, closed, done⟩ := bind_ok run
    cases done
    obtain ⟨st, _, same⟩ := vfsClose_ok closed
    subst same
    exact still rfl rfl rfl (Nat.le_refl _)
  | seek s pos whence =>
    obtain ⟨w, moved, done⟩ := bind_ok run
    cases done
    obtain ⟨st, _, same | ⟨i, same⟩⟩ := vfsSeek_ok moved <;> subst same <;> exact still rfl rfl rfl (Nat.le_refl _)
  | read s size =>
    obtain ⟨st, n, _, found, _, _⟩ := vfsRead_ok run
    exact absurd found (dead rfl)
  | write s bytes =>
    obtain ⟨⟨w, c⟩, written, done⟩ := bind_ok run
    cases done
    obtain ⟨st, w, _, appended, _⟩ := vfsWrite_ok written
    obtain ⟨_, n, data, found, _⟩ := vfsAppendData_ok appended
    exact absurd found (dead rfl)
  | flush s =>
    obtain ⟨w, flushed, done⟩ := bind_ok run
    cases done
    obtain ⟨st, _, ⟨_, same⟩ | ⟨_, _, n, c, found, _⟩⟩ := vfsFlush_ok flushed
    · subst same
      exact still rfl rfl rfl (Nat.le_refl _)
    · exact absurd found (dead rfl)
  | hookFlush s flushdata hook =>
    obtain ⟨w, hooked, done⟩ := bind_ok run
    cases done
    obtain ⟨_, st, _, same⟩ := vfsHookFlush_ok hooked
    subst same
    exact still rfl rfl rfl (Nat.le_refl _)

theorem Tree.keeps_or_removes (v : Vfs) (t : FileTree) (call : Call) :
    KeepsRoot v t call ∨ ∃ path, call = .remove path ∧ resolve t v.root path = some v.root := by
  by_cases removes : ∃ path, call = .remove path ∧ resolve t v.root path = some v.root
  · exact .inr removes
  · exact .inl (fun path same lead => removes ⟨path, same, lead⟩)

theorem Tree.gone (tree : Tree v t) (lead : resolve t v.root path = some v.root) (step : Step v (.remove path) v') :
    Gone v' := by
  obtain ⟨bytes, run⟩ := step
  obtain ⟨⟨w, c⟩, removed, done⟩ := bind_ok run
  cases done
  obtain ⟨⟨u, q⟩, first, _⟩ := bind_ok removed
  obtain ⟨u', ran, gone, _⟩ := tree.removeRoot (getPath_short first) lead
  cases removed.symm.trans ran
  exact gone

/-- Every call keeps the root, or it leaves no node at all. -/
theorem Tree.keeps_or_gone (tree : Tree v t) (step : Step v call v') : KeepsRoot v t call ∨ Gone v' := by
  rcases Tree.keeps_or_removes v t call with keeps | ⟨path, rfl, lead⟩
  · exact .inl keeps
  · exact .inr (tree.gone lead step)

/-- The nodes form a tree, or there are none left. -/
def TreeOrGone (v : Vfs) : Prop := (∃ t, Tree v t) ∨ Gone v

theorem TreeOrGone.step (before : TreeOrGone v) (step : Step v call v') : TreeOrGone v' := by
  rcases before with ⟨t, tree⟩ | gone
  · rcases tree.keeps_or_gone step with keeps | gone
    · exact .inl ⟨_, (tree.step step keeps).tree⟩
    · exact .inr gone
  · exact .inr (gone.step step).1

theorem tree_init (init : vfsInit empty = .ok v) : ∃ t, Tree v t := by
  obtain ⟨w, _, _, _, run, tree, _⟩ := vfsInit_tree
  cases run.symm.trans init
  exact ⟨_, tree⟩

theorem tree_or_gone {v0 : Vfs} {steps : List (Vfs × Call)} (init : vfsInit empty = .ok v0)
    (run : Run Step v0 steps v) : TreeOrGone v :=
  run.invariant TreeOrGone.step (.inl (tree_init init))

end UmkaOs.Vfs
