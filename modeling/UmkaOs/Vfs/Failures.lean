import UmkaOs.Vfs.Runs

namespace UmkaOs.Vfs

open Lib

/-- Names that were never handed out hold no block, and `NULL` is not handed out. -/
structure Fresh (v : Vfs) : Prop where
  positive : 0 < v.next
  unused : ∀ p, v.next ≤ p → v.blocks p = none

/-- The tree, the files, the streams and the live blocks are the same. -/
structure Unchanged (v v' : Vfs) : Prop extends Still v v' where
  blocks : v'.blocks = v.blocks

variable {v v' : Vfs} {t : FileTree} {path perm : CString} {p : Ptr} {call : Call}

theorem Tree.fresh (tree : Tree v t) : Fresh v := ⟨tree.positive, fun p late => (tree.unused p late).2.2⟩

theorem Fresh.tick (fresh : Fresh v) (k : Nat) : Fresh (v.tick k) :=
  ⟨Nat.lt_of_lt_of_le fresh.positive (Nat.le_add_right _ _), fun p late => fresh.unused p (Nat.le_of_add_right_le late)⟩

theorem unchanged_tick (k : Nat) : Unchanged v (v.tick k) := ⟨⟨rfl, rfl, rfl, rfl⟩, rfl⟩

/-- Whatever the nodes look like, a resolution that returns has given back every
component it copied. -/
theorem Fresh.getPath {base : Bool} (fresh : Fresh v) (run : v.vfsGetPath path base = .ok (v', p)) :
    v' = v.tick (components path).length := by
  have split := @splitPath_spec v [] [] path (by simpa [components] using getPath_short run)
  obtain ⟨w, sub, dropped, reading⟩ := (reading_split path).dropLast fresh.unused base
  obtain ⟨⟨v1, sub1⟩, splitRun, run⟩ := bind_ok run
  cases splitRun.symm.trans split
  obtain ⟨⟨v2, sub2⟩, droppedRun, run⟩ := bind_ok run
  rw [List.nil_append, show componentsFrom [] path = components path from rfl] at droppedRun
  cases droppedRun.symm.trans dropped
  obtain ⟨q, _, run⟩ := bind_ok run
  obtain ⟨v3, freed, done⟩ := bind_ok run
  cases done
  cases freed.symm.trans (reading.freeAll fresh.unused)
  rfl

theorem vfsAlloc_new {q : Ptr} {file : CString} (run : v.vfsAlloc p file = .ok (v', q)) :
    q = v.next ∧ v'.next = v.next + 2 := by
  rw [vfsAlloc_eq (vfsAlloc_short run)] at run
  obtain ⟨n, _, run⟩ := bind_ok run
  split at run
  · cases run
    exact ⟨rfl, rfl⟩
  · obtain ⟨last, _, run⟩ := bind_ok run
    obtain ⟨l, _, run⟩ := bind_ok run
    cases run
    exact ⟨rfl, rfl⟩

/-- A creation that makes nothing only used up names. -/
theorem Fresh.create (fresh : Fresh v) (run : v.vfsCreate_ path = .ok (v', p)) :
    (∃ k, v' = v.tick k) ∨ p ≠ 0 ∧ 0 < v'.next := by
  obtain ⟨⟨v1, q⟩, first, run⟩ := bind_ok run
  obtain rfl := fresh.getPath first
  dsimp only at run
  split at run
  · cases run
    exact .inl ⟨_, rfl⟩
  · obtain ⟨⟨v2, q'⟩, second, run⟩ := bind_ok run
    obtain rfl := (fresh.tick _).getPath second
    dsimp only at run
    split at run
    · cases run
      exact .inl ⟨_, tick_tick _ _⟩
    · obtain ⟨new, next⟩ := vfsAlloc_new run
      refine .inr ⟨?_, by rw [next]; exact Nat.succ_pos _⟩
      rw [new]
      exact Nat.ne_of_gt ((fresh.tick _).tick _).positive

/-- The end of `vfsOpen` returns `NULL` only without a node. -/
theorem openNode_null {x : Ptr} (write : Bool) (positive : 0 < v.next) (run : (if x = 0 then pure (v, 0) else
    (if write then v.vfsClearData x else .ok v) >>= fun w => pure (w.newStream ⟨x, 0, 0, 0, 0⟩) :
      Except Fault (Vfs × Ptr)) = .ok (v', 0)) : x = 0 ∧ v' = v := by
  by_cases none : x = 0
  · rw [if_pos none] at run
    cases run
    exact ⟨none, rfl⟩
  · rw [if_neg none] at run
    obtain ⟨w, cut, made⟩ := bind_ok run
    have same : w.next = v.next := by
      cases write with
      | false =>
        cases cut
        rfl
      | true =>
        obtain ⟨n, _, done⟩ := bind_ok cut
        cases done
        rfl
    have null : w.next = 0 := congrArg Prod.snd (Except.ok.inj made)
    exact absurd (same.symm.trans null) (Nat.ne_of_gt positive)

theorem Fresh.open_null (fresh : Fresh v) (run : v.vfsOpen path perm = .ok (v', 0)) : ∃ k, v' = v.tick k := by
  rw [vfsOpen] at run
  cases mode : scanPerm false perm with
  | none =>
    rw [mode] at run
    cases run
    exact ⟨0, rfl⟩
  | some write =>
    rw [mode] at run
    obtain ⟨⟨v1, x⟩, first, run⟩ := bind_ok run
    obtain rfl := fresh.getPath first
    dsimp only at run
    split at run
    · -- the file is missing and is to be made
      obtain ⟨⟨v2, y⟩, made, run⟩ := bind_ok run
      have ending : 0 < v2.next → y = 0 ∧ v' = v2 := by
        intro positive
        refine openNode_null write positive ?_
        cases write <;> exact run
      rcases (fresh.tick _).create made with ⟨k, rfl⟩ | ⟨some, positive⟩
      · obtain ⟨_, rfl⟩ := ending ((fresh.tick _).tick k).positive
        exact ⟨_, tick_tick _ _⟩
      · exact absurd (ending positive).1 some
    · have same : x = 0 ∧ v' = v.tick (components path).length := by
        refine openNode_null write (fresh.tick _).positive ?_
        cases write <;> exact run
      exact ⟨_, same.2⟩

/-- A call on a path that fails, and `vfsExists` with either answer, changes nothing. -/
theorem failures_change_nothing (fresh : Fresh v) (path : CString) :
    (∀ perm v', v.vfsOpen path perm = .ok (v', 0) → Unchanged v v') ∧
    (∀ v', v.vfsCreate path = .ok (v', -1) → Unchanged v v') ∧
    (∀ v', v.vfsRemove path = .ok (v', -1) → Unchanged v v') ∧
    ∀ v' found, v.vfsExists path = .ok (v', found) → Unchanged v v' := by
  refine ⟨fun perm v' run => ?_, fun v' run => ?_, fun v' run => ?_, fun v' found run => ?_⟩
  · obtain ⟨k, rfl⟩ := fresh.open_null run
    exact unchanged_tick k
  · obtain ⟨⟨w, p⟩, created, done⟩ := bind_ok run
    obtain ⟨rfl, failed⟩ := Prod.mk.inj (Except.ok.inj done)
    rcases fresh.create created with ⟨k, rfl⟩ | ⟨some, _⟩
    · exact unchanged_tick k
    · rw [if_pos some] at failed
      cases failed
  · obtain ⟨⟨w, p⟩, first, run⟩ := bind_ok run
    obtain rfl := fresh.getPath first
    dsimp only at run
    split at run
    · cases run
      exact unchanged_tick _
    · obtain ⟨u, _, done⟩ := bind_ok run
      cases done
  · obtain ⟨⟨w, p⟩, first, done⟩ := bind_ok run
    obtain rfl := fresh.getPath first
    cases done
    exact unchanged_tick _

theorem failures_change_nothing_nested : ∃ v v', vfsInit empty = .ok v ∧
    v.vfsCreate [97, slash, 98] = .ok (v', -1) ∧ Unchanged v v' := by
  obtain ⟨v, a, b, c, init, tree, root⟩ := vfsInit_tree
  have ok : PathOk [97, slash, 98] := by decide
  obtain ⟨w, created, _⟩ := tree.vfsCreate_ (pathFits v.root ok)
  have missing : ((initTree a b c).create v.root (v.next + 2 * (components [97, slash, 98]).length)
      [97, slash, 98]).2 = none := by
    rw [root]
    rfl
  have run : v.vfsCreate [97, slash, 98] = .ok (w, -1) := by
    rw [missing] at created
    simp only [Vfs.vfsCreate, created, bind, Except.bind]
    rfl
  exact ⟨v, w, init, run, (failures_change_nothing tree.fresh _).2.1 w run⟩

/-- Freeing nodes touches neither blocks nor names. -/
structure OnlyNodes (v v' : Vfs) : Prop where
  next : v'.next = v.next
  blocks : v'.blocks = v.blocks

theorem OnlyNodes.trans {w : Vfs} (first : OnlyNodes v v') (second : OnlyNodes v' w) : OnlyNodes v w :=
  ⟨second.next.trans first.next, second.blocks.trans first.blocks⟩

theorem onlyNodes_unlinkFrom {n : Node} {fuel : Nat} {prev child : Ptr}
    (run : v.unlinkFrom p n fuel prev child = .ok v') : OnlyNodes v v' := by
  induction fuel generalizing prev child with
  | zero => cases run
  | succ fuel ih =>
    rw [unlinkFrom] at run
    split at run
    · cases run
      exact ⟨rfl, rfl⟩
    · split at run
      · split at run <;>
        · obtain ⟨m, _, run⟩ := bind_ok run
          cases run
          exact ⟨rfl, rfl⟩
      · obtain ⟨_, _, run⟩ := bind_ok run
        exact ih run

theorem onlyNodes_unlink (run : v.unlink p = .ok v') : OnlyNodes v v' := by
  obtain ⟨n, _, run⟩ := bind_ok run
  split at run
  · cases run
    exact ⟨rfl, rfl⟩
  · obtain ⟨_, _, run⟩ := bind_ok run
    exact onlyNodes_unlinkFrom run

theorem onlyNodes_freeTree (fuel : Nat) : (∀ v v' p, freeTree fuel v p = .ok v' → OnlyNodes v v') ∧
    ∀ v v' p, freeChildren fuel v p = .ok v' → OnlyNodes v v' := by
  induction fuel with
  | zero =>
    constructor <;>
    · intro v v' p run
      cases run
  | succ fuel ih =>
    constructor
    · intro v v' p run
      rw [freeTree] at run
      obtain ⟨v1, unlinked, run⟩ := bind_ok run
      obtain ⟨n, _, run⟩ := bind_ok run
      obtain ⟨v2, below, run⟩ := bind_ok run
      obtain ⟨_, _, done⟩ := bind_ok run
      cases done
      exact (onlyNodes_unlink unlinked).trans ⟨(ih.2 _ _ _ below).next, (ih.2 _ _ _ below).blocks⟩
    · intro v v' p run
      rw [freeChildren] at run
      split at run
      · cases run
        exact ⟨rfl, rfl⟩
      · obtain ⟨n, _, run⟩ := bind_ok run
        obtain ⟨v1, freed, run⟩ := bind_ok run
        exact (ih.1 _ _ _ freed).trans (ih.2 _ _ _ run)

/-- A removal, of the root too, uses up names as every resolution does and frees no block. -/
theorem Fresh.remove {c : Int} (fresh : Fresh v) (run : v.vfsRemove path = .ok (v', c)) :
    v.next ≤ v'.next ∧ v'.blocks = v.blocks := by
  obtain ⟨⟨w, q⟩, first, run⟩ := bind_ok run
  obtain rfl := fresh.getPath first
  dsimp only at run
  split at run
  · cases run
    exact ⟨Nat.le_add_right _ _, rfl⟩
  · obtain ⟨u, freed, done⟩ := bind_ok run
    cases done
    obtain ⟨next, blocks⟩ := (onlyNodes_freeTree _).1 _ _ _ freed
    exact ⟨by rw [next]; exact Nat.le_add_right _ _, blocks⟩

theorem fresh_of_run {v0 : Vfs} {steps : List (Vfs × Call)} (init : vfsInit empty = .ok v0)
    (run : Run Step v0 steps v) : Fresh v := by
  have inv : (∃ t, Tree v t) ∨ Gone v ∧ 0 < v.next := by
    refine @Run.invariant _ _ Step v0 v steps (fun v => (∃ t, Tree v t) ∨ Gone v ∧ 0 < v.next) ?_ run
      (.inl (tree_init init))
    rintro v call v' (⟨t, tree⟩ | ⟨gone, positive⟩) step
    · rcases Tree.keeps_or_removes v t call with keeps | ⟨path, rfl, lead⟩
      · exact .inl ⟨_, (tree.step step keeps).tree⟩
      · refine .inr ⟨tree.gone lead step, ?_⟩
        obtain ⟨bytes, run⟩ := step
        obtain ⟨⟨w, c⟩, removed, done⟩ := bind_ok run
        cases done
        exact Nat.lt_of_lt_of_le tree.positive (tree.fresh.remove removed).1
    · exact .inr ⟨(gone.step step).1, Nat.lt_of_lt_of_le positive (gone.step step).2.2⟩
  rcases inv with ⟨t, tree⟩ | ⟨gone, positive⟩
  · exact tree.fresh
  · exact ⟨positive, gone.unused⟩

theorem Tree.vfsExists_eq (tree : Tree v t) (short : (components path).length ≤ subSize) :
    v.vfsExists path = .ok (v.tick (components path).length, (resolve t v.root path).isSome) := by
  have first := tree.getPath short false
  simp only [vfsExists, first, bind, Except.bind, pure, Except.pure]
  cases found : resolve t v.root path with
  | none =>
    rw [show resolveFrom t v.root (resolved path false) = none from found]
    rfl
  | some x =>
    rw [show resolveFrom t v.root (resolved path false) = some x from found]
    simp [tree.reps.nonnull x (resolveFrom_mem tree.root_mem found)]

theorem create_none_iff {root fresh : Ptr} : (t.create root fresh path).2 = none ↔
    resolve t root path = none ∧ resolveBase t root path = none := by
  rw [FileTree.create]
  cases resolve t root path <;> cases resolveBase t root path <;> simp

theorem openFile_none_iff {root fresh : Ptr} {writing : Bool} : (t.openFile root fresh path writing).2 = none ↔
    resolve t root path = none ∧ (writing = true → resolveBase t root path = none) := by
  cases writing with
  | false => simp [FileTree.openFile]
  | true =>
    have made := @create_none_iff t path root fresh
    simp only [FileTree.openFile, if_true, forall_true_left]
    rw [← made]
    rcases t.create root fresh path with ⟨t', _ | x⟩ <;> simp

/-- Nothing is created exactly if the parent is missing too. -/
theorem Tree.create_fails_iff (tree : Tree v t) (ok : PathOk path) : (∃ v', v.vfsCreate path = .ok (v', -1)) ↔
    resolve t v.root path = none ∧ resolveBase t v.root path = none := by
  obtain ⟨w, created, tree', _⟩ := tree.vfsCreate_ (pathFits v.root ok)
  rw [← @create_none_iff t path v.root (v.next + 2 * (components path).length)]
  simp only [vfsCreate, created, bind, Except.bind, pure, Except.pure, Except.ok.injEq, Prod.mk.injEq,
    exists_eq_left']
  cases target : (t.create v.root (v.next + 2 * (components path).length) path).2 with
  | none => simp
  | some x =>
    have nonnull := tree'.reps.nonnull x (create_mem tree (Prod.ext rfl target))
    simp [nonnull]

theorem Tree.remove_fails_iff (tree : Tree v t) (short : (components path).length ≤ subSize) :
    (∃ v', v.vfsRemove path = .ok (v', -1)) ↔ resolve t v.root path = none := by
  have first := tree.getPath short false
  cases found : resolve t v.root path with
  | none =>
    rw [show resolveFrom t v.root (resolved path false) = none from found] at first
    refine iff_of_true ⟨v.tick (components path).length, ?_⟩ rfl
    simp only [Vfs.vfsRemove, first, bind, Except.bind]
    rfl
  | some x =>
    rw [show resolveFrom t v.root (resolved path false) = some x from found] at first
    have nonnull := tree.reps.nonnull x (resolveFrom_mem tree.root_mem found)
    simp only [reduceCtorEq, iff_false, not_exists]
    intro v' run
    obtain ⟨⟨w, p⟩, ran, run⟩ := bind_ok run
    cases first.symm.trans ran
    simp only [Option.getD_some, nonnull, if_false] at run
    obtain ⟨u, _, done⟩ := bind_ok run
    cases done

/-- `vfsOpen` returns `NULL` at an `a` in the mode, for a missing file when
reading, and for a missing parent when writing. -/
theorem Tree.open_fails_iff (tree : Tree v t) (ok : PathOk path) (perm : CString) :
    (∃ v', v.vfsOpen path perm = .ok (v', 0)) ↔ ∀ writing, scanPerm false perm = some writing →
      resolve t v.root path = none ∧ (writing = true → resolveBase t v.root path = none) := by
  cases mode : scanPerm false perm with
  | none =>
    simp only [reduceCtorEq, false_implies, implies_true, iff_true]
    exact ⟨v, by rw [Vfs.vfsOpen, mode]⟩
  | some writing =>
    obtain ⟨w, s, opened, _, _, made⟩ := tree.vfsOpen mode ok.1 (fun _ => pathFits v.root ok)
    simp only [Option.some.injEq, forall_eq', opened, Except.ok.injEq, Prod.mk.injEq, exists_eq_left']
    rw [← @openFile_none_iff t path v.root (v.next + 3 * (components path).length)]
    cases target : (t.openFile v.root (v.next + 3 * (components path).length) path writing).2 with
    | none =>
      rw [target] at made
      simpa using made
    | some x =>
      rw [target] at made
      simp only [reduceCtorEq, iff_false]
      exact Nat.ne_of_gt (Nat.lt_of_lt_of_le tree.positive made.2)

end UmkaOs.Vfs
