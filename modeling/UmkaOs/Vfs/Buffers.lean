import UmkaOs.Vfs.Runs

namespace UmkaOs.Vfs

open Lib

/-- The name of a node that `vfsCreate_` would make for the path fits into `filename`. -/
def NameFits (v : Vfs) (path : CString) : Prop :=
  ∀ w w' x, v.vfsGetPath path false = .ok (w, 0) → v.vfsGetPath path true = .ok (w', x) → x ≠ 0 →
    (vfsBasename path).length < filenameSize

variable {v v' : Vfs} {t : FileTree} {path perm : CString} {p x : Ptr} {base : Bool}

theorem getPath_long (long : subSize < (components path).length) (v : Vfs) (base : Bool) :
    v.vfsGetPath path base = .error .overrun := by
  rcases returns_splitPath v [] [] path with ⟨⟨w, sub⟩, split⟩ | overrun
  · have short : (components path).length ≤ subSize := by
      simpa [components] using @splitPath_short v w [] sub [] path (Nat.zero_le _) split
    exact absurd short (Nat.not_le.mpr long)
  · rw [vfsGetPath, overrun]
    rfl

/-- Where a path is resolved first, its components have to fit. -/
theorem short_of_first {α : Type} {next : Vfs × Ptr → Except Fault α} (safe : (v.vfsGetPath path base >>= next) ≠
    .error .overrun) : (components path).length ≤ subSize := by
  by_contra long
  rw [getPath_long (Nat.lt_of_not_le long)] at safe
  exact safe rfl

/-- Without nodes a resolution returns the freed root or follows it. -/
theorem Gone.getPath_cases (gone : Gone v) (short : (components path).length ≤ subSize) (base : Bool) :
    v.vfsGetPath path base = .ok (v.tick (components path).length, v.root) ∨
      v.vfsGetPath path base = .error .dangling := by
  rw [gone.getPath short base]
  split
  · exact .inl rfl
  · exact .inr rfl

theorem vfsExists_fits_iff (state : TreeOrGone v) : v.vfsExists path ≠ .error .overrun ↔
    (components path).length ≤ subSize := by
  refine ⟨short_of_first, fun short => ?_⟩
  rcases state with ⟨t, tree⟩ | gone
  · rw [vfsExists, tree.getPath short false]
    exact fun bad => by cases bad
  · rcases gone.getPath_cases short false with first | first <;>
    · rw [vfsExists, first]
      exact fun bad => by cases bad

theorem vfsRemove_fits_iff (state : TreeOrGone v) : v.vfsRemove path ≠ .error .overrun ↔
    (components path).length ≤ subSize := by
  refine ⟨short_of_first, fun short => ?_⟩
  rcases state with ⟨t, tree⟩ | gone
  · by_cases lead : resolve t v.root path = some v.root
    · obtain ⟨v', run, _⟩ := tree.removeRoot short lead
      rw [run]
      exact fun bad => by cases bad
    · obtain ⟨v', c, run, _⟩ := tree.vfsRemove short lead
      rw [run]
      exact fun bad => by cases bad
  · rcases gone.getPath_cases short false with first | first
    · -- the root is freed a second time
      have freed : ∀ fuel w, (∀ q, w.nodes q = none) → freeTree fuel w v.root ≠ .error .overrun := by
        intro fuel w none
        cases fuel with
        | zero => exact fun bad => by cases bad
        | succ fuel =>
          rw [freeTree, unlink, node, none]
          exact fun bad => by cases bad
      have again := freed (2 * (v.tick (components path).length).next) (v.tick (components path).length) gone.nodes
      simp only [vfsRemove, first, gone.root, if_false, vfsFree, bind, Except.bind]
      intro bad
      split at bad
      · rename_i same
        cases bad
        exact again same
      · cases bad
    · rw [vfsRemove, first]
      exact fun bad => by cases bad

theorem Tree.nameFits_iff (tree : Tree v t) (short : (components path).length ≤ subSize) :
    NameFits v path ↔ PathFits t v.root path := by
  have first := tree.getPath short false
  have second := tree.getPath short true
  constructor
  · intro fits
    refine ⟨short, fun missing exists_ => ?_⟩
    obtain ⟨parent, base⟩ := Option.isSome_iff_exists.mp exists_
    rw [show resolveFrom t v.root (resolved path false) = none from missing] at first
    rw [show resolveFrom t v.root (resolved path true) = some parent from base] at second
    exact fits _ _ _ first second (tree.reps.nonnull _ (resolveFrom_mem tree.root_mem base))
  · intro fits w w' x found lead nonnull
    obtain ⟨_, none⟩ := tree.getPath_ok found
    obtain ⟨_, some⟩ := tree.getPath_ok lead
    refine fits.named ?_ ?_
    · cases here : resolve t v.root path with
      | none => rfl
      | some y =>
        rw [show resolveFrom t v.root (resolved path false) = .some y from here] at none
        exact absurd none.symm (tree.reps.nonnull _ (resolveFrom_mem tree.root_mem here))
    · cases base : resolveBase t v.root path with
      | none =>
        rw [show resolveFrom t v.root (resolved path true) = .none from base] at some
        exact absurd some nonnull
      | some parent => rfl

theorem create_fits_iff (state : TreeOrGone v) : v.vfsCreate_ path ≠ .error .overrun ↔
    (components path).length ≤ subSize ∧ NameFits v path := by
  rcases state with ⟨t, tree⟩ | gone
  · constructor
    · intro safe
      have short := short_of_first safe
      rcases tree.returns_vfsCreate_ path with ⟨⟨w, q⟩, run⟩ | overrun
      · exact ⟨short, (tree.nameFits_iff short).mpr (tree.create_fits run)⟩
      · exact absurd overrun safe
    · rintro ⟨short, fits⟩
      obtain ⟨w, run, _⟩ := tree.vfsCreate_ ((tree.nameFits_iff short).mp fits)
      rw [run]
      exact fun bad => by cases bad
  · constructor
    · intro safe
      refine ⟨short_of_first safe, fun w w' x found _ _ => ?_⟩
      obtain ⟨_, null⟩ := gone.getPath_ok found
      exact absurd null.symm gone.root
    · rintro ⟨short, _⟩
      rcases gone.getPath_cases short false with first | first
      · simp only [vfsCreate_, first, gone.root, bind, Except.bind, ne_eq, not_false_eq_true, if_true]
        exact fun bad => by cases bad
      · rw [vfsCreate_, first]
        exact fun bad => by cases bad

theorem vfsCreate_fits_iff (state : TreeOrGone v) : v.vfsCreate path ≠ .error .overrun ↔
    (components path).length ≤ subSize ∧ NameFits v path := by
  rw [← create_fits_iff state]
  cases run : v.vfsCreate_ path with
  | error e => simp [vfsCreate, run, bind, Except.bind]
  | ok r => simp [vfsCreate, run, bind, Except.bind, pure, Except.pure]

/-- A mode with an `a` is turned down before the path is read. -/
theorem vfsOpen_fits_iff (state : TreeOrGone v) : v.vfsOpen path perm ≠ .error .overrun ↔
    ∀ write, scanPerm false perm = some write →
      (components path).length ≤ subSize ∧ (write = true → NameFits v path) := by
  cases mode : scanPerm false perm with
  | none =>
    rw [vfsOpen, mode]
    simp
  | some write =>
    simp only [Option.some.injEq, forall_eq']
    rcases state with ⟨t, tree⟩ | gone
    · constructor
      · intro safe
        rcases tree.returns_vfsOpen path perm with ⟨⟨w, s⟩, run⟩ | overrun
        · obtain ⟨short, fits⟩ := tree.open_fits mode run
          exact ⟨short, fun writes => (tree.nameFits_iff short).mpr (fits writes)⟩
        · exact absurd overrun safe
      · rintro ⟨short, fits⟩
        obtain ⟨w, s, run, _⟩ := tree.vfsOpen mode short (fun writes => (tree.nameFits_iff short).mp (fits writes))
        rw [run]
        exact fun bad => by cases bad
    · constructor
      · intro safe
        rw [vfsOpen, mode] at safe
        refine ⟨short_of_first safe, fun _ w w' x found _ _ => ?_⟩
        obtain ⟨_, null⟩ := gone.getPath_ok found
        exact absurd null.symm gone.root
      · rintro ⟨short, _⟩
        rw [vfsOpen, mode]
        rcases gone.getPath_cases short false with first | first
        · simp only [first, gone.root, bind, Except.bind, decide_false, Bool.false_and, Bool.false_eq_true, if_false,
            vfsClearData, node, Vfs.tick, gone.nodes]
          cases write <;> exact fun bad => by cases bad
        · rw [first]
          exact fun bad => by cases bad

end UmkaOs.Vfs
