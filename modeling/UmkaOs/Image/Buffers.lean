import UmkaOs.Image.Load
import UmkaOs.Vfs.Buffers
import UmkaOs.Vfs.Lookup
import UmkaOs.Vfs.Chunks
import UmkaOs.Vfs.Names

namespace UmkaOs.Image

open Lib Fmt

/-- The path of an entry fits into `temp`, its components into `sub`, and its name
into `filename`. -/
structure Room (names : List CString) : Prop where
  levels : names.length ≤ subSize
  named : ∀ name ∈ names, name.length < filenameSize
  short : (joined names).length < tempSize

/-- What `os.scandir` can list, in an image that the kernel can hold. -/
structure Listed (d : Dir) : Prop where
  plain : ∀ path ∈ d.paths, ∀ name ∈ path, Plain name ∧ 0 ∉ name
  small : (encodeDir d).length < 2 ^ 31

variable {d : Dir} {name : CString} {names path : List CString} {data : List UInt8} {t t' : FileTree} {cur q x : Ptr}
  {v v' : Vfs}

theorem components_plain (plain : ∀ name ∈ names, Plain name) : components (joined names) = names := by
  induction names using List.reverseRecOn with
  | nil => rfl
  | append_singleton names name ih =>
    rw [joined_snoc, components_append, ih (fun other member => plain other (by simp [member])),
      (plain name (by simp)).components]

theorem ordinary_of_plain (plain : Plain name ∧ 0 ∉ name) (short : name.length < filenameSize) : Ordinary name where
  nonempty := plain.1.nonempty
  short := short
  plain _ member := ⟨fun same => plain.1.whole (same ▸ member), fun same => plain.2 (same ▸ member)⟩
  notDot := plain.1.stays
  notDots := plain.1.climbs

theorem Ordinary.plainName (ordinary : Ordinary name) : Plain name where
  nonempty := ordinary.nonempty
  whole member := (ordinary.plain slash member).1 rfl
  stays := ordinary.notDot
  climbs := ordinary.notDots

theorem Fits.room (fits : Fits names) : Room names :=
  ⟨fits.levels, fun name member => (fits.ordinary name member).short, fits.short⟩

/-- Every byte of a path, and of a file, is in the image. -/
theorem joined_le (member : path ∈ d.paths) : (joined path).length ≤ (encodeDir d).length := by
  induction d generalizing path with
  | nil => cases member
  | dir name entries rest ihEntries ihRest =>
    simp only [Dir.paths, List.mem_cons, List.mem_append, List.mem_map] at member
    simp only [encodeDir, List.length_cons, List.length_append]
    rcases member with rfl | ⟨below, inside, rfl⟩ | behind
    · simp only [joined, List.flatMap_cons, List.flatMap_nil, List.length_append, List.length_cons, List.length_nil]
      omega
    · have shorter := ihEntries inside
      simp only [joined, List.flatMap_cons, List.length_append, List.length_cons] at shorter ⊢
      omega
    · have shorter := ihRest behind
      omega
  | file name data rest ih =>
    simp only [Dir.paths, List.mem_cons] at member
    simp only [encodeDir, List.length_cons, List.length_append]
    rcases member with rfl | behind
    · simp only [joined, List.flatMap_cons, List.flatMap_nil, List.length_append, List.length_cons, List.length_nil]
      omega
    · have shorter := ih behind
      omega

theorem contents_le (member : data ∈ d.contents) : data.length ≤ (encodeDir d).length := by
  induction d with
  | nil => cases member
  | dir name entries rest ihEntries ihRest =>
    simp only [encodeDir, List.length_cons, List.length_append]
    rcases List.mem_append.mp member with inside | behind
    · have shorter := ihEntries inside
      omega
    · have shorter := ihRest behind
      omega
  | file name content rest ih =>
    simp only [encodeDir, List.length_cons, List.length_append]
    rcases List.mem_cons.mp member with rfl | behind
    · omega
    · have shorter := ih behind
      omega

/-- No path that led somewhere leads elsewhere. -/
def Leads (t t' : FileTree) (root : Ptr) : Prop :=
  ∀ names q, resolveFrom t root names = some q → resolveFrom t' root names = some q

/-- The loader stands in `cur`, and every name in the tree fits into its field. -/
structure Loading (v : Vfs) (t : FileTree) (names : List CString) (cur : Ptr) : Prop extends
    StandsIn v t names cur where
  named : ∀ q file, t.label? q = some file → file.name.length < filenameSize

theorem Loading.carry (loading : Loading v t names cur) (tree : Vfs.Tree v' t') (root : v'.root = v.root)
    (leads : Leads t t' v.root) (named : ∀ q file, t'.label? q = some file → file.name.length < filenameSize) :
    Loading v' t' names cur where
  tree := tree
  ordinary := loading.ordinary
  found := by
    rw [root]
    exact leads _ _ loading.found
  named := named

theorem Loading.create (loading : Loading v t names cur) (fits : Fits (names ++ [name])) :
    ∃ v' r t' x, v.vfsCreate (joined (names ++ [name])) = .ok (v', r) ∧ Loading v' t' (names ++ [name]) x ∧
      v'.root = v.root ∧ Leads t t' v.root := by
  have tree := loading.tree
  have ordinary := fits.ordinary name (by simp)
  obtain ⟨w, run, tree', kept⟩ := tree.vfsCreate_ (Vfs.pathFits _ fits.pathOk)
  have comps := components_joined fits.ordinary
  have base : resolveBase t v.root (joined (names ++ [name])) = some cur := by
    rw [resolveBase, comps, List.dropLast_concat, loading.found]
  have called : Vfs.vfsBasename (joined (names ++ [name])) = name := by
    rw [joined_snoc, vfsBasename_snoc _ (fun c member => (ordinary.plain c member).1)]
  have late := tree.later_not_mem (Nat.le_add_right v.next (2 * (components (joined (names ++ [name]))).length))
  generalize v.next + 2 * (components (joined (names ++ [name]))).length = fresh at run tree' late
  have created : v.vfsCreate (joined (names ++ [name])) =
      .ok (w, if (t.create v.root fresh (joined (names ++ [name]))).2.getD 0 ≠ 0 then 0 else -1) := by
    simp only [Vfs.vfsCreate, run, bind, Except.bind, pure, Except.pure]
  cases lead : resolve t v.root (joined (names ++ [name])) with
  | some y =>
    have made : t.create v.root fresh (joined (names ++ [name])) = (t, some y) := by simp [FileTree.create, lead]
    rw [made] at tree'
    refine ⟨w, _, t, y, created, ⟨⟨tree', fits.ordinary, ?_⟩, loading.named⟩, kept.root, fun _ _ found => found⟩
    rw [kept.root, ← comps]
    exact lead
  | none =>
    have made : t.create v.root fresh (joined (names ++ [name])) = (t.addLeaf cur fresh ⟨name, []⟩, some fresh) := by
      simp [FileTree.create, lead, base, called]
    have here := Vfs.resolve_created tree late lead base
    rw [called, if_neg (by simp [ordinary.nonempty, ordinary.notDots])] at here
    rw [made] at tree'
    rw [Forest.addLeaf_eq_attach] at here tree'
    have apart := attached_apart tree.distinct loading.member tree'.distinct
    refine ⟨w, _, _, fresh, created, ⟨⟨tree', fits.ordinary, ?_⟩, fun q file labelled => ?_⟩, kept.root, ?_⟩
    · rw [kept.root, ← comps]
      exact here
    · by_cases new : q = fresh
      · subst new
        have label := (@Forest.attach_leaf_new _ _ t cur q (File.mk name []) _ 0 tree.distinct loading.member late).2
        cases label.symm.trans labelled
        exact ordinary.short
      · have old : q ∉ (Forest.node fresh (File.mk name []) .nil .nil : FileTree).ids := by simp [new, Forest.ids]
        rw [Forest.label?_attach old] at labelled
        exact loading.named q file labelled
    · exact fun names q found => resolveFrom_attach tree.distinct apart tree.root_mem found

theorem Loading.fill (loading : Loading v t names q) (fits : Fits names) (small : data.length < 2 ^ 31) :
    ∃ v1 s v2 n v', v.vfsOpen (joined names) writeBinary = .ok (v1, s) ∧ v1.vfsWrite s data = .ok (v2, n) ∧
      v2.vfsClose s = .ok v' ∧ Vfs.Tree v' (t.relabel q (File.withContent fun _ => data)) ∧ v'.root = v.root ∧
      ∀ x file, (t.relabel q (File.withContent fun _ => data)).label? x = some file →
        file.name.length < filenameSize := by
  obtain ⟨v1, s, v2, n, v', opened, written, closed, tree', root⟩ := loading.toStandsIn.fill fits small
  refine ⟨v1, s, v2, n, v', opened, written, closed, tree', root, fun x file labelled => ?_⟩
  obtain ⟨old, label, same⟩ := label?_withContent labelled
  exact same ▸ loading.named x old label

/-- An entry for which there is no room runs over a buffer. -/
theorem Loading.no_room (loading : Loading v t names cur) (plain : Plain name ∧ 0 ∉ name)
    (bounded : (joined (names ++ [name])).length < 2 ^ 31) (full : ¬ Room (names ++ [name])) :
    formatPath (joined names) name = .error .overrun ∨
      formatPath (joined names) name = .ok (joined (names ++ [name])) ∧
        v.vfsCreate (joined (names ++ [name])) = .error .overrun := by
  have length : (joined (names ++ [name])).length = (joined names).length + 1 + name.length := by
    rw [joined_snoc, List.length_append, List.length_cons]
    omega
  rw [formatPath_run (by omega), ← length]
  by_cases short : (joined (names ++ [name])).length < tempSize
  · rw [if_pos short, joined_snoc]
    refine .inr ⟨rfl, ?_⟩
    rw [← joined_snoc]
    have plains : ∀ other ∈ names ++ [name], Plain other := by
      intro other member
      rcases List.mem_append.mp member with old | last
      · exact (loading.ordinary other old).plainName
      · exact List.mem_singleton.mp last ▸ plain.1
    have comps := components_plain plains
    by_contra safe
    obtain ⟨levels, fits⟩ := (Vfs.vfsCreate_fits_iff (.inl ⟨t, loading.tree⟩)).mp safe
    rw [comps] at levels
    have called : Vfs.vfsBasename (joined (names ++ [name])) = name := by
      rw [joined_snoc, vfsBasename_snoc _ (fun c member same => plain.1.whole (same ▸ member))]
    have base : resolveBase t v.root (joined (names ++ [name])) = some cur := by
      rw [resolveBase, comps, List.dropLast_concat, loading.found]
    have room : name.length < filenameSize := by
      cases lead : resolve t v.root (joined (names ++ [name])) with
      | none =>
        have named := ((loading.tree.nameFits_iff (by rw [comps]; exact levels)).mp fits).named lead (by rw [base]; rfl)
        rwa [called] at named
      | some y =>
        -- the name is found, so it is one of the tree
        rw [resolve, comps, resolveFrom_append, loading.found, Option.bind_some, resolveFrom, stepName,
          if_neg plain.1.climbs, if_neg plain.1.stays] at lead
        obtain ⟨z, found, _⟩ := Option.bind_eq_some_iff.mp lead
        obtain ⟨file, label, same⟩ := Forest.firstWith_label (loading.tree.kids_distinct cur) found
        rw [Forest.label?_kids loading.tree.distinct (Forest.spine_sub (Forest.firstWith_mem found))] at label
        rw [← beq_iff_eq.mp same]
        exact loading.named z file label
    refine full ⟨levels, fun other member => ?_, short⟩
    rcases List.mem_append.mp member with old | last
    · exact (loading.ordinary other old).short
    · exact List.mem_singleton.mp last ▸ room
  · rw [if_neg short]
    exact .inl rfl

/-- The loader came to the end of a directory, or over one of its buffers. -/
inductive Ended (v : Vfs) (t : FileTree) (names : List CString) (cur : Ptr) (d : Dir) (rest : List UInt8) :
    Except Fault (Vfs × List UInt8) → Prop
  | loaded {v' : Vfs} {t' : FileTree} (room : ∀ path ∈ d.paths, Room (names ++ path))
      (loading : Loading v' t' names cur) (root : v'.root = v.root) (leads : Leads t t' v.root) :
      Ended v t names cur d rest (.ok (v', rest.tail))
  | overrun (path : List CString) (member : path ∈ d.paths) (full : ¬ Room (names ++ path)) :
      Ended v t names cur d rest (.error .overrun)

/-- What the loader needs to know of the entries of a directory. -/
structure Listable (names : List CString) (d : Dir) : Prop where
  plain : ∀ path ∈ d.paths, ∀ name ∈ path, Plain name ∧ 0 ∉ name
  bounded : ∀ path ∈ d.paths, (joined (names ++ path)).length < 2 ^ 31
  small : ∀ data ∈ d.contents, data.length < 2 ^ 31

theorem Listed.listable (listed : Listed d) : Listable [] d where
  plain := listed.plain
  bounded _ member := Nat.lt_of_le_of_lt (joined_le member) listed.small
  small _ member := Nat.lt_of_le_of_lt (contents_le member) listed.small

theorem Listable.dir {entries behind : Dir} (listable : Listable names (.dir name entries behind)) :
    (Plain name ∧ 0 ∉ name) ∧ (joined (names ++ [name])).length < 2 ^ 31 ∧ Listable (names ++ [name]) entries ∧
      Listable names behind := by
  obtain ⟨plain, bounded, small⟩ := listable
  refine ⟨plain [name] (by simp [Dir.paths]) name (by simp), bounded [name] (by simp [Dir.paths]),
    ⟨fun path member other inside => ?_, fun path member => ?_, fun data member => ?_⟩,
    fun path member => plain path (by simp [Dir.paths, member]),
    fun path member => bounded path (by simp [Dir.paths, member]),
    fun data member => small data (by simp [Dir.contents, member])⟩
  · exact plain (name :: path) (by simp [Dir.paths, member]) other (by simp [inside])
  · have longer := bounded (name :: path) (by simp [Dir.paths, member])
    rwa [List.append_assoc, List.singleton_append]
  · exact small data (by simp [Dir.contents, member])

theorem Listable.file {behind : Dir} (listable : Listable names (.file name data behind)) :
    (Plain name ∧ 0 ∉ name) ∧ (joined (names ++ [name])).length < 2 ^ 31 ∧ data.length < 2 ^ 31 ∧
      Listable names behind := by
  obtain ⟨plain, bounded, small⟩ := listable
  exact ⟨plain [name] (by simp [Dir.paths]) name (by simp), bounded [name] (by simp [Dir.paths]),
    small data (by simp [Dir.contents]), fun path member => plain path (by simp [Dir.paths, member]),
    fun path member => bounded path (by simp [Dir.paths, member]),
    fun data member => small data (by simp [Dir.contents, member])⟩

theorem Loading.fits (loading : Loading v t names cur) (plain : Plain name ∧ 0 ∉ name) (room : Room (names ++ [name])) :
    Fits (names ++ [name]) := by
  refine ⟨fun other member => ?_, room.levels, room.short⟩
  rcases List.mem_append.mp member with old | last
  · exact loading.ordinary other old
  · exact List.mem_singleton.mp last ▸ ordinary_of_plain plain (room.named name (by simp))

theorem Ended.front {behind : Dir} {rest : List UInt8} {run : Except Fault (Vfs × List UInt8)}
    (ended : Ended v' t' names cur behind rest run) (root : v'.root = v.root) (leads : Leads t t' v.root)
    (rooms : ∀ path ∈ d.paths, path ∈ behind.paths ∨ Room (names ++ path))
    (sub : ∀ path ∈ behind.paths, path ∈ d.paths) : Ended v t names cur d rest run := by
  cases ended with
  | loaded room loading root' leads' =>
    rw [root] at root' leads'
    refine .loaded (fun path member => ?_) loading root' fun names q found => leads' names q (leads names q found)
    exact (rooms path member).elim (room path) id
  | overrun path member full => exact .overrun path (sub path member) full

/-- The loader stops at an entry for which there is no room. -/
theorem Loading.full (loading : Loading v t names cur) (plain : Plain name ∧ 0 ∉ name)
    (bounded : (joined (names ++ [name])).length < 2 ^ 31) (room : ¬ Room (names ++ [name])) {kind : UInt8}
    (entry : kind = chr 'd' ∨ kind = chr 'f') (fuel : Nat) (rest : List UInt8) :
    loadVfsImage (fuel + 1) v (kind :: (name ++ 0 :: rest)) (joined names) = .error .overrun := by
  have nul : ∀ c ∈ name, c ≠ 0 := fun c member same => plain.2 (same ▸ member)
  have stops := loading.no_room plain bounded room
  rcases entry with rfl | rfl
  · rw [loadVfsImage, if_neg (by decide), if_pos rfl]
    simp only [takeString_eq nul, bind, Except.bind]
    rcases stops with long | ⟨printed, full⟩
    · simp only [long]
    · simp only [printed, full]
  · rw [loadVfsImage, if_neg (by decide), if_neg (by decide), if_pos rfl]
    simp only [takeString_eq nul, bind, Except.bind]
    rcases stops with long | ⟨printed, full⟩
    · simp only [long]
    · simp only [printed, full]

/-- Loading the entries of one directory, whether there is room for them or not. -/
theorem load_dir {rest : List UInt8} {fuel : Nat} (loading : Loading v t names cur) (listable : Listable names d)
    (ends : rest = [] ∨ ∃ p, rest = chr 'p' :: p) (enough : (encodeDir d ++ rest).length < fuel) :
    Ended v t names cur d rest (loadVfsImage fuel v (encodeDir d ++ rest) (joined names)) := by
  obtain ⟨fuel, rfl⟩ : ∃ k, fuel = k + 1 := ⟨fuel - 1, by omega⟩
  induction d generalizing v t names cur rest fuel with
  | nil =>
    have run : loadVfsImage (fuel + 1) v (encodeDir .nil ++ rest) (joined names) = .ok (v, rest.tail) := by
      rcases ends with rfl | ⟨p, rfl⟩
      · rfl
      · rw [encodeDir, List.nil_append, loadVfsImage, if_pos rfl]
        rfl
    rw [run]
    exact .loaded (fun path member => by cases member) loading rfl (fun _ _ found => found)
  | dir name entries behind ihEntries ihBehind =>
    obtain ⟨plain, bounded, inside, later⟩ := listable.dir
    have nul : ∀ c ∈ name, c ≠ 0 := fun c member same => plain.2 (same ▸ member)
    rw [encodeDir_dir] at enough ⊢
    simp only [List.length_cons, List.length_append] at enough
    by_cases room : Room (names ++ [name])
    · have fits := loading.fits plain room
      obtain ⟨v1, r, t1, x, created, loading1, root1, leads1⟩ := loading.create fits
      rw [loadVfsImage, if_neg (by decide), if_pos rfl]
      simp only [takeString_eq nul, bind, Except.bind, fits.format, created]
      obtain ⟨k, rfl⟩ : ∃ k, fuel = k + 1 := ⟨fuel - 1, by omega⟩
      have first := ihEntries loading1 inside (.inr ⟨encodeDir behind ++ rest, rfl⟩) k
        (by simp only [List.length_append, List.length_cons]; omega)
      generalize loadVfsImage (k + 1) v1 (encodeDir entries ++ chr 'p' :: (encodeDir behind ++ rest))
        (joined (names ++ [name])) = run at first
      cases first with
      | @loaded v2 t2 roomEntries loading2 root2 leads2 =>
        rw [root1] at leads2
        have leads : Leads t t2 v.root := fun names q found => leads2 names q (leads1 names q found)
        have carried := loading.carry loading2.tree (root2.trans root1) leads loading2.named
        have second := ihBehind carried later ends k (by simp only [List.length_append]; omega)
        refine second.front (root2.trans root1) leads (fun path member => ?_) (by simp +contextual [Dir.paths])
        simp only [Dir.paths, List.mem_cons, List.mem_append, List.mem_map] at member
        rcases member with rfl | ⟨below, entry, rfl⟩ | other
        · exact .inr room
        · have deeper := roomEntries below entry
          rw [List.append_assoc, List.singleton_append] at deeper
          exact .inr deeper
        · exact .inl other
      | overrun path member full =>
        refine .overrun (name :: path) (by simp [Dir.paths, member]) ?_
        rwa [List.append_assoc, List.singleton_append] at full
    · rw [loading.full plain bounded room (.inl rfl)]
      exact .overrun [name] (by simp [Dir.paths]) room
  | file name data behind ih =>
    obtain ⟨plain, bounded, small, later⟩ := listable.file
    rw [encodeDir_file] at enough ⊢
    simp only [List.length_cons, List.length_append] at enough
    by_cases room : Room (names ++ [name])
    · have fits := loading.fits plain room
      obtain ⟨v1, r, t1, x, created, loading1, root1, leads1⟩ := loading.create fits
      obtain ⟨v2, s, v3, n, v4, opened, written, closed, tree4, root4, named4⟩ := loading1.fill fits small
      rw [turn_file fits created opened written closed small]
      obtain ⟨k, rfl⟩ : ∃ k, fuel = k + 1 := ⟨fuel - 1, by omega⟩
      have leads : Leads t (t1.relabel x (File.withContent fun _ => data)) v.root := by
        intro names q found
        rw [resolveFrom_relabel]
        exact leads1 names q found
      have carried := loading.carry tree4 (root4.trans root1) leads named4
      have second := ih carried later ends k (by simp only [List.length_append]; omega)
      refine second.front (root4.trans root1) leads (fun path member => ?_) (by simp +contextual [Dir.paths])
      rcases List.mem_cons.mp member with rfl | other
      · exact .inr room
      · exact .inl other
    · rw [loading.full plain bounded room (.inr rfl)]
      exact .overrun [name] (by simp [Dir.paths]) room

theorem loading_init (init : Vfs.vfsInit Vfs.empty = .ok v) : ∃ t, Loading v t [] 1 := by
  obtain ⟨a, b, c, stands, _⟩ := standsIn_init init
  refine ⟨_, stands, fun q file labelled => ?_⟩
  have known : file.name ∈ [[], Vfs.stdinName, Vfs.stdoutName, Vfs.stderrName] := by
    simp only [Vfs.initTree, Forest.label?, Option.or_none] at labelled
    grind
  have short : ∀ name ∈ [[], Vfs.stdinName, Vfs.stdoutName, Vfs.stderrName], name.length < filenameSize := by decide
  exact short _ known

theorem loadImage_fits_iff (listed : Listed d) (init : Vfs.vfsInit Vfs.empty = .ok v) :
    loadImage v (encodeDir d) ≠ .error .overrun ↔ ∀ path ∈ d.paths, Room path := by
  obtain ⟨t, loading⟩ := loading_init init
  have ended := load_dir loading listed.listable (.inl rfl) (Nat.lt_succ_self _)
  rw [List.append_nil, show joined [] = [] from rfl] at ended
  rw [loadImage]
  generalize loadVfsImage ((encodeDir d).length + 1) v (encodeDir d) [] = run at ended
  cases ended with
  | loaded room => exact iff_of_true (fun bad => by cases bad) room
  | overrun path member full => exact iff_of_false (fun bad => bad rfl) (fun all => full (all path member))

/-- In every reachable state a call on a path stays in its buffers exactly if the
path has at most 32 components and the name of the node it would make at most 31
bytes; and loading an image does exactly if this holds for its entries, and their
paths have at most 511 bytes. -/
theorem path_buffers_iff {steps : List (Vfs × Vfs.Call)} {last : Vfs} (init : Vfs.vfsInit Vfs.empty = .ok v)
    (run : Run Vfs.Step v steps last) (path : CString) (listed : Listed d) :
    (last.vfsExists path ≠ .error .overrun ↔ (components path).length ≤ subSize) ∧
    (last.vfsRemove path ≠ .error .overrun ↔ (components path).length ≤ subSize) ∧
    (last.vfsCreate path ≠ .error .overrun ↔ (components path).length ≤ subSize ∧ last.NameFits path) ∧
    (∀ perm, last.vfsOpen path perm ≠ .error .overrun ↔ ∀ write, Vfs.scanPerm false perm = some write →
      (components path).length ≤ subSize ∧ (write = true → last.NameFits path)) ∧
    (loadImage v (encodeDir d) ≠ .error .overrun ↔ ∀ path ∈ d.paths, Room path) := by
  have state := Vfs.tree_or_gone init run
  exact ⟨Vfs.vfsExists_fits_iff state, Vfs.vfsRemove_fits_iff state, Vfs.vfsCreate_fits_iff state,
    fun _ => Vfs.vfsOpen_fits_iff state, loadImage_fits_iff listed init⟩

theorem path_buffers_iff_sample : ∃ v, Vfs.vfsInit Vfs.empty = .ok v ∧ v.vfsExists [slash] ≠ .error .overrun ∧
    loadImage v (encodeDir sample) ≠ .error .overrun := by
  obtain ⟨v, _, _, _, init, _⟩ := Vfs.vfsInit_tree
  have listed : Listed sample := by
    refine ⟨fun path member name inside => ?_, by decide⟩
    have ordinary := sample_encodable.ordinary path member name inside
    exact ⟨ordinary.plainName, fun nul => (ordinary.plain 0 nul).2 rfl⟩
  obtain ⟨found, _, _, _, loads⟩ := path_buffers_iff init (.stop v) [slash] listed
  refine ⟨v, init, found.mpr (by decide), loads.mpr (fun path member => ?_)⟩
  exact (sample_encodable.ready.fits path member).room

/-- `vfsExists` on a path of 33 dots writes behind `sub`, and `vfsCreate` of a name of
32 bytes behind `filename`. -/
theorem buffers_overrun : ∃ v, Vfs.vfsInit Vfs.empty = .ok v ∧
    v.vfsExists (joined (List.replicate 33 [dot])) = .error .overrun ∧
    v.vfsCreate (List.replicate 32 97) = .error .overrun := by
  obtain ⟨v, a, b, c, init, tree, root⟩ := Vfs.vfsInit_tree
  refine ⟨v, init, ?_, ?_⟩
  · rw [Vfs.vfsExists, Vfs.getPath_long (by decide)]
    rfl
  · have short : (components (List.replicate 32 97)).length ≤ subSize := by decide
    by_contra safe
    obtain ⟨_, fits⟩ := (Vfs.vfsCreate_fits_iff (.inl ⟨_, tree⟩)).mp safe
    have missing : resolve (Vfs.initTree a b c) v.root (List.replicate 32 97) = none := by
      rw [root]
      rfl
    have named := ((tree.nameFits_iff short).mp fits).named missing (by rw [root]; rfl)
    revert named
    decide

end UmkaOs.Image
