import UmkaOs.Image.Model
import UmkaOs.Fmt.Snprintf
import UmkaOs.Vfs.Calls
import UmkaOs.Vfs.Resolve

namespace UmkaOs.Image

open Lib Fmt

variable {name path : CString} {names : List CString} {p : List UInt8} {d : Dir}

theorem takeString_eq (plain : ∀ c ∈ name, c ≠ 0) : takeString (name ++ 0 :: p) = .ok (name, p) := by
  induction name with
  | nil => rfl
  | cons c name ih =>
    rw [List.cons_append, takeString, if_neg (plain c (by simp)), ih (fun d member => plain d (by simp [member]))]
    rfl

theorem takeSize_eq {size : Nat} (small : size < 2 ^ 32) : takeSize (sizeBytes size ++ p) = .ok (size, p) := by
  simp only [sizeBytes, List.cons_append, List.nil_append, takeSize, UInt8.toNat_ofNat']
  congr 2
  omega

theorem formatPath_run (small : path.length + 1 + name.length < 2 ^ 31) :
    formatPath path name =
      if path.length + 1 + name.length < tempSize then .ok (path ++ slash :: name) else .error .overrun := by
  obtain ⟨second, out2, text2⟩ := @emitted_str [] [] [] 3 name (by omega) rfl
  have between : emitted 5 (slash :: [chr '%', chr 's']) [.str name] = .ok ([slash] :: (second ++ [])) := by
    rw [emitted, if_neg (by decide), out2]
    rfl
  obtain ⟨first, out1, text1⟩ := emitted_str (by omega : path.length ≤ 2 ^ 31) between
  have text : (first ++ [slash] :: (second ++ [])).flatten = path ++ slash :: name := by simp [text1, text2]
  generalize first ++ [slash] :: (second ++ []) = writes at out1 text
  have length : writes.flatten.length = path.length + 1 + name.length := by
    simp only [text, List.length_append, List.length_cons]
    omega
  have run := @sprintf_emitted pathFormat [.str path, .str name] writes out1 (fun _ => 0) (by omega)
  have count : signed32 writes.flatten.length = writes.flatten.length := by
    rw [signed32, wrap32, if_pos (by omega)]
    omega
  have fits : (writes.flatten.length : Int) < tempSize ↔ path.length + 1 + name.length < tempSize := by omega
  rw [count] at run
  simp only [formatPath, bind, Except.bind]
  rw [run]
  dsimp only
  by_cases short : path.length + 1 + name.length < tempSize
  · rw [if_pos (fits.mpr short), if_pos short, Int.toNat_natCast, bytes_printed, text]
    rfl
  · rw [if_neg (fun bad => short (fits.mp bad)), if_neg short]
    rfl

theorem formatPath_eq (short : path.length + 1 + name.length < tempSize) :
    formatPath path name = .ok (path ++ slash :: name) := by
  have small : path.length + 1 + name.length < 2 ^ 31 := Nat.lt_trans short (by decide)
  rw [formatPath_run small, if_pos short]

theorem joined_snoc : joined (names ++ [name]) = joined names ++ slash :: name := by
  simp [joined]

theorem componentsFrom_name {rest current : CString} (plain : ∀ c ∈ name, c ≠ slash)
    (ends : rest = [] ∨ ∃ more, rest = slash :: more) (some : current ++ name ≠ []) :
    componentsFrom current (name ++ rest) = (current ++ name) :: components rest := by
  induction name generalizing current with
  | nil =>
    rw [List.append_nil] at some ⊢
    rcases ends with rfl | ⟨more, rfl⟩
    · simp [componentsFrom, components, some]
    · simp [componentsFrom, components, some]
  | cons c name ih =>
    have further := @ih (current ++ [c]) (fun d member => plain d (by simp [member])) (by simp)
    rw [List.cons_append, componentsFrom, if_neg (plain c (by simp)), further]
    simp

/-- The loader's paths are split into the names they were made of. -/
theorem components_joined (ordinary : ∀ name ∈ names, Ordinary name) : components (joined names) = names := by
  induction names with
  | nil => rfl
  | cons name names ih =>
    have this := ordinary name (by simp)
    have rest := ih (fun other member => ordinary other (by simp [member]))
    have ends : joined names = [] ∨ ∃ more, joined names = slash :: more := by
      cases names with
      | nil => exact .inl rfl
      | cons other names => exact .inr ⟨_, rfl⟩
    have split := @componentsFrom_name name (joined names) [] (fun c member => (this.plain c member).1) ends
      (by simpa using this.nonempty)
    rw [rest] at split
    have start : components (joined (name :: names)) = componentsFrom [] (name ++ joined names) := by
      rw [components, joined, List.flatMap_cons, List.cons_append, componentsFrom, if_pos rfl, if_pos rfl]
      rfl
    rw [start, split, List.nil_append]

theorem basenameFrom_plain {base : CString} (plain : ∀ c ∈ name, c ≠ slash) : Vfs.basenameFrom base name = base := by
  induction name with
  | nil => rfl
  | cons c name ih =>
    rw [Vfs.basenameFrom, if_neg (plain c (by simp)), ih (fun d member => plain d (by simp [member]))]

theorem vfsBasename_snoc (front : CString) (plain : ∀ c ∈ name, c ≠ slash) :
    Vfs.vfsBasename (front ++ slash :: name) = name := by
  have any : ∀ base, Vfs.basenameFrom base (front ++ slash :: name) = name := by
    induction front with
    | nil =>
      intro base
      rw [List.nil_append, Vfs.basenameFrom, if_pos rfl, basenameFrom_plain plain]
    | cons c front ih =>
      intro base
      rw [List.cons_append, Vfs.basenameFrom]
      split <;> exact ih _
  exact any _

variable {t : FileTree} {q cur fresh : Ptr} {f g : FileTree} {v v' : Vfs} {data : List UInt8}

theorem stepName_plain (ordinary : Ordinary name) :
    stepName t q name = (t.kids q).firstWith (fun file => file.name == name) := by
  rw [stepName, if_neg ordinary.notDots, if_neg ordinary.notDot]

theorem attached_apart (distinct : t.ids.Nodup) (member : cur ∈ t.ids) (whole : (t.attach cur g).ids.Nodup) :
    ∀ z ∈ t.ids, z ∉ g.ids := by
  have both := (Forest.ids_attach_perm distinct member).nodup_iff.mp whole
  exact fun z old new => (List.nodup_append.mp both).2.2 z old z new rfl

/-- The entries of `d` are new below `cur`. -/
def New (t : FileTree) (cur : Ptr) (d : Dir) : Prop :=
  ∀ name ∈ d.names, (t.kids cur).firstWith (fun file => file.name == name) = none

/-- The loader stands in the directory `cur`, whose path has these names. -/
structure StandsIn (v : Vfs) (t : FileTree) (names : List CString) (cur : Ptr) : Prop where
  tree : Vfs.Tree v t
  ordinary : ∀ name ∈ names, Ordinary name
  found : resolveFrom t v.root names = some cur

theorem StandsIn.member (stands : StandsIn v t names cur) : cur ∈ t.ids :=
  Vfs.resolveFrom_mem stands.tree.root_mem stands.found

/-- The loader still stands there when the directory has got more entries. -/
theorem StandsIn.grow (stands : StandsIn v t names cur) (tree : Vfs.Tree v' (t.attach cur g))
    (root : v'.root = v.root) :
    StandsIn v' (t.attach cur g) names cur where
  tree := tree
  ordinary := stands.ordinary
  found := by
    have apart := attached_apart stands.tree.distinct stands.member tree.distinct
    rw [root]
    exact resolveFrom_attach stands.tree.distinct apart stands.tree.root_mem stands.found

/-- And it can step into a new entry. -/
theorem StandsIn.enter (stands : StandsIn v t names cur) (ordinary : Ordinary name)
    (new : (t.kids cur).firstWith (fun file => file.name == name) = none) {kids : FileTree}
    (tree : Vfs.Tree v' (t.attach cur (.node fresh ⟨name, data⟩ kids .nil))) (root : v'.root = v.root) :
    StandsIn v' (t.attach cur (.node fresh ⟨name, data⟩ kids .nil)) (names ++ [name]) fresh where
  tree := tree
  ordinary other member := by
    rcases List.mem_append.mp member with old | last
    · exact stands.ordinary other old
    · exact List.mem_singleton.mp last ▸ ordinary
  found := by
    have apart := attached_apart stands.tree.distinct stands.member tree.distinct
    rw [resolveFrom_append, (stands.grow tree root).found, Option.bind_some, resolveFrom, stepName_plain ordinary,
      Forest.kids_attach stands.tree.distinct apart stands.member, if_pos rfl, Forest.firstWith_append, new]
    simp [Forest.firstWith, resolveFrom]

theorem New.grow (new : New t cur d) (stands : StandsIn v t names cur) {kids : FileTree}
    (tree : Vfs.Tree v' (t.attach cur (.node fresh ⟨name, data⟩ kids .nil))) (other : name ∉ d.names) :
    New (t.attach cur (.node fresh ⟨name, data⟩ kids .nil)) cur d := by
  intro wanted member
  have apart := attached_apart stands.tree.distinct stands.member tree.distinct
  have different : name ≠ wanted := fun same => other (same ▸ member)
  rw [Forest.kids_attach stands.tree.distinct apart stands.member, if_pos rfl, Forest.firstWith_append,
    new wanted member]
  simp [Forest.firstWith, different]

/-- What the loader's arrays can take. -/
structure Fits (names : List CString) : Prop where
  ordinary : ∀ name ∈ names, Ordinary name
  levels : names.length ≤ subSize
  short : (joined names).length < tempSize

theorem Fits.pathOk (fits : Fits names) : PathOk (joined names) := by
  rw [PathOk, components_joined fits.ordinary]
  exact ⟨fits.levels, fun name member => (fits.ordinary name member).short⟩

theorem Fits.format (fits : Fits (names ++ [name])) :
    formatPath (joined names) name = .ok (joined (names ++ [name])) := by
  have short := fits.short
  rw [joined_snoc, List.length_append, List.length_cons] at short
  rw [formatPath_eq (by omega), joined_snoc]

theorem StandsIn.create (stands : StandsIn v t names cur) (fits : Fits (names ++ [name]))
    (new : (t.kids cur).firstWith (fun file => file.name == name) = none) :
    ∃ v' r fresh, v.vfsCreate (joined (names ++ [name])) = .ok (v', r) ∧ fresh ∉ t.ids ∧
      Vfs.Tree v' (t.attach cur (.node fresh ⟨name, []⟩ .nil .nil)) ∧ v'.root = v.root := by
  have ordinary := fits.ordinary name (by simp)
  obtain ⟨w, run, tree, kept⟩ := stands.tree.vfsCreate_ (Vfs.pathFits _ fits.pathOk)
  have missing : resolve t v.root (joined (names ++ [name])) = none := by
    rw [resolve, components_joined fits.ordinary, resolveFrom_append, stands.found, Option.bind_some, resolveFrom,
      stepName_plain ordinary, new, Option.bind_none]
  have base : resolveBase t v.root (joined (names ++ [name])) = some cur := by
    rw [resolveBase, components_joined fits.ordinary, List.dropLast_concat, stands.found]
  have called : Vfs.vfsBasename (joined (names ++ [name])) = name := by
    rw [joined_snoc, vfsBasename_snoc _ (fun c member => (ordinary.plain c member).1)]
  have late : v.next + 2 * (components (joined (names ++ [name]))).length ∉ t.ids :=
    fun old => Nat.not_le.mpr (stands.tree.lt_next old) (Nat.le_add_right _ _)
  generalize v.next + 2 * (components (joined (names ++ [name]))).length = fresh at run tree late
  have made : t.create v.root fresh (joined (names ++ [name])) =
      (t.attach cur (.node fresh ⟨name, []⟩ .nil .nil), some fresh) := by
    simp only [FileTree.create, missing, base, called, Forest.addLeaf_eq_attach]
  rw [made] at run tree
  refine ⟨w, if fresh ≠ 0 then 0 else -1, fresh, ?_, late, tree, kept.root⟩
  simp only [Vfs.vfsCreate, run, bind, Except.bind, pure, Except.pure, Option.getD_some]

theorem writeBinary_mode : Vfs.scanPerm false writeBinary = some true := by decide

/-- Filling a file: the calls between `vfsCreate` and the next turn. -/
theorem StandsIn.fill (stands : StandsIn v t names q) (fits : Fits names) (small : data.length < 2 ^ 31) :
    ∃ v1 s v2 n v', v.vfsOpen (joined names) writeBinary = .ok (v1, s) ∧ v1.vfsWrite s data = .ok (v2, n) ∧
      v2.vfsClose s = .ok v' ∧ Vfs.Tree v' (t.relabel q (File.withContent fun _ => data)) ∧ v'.root = v.root := by
  obtain ⟨v1, s, opened, tree1, kept, made⟩ := stands.tree.vfsOpen writeBinary_mode fits.pathOk.1
    (fun _ => Vfs.pathFits _ fits.pathOk)
  have exists_ : resolve t v.root (joined names) = some q := by
    rw [resolve, components_joined fits.ordinary, stands.found]
  simp only [FileTree.openFile, FileTree.create, exists_, if_true] at tree1 made
  obtain ⟨stream, _⟩ := made
  obtain ⟨n, _, _, label, _⟩ := stands.tree.lookup stands.member
  have labelled : (t.relabel q (File.withContent fun _ => [])).label? q = some ⟨n.filename, []⟩ := by
    rw [Forest.label?_relabel, label]
    rfl
  obtain ⟨v2, written, tree2, alone⟩ := @Vfs.Tree.vfsWrite _ _ _ _ data tree1 stream _ labelled (by simp; omega)
  obtain ⟨stream2, found2, _⟩ := alone.own
  obtain ⟨v', closed, tree', root', _⟩ := tree2.vfsClose found2
  have both : File.withContent (· ++ data) ∘ File.withContent (fun _ => []) = File.withContent fun _ => data := rfl
  rw [Forest.relabel_relabel, both] at tree'
  exact ⟨v1, s, v2, _, v', opened, written, closed, tree', root'.trans (alone.root.trans kept.root)⟩

theorem turn_file {v1 v2 v3 v4 : Vfs} {r : Int} {s : Ptr} {n fuel : Nat} (fits : Fits (names ++ [name]))
    (created : v.vfsCreate (joined (names ++ [name])) = .ok (v1, r))
    (opened : v1.vfsOpen (joined (names ++ [name])) writeBinary = .ok (v2, s))
    (written : v2.vfsWrite s data = .ok (v3, n)) (closed : v3.vfsClose s = .ok v4) (small : data.length < 2 ^ 31) :
    loadVfsImage (fuel + 1) v (chr 'f' :: (name ++ 0 :: (sizeBytes data.length ++ (data ++ p)))) (joined names) =
      loadVfsImage fuel v4 p (joined names) := by
  have ordinary := fits.ordinary name (by simp)
  have whole : ¬ (data ++ p).length < data.length := by
    rw [List.length_append]
    omega
  rw [loadVfsImage, if_neg (by decide), if_neg (by decide), if_pos rfl]
  simp only [takeString_eq (fun c member => (ordinary.plain c member).2), fits.format, created, bind, Except.bind]
  rw [takeSize_eq (by omega)]
  simp only [opened, if_neg whole, List.take_left, List.drop_left, written, closed]

/-- What the loader needs to know of the entries of a directory whose path has
these names. -/
structure Ready (names : List CString) (d : Dir) : Prop where
  unique : d.Unique
  fits : ∀ path ∈ d.paths, Fits (names ++ path)
  small : ∀ data ∈ d.contents, data.length < 2 ^ 31

theorem Encodable.ready (encodable : Encodable d) : Ready [] d where
  unique := encodable.unique
  fits path member := ⟨encodable.ordinary path member, encodable.levels path member, encodable.short path member⟩
  small := encodable.small

theorem Ready.dir {entries rest : Dir} (ready : Ready names (.dir name entries rest)) :
    Fits (names ++ [name]) ∧ name ∉ rest.names ∧ Ready (names ++ [name]) entries ∧ Ready names rest := by
  obtain ⟨⟨other, unique, uniqueRest⟩, fits, small⟩ := ready
  refine ⟨fits [name] (by simp [Dir.paths]), other, ⟨unique, fun path member => ?_, fun data member => ?_⟩,
    ⟨uniqueRest, fun path member => fits path (by simp [Dir.paths, member]),
      fun data member => small data (by simp [Dir.contents, member])⟩⟩
  · have longer := fits (name :: path) (by simp [Dir.paths, member])
    rwa [List.append_assoc, List.singleton_append]
  · exact small data (by simp [Dir.contents, member])

theorem Ready.file {rest : Dir} (ready : Ready names (.file name data rest)) :
    Fits (names ++ [name]) ∧ name ∉ rest.names ∧ data.length < 2 ^ 31 ∧ Ready names rest := by
  obtain ⟨⟨other, unique⟩, fits, small⟩ := ready
  exact ⟨fits [name] (by simp [Dir.paths]), other, small data (by simp [Dir.contents]),
    unique, fun path member => fits path (by simp [Dir.paths, member]),
    fun data member => small data (by simp [Dir.contents, member])⟩

theorem encodeDir_dir {entries behind : Dir} (rest : List UInt8) : encodeDir (.dir name entries behind) ++ rest =
    chr 'd' :: (name ++ 0 :: (encodeDir entries ++ chr 'p' :: (encodeDir behind ++ rest))) := by
  simp [encodeDir]

theorem encodeDir_file {behind : Dir} (rest : List UInt8) : encodeDir (.file name data behind) ++ rest =
    chr 'f' :: (name ++ 0 :: (sizeBytes data.length ++ (data ++ (encodeDir behind ++ rest)))) := by
  simp [encodeDir]

/-- Loading the entries of one directory, up to its `p` or the end of the image. -/
theorem loadVfsImage_dir {rest : List UInt8} {fuel : Nat} (stands : StandsIn v t names cur) (ready : Ready names d)
    (new : New t cur d) (ends : rest = [] ∨ ∃ p, rest = chr 'p' :: p) (enough : (encodeDir d ++ rest).length < fuel) :
    ∃ v' f, loadVfsImage fuel v (encodeDir d ++ rest) (joined names) = .ok (v', rest.tail) ∧
      Vfs.Tree v' (t.attach cur f) ∧ v'.root = v.root ∧ Holds f d := by
  obtain ⟨fuel, rfl⟩ : ∃ k, fuel = k + 1 := ⟨fuel - 1, by omega⟩
  induction d generalizing v t names cur rest fuel with
  | nil =>
    refine ⟨v, .nil, ?_, by rw [Forest.attach_nil]; exact stands.tree, rfl, trivial⟩
    rcases ends with rfl | ⟨p, rfl⟩
    · rfl
    · rw [encodeDir, List.nil_append, loadVfsImage, if_pos rfl]
      rfl
  | dir name entries behind ihEntries ihBehind =>
    obtain ⟨fits, other, readyEntries, readyBehind⟩ := ready.dir
    have ordinary := fits.ordinary name (by simp)
    have newHere := new name (by simp [Dir.names])
    obtain ⟨v1, r, fresh, created, late, tree1, root1⟩ := stands.create fits newHere
    have inside := stands.enter ordinary newHere tree1 root1
    rw [encodeDir_dir] at enough ⊢
    simp only [List.length_cons, List.length_append] at enough
    have newEntries : New (t.attach cur (.node fresh ⟨name, []⟩ .nil .nil)) fresh entries := by
      intro wanted _
      rw [Forest.kids_attach_leaf late]
      rfl
    obtain ⟨k, rfl⟩ : ∃ k, fuel = k + 1 := ⟨fuel - 1, by omega⟩
    obtain ⟨v2, f1, loaded1, tree2, root2, holds1⟩ := ihEntries inside readyEntries newEntries
      (.inr ⟨encodeDir behind ++ rest, rfl⟩) k (by simp only [List.length_append, List.length_cons]; omega)
    rw [Forest.attach_leaf late] at tree2
    have root := root2.trans root1
    have newBehind : New t cur behind := fun wanted member => new wanted (by simp [Dir.names, member])
    obtain ⟨v3, f2, loaded2, tree3, root3, holds2⟩ := ihBehind (stands.grow tree2 root) readyBehind
      (newBehind.grow stands tree2 other) ends k (by simp only [List.length_append]; omega)
    rw [Forest.attach_attach] at tree3
    refine ⟨v3, .node fresh ⟨name, []⟩ f1 f2, ?_, tree3, root3.trans root, rfl, holds1, holds2⟩
    rw [loadVfsImage, if_neg (by decide), if_pos rfl]
    simp only [takeString_eq (fun c member => (ordinary.plain c member).2), fits.format, created, bind, Except.bind]
    rw [loaded1]
    exact loaded2
  | file name data behind ih =>
    obtain ⟨fits, other, small, readyBehind⟩ := ready.file
    have ordinary := fits.ordinary name (by simp)
    have newHere := new name (by simp [Dir.names])
    obtain ⟨v1, r, fresh, created, late, tree1, root1⟩ := stands.create fits newHere
    have inside := stands.enter ordinary newHere tree1 root1
    obtain ⟨v2, s, v3, n, v4, opened, written, closed, tree4, root4⟩ := @StandsIn.fill _ _ _ _ data inside fits small
    rw [Forest.relabel_attach_leaf late] at tree4
    rw [encodeDir_file] at enough ⊢
    simp only [List.length_cons, List.length_append] at enough
    obtain ⟨k, rfl⟩ : ∃ k, fuel = k + 1 := ⟨fuel - 1, by omega⟩
    have root := root4.trans root1
    have newBehind : New t cur behind := fun wanted member => new wanted (by simp [Dir.names, member])
    obtain ⟨v5, f, loaded, tree5, root5, holds⟩ := ih (stands.grow tree4 root) readyBehind
      (newBehind.grow stands tree4 other) ends k (by simp only [List.length_append]; omega)
    rw [Forest.attach_attach] at tree5
    refine ⟨v5, .node fresh ⟨name, data⟩ .nil f, ?_, tree5, root5.trans root, rfl, rfl, holds⟩
    rw [turn_file fits created opened written closed small]
    exact loaded

/-- The file system holds the three `$` files and behind them the directory tree. -/
def Loaded (v : Vfs) (d : Dir) : Prop :=
  ∃ stdin stdout stderr f, Vfs.Tree v (.node v.root ⟨[], []⟩ (.node stdin ⟨Vfs.stdinName, []⟩ .nil
    (.node stdout ⟨Vfs.stdoutName, []⟩ .nil (.node stderr ⟨Vfs.stderrName, []⟩ .nil f))) .nil) ∧ Holds f d

/-- The names that `vfsInit` has taken. -/
def reserved : List CString := [Vfs.stdinName, Vfs.stdoutName, Vfs.stderrName]

/-- `vfsInit` leaves the loader in an empty directory, but for the `$` files. -/
theorem standsIn_init (init : Vfs.vfsInit Vfs.empty = .ok v) : ∃ stdin stdout stderr,
    StandsIn v (Vfs.initTree stdin stdout stderr) [] 1 ∧ v.root = 1 := by
  obtain ⟨w, a, b, c, run, tree, root⟩ := Vfs.vfsInit_tree
  cases run.symm.trans init
  exact ⟨a, b, c, ⟨tree, by simp, by rw [root]; rfl⟩, root⟩

/-- Loading what the encoder wrote gives back the directory tree. -/
theorem image_round_trip (encodable : Encodable d) (free : ∀ name ∈ d.names, name ∉ reserved)
    (init : Vfs.vfsInit Vfs.empty = .ok v) : ∃ v', loadImage v (encodeDir d) = .ok (v', []) ∧ Loaded v' d := by
  obtain ⟨stdin, stdout, stderr, stands, root⟩ := standsIn_init init
  have new : New (Vfs.initTree stdin stdout stderr) 1 d := by
    intro name member
    have different := free name member
    simp only [reserved, List.mem_cons, List.not_mem_nil, or_false, not_or] at different
    simp [Vfs.initTree, Forest.kids, Forest.firstWith, Ne.symm different.1, Ne.symm different.2.1,
      Ne.symm different.2.2]
  obtain ⟨v', f, loaded, tree, root', holds⟩ := loadVfsImage_dir stands encodable.ready new (.inl rfl)
    (Nat.lt_succ_self _)
  rw [List.append_nil] at loaded
  refine ⟨v', loaded, stdin, stdout, stderr, f, ?_, holds⟩
  rw [root'.trans root]
  exact tree

/-- A directory with a file of tag bytes, and an empty file behind it. -/
def sample : Dir := .dir [chr 'r'] (.file [chr 'd'] [chr 'p', 0, chr 'f'] .nil) (.file [chr 'f'] [] .nil)

theorem sample_encodable : Encodable sample where
  unique := by simp [sample, Dir.Unique, Dir.names]; decide
  ordinary path member name inside := by
    have all : ∀ name ∈ sample.paths.flatten, name = [chr 'r'] ∨ name = [chr 'd'] ∨ name = [chr 'f'] := by decide
    rcases all name (List.mem_flatten.mpr ⟨path, member, inside⟩) with rfl | rfl | rfl <;>
      exact ⟨by decide, by decide, by decide +kernel, by decide, by decide⟩
  levels := by decide
  short := by decide
  small := by decide

theorem image_round_trip_sample : ∃ v, Vfs.vfsInit Vfs.empty = .ok v ∧
    ∃ v', loadImage v (encodeDir sample) = .ok (v', []) ∧ Loaded v' sample := by
  obtain ⟨v, _, _, _, init, _⟩ := Vfs.vfsInit_tree
  exact ⟨v, init, image_round_trip sample_encodable (by decide) init⟩

/-- Creating an entry that exists changes nothing. -/
theorem StandsIn.recreate (stands : StandsIn v t names q) (fits : Fits names) :
    ∃ v' r, v.vfsCreate (joined names) = .ok (v', r) ∧ StandsIn v' t names q := by
  obtain ⟨w, run, tree, kept⟩ := stands.tree.vfsCreate_ (Vfs.pathFits _ fits.pathOk)
  have exists_ : resolve t v.root (joined names) = some q := by
    rw [resolve, components_joined fits.ordinary, stands.found]
  simp only [FileTree.create, exists_] at run tree
  refine ⟨w, if q ≠ 0 then 0 else -1, ?_, tree, stands.ordinary, by rw [kept.root]; exact stands.found⟩
  simp only [Vfs.vfsCreate, run, bind, Except.bind, pure, Except.pure, Option.getD_some]

/-- Two trees of one file system have equally many nodes. -/
theorem length_ids_unique {t' : FileTree} (tree : Vfs.Tree v t) (tree' : Vfs.Tree v t') :
    t.ids.length = t'.ids.length := by
  have same : ∀ x, x ∈ t.ids ↔ x ∈ t'.ids := fun x => (tree.exact x).symm.trans (tree'.exact x)
  exact ((List.perm_ext_iff_of_nodup tree.distinct tree'.distinct).mpr same).length_eq

/-- `a`, and a file that is called like the standard input. -/
def clash : Dir := .file [chr 'a'] [] (.file Vfs.stdinName [] .nil)

theorem clash_encodable : Encodable clash where
  unique := by simp [clash, Dir.Unique, Dir.names]; decide
  ordinary path member name inside := by
    have all : ∀ name ∈ clash.paths.flatten, name = [chr 'a'] ∨ name = Vfs.stdinName := by decide
    rcases all name (List.mem_flatten.mpr ⟨path, member, inside⟩) with rfl | rfl <;>
      exact ⟨by decide, by decide, by decide +kernel, by decide, by decide⟩
  levels := by decide
  short := by decide
  small := by decide

theorem reserved_entry_lost : Encodable clash ∧ ∃ v v', Vfs.vfsInit Vfs.empty = .ok v ∧
    loadImage v (encodeDir clash) = .ok (v', []) ∧ ¬ Loaded v' clash := by
  refine ⟨clash_encodable, ?_⟩
  obtain ⟨v, _, _, _, init, _⟩ := Vfs.vfsInit_tree
  obtain ⟨stdin, stdout, stderr, stands, root⟩ := standsIn_init init
  obtain ⟨fits, _, _, ready⟩ := clash_encodable.ready.file
  obtain ⟨fits', _⟩ := ready.file
  -- the first turn makes `a`
  have newA : ((Vfs.initTree stdin stdout stderr).kids 1).firstWith (fun file => file.name == [chr 'a']) = none := by
    simp [Vfs.initTree, Forest.kids, Forest.firstWith, Vfs.stdinName, Vfs.stdoutName, Vfs.stderrName]
  obtain ⟨v1, r1, fresh, created1, late, tree1, root1⟩ := stands.create fits newA
  obtain ⟨v2, s2, v3, n3, v4, opened1, written1, closed1, tree4, root4⟩ :=
    @StandsIn.fill _ _ _ _ [] (stands.enter (fits.ordinary _ (by simp)) newA tree1 root1) fits (by decide)
  rw [Forest.relabel_attach_leaf late,
    show (⟨[chr 'a'], []⟩ : File).withContent (fun _ => []) = ⟨[chr 'a'], []⟩ from rfl]
    at tree4
  -- the second finds the node of `vfsInit`
  have apart := attached_apart stands.tree.distinct stands.member tree4.distinct
  have again : StandsIn v4 ((Vfs.initTree stdin stdout stderr).attach 1 (.node fresh ⟨[chr 'a'], []⟩ .nil .nil))
      ([] ++ [Vfs.stdinName]) stdin := by
    refine ⟨tree4, by simpa using fits'.ordinary, ?_⟩
    rw [resolveFrom_append, (stands.grow tree4 (root4.trans root1)).found, Option.bind_some, resolveFrom,
      stepName_plain (fits'.ordinary _ (by simp)), Forest.kids_attach stands.tree.distinct apart stands.member,
      if_pos rfl, Forest.firstWith_append]
    simp [Vfs.initTree, Forest.kids, Forest.firstWith, resolveFrom]
  obtain ⟨v5, r5, created2, stands5⟩ := again.recreate fits'
  obtain ⟨v6, s6, v7, n7, v8, opened2, written2, closed2, tree8, _⟩ :=
    @StandsIn.fill _ _ _ _ [] stands5 fits' (by decide)
  refine ⟨v, v8, init, ?_, ?_⟩
  · have first := @turn_file [chr 'a'] [] (encodeDir (.file Vfs.stdinName [] .nil)) v [] v1 v2 v3 v4 r1 s2 n3 19 fits
      created1 opened1 written1 closed1 (by decide)
    have second := @turn_file Vfs.stdinName [] [] v4 [] v5 v6 v7 v8 r5 s6 n7 18 fits' created2 opened2 written2 closed2
      (by decide)
    exact first.trans second
  · rintro ⟨a, b, c, f, tree, holds⟩
    have actual := (Forest.ids_attach_perm (g := .node fresh ⟨[chr 'a'], []⟩ .nil .nil) stands.tree.distinct
      stands.member).length_eq
    have claimed := length_ids_unique tree tree8
    rw [Forest.ids_relabel, actual] at claimed
    have entries : f.ids.length = 2 := by
      cases f with
      | nil => cases holds
      | node x file kids behind =>
        obtain ⟨_, rfl, holds⟩ := holds
        cases behind with
        | nil => cases holds
        | node y file kids behind =>
          obtain ⟨_, rfl, holds⟩ := holds
          cases behind with
          | nil => rfl
          | node z file kids behind => cases holds
    simp [Vfs.initTree, Forest.ids, entries] at claimed

end UmkaOs.Image
