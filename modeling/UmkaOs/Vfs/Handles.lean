import UmkaOs.Vfs.Chunks
import UmkaOs.Vfs.Names

namespace UmkaOs.Vfs

open Lib

/-- A C pointer: an allocation and an offset into it. -/
structure Address where
  base : Ptr
  offset : Nat
  deriving DecidableEq

/-- Where `filename` stands in a `Node`, behind `datasize` and `data`. -/
def filenameOffset : Nat := 8

/-- The assertion stops at `NULL`; the name itself is not read. -/
def vfsFSOName (fso : Ptr) : Except Fault Address :=
  if fso = 0 then .error .panic else .ok ⟨fso, filenameOffset⟩

/-- Of the mode, only an `a` matters. -/
def vfsFSOOpen (v : Vfs) (fso : Ptr) (perm : CString) : Except Fault (Vfs × Address) :=
  if fso = 0 then .error .panic
  else if 97 ∈ perm then .ok (v, ⟨0, 0⟩)
  else .ok ((v.newStream ⟨fso, 0, 0, 0, 0⟩).1, ⟨v.next, 0⟩)

/-- `api__vfsFSOOpen`, which `open` of `vfs.um` calls. -/
def apiVfsFSOOpen (v : Vfs) (fso : Ptr) : Except Fault (Vfs × Address) := do
  let name ← vfsFSOName fso
  return (v, name)

/-- A pointer used as a `Stream *`: one into the middle of another object is of the
wrong type. -/
def asStream (a : Address) : Except Fault Ptr := if a.offset = 0 then .ok a.base else .error .undefined

/-- What a program does with a stream it has opened for reading. -/
inductive Access where
  | read (size : Nat)
  | seek (pos whence : Nat)
  deriving DecidableEq

def Access.run (v : Vfs) (a : Address) : Access → Except Fault (Vfs × List UInt8)
  | read size => do
    let s ← asStream a
    v.vfsRead s size
  | seek pos whence => do
    let s ← asStream a
    let v ← v.vfsSeek s pos whence
    return (v, [])

/-- The bytes that one access after the other returns. -/
def accesses (v : Vfs) (a : Address) : List Access → Except Fault (List (List UInt8))
  | [] => .ok []
  | access :: rest => do
    let r ← access.run v a
    let later ← r.1.accesses a rest
    return r.2 :: later

/-- Where a seek leads from position `i` of a file of `size` bytes. -/
def seekTo (size i pos whence : Nat) : Nat :=
  if whence = 0 then wrap32 pos
  else if whence = 1 then wrap32 (i + pos)
  else if whence = 2 then wrap32 (size + pos)
  else i

/-- From position `i`, no seek leaves the file. -/
def StaysInside (size i : Nat) : List Access → Prop
  | [] => True
  | .read count :: rest => StaysInside size (min (i + count) size) rest
  | .seek pos whence :: rest => seekTo size i pos whence ≤ size ∧ StaysInside size (seekTo size i pos whence) rest

/-- Both routes yield a stream, and both streams return the same bytes for all
accesses that stay inside the file. -/
def RoutesAgree (route : Vfs → Ptr → Except Fault (Vfs × Address)) (v : Vfs) (x : Ptr) (path : CString) : Prop :=
  ∃ n v1 a v2 s, v.nodes x = some n ∧ route v x = .ok (v1, a) ∧ v.vfsOpen path [114] = .ok (v2, s) ∧
    ∀ list, StaysInside n.datasize 0 list →
      ∃ bytes, v1.accesses a list = .ok bytes ∧ v2.accesses ⟨s, 0⟩ list = .ok bytes

variable {v v' : Vfs} {t : FileTree} {path : CString} {s x : Ptr} {st : Stream} {file : File}

/-- The bytes of a file that the accesses return. -/
def outputs (content : List UInt8) (i : Nat) : List Access → List (List UInt8)
  | [] => []
  | .read count :: rest =>
    (content.drop i).take count :: outputs content (min (i + count) content.length) rest
  | .seek pos whence :: rest => [] :: outputs content (seekTo content.length i pos whence) rest

theorem Tree.vfsSeek (tree : Tree v t) (opened : v.streams s = some st) (labelled : t.label? st.node = some file)
    (pos whence : Nat) :
    v.vfsSeek s pos whence = .ok (v.setStream s { st with i := seekTo file.content.length st.i pos whence }) := by
  obtain ⟨n, found, _, label, _⟩ := tree.lookup (Forest.mem_of_label? labelled)
  cases labelled.symm.trans label
  have length := tree.length_content found
  simp only [Vfs.vfsSeek, stream, opened, node, found, seekTo, length, bind, Except.bind, pure, Except.pure]
  by_cases set : whence = 0
  · simp only [set, if_true]
  · by_cases cur : whence = 1
    · simp [cur]
    · by_cases ends : whence = 2
      · simp [ends]
      · simp [set, cur, ends, setStream_self opened]

theorem Tree.accesses (tree : Tree v t) (opened : v.streams s = some st) (labelled : t.label? st.node = some file)
    (small : file.content.length < 2 ^ 32) (inside : st.i ≤ file.content.length) {list : List Access}
    (stays : StaysInside file.content.length st.i list) :
    v.accesses ⟨s, 0⟩ list = .ok (outputs file.content st.i list) := by
  induction list generalizing v st with
  | nil => rfl
  | cons access rest ih =>
    have openedAt : ∀ i, (v.setStream s { st with i := i }).streams s = some { st with i := i } :=
      fun i => Function.update_self ..
    cases access with
    | read count =>
      have first := tree.vfsRead opened labelled small inside count
      have later := ih (tree.setStream opened _) (openedAt (min (st.i + count) file.content.length)) labelled
        (Nat.min_le_right _ _) stays
      simp only [Vfs.accesses, Access.run, asStream, if_true, first, later, bind, Except.bind, pure, Except.pure]
      rfl
    | seek pos whence =>
      have first := tree.vfsSeek opened labelled pos whence
      have later := ih (tree.setStream opened _) (openedAt (seekTo file.content.length st.i pos whence)) labelled
        stays.1 stays.2
      simp only [Vfs.accesses, Access.run, asStream, if_true, first, later, bind, Except.bind, pure, Except.pure]
      rfl

theorem Tree.label_of (tree : Tree v t) (member : x ∈ t.ids) : ∃ n file, v.nodes x = some n ∧
    t.label? x = some file ∧ n.datasize = file.content.length := by
  obtain ⟨n, found, _, label, _⟩ := tree.lookup member
  exact ⟨n, _, found, label, (tree.length_content found).symm⟩

/-- `vfsFSOOpen` in the place of `vfsFSOName` would make the routes agree. -/
theorem Tree.routes_agree (tree : Tree v t) (small : Sized v) (short : (components path).length ≤ subSize)
    (lead : resolve t v.root path = some x) : RoutesAgree (fun v x => v.vfsFSOOpen x [114]) v x path := by
  have member := resolveFrom_mem tree.root_mem lead
  obtain ⟨n, file, found, label, size⟩ := tree.label_of member
  have room : file.content.length < 2 ^ 32 := size ▸ small x n found
  obtain ⟨v2, s, opened, nonnull, tree2, stream2⟩ := tree.openedRead short lead
  have stream1 : (v.newStream ⟨x, 0, 0, 0, 0⟩).1.streams v.next = some ⟨x, 0, 0, 0, 0⟩ := Function.update_self ..
  refine ⟨n, (v.newStream ⟨x, 0, 0, 0, 0⟩).1, ⟨v.next, 0⟩, v2, s, found, ?_, opened, fun list stays =>
    ⟨outputs file.content 0 list, ?_, ?_⟩⟩
  · simp [Vfs.vfsFSOOpen, tree.reps.nonnull x member]
  · rw [size] at stays
    exact (tree.newStream _).accesses stream1 label room (Nat.zero_le _) stays
  · rw [size] at stays
    exact tree2.accesses stream2 label room (Nat.zero_le _) stays

/-- The pointer to the name is no stream: whatever is done first with it is undefined. -/
theorem name_no_stream (fso : Ptr) (access : Access) (rest : List Access) :
    v.accesses ⟨fso, filenameOffset⟩ (access :: rest) = .error .undefined := by
  cases access <;> rfl

/-- The routes agree for no node. -/
theorem routes_never_agree (v : Vfs) (x : Ptr) (path : CString) : ¬ RoutesAgree apiVfsFSOOpen v x path := by
  rintro ⟨n, v1, a, v2, s, _, handle, _, same⟩
  obtain ⟨name, called, done⟩ := bind_ok handle
  cases done
  rw [vfsFSOName] at called
  split at called
  · cases called
  · cases called
    obtain ⟨bytes, first, _⟩ := same [.read 1] trivial
    rw [name_no_stream] at first
    cases first

theorem file_made : ∃ v v1 v2 s x t, vfsInit empty = .ok v ∧ v.vfsOpen [97] [119] = .ok (v1, s) ∧
    v1.vfsWrite s [1] = .ok (v2, 1) ∧ Tree v2 t ∧ resolve t v2.root [97] = some x ∧
    t.label? x = some ⟨[97], [1]⟩ := by
  obtain ⟨v, a, b, c, init, tree, root⟩ := vfsInit_tree
  have ok : PathOk [97] := by decide
  have missing : resolve (initTree a b c) v.root [97] = none := by
    rw [root]
    rfl
  have base : resolveBase (initTree a b c) v.root [97] = some v.root := rfl
  have absent := tree.later_not_mem (Nat.le_add_right v.next (3 * (components [97]).length))
  obtain ⟨v1, s, opened, tree1, kept, made⟩ := @Tree.vfsOpen v (initTree a b c) [97] [119] tree true rfl ok.1
    (fun _ => pathFits _ ok)
  have lead := resolve_created tree absent missing base
  rw [if_neg (by decide)] at lead
  simp only [FileTree.openFile, FileTree.create, missing, base, if_true] at tree1 made
  generalize v.next + 3 * (components [97]).length = x at *
  have label : ((initTree a b c).addLeaf v.root x ⟨vfsBasename [97], []⟩).label? x = some ⟨[97], []⟩ := by
    rw [Forest.addLeaf_eq_attach]
    exact (@Forest.attach_leaf_new _ _ _ v.root x _ _ 0 tree.distinct tree.root_mem absent).2
  have label1 : (((initTree a b c).addLeaf v.root x ⟨vfsBasename [97], []⟩).relabel x
      (File.withContent fun _ => [])).label? x = some ⟨[97], []⟩ := by
    rw [Forest.label?_relabel, label]
    rfl
  obtain ⟨v2, written, tree2, alone⟩ := @Tree.vfsWrite v1 _ s _ [1] tree1 made.1 _ label1 (by decide)
  refine ⟨v, v1, v2, s, x, _, init, opened, written, tree2, ?_, ?_⟩
  · rw [resolve, resolveFrom_relabel, resolveFrom_relabel, alone.root, kept.root]
    exact lead
  · rw [Forest.label?_relabel, label1]
    rfl

/-- The byte of `"a"` is read through the path, and not through the handle. -/
theorem handle_reads_nothing : ∃ v v1 v2 s x v3 r, vfsInit empty = .ok v ∧ v.vfsOpen [97] [119] = .ok (v1, s) ∧
    v1.vfsWrite s [1] = .ok (v2, 1) ∧ v2.vfsOpen [97] [114] = .ok (v3, r) ∧
    v3.accesses ⟨r, 0⟩ [.read 1] = .ok [[1]] ∧ (v2.nodes x).map Node.filename = some [97] ∧
    apiVfsFSOOpen v2 x = .ok (v2, ⟨x, filenameOffset⟩) ∧
    v2.accesses ⟨x, filenameOffset⟩ [.read 1] = .error .undefined ∧ ¬ RoutesAgree apiVfsFSOOpen v2 x [97] := by
  obtain ⟨v, v1, v2, s, x, t, init, opened, written, tree, lead, label⟩ := file_made
  obtain ⟨v3, r, reopened, _, tree3, stream3⟩ := tree.openedRead (by decide) lead
  have read := @Tree.accesses v3 t r _ _ tree3 stream3 label (by decide) (Nat.zero_le _) [.read 1] trivial
  have nonnull := tree.reps.nonnull x (Forest.mem_of_label? label)
  obtain ⟨n, found, _, labelled, _⟩ := tree.lookup (Forest.mem_of_label? label)
  have handle : apiVfsFSOOpen v2 x = .ok (v2, ⟨x, filenameOffset⟩) := by
    simp [apiVfsFSOOpen, vfsFSOName, nonnull, bind, Except.bind, pure, Except.pure]
  have faults := @name_no_stream v2 x (.read 1) []
  refine ⟨v, v1, v2, s, x, v3, r, init, opened, written, reopened, read, ?_, handle, faults, ?_⟩
  · rw [found]
    exact congrArg (fun file : Option File => file.map File.name) (labelled.symm.trans label)
  · rintro ⟨n, u, a, w, q, _, ran, _, same⟩
    cases handle.symm.trans ran
    obtain ⟨bytes, first, _⟩ := same [.read 1] trivial
    cases faults.symm.trans first

end UmkaOs.Vfs
