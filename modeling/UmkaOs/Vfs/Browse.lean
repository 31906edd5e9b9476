import UmkaOs.Lib.ForestPrune
import UmkaOs.Vfs.Handles

namespace UmkaOs.Vfs

open Lib

/-- `filename[0] == '$'` -/
def hidden (name : CString) : Bool := name.head? == some 36

/-- The next sibling that is not hidden, or `NULL`. -/
def vfsNext (v : Vfs) : Nat → Ptr → Except Fault Ptr
  | 0, _ => .error .diverges
  | fuel + 1, of =>
    if of = 0 then .error .panic
    else do
      let n ← v.node of
      if n.sibling = 0 then return 0
      else
        let s ← v.node n.sibling
        if hidden s.filename then vfsNext v fuel n.sibling else return n.sibling

/-- The first child that is not hidden, or `NULL`. -/
def vfsChild (v : Vfs) (of : Ptr) : Except Fault Ptr :=
  if of = 0 then .error .panic
  else do
    let n ← v.node of
    if n.child = 0 then return 0
    else
      let c ← v.node n.child
      if hidden c.filename then v.vfsNext v.next n.child else return n.child

/-- `api__vfsFSOName`: a string with the bytes at the address. -/
def apiVfsFSOName (v : Vfs) (fso : Ptr) : Except Fault CString := do
  let name ← vfsFSOName fso
  let n ← v.node name.base
  return n.filename

/-- What the view shows for a node: a tree node with its title, or a leaf with its label,
the path that its button would store in `tasks::arg`, and whether it has that button. -/
inductive Item where
  | tree (node : Ptr) (title : CString)
  | leaf (node : Ptr) (label arg : CString) (opens : Bool)
  deriving DecidableEq

def Item.node : Item → Ptr
  | tree node _ => node
  | leaf node _ _ _ => node

/-- `n[len(n)-1] != 'i'`: whether a leaf has its button. -/
def opens (label : CString) : Bool := label.getLast? != some 105

mutual

/-- The calls that `displayTree` makes, `expanded` being the tree nodes that are open. An
empty label of a leaf has no last character to look at. -/
def displayTree (v : Vfs) (expanded : Ptr → Bool) : Nat → Ptr → CString → Except Fault (List Item)
  | 0, _, _ => .error .diverges
  | fuel + 1, node, p => do
    let child ← v.vfsChild node
    let name ← v.apiVfsFSOName node
    if child = 0 then
      if name = [] then throw .panic
      return [.leaf node name (p ++ name) (opens name)]
    else
      let title := if name = [] then [slash] else name
      let p := if name = [] then p ++ [slash] else p ++ (name ++ [slash])
      if expanded node then
        let child ← v.vfsChild node
        let items ← displayChildren v expanded fuel child p
        return .tree node title :: items
      else return [.tree node title]

/-- Its loop over the children. -/
def displayChildren (v : Vfs) (expanded : Ptr → Bool) : Nat → Ptr → CString → Except Fault (List Item)
  | 0, _, _ => .error .diverges
  | fuel + 1, child, p =>
    if child = 0 then .ok []
    else do
      let items ← displayTree v expanded fuel child p
      let next ← v.vfsNext v.next child
      let rest ← displayChildren v expanded fuel next p
      return items ++ rest

end

/-- The view from the root with every tree node open; two calls for every node there is. -/
def browse (v : Vfs) : Except Fault (List Item) := displayTree v (fun _ => true) (2 * v.next) v.root []

/-- The first node of a chain, or `NULL`. -/
def first : FileTree → Ptr
  | .nil => 0
  | .node id _ _ _ => id

/-- The nodes that are shown. -/
def shown (f : FileTree) : FileTree := f.prune fun file => hidden file.name

/-- What is shown for a forest without hidden nodes, `p` being the path to it. -/
def listing (p : CString) : FileTree → List Item
  | .nil => []
  | .node id file .nil rest => .leaf id file.name (p ++ file.name) (opens file.name) :: listing p rest
  | .node id file (.node id' file' children' rest') rest =>
    .tree id file.name :: (listing (p ++ (file.name ++ [slash])) (.node id' file' children' rest') ++ listing p rest)

variable {v : Vfs} {f children rest : FileTree} {parent x p : Ptr} {path : CString} {n : Node} {fuel : Nat}

theorem listing_nodes : (listing path f).map Item.node = f.ids := by
  induction f generalizing path with
  | nil => rfl
  | node id file children rest ihc ihr =>
    cases children with
    | nil => simp [listing, Item.node, Forest.ids, ihr]
    | node id' file' children' rest' =>
      rw [listing, List.map_cons, List.map_append, ihc, ihr]
      rfl

theorem shown_node {id : Ptr} {file : File} : shown (.node id file children rest) =
    if hidden file.name then shown rest else .node id file (shown children) (shown rest) := rfl

theorem vfsNext_spec (found : v.nodes x = some n) (nonnull : x ≠ 0) (reps : Reps v parent n.sibling rest)
    (enough : rest.ids.length < fuel) : v.vfsNext fuel x = .ok (first (shown rest)) := by
  induction rest generalizing x n fuel with
  | nil =>
    have none : n.sibling = 0 := reps
    cases fuel with
    | zero => cases enough
    | succ fuel =>
      simp only [vfsNext, nonnull, node, found, none, if_true, if_false, bind, Except.bind]
      rfl
  | node id file children rest _ ih =>
    obtain ⟨rfl, nonnullS, m, foundS, named, _, _, _, behind⟩ := reps
    cases fuel with
    | zero => cases enough
    | succ fuel =>
      have fewer : rest.ids.length < fuel := by
        simp only [Forest.ids_node, List.length_cons, List.length_append] at enough
        omega
      simp only [vfsNext, nonnull, node, found, nonnullS, foundS, named, if_false, bind, Except.bind]
      rw [shown_node]
      by_cases skipped : hidden file.name
      · rw [if_pos skipped, if_pos skipped]
        exact ih foundS nonnullS behind fewer
      · rw [if_neg skipped, if_neg skipped]
        rfl

theorem vfsChild_spec (found : v.nodes x = some n) (nonnull : x ≠ 0) (reps : Reps v x n.child children)
    (enough : children.ids.length < v.next) : v.vfsChild x = .ok (first (shown children)) := by
  cases children with
  | nil =>
    have none : n.child = 0 := reps
    simp only [vfsChild, nonnull, node, found, none, if_true, if_false, bind, Except.bind]
    rfl
  | node id file children rest =>
    obtain ⟨rfl, nonnullC, m, foundC, named, _, _, _, behind⟩ := reps
    have fewer : rest.ids.length < v.next := by
      simp only [Forest.ids_node, List.length_cons, List.length_append] at enough
      omega
    simp only [vfsChild, nonnull, node, found, nonnullC, foundC, named, if_false, bind, Except.bind]
    rw [shown_node]
    by_cases skipped : hidden file.name
    · rw [if_pos skipped, if_pos skipped]
      exact vfsNext_spec foundC nonnullC behind fewer
    · rw [if_neg skipped, if_neg skipped]
      rfl

theorem apiVfsFSOName_spec (found : v.nodes x = some n) (nonnull : x ≠ 0) : v.apiVfsFSOName x = .ok n.filename := by
  simp only [apiVfsFSOName, vfsFSOName, nonnull, node, found, if_false, bind, Except.bind, pure, Except.pure]

theorem shown_sub (member : x ∈ (shown f).ids) : x ∈ f.ids := Forest.ids_prune_sublist.subset member

theorem Reps.first_shown (reps : Reps v parent p f) : first (shown f) = 0 ↔ shown f = .nil := by
  cases top : shown f with
  | nil => simp [first]
  | node id file children rest =>
    have nonnull : id ≠ 0 := reps.nonnull id (shown_sub (by simp [top]))
    simp [first, nonnull]

/-- A node with a name, once its children have been walked. -/
theorem displayTree_spec (found : v.nodes x = some n) (nonnull : x ≠ 0) (named : n.filename ≠ [])
    (reps : Reps v x n.child children) (enough : children.ids.length < v.next) {file : File}
    (called : n.filename = file.name) (below :
      displayChildren v (fun _ => true) fuel (first (shown children)) (path ++ (file.name ++ [slash])) =
        .ok (listing (path ++ (file.name ++ [slash])) (shown children))) :
    displayTree v (fun _ => true) (fuel + 1) x path = .ok (listing path (.node x file (shown children) .nil)) := by
  have child := vfsChild_spec found nonnull reps enough
  have name := apiVfsFSOName_spec found nonnull
  rw [called] at named name
  rw [displayTree]
  simp only [child, name, named, below, if_true, if_false, bind, Except.bind]
  by_cases none : first (shown children) = 0
  · rw [if_pos none, reps.first_shown.mp none]
    rfl
  · rw [if_neg none]
    cases top : shown children with
    | nil => exact absurd (reps.first_shown.mpr top) none
    | node id file' children' rest' => simp [listing, pure, Except.pure]

/-- The loop over a chain shows what the chain stands for. -/
theorem displayChildren_spec (reps : Reps v parent p f) (small : f.ids.length < v.next)
    (named : ∀ q ∈ f.ids, ∀ n, v.nodes q = some n → n.filename ≠ []) (enough : 2 * f.ids.length < fuel) :
    displayChildren v (fun _ => true) fuel (first (shown f)) path = .ok (listing path (shown f)) := by
  induction f generalizing parent p path fuel with
  | nil =>
    cases fuel with
    | zero => cases enough
    | succ fuel => rfl
  | node id file children rest ihc ihr =>
    obtain ⟨rfl, nonnull, n, found, called, _, above, below, behind⟩ := reps
    simp only [Forest.ids_node, List.length_cons, List.length_append] at small enough
    simp only [Forest.ids_node, List.mem_cons, List.mem_append] at named
    rw [shown_node]
    by_cases skipped : hidden file.name
    · rw [if_pos skipped]
      exact ihr behind (by omega) (fun q member => named q (.inr (.inr member))) (by omega)
    · rw [if_neg skipped]
      obtain ⟨k, rfl⟩ : ∃ k, fuel = k + 2 := ⟨fuel - 2, by omega⟩
      have inside := @ihc p n.child (path ++ (file.name ++ [slash])) k below (by omega)
        (fun q member => named q (.inr (.inl member))) (by omega)
      have inner := displayTree_spec found nonnull (named p (.inl rfl) n found) below (by omega) called inside
      have next := vfsNext_spec found nonnull behind (show rest.ids.length < v.next by omega)
      have later := @ihr n.parent n.sibling path (k + 1) (above ▸ behind) (by omega)
        (fun q member => named q (.inr (.inr member))) (by omega)
      rw [first, displayChildren]
      simp only [nonnull, inner, next, later, if_false, bind, Except.bind, pure, Except.pure]
      cases shown children <;> simp [listing]

end UmkaOs.Vfs
