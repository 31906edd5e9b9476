import UmkaOs.Vfs.Model
import UmkaOs.Lib.Forest
import Mathlib.Data.Finset.Card
import Mathlib.Data.Finset.Range

namespace UmkaOs

open Lib

/-- What a node of the abstract tree carries. -/
structure File where
  name : CString
  content : List UInt8
  deriving DecidableEq

/-- A file with its content replaced. -/
def File.withContent (change : List UInt8 → List UInt8) (file : File) : File :=
  { file with content := change file.content }

/-- A file system as an ordered forest of named files. -/
abbrev FileTree := Forest Ptr File

namespace Vfs

/-- The live bytes of a node. -/
def contentOf (v : Vfs) (n : Node) : List UInt8 := (v.dataOf n).take n.datasize

/-- `p` is the first node of a sibling chain under `parent` that spells out
the forest. -/
def Reps (v : Vfs) : Ptr → Ptr → FileTree → Prop
  | _, p, .nil => p = 0
  | parent, p, .node id file children rest =>
    p = id ∧ id ≠ 0 ∧ ∃ n, v.nodes id = some n ∧ n.filename = file.name ∧
      v.contentOf n = file.content ∧ n.parent = parent ∧
      Reps v id n.child children ∧ Reps v parent n.sibling rest

/-- Both states hold the same node at `q`, with the same bytes. -/
def Agree (v v' : Vfs) (q : Ptr) : Prop :=
  v'.nodes q = v.nodes q ∧ ∀ n, v.nodes q = some n → v'.contentOf n = v.contentOf n

variable {v v' : Vfs} {f children rest : FileTree} {parent p q x : Ptr}

theorem Reps.congr (reps : Reps v parent p f) (agree : ∀ q ∈ f.ids, Agree v v' q) :
    Reps v' parent p f := by
  induction f generalizing parent p with
  | nil => exact reps
  | node id file children rest ihc ihr =>
    obtain ⟨same, nonnull, n, found, name, content, above, below, behind⟩ := reps
    obtain ⟨kept, bytes⟩ := agree id (by simp)
    exact ⟨same, nonnull, n, kept.trans found, name, (bytes n found).trans content, above,
      ihc below (fun q member => agree q (by simp [member])),
      ihr behind (fun q member => agree q (by simp [member]))⟩

theorem Reps.nonnull (reps : Reps v parent p f) : ∀ q ∈ f.ids, q ≠ 0 := by
  induction f generalizing parent p with
  | nil => simp [Forest.ids]
  | node id file children rest ihc ihr =>
    obtain ⟨_, nonnull, n, _, _, _, _, below, behind⟩ := reps
    intro q member
    simp only [Forest.ids_node, List.mem_cons, List.mem_append] at member
    rcases member with same | inside | inside
    · exact same ▸ nonnull
    · exact ihc below q inside
    · exact ihr behind q inside

theorem Reps.lookup (reps : Reps v parent p f) (distinct : f.ids.Nodup) (member : q ∈ f.ids) :
    ∃ n, v.nodes q = some n ∧ f.parentOf parent q = some n.parent ∧
      f.label? q = some ⟨n.filename, v.contentOf n⟩ ∧ Reps v q n.child (f.kids q) := by
  induction f generalizing parent p with
  | nil => simp [Forest.ids] at member
  | node id file children rest ihc ihr =>
    obtain ⟨notChild, notRest, distinctC, distinctR, apart⟩ := Forest.nodup_node distinct
    obtain ⟨_, _, n, found, name, content, above, below, behind⟩ := reps
    by_cases here : id = q
    · subst here
      refine ⟨n, found, ?_, ?_, ?_⟩
      · simp [Forest.parentOf, above]
      · simp [Forest.label?, name, content]
      · simpa [Forest.kids] using below
    · simp only [Forest.ids_node, List.mem_cons, List.mem_append] at member
      rcases member with same | inside | inside
      · exact absurd same.symm here
      · obtain ⟨m, foundQ, parentQ, labelQ, kidsQ⟩ := ihc below distinctC inside
        refine ⟨m, foundQ, ?_, ?_, ?_⟩
        · simp [Forest.parentOf, here, parentQ]
        · simp [Forest.label?, here, labelQ]
        · simpa [Forest.kids, here, inside] using kidsQ
      · have notInside : q ∉ children.ids := fun bad => apart q bad inside
        obtain ⟨m, foundQ, parentQ, labelQ, kidsQ⟩ := ihr behind distinctR inside
        refine ⟨m, foundQ, ?_, ?_, ?_⟩
        · simp [Forest.parentOf, here, Forest.parentOf_of_not_mem notInside, parentQ]
        · have none : children.label? q = none := by
            cases bad : children.label? q with
            | none => rfl
            | some l => exact absurd (Forest.mem_of_label? bad) notInside
          simp [Forest.label?, here, none, labelQ]
        · simpa [Forest.kids, here, notInside] using kidsQ

theorem Reps.mapKids {change : FileTree → FileTree} {n n' : Node} (reps : Reps v parent p f)
    (distinct : f.ids.Nodup) (found : v.nodes x = some n) (found' : v'.nodes x = some n')
    (kept : n' = { n with child := n'.child }) (bytes : v'.contentOf n' = v.contentOf n)
    (below : Reps v' x n'.child (change (f.kids x)))
    (others : ∀ q ∈ f.ids, q ≠ x → q ∉ (f.kids x).ids → Agree v v' q) (member : x ∈ f.ids) :
    Reps v' parent p (f.mapKids x change) := by
  induction f generalizing parent p with
  | nil => simp [Forest.ids] at member
  | node id file children rest ihc ihr =>
    obtain ⟨notChild, notRest, distinctC, distinctR, apart⟩ := Forest.nodup_node distinct
    obtain ⟨same, nonnull, m, foundM, name, content, above, belowM, behind⟩ := reps
    by_cases here : id = x
    · subst here
      cases foundM.symm.trans found
      rw [Forest.kids, if_pos rfl] at below
      rw [Forest.mapKids, if_pos rfl]
      have fields := kept
      refine ⟨same, nonnull, n', found', ?_, by rw [bytes, content], ?_, below, ?_⟩
      · rw [fields]; exact name
      · rw [fields]; exact above
      · rw [fields]
        refine behind.congr (fun q inside => others q (by simp [inside]) ?_ ?_)
        · exact fun bad => notRest (bad ▸ inside)
        · rw [Forest.kids, if_pos rfl]
          exact fun bad => apart q bad inside
    · rw [Forest.mapKids, if_neg here]
      simp only [Forest.ids_node, List.mem_cons, List.mem_append] at member
      have kids : (Forest.node id file children rest).kids x =
          if x ∈ children.ids then children.kids x else rest.kids x := by rw [Forest.kids, if_neg here]
      rw [kids] at below others
      have top : Agree v v' id := by
        refine others id (by simp) here ?_
        split
        · exact fun bad => notChild (Forest.kids_sub bad)
        · exact fun bad => notRest (Forest.kids_sub bad)
      refine ⟨same, nonnull, m, top.1.trans foundM, name, (top.2 m foundM).trans content, above, ?_, ?_⟩
      · by_cases inside : x ∈ children.ids
        · rw [if_pos inside] at below others
          exact ihc belowM distinctC below
            (fun q hq ne notKid => others q (by simp [hq]) ne notKid) inside
        · rw [Forest.mapKids_of_not_mem inside]
          rw [if_neg inside] at others
          refine belowM.congr (fun q hq => others q (by simp [hq]) (fun bad => inside (bad ▸ hq)) ?_)
          exact fun bad => apart q hq (Forest.kids_sub bad)
      · by_cases inside : x ∈ children.ids
        · rw [Forest.mapKids_of_not_mem (apart x inside)]
          rw [if_pos inside] at others
          refine behind.congr (fun q hq => others q (by simp [hq]) (fun bad => apart x inside (bad ▸ hq)) ?_)
          exact fun bad => apart q (Forest.kids_sub bad) hq
        · rw [if_neg inside] at below others
          have behindX := (member.resolve_left (Ne.symm here)).resolve_left inside
          exact ihr behind distinctR below
            (fun q hq ne notKid => others q (by simp [hq]) ne notKid) behindX

/-- A file system whose pointers form the ordered tree `t`. -/
structure Tree (v : Vfs) (t : FileTree) : Prop where
  top : t.spine = [v.root]
  reps : Reps v 0 v.root t
  distinct : t.ids.Nodup
  exact : ∀ p, (v.nodes p).isSome ↔ p ∈ t.ids
  positive : 0 < v.next
  unused : ∀ p, v.next ≤ p → v.nodes p = none ∧ v.streams p = none ∧ v.blocks p = none
  stored : ∀ p n, v.nodes p = some n → n.data = 0 ∧ n.datasize = 0 ∨
    n.data ≠ 0 ∧ ∃ b, v.blocks n.data = some b ∧ n.datasize ≤ b.length
  apart : ∀ p q n m, v.nodes p = some n → v.nodes q = some m → n.data = m.data → n.data ≠ 0 → p = q
  null : v.blocks 0 = none

namespace Tree

variable {t : FileTree}

/-- Where the old blocks are kept, so are the contents of all nodes. -/
theorem agree_of_blocks (tree : Tree v t) (nodes : v'.nodes = v.nodes)
    (kept : ∀ p b, v.blocks p = some b → v'.blocks p = some b) (q : Ptr) : Agree v v' q := by
  refine ⟨congrFun nodes q, fun n found => ?_⟩
  rcases tree.stored q n found with ⟨_, empty⟩ | ⟨_, b, stored, _⟩
  · simp [contentOf, empty]
  · simp [contentOf, dataOf, stored, kept _ _ stored]

theorem root_mem (tree : Tree v t) : v.root ∈ t.ids :=
  Forest.spine_sub (by simp [tree.top])

theorem lookup (tree : Tree v t) (member : q ∈ t.ids) :
    ∃ n, v.nodes q = some n ∧ t.parentOf 0 q = some n.parent ∧
      t.label? q = some ⟨n.filename, v.contentOf n⟩ ∧ Reps v q n.child (t.kids q) :=
  tree.reps.lookup tree.distinct member

theorem lt_next (tree : Tree v t) (member : q ∈ t.ids) : q < v.next := by
  have live := (tree.exact q).mpr member
  apply Nat.lt_of_not_le
  intro bad
  simp [(tree.unused q bad).1] at live

theorem block_lt {b : List UInt8} (tree : Tree v t) (stored : v.blocks p = some b) : p < v.next := by
  apply Nat.lt_of_not_le
  intro late
  rw [(tree.unused p late).2.2] at stored
  cases stored

theorem data_lt {n : Node} (tree : Tree v t) (found : v.nodes q = some n) : n.data < v.next := by
  rcases tree.stored q n found with ⟨zero, _⟩ | ⟨_, b, stored, _⟩
  · rw [zero]
    exact tree.positive
  · exact tree.block_lt stored

theorem next_not_mem (tree : Tree v t) : v.next ∉ t.ids :=
  fun bad => Nat.lt_irrefl _ (tree.lt_next bad)

/-- There are fewer nodes than names given out. -/
theorem length_lt (tree : Tree v t) : t.ids.length < v.next := by
  have sub : t.ids.toFinset ⊆ (Finset.range v.next).erase 0 := by
    intro q member
    have member := List.mem_toFinset.mp member
    exact Finset.mem_erase.mpr ⟨tree.reps.nonnull q member, Finset.mem_range.mpr (tree.lt_next member)⟩
  have bound := Finset.card_le_card sub
  rw [List.toFinset_card_of_nodup tree.distinct,
    Finset.card_erase_of_mem (Finset.mem_range.mpr tree.positive), Finset.card_range] at bound
  have := tree.positive
  omega

theorem kids_lt (tree : Tree v t) (x : Ptr) : (t.kids x).ids.length < v.next :=
  Nat.lt_of_le_of_lt Forest.ids_kids_sublist.length_le tree.length_lt

theorem kids_distinct (tree : Tree v t) (x : Ptr) : (t.kids x).ids.Nodup :=
  tree.distinct.sublist Forest.ids_kids_sublist

end Tree

end Vfs

end UmkaOs
