import UmkaOs.Lib.ForestOrder

namespace UmkaOs.Lib.Forest

variable {ι α : Type*}

/-- The forest without the nodes with a hidden label and their subtrees. -/
def prune (hide : α → Bool) : Forest ι α → Forest ι α
  | nil => nil
  | node id l children rest => if hide l then rest.prune hide else node id l (children.prune hide) (rest.prune hide)

variable {f : Forest ι α} {hide : α → Bool} {x : ι} {l : α}

theorem ids_prune_sublist : (f.prune hide).ids.Sublist f.ids := by
  induction f with
  | nil => exact .refl _
  | node id label children rest ihc ihr =>
    rw [prune]
    split
    · exact (ihr.trans (List.sublist_append_right _ _)).cons _
    · exact (ihc.append ihr).cons_cons _

variable [DecidableEq ι]

/-- Neither `x` nor a node above it has a hidden label. -/
def Clear (hide : α → Bool) (f : Forest ι α) (x : ι) : Prop :=
  ∀ y l, x ∈ f.subtree y → f.label? y = some l → hide l = false

section Node

variable {id : ι} {children rest : Forest ι α} (distinct : (node id l children rest).ids.Nodup)

include distinct

theorem clear_top : Clear hide (node id l children rest) id ↔ hide l = false := by
  obtain ⟨notChild, notRest, _, _, _⟩ := nodup_node distinct
  have labelId : (node id l children rest).label? id = some l := by rw [label?, if_pos rfl]
  constructor
  · intro clear
    exact clear id l (by simp [subtree]) labelId
  · intro shown y l' inside labelled
    rcases mem_subtree_node inside with ⟨rfl, _⟩ | below | behind
    · exact Option.some.inj (labelId.symm.trans labelled) ▸ shown
    · exact absurd (subtree_sub below) notChild
    · exact absurd (subtree_sub behind) notRest

theorem clear_child (member : x ∈ children.ids) :
    Clear hide (node id l children rest) x ↔ hide l = false ∧ Clear hide children x := by
  obtain ⟨notChild, _, _, _, apart⟩ := nodup_node distinct
  have labelId : (node id l children rest).label? id = some l := by rw [label?, if_pos rfl]
  constructor
  · intro clear
    refine ⟨clear id l (by simp [subtree, member]) labelId, fun y l' inside labelled => clear y l' ?_ ?_⟩
    · have other : id ≠ y := fun same => notChild (same ▸ mem_of_subtree inside)
      rw [subtree, if_neg other]
      exact List.mem_append_left _ inside
    · rw [label?_below distinct (mem_of_subtree inside), labelled]
  · rintro ⟨shown, clear⟩ y l' inside labelled
    rcases mem_subtree_node inside with ⟨rfl, _⟩ | below | behind
    · exact Option.some.inj (labelId.symm.trans labelled) ▸ shown
    · rw [label?_below distinct (mem_of_subtree below)] at labelled
      exact clear y l' below labelled
    · exact absurd (subtree_sub behind) (apart x member)

theorem clear_rest (member : x ∈ rest.ids) : Clear hide (node id l children rest) x ↔ Clear hide rest x := by
  obtain ⟨_, notRest, _, _, apart⟩ := nodup_node distinct
  constructor
  · intro clear y l' inside labelled
    have upper := mem_of_subtree inside
    have other : id ≠ y := fun same => notRest (same ▸ upper)
    refine clear y l' ?_ ?_
    · rw [subtree, if_neg other]
      exact List.mem_append_right _ inside
    · rw [label?_behind distinct upper, labelled]
  · intro clear y l' inside labelled
    rcases mem_subtree_node inside with ⟨_, rfl | below⟩ | below | behind
    · exact absurd member notRest
    · exact absurd member (apart x below)
    · exact absurd member (apart x (subtree_sub below))
    · rw [label?_behind distinct (mem_of_subtree behind)] at labelled
      exact clear y l' behind labelled

end Node

/-- A node stays exactly if neither it nor a node above it is hidden. -/
theorem mem_prune (distinct : f.ids.Nodup) : x ∈ (f.prune hide).ids ↔ x ∈ f.ids ∧ Clear hide f x := by
  induction f with
  | nil => simp [prune, ids]
  | node id label children rest ihc ihr =>
    obtain ⟨notChild, notRest, distinctC, distinctR, apart⟩ := nodup_node distinct
    have split : x ∈ (node id label children rest).ids ∧ Clear hide (node id label children rest) x ↔
        (x = id ∧ hide label = false) ∨ (hide label = false ∧ x ∈ children.ids ∧ Clear hide children x) ∨
          x ∈ rest.ids ∧ Clear hide rest x := by
      simp only [ids_node, List.mem_cons, List.mem_append]
      constructor
      · rintro ⟨rfl | below | behind, clear⟩
        · exact .inl ⟨rfl, (clear_top distinct).mp clear⟩
        · obtain ⟨shown, deeper⟩ := (clear_child distinct below).mp clear
          exact .inr (.inl ⟨shown, below, deeper⟩)
        · exact .inr (.inr ⟨behind, (clear_rest distinct behind).mp clear⟩)
      · rintro (⟨rfl, shown⟩ | ⟨shown, below, clear⟩ | ⟨behind, clear⟩)
        · exact ⟨.inl rfl, (clear_top distinct).mpr shown⟩
        · exact ⟨.inr (.inl below), (clear_child distinct below).mpr ⟨shown, clear⟩⟩
        · exact ⟨.inr (.inr behind), (clear_rest distinct behind).mpr clear⟩
    rw [split, prune]
    cases shown : hide label with
    | true => simp [ihr distinctR]
    | false => simp [ihc distinctC, ihr distinctR]

end UmkaOs.Lib.Forest
