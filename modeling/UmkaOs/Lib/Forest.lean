import Mathlib.Data.List.Perm.Basic
import Mathlib.Data.List.Nodup

/-! Ordered forests in first-child/next-sibling form. Every node carries an
identity and a label; a forest is its first node, the forest below that node
and the forest of the siblings behind it. -/

namespace UmkaOs.Lib

variable {ι α : Type*}

inductive Forest (ι α : Type*) where
  | nil
  | node (id : ι) (label : α) (children rest : Forest ι α)

namespace Forest

/-- All identities, in depth-first order. -/
def ids : Forest ι α → List ι
  | nil => []
  | node id _ children rest => id :: (children.ids ++ rest.ids)

/-- The identities at the top level, in order. -/
def spine : Forest ι α → List ι
  | nil => []
  | node id _ _ rest => id :: rest.spine

/-- A leaf behind the last top-level node. -/
def snoc (x : ι) (label : α) : Forest ι α → Forest ι α
  | nil => node x label nil nil
  | node id l children rest => node id l children (rest.snoc x label)

variable [DecidableEq ι]

/-- The forest with the forest below `parent` replaced. -/
def mapKids (parent : ι) (change : Forest ι α → Forest ι α) : Forest ι α → Forest ι α
  | nil => nil
  | node id l children rest =>
    if id = parent then node id l (change children) rest
    else node id l (children.mapKids parent change) (rest.mapKids parent change)

/-- The forest without the top-level node `x`. -/
def eraseTop (x : ι) : Forest ι α → Forest ι α
  | nil => nil
  | node id l children rest => if id = x then rest else node id l children (rest.eraseTop x)

/-- A leaf behind the last child of `parent`. -/
def addLeaf (parent x : ι) (label : α) : Forest ι α → Forest ι α
  | nil => nil
  | node id l children rest =>
    if id = parent then node id l (children.snoc x label) rest
    else node id l (children.addLeaf parent x label) (rest.addLeaf parent x label)

/-- The forest without `x` and everything below it. -/
def erase (x : ι) : Forest ι α → Forest ι α
  | nil => nil
  | node id l children rest =>
    if id = x then rest else node id l (children.erase x) (rest.erase x)

/-- `x` and everything below it. -/
def subtree (x : ι) : Forest ι α → List ι
  | nil => []
  | node id _ children rest =>
    if id = x then id :: children.ids else children.subtree x ++ rest.subtree x

/-- The forest below `x`. -/
def kids (x : ι) : Forest ι α → Forest ι α
  | nil => nil
  | node id _ children rest =>
    if id = x then children
    else if x ∈ children.ids then children.kids x else rest.kids x

/-- The node whose children contain `x`, `above` being the node over this forest. -/
def parentOf (above x : ι) : Forest ι α → Option ι
  | nil => none
  | node id _ children rest =>
    if id = x then some above
    else (children.parentOf id x).or (rest.parentOf above x)

/-- The label of `x`. -/
def label? (x : ι) : Forest ι α → Option α
  | nil => none
  | node id l children rest =>
    if id = x then some l else (children.label? x).or (rest.label? x)

/-- The forest with the label of `x` replaced. -/
def relabel (x : ι) (change : α → α) : Forest ι α → Forest ι α
  | nil => nil
  | node id l children rest =>
    node id (if id = x then change l else l) (children.relabel x change) (rest.relabel x change)

/-- The first top-level node whose label satisfies `wanted`. -/
def firstWith (wanted : α → Bool) : Forest ι α → Option ι
  | nil => none
  | node id l _ rest => if wanted l then some id else rest.firstWith wanted

variable {f : Forest ι α} {x y parent : ι} {l : α}

omit [DecidableEq ι] in
@[simp] theorem ids_node {id : ι} {children rest : Forest ι α} :
    (node id l children rest).ids = id :: (children.ids ++ rest.ids) := rfl

omit [DecidableEq ι] in
theorem spine_sublist : f.spine.Sublist f.ids := by
  induction f with
  | nil => exact .refl _
  | node id l children rest _ ih => exact (ih.trans (List.sublist_append_right _ _)).cons_cons _

omit [DecidableEq ι] in
theorem spine_sub (member : x ∈ f.spine) : x ∈ f.ids := spine_sublist.subset member

omit [DecidableEq ι] in
theorem spine_nodup (distinct : f.ids.Nodup) : f.spine.Nodup := distinct.sublist spine_sublist

omit [DecidableEq ι] in
/-- What it means for the identities of a node to be pairwise different. -/
theorem nodup_node {id : ι} {children rest : Forest ι α} (distinct : (node id l children rest).ids.Nodup) :
    id ∉ children.ids ∧ id ∉ rest.ids ∧ children.ids.Nodup ∧ rest.ids.Nodup ∧
      ∀ y ∈ children.ids, y ∉ rest.ids := by
  obtain ⟨fresh, both⟩ := List.nodup_cons.mp distinct
  obtain ⟨left, right, apart⟩ := List.nodup_append.mp both
  simp only [List.mem_append, not_or] at fresh
  exact ⟨fresh.1, fresh.2, left, right, fun y inChildren inRest => apart y inChildren y inRest rfl⟩

omit [DecidableEq ι] in
theorem ids_snoc_perm : ((f.snoc x l).ids).Perm (x :: f.ids) := by
  induction f with
  | nil => exact .refl _
  | node id label children rest _ ih =>
    simp only [snoc, ids_node]
    refine (List.Perm.cons id (ih.append_left children.ids)).trans ?_
    exact (List.Perm.cons id List.perm_middle).trans (List.Perm.swap x id _)

theorem addLeaf_of_not_mem (absent : parent ∉ f.ids) : f.addLeaf parent x l = f := by
  induction f with
  | nil => rfl
  | node id label children rest ihc ihr =>
    simp only [ids_node, List.mem_cons, List.mem_append, not_or] at absent
    rw [addLeaf, if_neg (Ne.symm absent.1), ihc absent.2.1, ihr absent.2.2]

/-- Adding a leaf below an existing node adds exactly its identity. -/
theorem ids_addLeaf_perm (distinct : f.ids.Nodup) (member : parent ∈ f.ids) :
    (f.addLeaf parent x l).ids.Perm (x :: f.ids) := by
  induction f with
  | nil => simp [ids] at member
  | node id label children rest ihc ihr =>
    obtain ⟨notChild, notRest, distinctC, distinctR, apart⟩ := nodup_node distinct
    by_cases here : id = parent
    · rw [addLeaf, if_pos here]
      simp only [ids_node]
      refine (List.Perm.cons id (ids_snoc_perm.append_right rest.ids)).trans ?_
      exact List.Perm.swap x id _
    · rw [addLeaf, if_neg here]
      simp only [ids_node, List.mem_cons, List.mem_append] at member ⊢
      rcases member with same | inChildren | inRest
      · exact absurd same.symm here
      · rw [addLeaf_of_not_mem (apart _ inChildren)]
        refine (List.Perm.cons id ((ihc distinctC inChildren).append_right rest.ids)).trans ?_
        exact List.Perm.swap x id _
      · rw [addLeaf_of_not_mem (fun inChildren => apart _ inChildren inRest)]
        refine (List.Perm.cons id ((ihr distinctR inRest).append_left children.ids)).trans ?_
        exact (List.Perm.cons id List.perm_middle).trans (List.Perm.swap x id _)

theorem erase_of_not_mem (absent : x ∉ f.ids) : f.erase x = f := by
  induction f with
  | nil => rfl
  | node id label children rest ihc ihr =>
    simp only [ids_node, List.mem_cons, List.mem_append, not_or] at absent
    rw [erase, if_neg (Ne.symm absent.1), ihc absent.2.1, ihr absent.2.2]

theorem subtree_of_not_mem (absent : x ∉ f.ids) : f.subtree x = [] := by
  induction f with
  | nil => rfl
  | node id label children rest ihc ihr =>
    simp only [ids_node, List.mem_cons, List.mem_append, not_or] at absent
    rw [subtree, if_neg (Ne.symm absent.1), ihc absent.2.1, ihr absent.2.2]
    rfl

theorem subtree_sub (member : y ∈ f.subtree x) : y ∈ f.ids := by
  induction f with
  | nil => exact member
  | node id label children rest ihc ihr =>
    rw [subtree] at member
    split at member
    · simp only [List.mem_cons] at member
      rcases member with same | inside <;> simp [*]
    · rcases List.mem_append.mp member with inside | inside
      · simp [ihc inside]
      · simp [ihr inside]

/-- Erasing removes the subtree and nothing else. -/
theorem mem_ids_erase (distinct : f.ids.Nodup) :
    y ∈ (f.erase x).ids ↔ y ∈ f.ids ∧ y ∉ f.subtree x := by
  induction f with
  | nil => simp [erase, ids]
  | node id label children rest ihc ihr =>
    obtain ⟨notChild, notRest, distinctC, distinctR, apart⟩ := nodup_node distinct
    by_cases here : id = x
    · rw [erase, if_pos here, subtree, if_pos here]
      simp only [ids_node, List.mem_cons, List.mem_append, not_or]
      constructor
      · intro inRest
        exact ⟨.inr (.inr inRest), fun same => notRest (same ▸ inRest), fun inChildren => apart y inChildren inRest⟩
      · rintro ⟨same | inChildren | inRest, notHere, notInside⟩
        · exact absurd same notHere
        · exact absurd inChildren notInside
        · exact inRest
    · rw [erase, if_neg here, subtree, if_neg here]
      simp only [ids_node, List.mem_cons, List.mem_append, ihc distinctC, ihr distinctR, not_or]
      constructor
      · rintro (same | ⟨inside, kept⟩ | ⟨inside, kept⟩)
        · subst same
          exact ⟨.inl rfl, fun bad => notChild (subtree_sub bad), fun bad => notRest (subtree_sub bad)⟩
        · exact ⟨.inr (.inl inside), kept, fun bad => apart y inside (subtree_sub bad)⟩
        · exact ⟨.inr (.inr inside), fun bad => apart y (subtree_sub bad) inside, kept⟩
      · rintro ⟨same | inside | inside, keptC, keptR⟩
        · exact .inl same
        · exact .inr (.inl ⟨inside, keptC⟩)
        · exact .inr (.inr ⟨inside, keptR⟩)

theorem ids_erase_sublist : (f.erase x).ids.Sublist f.ids := by
  induction f with
  | nil => exact .refl _
  | node id label children rest ihc ihr =>
    by_cases here : id = x
    · rw [erase, if_pos here]
      exact (List.sublist_append_right _ _).cons _
    · rw [erase, if_neg here]
      exact (ihc.append ihr).cons_cons _

theorem spine_erase (below : x ∉ f.spine) : (f.erase x).spine = f.spine := by
  induction f with
  | nil => rfl
  | node id label children rest _ ih =>
    simp only [spine, List.mem_cons, not_or] at below
    rw [erase, if_neg (Ne.symm below.1), spine, spine, ih below.2]

theorem ids_eraseTop_sublist : (f.eraseTop x).ids.Sublist f.ids := by
  induction f with
  | nil => exact .refl _
  | node id label children rest _ ih =>
    by_cases here : id = x
    · rw [eraseTop, if_pos here]
      exact (List.sublist_append_right _ _).cons _
    · rw [eraseTop, if_neg here]
      exact ((List.Sublist.refl _).append ih).cons_cons _

theorem mem_eraseTop (top : y ∈ f.spine) (other : y ≠ x) : y ∈ (f.eraseTop x).ids := by
  induction f with
  | nil => simp [spine] at top
  | node id label children rest _ ih =>
    rw [eraseTop]
    rcases List.mem_cons.mp top with same | later
    · rw [if_neg (same ▸ other)]
      simp [same]
    · split
      · exact spine_sub later
      · simp [ih later]

@[simp] theorem ids_relabel {change : α → α} : (f.relabel x change).ids = f.ids := by
  induction f with
  | nil => rfl
  | node id label children rest ihc ihr => simp [relabel, ihc, ihr]

@[simp] theorem spine_relabel {change : α → α} : (f.relabel x change).spine = f.spine := by
  induction f with
  | nil => rfl
  | node id label children rest _ ih => simp [relabel, spine, ih]

theorem ids_kids_sublist : (f.kids x).ids.Sublist f.ids := by
  induction f with
  | nil => exact .refl _
  | node id label children rest ihc ihr =>
    rw [kids]
    split
    · exact (List.sublist_append_left _ _).cons _
    · split
      · exact (ihc.trans (List.sublist_append_left _ _)).cons _
      · exact (ihr.trans (List.sublist_append_right _ _)).cons _

theorem kids_sub (member : y ∈ (f.kids x).ids) : y ∈ f.ids := ids_kids_sublist.subset member

theorem not_mem_kids (distinct : f.ids.Nodup) : x ∉ (f.kids x).ids := by
  induction f with
  | nil => simp [kids, ids]
  | node id label children rest ihc ihr =>
    obtain ⟨notChild, _, distinctC, distinctR, _⟩ := nodup_node distinct
    rw [kids]
    split
    · rename_i here
      exact here ▸ notChild
    · split
      · exact ihc distinctC
      · exact ihr distinctR

/-- What is below a node does not depend on where one starts. -/
theorem kids_kids (distinct : f.ids.Nodup) (below : x ∈ (f.kids parent).ids) :
    (f.kids parent).kids x = f.kids x := by
  induction f with
  | nil => simp [kids, ids] at below
  | node id label children rest ihc ihr =>
    obtain ⟨notChild, notRest, distinctC, distinctR, apart⟩ := nodup_node distinct
    have top : kids parent (node id label children rest) =
        if id = parent then children
        else if parent ∈ children.ids then children.kids parent else rest.kids parent := rfl
    have topX : kids x (node id label children rest) =
        if id = x then children else if x ∈ children.ids then children.kids x else rest.kids x := rfl
    rw [top] at below ⊢
    rw [topX]
    split at below
    · rename_i here
      have other : id ≠ x := fun same => notChild (same ▸ below)
      rw [if_pos here, if_neg other, if_pos below]
    · rename_i here
      rw [if_neg here]
      split at below
      · rename_i inside
        have member := kids_sub below
        have other : id ≠ x := fun same => notChild (same ▸ member)
        rw [if_pos inside, if_neg other, if_pos member, ihc distinctC below]
      · rename_i outside
        have member := kids_sub below
        have other : id ≠ x := fun same => notRest (same ▸ member)
        have notInside : x ∉ children.ids := fun bad => apart x bad member
        rw [if_neg outside, if_neg other, if_neg notInside, ihr distinctR below]

theorem subtree_eq (distinct : f.ids.Nodup) (member : x ∈ f.ids) : f.subtree x = x :: (f.kids x).ids := by
  induction f with
  | nil => simp [ids] at member
  | node id label children rest ihc ihr =>
    obtain ⟨notChild, notRest, distinctC, distinctR, apart⟩ := nodup_node distinct
    rw [subtree, kids]
    by_cases here : id = x
    · rw [if_pos here, if_pos here, here]
    · rw [if_neg here, if_neg here]
      simp only [ids_node, List.mem_cons, List.mem_append] at member
      rcases (member.resolve_left (Ne.symm here)) with inside | inside
      · rw [if_pos inside, ihc distinctC inside, subtree_of_not_mem (apart x inside), List.append_nil]
      · have notInside : x ∉ children.ids := fun bad => apart x bad inside
        rw [if_neg notInside, ihr distinctR inside, subtree_of_not_mem notInside, List.nil_append]

theorem subtree_kids (distinct : f.ids.Nodup) (below : x ∈ (f.kids parent).ids) :
    (f.kids parent).subtree x = f.subtree x := by
  rw [subtree_eq (distinct.sublist ids_kids_sublist) below, kids_kids distinct below,
    subtree_eq distinct (kids_sub below)]

/-- A subtree holds what is below its nodes. -/
theorem kids_subtree {z : ι} (distinct : f.ids.Nodup) (inside : y ∈ f.subtree x) (below : z ∈ (f.kids y).ids) :
    z ∈ f.subtree x := by
  have member : x ∈ f.ids := by
    by_contra absent
    simp [subtree_of_not_mem absent] at inside
  rw [subtree_eq distinct member, List.mem_cons] at inside ⊢
  right
  rcases inside with rfl | inside
  · exact below
  · rw [← kids_kids distinct inside] at below
    exact kids_sub below

theorem mem_of_label? (found : f.label? x = some l) : x ∈ f.ids := by
  induction f with
  | nil => simp [label?] at found
  | node id label children rest ihc ihr =>
    rw [label?] at found
    split at found
    · rename_i here
      simp [here]
    · rcases Option.or_eq_some_iff.mp found with inside | ⟨_, behind⟩
      · simp [ihc inside]
      · simp [ihr behind]

omit [DecidableEq ι] in
theorem firstWith_mem {wanted : α → Bool} (found : f.firstWith wanted = some x) : x ∈ f.spine := by
  induction f with
  | nil => simp [firstWith] at found
  | node id label children rest _ ih =>
    rw [firstWith] at found
    split at found
    · simp [spine, Option.some.inj found]
    · simp [spine, ih found]

theorem parentOf_mem {above : ι} (found : f.parentOf above x = some y) : y = above ∨ y ∈ f.ids := by
  induction f generalizing above with
  | nil => simp [parentOf] at found
  | node id label children rest ihc ihr =>
    rw [parentOf] at found
    split at found
    · exact .inl (Option.some.inj found).symm
    · rcases Option.or_eq_some_iff.mp found with inside | ⟨_, behind⟩
      · rcases ihc inside with same | member
        · simp [same]
        · simp [member]
      · rcases ihr behind with same | member
        · exact .inl same
        · simp [member]

theorem mem_of_parentOf {above : ι} (found : f.parentOf above x = some y) : x ∈ f.ids := by
  induction f generalizing above with
  | nil => simp [parentOf] at found
  | node id label children rest ihc ihr =>
    rw [parentOf] at found
    split at found
    · rename_i here
      simp [here]
    · rcases Option.or_eq_some_iff.mp found with inside | ⟨_, behind⟩
      · simp [ihc inside]
      · simp [ihr behind]

@[simp] theorem spine_addLeaf : (f.addLeaf parent x l).spine = f.spine := by
  induction f with
  | nil => rfl
  | node id label children rest _ ih =>
    rw [addLeaf]
    split <;> simp [spine, ih]

theorem addLeaf_eq_mapKids : f.addLeaf parent x l = f.mapKids parent (snoc x l) := by
  induction f with
  | nil => rfl
  | node id label children rest ihc ihr => simp [addLeaf, mapKids, ihc, ihr]

theorem mapKids_of_not_mem {change : Forest ι α → Forest ι α} (absent : parent ∉ f.ids) :
    f.mapKids parent change = f := by
  induction f with
  | nil => rfl
  | node id label children rest ihc ihr =>
    simp only [ids_node, List.mem_cons, List.mem_append, not_or] at absent
    rw [mapKids, if_neg (Ne.symm absent.1), ihc absent.2.1, ihr absent.2.2]

theorem erase_eq_eraseTop (distinct : f.ids.Nodup) (top : x ∈ f.spine) : f.erase x = f.eraseTop x := by
  induction f with
  | nil => rfl
  | node id label children rest _ ih =>
    obtain ⟨_, _, _, distinctR, apart⟩ := nodup_node distinct
    by_cases here : id = x
    · rw [erase, eraseTop, if_pos here, if_pos here]
    · have behind : x ∈ rest.spine := (List.mem_cons.mp top).resolve_left (Ne.symm here)
      have notBelow : x ∉ children.ids := fun bad => apart x bad (spine_sub behind)
      rw [erase, eraseTop, if_neg here, if_neg here, ih distinctR behind, erase_of_not_mem notBelow]

theorem not_mem_of_eraseTop (distinct : f.ids.Nodup) (top : x ∈ f.spine) (kept : y ∈ (f.eraseTop x).ids) :
    y ∉ f.subtree x := by
  rw [← erase_eq_eraseTop distinct top, mem_ids_erase distinct] at kept
  exact kept.2

theorem parentOf_spine {above : ι} (distinct : f.ids.Nodup) (top : x ∈ f.spine) :
    f.parentOf above x = some above := by
  induction f with
  | nil => simp [spine] at top
  | node id label children rest _ ih =>
    obtain ⟨_, _, _, distinctR, apart⟩ := nodup_node distinct
    by_cases here : id = x
    · rw [parentOf, if_pos here]
    · have behind : x ∈ rest.spine := (List.mem_cons.mp top).resolve_left (Ne.symm here)
      have notBelow : children.parentOf id x = none := by
        cases found : children.parentOf id x with
        | none => rfl
        | some y => exact absurd (spine_sub behind) (apart x (mem_of_parentOf found))
      rw [parentOf, if_neg here, notBelow, ih distinctR behind]
      rfl

theorem parentOf_of_not_mem {above : ι} (absent : x ∉ f.ids) : f.parentOf above x = none := by
  cases found : f.parentOf above x with
  | none => rfl
  | some y => exact absurd (mem_of_parentOf found) absent

/-- The parent of a node that is not at the top level is itself in the forest,
and the node is one of its children. -/
theorem parentOf_kids {above : ι} (distinct : f.ids.Nodup) (below : x ∉ f.spine)
    (found : f.parentOf above x = some parent) : parent ∈ f.ids ∧ x ∈ (f.kids parent).spine := by
  induction f generalizing above with
  | nil => simp [parentOf] at found
  | node id label children rest ihc ihr =>
    obtain ⟨notChild, notRest, distinctC, distinctR, apart⟩ := nodup_node distinct
    simp only [spine, List.mem_cons, not_or] at below
    rw [parentOf, if_neg (Ne.symm below.1)] at found
    rcases Option.or_eq_some_iff.mp found with inside | ⟨_, behind⟩
    · by_cases top : x ∈ children.spine
      · have same : id = parent := Option.some.inj ((parentOf_spine distinctC top).symm.trans inside)
        rw [kids, if_pos same]
        exact ⟨by simp [same], top⟩
      · obtain ⟨member, kid⟩ := ihc distinctC top inside
        have other : id ≠ parent := fun same => notChild (same ▸ member)
        rw [kids, if_neg other, if_pos member]
        exact ⟨by simp [member], kid⟩
    · obtain ⟨member, kid⟩ := ihr distinctR below.2 behind
      have other : id ≠ parent := fun same => notRest (same ▸ member)
      rw [kids, if_neg other, if_neg (fun bad => apart parent bad member)]
      exact ⟨by simp [member], kid⟩

/-- A parent other than the node over the forest has its children in it. -/
theorem kid_of_parentOf {above : ι} (distinct : f.ids.Nodup) (found : f.parentOf above x = some parent)
    (other : parent ≠ above) : x ∈ (f.kids parent).spine := by
  refine (parentOf_kids distinct (fun top => other ?_) found).2
  exact Option.some.inj (found.symm.trans (parentOf_spine distinct top))

theorem parentOf_kid {above : ι} (distinct : f.ids.Nodup) (kid : y ∈ (f.kids x).spine) :
    f.parentOf above y = some x := by
  induction f generalizing above with
  | nil => simp [kids, spine] at kid
  | node id label children rest ihc ihr =>
    obtain ⟨notChild, notRest, distinctC, distinctR, apart⟩ := nodup_node distinct
    rw [kids] at kid
    rw [parentOf]
    by_cases here : id = x
    · rw [if_pos here] at kid
      have other : id ≠ y := fun same => notChild (same ▸ spine_sub kid)
      rw [if_neg other, parentOf_spine distinctC kid, here, Option.some_or]
    · rw [if_neg here] at kid
      by_cases deeper : x ∈ children.ids
      · rw [if_pos deeper] at kid
        have other : id ≠ y := fun same => notChild (same ▸ kids_sub (spine_sub kid))
        rw [if_neg other, ihc distinctC kid, Option.some_or]
      · rw [if_neg deeper] at kid
        have behind := kids_sub (spine_sub kid)
        have other : id ≠ y := fun same => notRest (same ▸ behind)
        rw [if_neg other, parentOf_of_not_mem (fun bad => apart y bad behind), Option.none_or, ihr distinctR kid]

/-- Erasing below the top level happens among the children of the parent. -/
theorem erase_eq_mapKids {above : ι} (distinct : f.ids.Nodup) (below : x ∉ f.spine)
    (found : f.parentOf above x = some parent) : f.erase x = f.mapKids parent (eraseTop x) := by
  induction f generalizing above with
  | nil => rfl
  | node id label children rest ihc ihr =>
    obtain ⟨notChild, notRest, distinctC, distinctR, apart⟩ := nodup_node distinct
    simp only [spine, List.mem_cons, not_or] at below
    have here : id ≠ x := Ne.symm below.1
    rw [parentOf, if_neg here] at found
    rw [erase, if_neg here]
    by_cases inside : x ∈ children.ids
    · have notBehind : x ∉ rest.ids := apart x inside
      rw [parentOf_of_not_mem notBehind, Option.or_none] at found
      rw [erase_of_not_mem notBehind]
      by_cases top : x ∈ children.spine
      · have same : id = parent := Option.some.inj ((parentOf_spine distinctC top).symm.trans found)
        rw [mapKids, if_pos same, erase_eq_eraseTop distinctC top]
      · have deeper : parent ∈ children.ids := (parentOf_kids distinctC top found).1
        have other : id ≠ parent := fun same => notChild (same ▸ deeper)
        rw [mapKids, if_neg other, ihc distinctC top found, mapKids_of_not_mem (apart parent deeper)]
    · rw [parentOf_of_not_mem inside, Option.none_or] at found
      rw [erase_of_not_mem inside]
      have deeper : parent ∈ rest.ids := (parentOf_kids distinctR below.2 found).1
      have other : id ≠ parent := fun same => notRest (same ▸ deeper)
      rw [mapKids, if_neg other, ihr distinctR below.2 found,
        mapKids_of_not_mem (fun bad => apart parent bad deeper)]

theorem label?_relabel {change : α → α} : (f.relabel x change).label? x = (f.label? x).map change := by
  induction f with
  | nil => rfl
  | node id label children rest ihc ihr =>
    rw [relabel, label?, label?, ihc, ihr]
    by_cases here : id = x
    · simp [here]
    · cases children.label? x <;> simp [here]

theorem relabel_relabel {change change' : α → α} :
    (f.relabel x change).relabel x change' = f.relabel x (change' ∘ change) := by
  induction f with
  | nil => rfl
  | node id label children rest ihc ihr =>
    simp only [relabel, ihc, ihr]
    by_cases here : id = x <;> simp [here]

theorem relabel_id : f.relabel x id = f := by
  induction f with
  | nil => rfl
  | node id label children rest ihc ihr => simp [relabel, ihc, ihr]

theorem label?_of_not_mem (absent : x ∉ f.ids) : f.label? x = none := by
  cases found : f.label? x with
  | none => rfl
  | some l => exact absurd (mem_of_label? found) absent

theorem label?_kids (distinct : f.ids.Nodup) (below : y ∈ (f.kids x).ids) : (f.kids x).label? y = f.label? y := by
  induction f with
  | nil => rfl
  | node id label children rest ihc ihr =>
    obtain ⟨notChild, notRest, distinctC, distinctR, apart⟩ := nodup_node distinct
    rw [kids] at below ⊢
    rw [label?]
    split at below
    · rename_i here
      have other : id ≠ y := fun same => notChild (same ▸ below)
      rw [if_pos here, if_neg other, label?_of_not_mem (apart y below), Option.or_none]
    · rename_i here
      rw [if_neg here]
      split at below
      · rename_i inside
        have other : id ≠ y := fun same => notChild (same ▸ kids_sub below)
        rw [if_pos inside, if_neg other, ihc distinctC below, label?_of_not_mem (apart y (kids_sub below)),
          Option.or_none]
      · rename_i outside
        have other : id ≠ y := fun same => notRest (same ▸ kids_sub below)
        have notBelow : y ∉ children.ids := fun bad => apart y bad (kids_sub below)
        rw [if_neg outside, if_neg other, ihr distinctR below, label?_of_not_mem notBelow, Option.none_or]

/-- The nodes that stay keep their labels. -/
theorem label?_erase (distinct : f.ids.Nodup) (live : y ∉ f.subtree x) : (f.erase x).label? y = f.label? y := by
  induction f with
  | nil => rfl
  | node id label children rest ihc ihr =>
    obtain ⟨_, _, distinctC, distinctR, _⟩ := nodup_node distinct
    rw [subtree] at live
    rw [erase]
    split at live
    · rename_i here
      rw [List.mem_cons, not_or] at live
      rw [if_pos here, label?, if_neg (Ne.symm live.1), label?_of_not_mem live.2, Option.none_or]
    · rename_i here
      rw [List.mem_append, not_or] at live
      rw [if_neg here, label?, label?, ihc distinctC live.1, ihr distinctR live.2]

/-- The nodes that stay keep their parents. -/
theorem parentOf_erase {above : ι} (distinct : f.ids.Nodup) (live : y ∉ f.subtree x) :
    (f.erase x).parentOf above y = f.parentOf above y := by
  induction f generalizing above with
  | nil => rfl
  | node id label children rest ihc ihr =>
    obtain ⟨_, _, distinctC, distinctR, _⟩ := nodup_node distinct
    rw [subtree] at live
    rw [erase]
    split at live
    · rename_i here
      rw [List.mem_cons, not_or] at live
      rw [if_pos here, parentOf, if_neg (Ne.symm live.1), parentOf_of_not_mem live.2, Option.none_or]
    · rename_i here
      rw [List.mem_append, not_or] at live
      rw [if_neg here, parentOf, parentOf, ihc distinctC live.1, ihr distinctR live.2]

theorem spine_erase_filter (distinct : f.ids.Nodup) : (f.erase x).spine = f.spine.filter (· ≠ x) := by
  induction f with
  | nil => rfl
  | node id label children rest _ ih =>
    obtain ⟨_, notRest, _, distinctR, _⟩ := nodup_node distinct
    by_cases here : id = x
    · have absent : x ∉ rest.spine := fun bad => notRest (here ▸ spine_sub bad)
      rw [erase, if_pos here, spine, List.filter_cons_of_neg (by simp [here]), List.filter_eq_self.mpr]
      intro y member
      have other : y ≠ x := fun same => absent (same ▸ member)
      simpa using other
    · rw [erase, if_neg here, spine, spine, List.filter_cons_of_pos (by simp [here]), ih distinctR]

/-- The nodes that stay keep their chains, up to the erased node. -/
theorem spine_kids_erase (distinct : f.ids.Nodup) (live : y ∉ f.subtree x) :
    ((f.erase x).kids y).spine = (f.kids y).spine.filter (· ≠ x) := by
  induction f with
  | nil => rfl
  | node id label children rest ihc ihr =>
    obtain ⟨notChild, notRest, distinctC, distinctR, apart⟩ := nodup_node distinct
    rw [subtree] at live
    by_cases here : id = x
    · rw [if_pos here, List.mem_cons, not_or] at live
      have absent : x ∉ (rest.kids y).spine := fun bad => notRest (here ▸ kids_sub (spine_sub bad))
      rw [erase, if_pos here, kids, if_neg (Ne.symm live.1), if_neg live.2, List.filter_eq_self.mpr]
      intro z member
      have other : z ≠ x := fun same => absent (same ▸ member)
      simpa using other
    · rw [if_neg here, List.mem_append, not_or] at live
      rw [erase, if_neg here, kids, kids]
      by_cases top : id = y
      · rw [if_pos top, if_pos top, spine_erase_filter distinctC]
      · rw [if_neg top, if_neg top]
        by_cases inside : y ∈ children.ids
        · rw [if_pos inside, if_pos ((mem_ids_erase distinctC).mpr ⟨inside, live.1⟩), ihc distinctC live.1]
        · rw [if_neg inside, if_neg (fun bad => inside (ids_erase_sublist.subset bad)), ihr distinctR live.2]

end Forest

end UmkaOs.Lib
