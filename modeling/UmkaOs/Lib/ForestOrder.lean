import UmkaOs.Lib.ForestAppend

namespace UmkaOs.Lib.Forest

variable {ι α : Type*} {f g : Forest ι α} {x y above parent : ι} {l : α} {R S : ι → ι → Prop}

theorem spine_append : (f.append g).spine = f.spine ++ g.spine := by
  induction f with
  | nil => rfl
  | node id label children rest _ ih => rw [append, spine, spine, ih, List.cons_append]

variable [DecidableEq ι]

theorem mem_of_subtree (inside : x ∈ f.subtree y) : y ∈ f.ids := by
  by_contra absent
  rw [subtree_of_not_mem absent] at inside
  cases inside

/-- Where a node below `y` stands, part by part. -/
theorem mem_subtree_node {id : ι} {children rest : Forest ι α} (inside : x ∈ (node id l children rest).subtree y) :
    y = id ∧ (x = id ∨ x ∈ children.ids) ∨ x ∈ children.subtree y ∨ x ∈ rest.subtree y := by
  rw [subtree] at inside
  split at inside
  · rename_i here
    exact .inl ⟨here.symm, List.mem_cons.mp inside⟩
  · exact .inr (List.mem_append.mp inside)

section Node

variable {id : ι} {children rest : Forest ι α} (distinct : (node id l children rest).ids.Nodup)

include distinct

theorem parentOf_below (below : y ∈ children.ids) :
    (node id l children rest).parentOf above y = children.parentOf id y := by
  obtain ⟨notChild, _, _, _, apart⟩ := nodup_node distinct
  have other : id ≠ y := fun same => notChild (same ▸ below)
  rw [parentOf, if_neg other, parentOf_of_not_mem (apart y below), Option.or_none]

theorem parentOf_behind (behind : y ∈ rest.ids) :
    (node id l children rest).parentOf above y = rest.parentOf above y := by
  obtain ⟨_, notRest, _, _, apart⟩ := nodup_node distinct
  have other : id ≠ y := fun same => notRest (same ▸ behind)
  rw [parentOf, if_neg other, parentOf_of_not_mem (fun below => apart y below behind), Option.none_or]

theorem label?_below (below : y ∈ children.ids) : (node id l children rest).label? y = children.label? y := by
  obtain ⟨notChild, _, _, _, apart⟩ := nodup_node distinct
  have other : id ≠ y := fun same => notChild (same ▸ below)
  rw [label?, if_neg other, label?_of_not_mem (apart y below), Option.or_none]

theorem label?_behind (behind : y ∈ rest.ids) : (node id l children rest).label? y = rest.label? y := by
  obtain ⟨_, notRest, _, _, apart⟩ := nodup_node distinct
  have other : id ≠ y := fun same => notRest (same ▸ behind)
  rw [label?, if_neg other, label?_of_not_mem (fun below => apart y below behind), Option.none_or]

theorem kids_below (below : y ∈ children.ids) : (node id l children rest).kids y = children.kids y := by
  have other : id ≠ y := fun same => (nodup_node distinct).1 (same ▸ below)
  rw [kids, if_neg other, if_pos below]

theorem kids_behind (behind : y ∈ rest.ids) : (node id l children rest).kids y = rest.kids y := by
  obtain ⟨_, notRest, _, _, apart⟩ := nodup_node distinct
  have other : id ≠ y := fun same => notRest (same ▸ behind)
  rw [kids, if_neg other, if_neg (fun below => apart y below behind)]

end Node

/-- Behind a node in depth-first order there is none above it. -/
theorem ids_pairwise_subtree (distinct : f.ids.Nodup) : f.ids.Pairwise fun x y => x ∉ f.subtree y := by
  induction f with
  | nil => exact .nil
  | node id label children rest ihc ihr =>
    obtain ⟨notChild, notRest, distinctC, distinctR, apart⟩ := nodup_node distinct
    rw [ids_node, List.pairwise_cons, List.pairwise_append]
    refine ⟨fun y member inside => ?_, (ihc distinctC).imp_of_mem fun {x y} hx hy later inside => ?_,
      (ihr distinctR).imp_of_mem fun {x y} hx hy later inside => ?_, fun x hx y hy inside => ?_⟩
    · rcases mem_subtree_node inside with ⟨rfl, _⟩ | below | behind
      · exact (List.nodup_cons.mp distinct).1 member
      · exact notChild (subtree_sub below)
      · exact notRest (subtree_sub behind)
    · rcases mem_subtree_node inside with ⟨rfl, _⟩ | below | behind
      · exact notChild hy
      · exact later below
      · exact apart x hx (subtree_sub behind)
    · rcases mem_subtree_node inside with ⟨rfl, _⟩ | below | behind
      · exact notRest hy
      · exact apart x (subtree_sub below) hx
      · exact later behind
    · rcases mem_subtree_node inside with ⟨rfl, _⟩ | below | behind
      · exact notRest hy
      · exact apart y (mem_of_subtree below) hy
      · exact apart x hx (subtree_sub behind)

/-- The nodes directly below the upper node of the whole forest are the top-level ones. -/
theorem mem_spine_of_parentOf (distinct : f.ids.Nodup) (outside : above ∉ f.ids)
    (parent : f.parentOf above x = some above) : x ∈ f.spine := by
  by_contra deeper
  exact outside (parentOf_kids distinct deeper parent).1

/-- Every chain of children is ordered. -/
def Chains (R : ι → ι → Prop) (f : Forest ι α) : Prop := ∀ z ∈ f.ids, (f.kids z).spine.Pairwise R

/-- Whatever is below one sibling comes before whatever is below a later one. -/
theorem ids_pairwise_branches (distinct : f.ids.Nodup) (outside : above ∉ f.ids) (top : f.spine.Pairwise R)
    (chains : f.Chains R) :
    f.ids.Pairwise fun x y => ∀ a b z, x ∈ f.subtree a → y ∈ f.subtree b → a ≠ b →
      f.parentOf above a = some z → f.parentOf above b = some z → R a b := by
  induction f generalizing above with
  | nil => exact .nil
  | node id label children rest ihc ihr =>
    obtain ⟨notChild, notRest, distinctC, distinctR, apart⟩ := nodup_node distinct
    have spine := fun x => @mem_spine_of_parentOf _ _ _ x above _ distinct outside
    simp only [Chains, ids_node, List.mem_cons, List.mem_append, not_or] at outside chains
    obtain ⟨notHere, notBelow, notBehind⟩ := outside
    obtain ⟨before, top⟩ := List.pairwise_cons.mp top
    have here : (node id label children rest).parentOf above id = some above := by rw [parentOf, if_pos rfl]
    have front : ∀ b z, id ≠ b → (node id label children rest).parentOf above id = some z →
        (node id label children rest).parentOf above b = some z → R id b := by
      intro b z other parentA parentB
      cases here.symm.trans parentA
      exact before b ((List.mem_cons.mp (spine b parentB)).resolve_left (Ne.symm other))
    rw [ids_node, List.pairwise_cons, List.pairwise_append]
    refine ⟨fun y member a b z insideA insideB other parentA parentB => ?_,
      (ihc distinctC notChild ?_ fun z below => ?_).imp_of_mem ?_,
      (ihr distinctR notBehind top fun z behind => ?_).imp_of_mem ?_,
      fun x hx y hy a b z insideA insideB other parentA parentB => ?_⟩
    · rcases mem_subtree_node insideA with ⟨rfl, _⟩ | below | behind
      · exact front b z other parentA parentB
      · exact absurd (subtree_sub below) notChild
      · exact absurd (subtree_sub behind) notRest
    · have whole := chains id (.inl rfl)
      rwa [kids, if_pos rfl] at whole
    · exact kids_below distinct below ▸ chains z (.inr (.inl below))
    · intro x y hx hy related a b z insideA insideB other parentA parentB
      rcases mem_subtree_node insideA with ⟨rfl, _⟩ | belowA | behindA
      · exact front b z other parentA parentB
      · rcases mem_subtree_node insideB with ⟨rfl, _⟩ | belowB | behindB
        · -- the parent of a child is not above all
          cases here.symm.trans parentB
          have beside := (List.mem_cons.mp (spine a parentA)).resolve_left other
          exact absurd (spine_sub beside) (apart a (mem_of_subtree belowA))
        · rw [parentOf_below distinct (mem_of_subtree belowA)] at parentA
          rw [parentOf_below distinct (mem_of_subtree belowB)] at parentB
          exact related a b z belowA belowB other parentA parentB
        · exact absurd (subtree_sub behindB) (apart y hy)
      · exact absurd (subtree_sub behindA) (apart x hx)
    · exact kids_behind distinct behind ▸ chains z (.inr (.inr behind))
    · intro x y hx hy related a b z insideA insideB other parentA parentB
      rcases mem_subtree_node insideA with ⟨_, rfl | below⟩ | belowA | behindA
      · exact absurd hx notRest
      · exact absurd hx (apart x below)
      · exact absurd hx (apart x (subtree_sub belowA))
      · rcases mem_subtree_node insideB with ⟨_, rfl | below⟩ | belowB | behindB
        · exact absurd hy notRest
        · exact absurd hy (apart y below)
        · exact absurd hy (apart y (subtree_sub belowB))
        · rw [parentOf_behind distinct (mem_of_subtree behindA)] at parentA
          rw [parentOf_behind distinct (mem_of_subtree behindB)] at parentB
          exact related a b z behindA behindB other parentA parentB
    · rcases mem_subtree_node insideA with ⟨rfl, _⟩ | belowA | behindA
      · exact front b z other parentA parentB
      · rcases mem_subtree_node insideB with ⟨_, rfl | below⟩ | belowB | behindB
        · exact absurd hy notRest
        · exact absurd hy (apart y below)
        · exact absurd hy (apart y (subtree_sub belowB))
        · -- the parents of the two nodes lie in different parts
          rw [parentOf_below distinct (mem_of_subtree belowA)] at parentA
          rw [parentOf_behind distinct (mem_of_subtree behindB)] at parentB
          rcases parentOf_mem parentA with rfl | inA <;> rcases parentOf_mem parentB with sameB | inB
          · exact absurd sameB.symm notHere
          · exact absurd inB notRest
          · exact absurd (sameB ▸ inA) notBelow
          · exact absurd inB (apart z inA)
      · exact absurd (subtree_sub behindA) (apart x hx)

theorem Chains.imp (chains : f.Chains R) (weaker : ∀ x y, R x y → S x y) : f.Chains S :=
  fun z member => (chains z member).imp (fun {x y} => weaker x y)

theorem Chains.relabel {change : α → α} (chains : f.Chains R) : (f.relabel x change).Chains R := by
  intro z member
  rw [ids_relabel] at member
  rw [kids_relabel, spine_relabel]
  exact chains z member

theorem Chains.addLeaf (chains : f.Chains R) (distinct : f.ids.Nodup) (member : parent ∈ f.ids) (absent : x ∉ f.ids)
    (last : ∀ y ∈ (f.kids parent).spine, R y x) : (f.addLeaf parent x l).Chains R := by
  intro z inside
  have apart : ∀ z ∈ f.ids, z ∉ (node x l nil nil : Forest ι α).ids := by
    intro z old
    simpa [ids] using fun same : z = x => absent (same ▸ old)
  rw [addLeaf_eq_attach] at inside ⊢
  rcases (mem_attach distinct member).mp inside with old | new
  · rw [kids_attach distinct apart old]
    by_cases here : z = parent
    · subst here
      rw [if_pos rfl, spine_append, List.pairwise_append]
      refine ⟨chains z old, List.pairwise_singleton _ _, fun y kid w new => ?_⟩
      rw [List.mem_singleton.mp new]
      exact last y kid
    · rw [if_neg here, ← addLeaf_eq_attach, spine_addLeaf]
      exact chains z old
  · rw [List.mem_singleton.mp new, kids_attach_leaf absent]
    exact .nil

theorem Chains.erase (chains : f.Chains R) (distinct : f.ids.Nodup) : (f.erase x).Chains R := by
  intro z member
  obtain ⟨old, live⟩ := (mem_ids_erase distinct).mp member
  rw [spine_kids_erase distinct live]
  exact (chains z old).filter _

end UmkaOs.Lib.Forest
