import UmkaOs.Lib.Forest

namespace UmkaOs.Lib.Forest

variable {ι α : Type*}

/-- `g` behind the top-level nodes of `f`. -/
def append : Forest ι α → Forest ι α → Forest ι α
  | nil, g => g
  | node id l children rest, g => node id l children (rest.append g)

variable {f g h : Forest ι α} {x y : ι} {l : α} {wanted : α → Bool}

@[simp] theorem append_nil : f.append nil = f := by
  induction f with
  | nil => rfl
  | node id label children rest _ ih => rw [append, ih]

theorem append_assoc : (f.append g).append h = f.append (g.append h) := by
  induction f with
  | nil => rfl
  | node id label children rest _ ih => rw [append, append, append, ih]

theorem snoc_eq_append : f.snoc x l = f.append (node x l nil nil) := by
  induction f with
  | nil => rfl
  | node id label children rest _ ih => rw [snoc, append, ih]

@[simp] theorem ids_append : (f.append g).ids = f.ids ++ g.ids := by
  induction f with
  | nil => rfl
  | node id label children rest _ ih => simp [append, ih]

theorem firstWith_append : (f.append g).firstWith wanted = (f.firstWith wanted).or (g.firstWith wanted) := by
  induction f with
  | nil => simp [append, firstWith]
  | node id label children rest _ ih =>
    rw [append, firstWith, firstWith]
    split
    · rfl
    · exact ih

variable [DecidableEq ι]

theorem mapKids_append {change : Forest ι α → Forest ι α} (absent : x ∉ f.ids) :
    (f.append g).mapKids x change = f.append (g.mapKids x change) := by
  induction f with
  | nil => rfl
  | node id label children rest _ ih =>
    simp only [ids_node, List.mem_cons, List.mem_append, not_or] at absent
    rw [append, mapKids, if_neg (Ne.symm absent.1), mapKids_of_not_mem absent.2.1, ih absent.2.2, append]

theorem relabel_of_not_mem {change : α → α} (absent : x ∉ f.ids) : f.relabel x change = f := by
  induction f with
  | nil => rfl
  | node id label children rest ihc ihr =>
    simp only [ids_node, List.mem_cons, List.mem_append, not_or] at absent
    rw [relabel, if_neg (Ne.symm absent.1), ihc absent.2.1, ihr absent.2.2]

theorem relabel_append {change : α → α} :
    (f.append g).relabel x change = (f.relabel x change).append (g.relabel x change) := by
  induction f with
  | nil => rfl
  | node id label children rest _ ih => rw [append, relabel, relabel, append, ih]

theorem firstWith_mapKids {change : Forest ι α → Forest ι α} :
    (f.mapKids x change).firstWith wanted = f.firstWith wanted := by
  induction f with
  | nil => rfl
  | node id label children rest _ ih =>
    rw [mapKids]
    split
    · rfl
    · rw [firstWith, firstWith, ih]

/-- `g` behind the children of `x`. -/
def attach (f : Forest ι α) (x : ι) (g : Forest ι α) : Forest ι α := f.mapKids x (·.append g)

theorem addLeaf_eq_attach : f.addLeaf y x l = f.attach y (node x l nil nil) := by
  have leaf : snoc x l = fun f : Forest ι α => f.append (node x l nil nil) := funext fun _ => snoc_eq_append
  rw [addLeaf_eq_mapKids, attach, leaf]

theorem attach_of_not_mem (absent : x ∉ f.ids) : f.attach x g = f := mapKids_of_not_mem absent

@[simp] theorem attach_nil : f.attach x nil = f := by
  induction f with
  | nil => rfl
  | node id label children rest ihc ihr =>
    rw [attach] at ihc ihr ⊢
    rw [mapKids]
    split
    · rw [append_nil]
    · rw [ihc, ihr]

theorem attach_attach : (f.attach x g).attach x h = f.attach x (g.append h) := by
  induction f with
  | nil => rfl
  | node id label children rest ihc ihr =>
    simp only [attach] at ihc ihr ⊢
    by_cases here : id = x
    · simp only [mapKids, here, if_true, append_assoc]
    · simp only [mapKids, here, if_false, ihc, ihr]

theorem attach_leaf (absent : y ∉ f.ids) :
    (f.attach x (node y l nil nil)).attach y g = f.attach x (node y l g nil) := by
  induction f with
  | nil => rfl
  | node id label children rest ihc ihr =>
    simp only [ids_node, List.mem_cons, List.mem_append, not_or] at absent
    obtain ⟨other, notChild, notRest⟩ := absent
    simp only [attach] at ihc ihr ⊢
    by_cases here : id = x
    · simp only [mapKids, here, if_true]
      rw [if_neg (here ▸ Ne.symm other), mapKids_append notChild, mapKids_of_not_mem notRest]
      simp [mapKids, append]
    · simp only [mapKids, here, if_false, Ne.symm other, ihc notChild, ihr notRest]

theorem relabel_attach_leaf {change : α → α} (absent : y ∉ f.ids) :
    (f.attach x (node y l nil nil)).relabel y change = f.attach x (node y (change l) nil nil) := by
  induction f with
  | nil => rfl
  | node id label children rest ihc ihr =>
    simp only [ids_node, List.mem_cons, List.mem_append, not_or] at absent
    obtain ⟨other, notChild, notRest⟩ := absent
    simp only [attach] at ihc ihr ⊢
    by_cases here : id = x
    · simp only [mapKids, here, if_true, relabel, relabel_append, relabel_of_not_mem notChild,
        relabel_of_not_mem notRest]
      rw [if_neg (here ▸ Ne.symm other)]
    · simp only [mapKids, here, if_false, relabel, Ne.symm other, ihc notChild, ihr notRest]

theorem ids_attach_perm (distinct : f.ids.Nodup) (member : x ∈ f.ids) : (f.attach x g).ids.Perm (f.ids ++ g.ids) := by
  induction f with
  | nil => simp [ids] at member
  | node id label children rest ihc ihr =>
    obtain ⟨_, _, distinctC, distinctR, apart⟩ := nodup_node distinct
    rw [attach, mapKids]
    by_cases here : id = x
    · rw [if_pos here]
      simp only [ids_node, ids_append, List.cons_append, List.append_assoc]
      exact ((List.perm_append_comm).append_left _).cons _
    · rw [if_neg here]
      simp only [ids_node, List.mem_cons, List.mem_append] at member
      simp only [ids_node, List.cons_append, List.append_assoc]
      rcases member.resolve_left (Ne.symm here) with inside | behind
      · rw [mapKids_of_not_mem (apart x inside)]
        refine List.Perm.cons id (((ihc distinctC inside).append_right rest.ids).trans ?_)
        rw [List.append_assoc]
        exact (List.perm_append_comm).append_left _
      · rw [mapKids_of_not_mem (fun inside => apart x inside behind)]
        exact List.Perm.cons id ((ihr distinctR behind).append_left children.ids)

theorem mem_attach (distinct : f.ids.Nodup) (member : x ∈ f.ids) : y ∈ (f.attach x g).ids ↔ y ∈ f.ids ∨ y ∈ g.ids := by
  rw [(ids_attach_perm distinct member).mem_iff, List.mem_append]

theorem kids_append (member : y ∈ f.ids) : (f.append g).kids y = f.kids y := by
  induction f with
  | nil => simp [ids] at member
  | node id label children rest _ ih =>
    simp only [ids_node, List.mem_cons, List.mem_append] at member
    rw [append, kids, kids]
    by_cases here : id = y
    · rw [if_pos here, if_pos here]
    · rw [if_neg here, if_neg here]
      by_cases inside : y ∈ children.ids
      · rw [if_pos inside, if_pos inside]
      · rw [if_neg inside, if_neg inside, ih ((member.resolve_left (Ne.symm here)).resolve_left inside)]

theorem kids_attach (distinct : f.ids.Nodup) (apart : ∀ z ∈ f.ids, z ∉ g.ids) (member : y ∈ f.ids) :
    (f.attach x g).kids y = if y = x then (f.kids y).append g else (f.kids y).attach x g := by
  induction f with
  | nil => simp [ids] at member
  | node id label children rest ihc ihr =>
    obtain ⟨notChild, notRest, distinctC, distinctR, between⟩ := nodup_node distinct
    have apartC : ∀ z ∈ children.ids, z ∉ g.ids := fun z inside => apart z (by simp [inside])
    have apartR : ∀ z ∈ rest.ids, z ∉ g.ids := fun z inside => apart z (by simp [inside])
    have outside := apart y member
    simp only [ids_node, List.mem_cons, List.mem_append] at member
    have below : kids y (node id label children rest) =
        if id = y then children else if y ∈ children.ids then children.kids y else rest.kids y := rfl
    rw [below]
    by_cases here : id = x
    · subst here
      have grown : (node id label children rest).attach id g = node id label (children.append g) rest := if_pos rfl
      rw [grown, kids]
      by_cases top : id = y
      · simp [top]
      · have kept : y ∈ (children.append g).ids ↔ y ∈ children.ids := by simp [outside]
        rw [if_neg top, if_neg top, if_neg (Ne.symm top)]
        rcases member.resolve_left (Ne.symm top) with inside | behind
        · rw [if_pos (kept.mpr inside), if_pos inside, kids_append inside,
            attach_of_not_mem (fun bad => notChild (kids_sub bad))]
        · have notInside : y ∉ children.ids := fun inside => between y inside behind
          rw [if_neg (fun bad => notInside (kept.mp bad)), if_neg notInside,
            attach_of_not_mem (fun bad => notRest (kids_sub bad))]
    · have grown : (node id label children rest).attach x g =
          node id label (children.attach x g) (rest.attach x g) := if_neg here
      rw [grown, kids]
      by_cases top : id = y
      · rw [if_pos top, if_pos top, if_neg (top ▸ here)]
      · rw [if_neg top, if_neg top]
        have kept : y ∈ (children.attach x g).ids ↔ y ∈ children.ids := by
          by_cases inside : x ∈ children.ids
          · rw [mem_attach distinctC inside]
            simp [outside]
          · rw [attach_of_not_mem inside]
        rcases member.resolve_left (Ne.symm top) with inside | behind
        · rw [if_pos (kept.mpr inside), if_pos inside, ihc distinctC apartC inside]
        · have notInside : y ∉ children.ids := fun inside => between y inside behind
          rw [if_neg (fun bad => notInside (kept.mp bad)), if_neg notInside, ihr distinctR apartR behind]

theorem kids_append_new (absent : y ∉ f.ids) : (f.append g).kids y = g.kids y := by
  induction f with
  | nil => rfl
  | node id label children rest _ ih =>
    simp only [ids_node, List.mem_cons, List.mem_append, not_or] at absent
    rw [append, kids, if_neg (Ne.symm absent.1), if_neg absent.2.1, ih absent.2.2]

theorem kids_attach_leaf (fresh : y ∉ f.ids) : (f.attach x (node y l nil nil)).kids y = nil := by
  induction f with
  | nil => rfl
  | node id label children rest ihc ihr =>
    simp only [ids_node, List.mem_cons, List.mem_append, not_or] at fresh
    obtain ⟨other, notChild, notRest⟩ := fresh
    by_cases here : id = x
    · have grown : (node id label children rest).attach x (node y l nil nil) =
          node id label (children.append (node y l nil nil)) rest := if_pos here
      rw [grown, kids, if_neg (Ne.symm other), if_pos (by simp), kids_append_new notChild]
      simp [kids]
    · have grown : (node id label children rest).attach x (node y l nil nil) =
          node id label (children.attach x (node y l nil nil)) (rest.attach x (node y l nil nil)) := if_neg here
      rw [grown, kids, if_neg (Ne.symm other), ihc notChild, ihr notRest, ite_self]

theorem parentOf_append {above : ι} (old : y ∉ g.ids) : (f.append g).parentOf above y = f.parentOf above y := by
  induction f with
  | nil => exact parentOf_of_not_mem old
  | node id label children rest _ ih => rw [append, parentOf, parentOf, ih]

theorem label?_append (old : y ∉ g.ids) : (f.append g).label? y = f.label? y := by
  induction f with
  | nil => exact label?_of_not_mem old
  | node id label children rest _ ih => rw [append, label?, label?, ih]

theorem parentOf_attach {above : ι} (old : y ∉ g.ids) : (f.attach x g).parentOf above y = f.parentOf above y := by
  induction f generalizing above with
  | nil => rfl
  | node id label children rest ihc ihr =>
    rw [attach] at ihc ihr ⊢
    rw [mapKids]
    split
    · rw [parentOf, parentOf, parentOf_append old]
    · rw [parentOf, parentOf, ihc, ihr]

theorem label?_attach (old : y ∉ g.ids) : (f.attach x g).label? y = f.label? y := by
  induction f with
  | nil => rfl
  | node id label children rest ihc ihr =>
    rw [attach] at ihc ihr ⊢
    rw [mapKids]
    split
    · rw [label?, label?, label?_append old]
    · rw [label?, label?, ihc, ihr]

theorem parentOf_append_new {above : ι} (absent : y ∉ f.ids) :
    (f.append g).parentOf above y = g.parentOf above y := by
  induction f with
  | nil => rfl
  | node id label children rest _ ih =>
    simp only [ids_node, List.mem_cons, List.mem_append, not_or] at absent
    rw [append, parentOf, if_neg (Ne.symm absent.1), parentOf_of_not_mem absent.2.1, Option.none_or, ih absent.2.2]

theorem label?_append_new (absent : y ∉ f.ids) : (f.append g).label? y = g.label? y := by
  induction f with
  | nil => rfl
  | node id label children rest _ ih =>
    simp only [ids_node, List.mem_cons, List.mem_append, not_or] at absent
    rw [append, label?, if_neg (Ne.symm absent.1), label?_of_not_mem absent.2.1, Option.none_or, ih absent.2.2]

theorem attach_leaf_new {above : ι} (distinct : f.ids.Nodup) (member : x ∈ f.ids) (absent : y ∉ f.ids) :
    (f.attach x (node y l nil nil)).parentOf above y = some x ∧
      (f.attach x (node y l nil nil)).label? y = some l := by
  induction f generalizing above with
  | nil => simp [ids] at member
  | node id label children rest ihc ihr =>
    obtain ⟨_, _, distinctC, distinctR, apart⟩ := nodup_node distinct
    simp only [ids_node, List.mem_cons, List.mem_append, not_or] at absent member
    obtain ⟨other, notChild, notRest⟩ := absent
    by_cases here : id = x
    · have grown : (node id label children rest).attach x (node y l nil nil) =
          node id label (children.append (node y l nil nil)) rest := if_pos here
      rw [grown, parentOf, label?, if_neg (Ne.symm other), if_neg (Ne.symm other), parentOf_append_new notChild,
        label?_append_new notChild]
      simp [parentOf, label?, here]
    · have grown : (node id label children rest).attach x (node y l nil nil) =
          node id label (children.attach x (node y l nil nil)) (rest.attach x (node y l nil nil)) := if_neg here
      rw [grown, parentOf, label?, if_neg (Ne.symm other), if_neg (Ne.symm other)]
      rcases member.resolve_left (Ne.symm here) with inside | behind
      · obtain ⟨parent, named⟩ := @ihc id distinctC inside notChild
        rw [parent, named]
        exact ⟨rfl, rfl⟩
      · have outside : x ∉ children.ids := fun inside => apart x inside behind
        obtain ⟨parent, named⟩ := @ihr above distinctR behind notRest
        rw [attach_of_not_mem outside, parentOf_of_not_mem notChild, label?_of_not_mem notChild, parent, named]
        exact ⟨rfl, rfl⟩

theorem parentOf_relabel {above : ι} {change : α → α} : (f.relabel x change).parentOf above y = f.parentOf above y := by
  induction f generalizing above with
  | nil => rfl
  | node id label children rest ihc ihr => rw [relabel, parentOf, parentOf, ihc, ihr]

theorem kids_relabel {change : α → α} : (f.relabel x change).kids y = (f.kids y).relabel x change := by
  induction f with
  | nil => rfl
  | node id label children rest ihc ihr =>
    rw [relabel, kids, kids, ids_relabel]
    split
    · rfl
    · split
      · exact ihc
      · exact ihr

theorem label?_relabel_of_ne {change : α → α} (other : y ≠ x) : (f.relabel x change).label? y = f.label? y := by
  induction f with
  | nil => rfl
  | node id label children rest ihc ihr =>
    rw [relabel, label?, label?, ihc, ihr]
    by_cases here : id = y
    · rw [if_pos here, if_pos here, if_neg (here ▸ other)]
    · rw [if_neg here, if_neg here]

theorem firstWith_relabel {change : α → α} (blind : ∀ a, wanted (change a) = wanted a) :
    (f.relabel x change).firstWith wanted = f.firstWith wanted := by
  induction f with
  | nil => rfl
  | node id label children rest _ ih =>
    rw [relabel, firstWith, firstWith, ih]
    by_cases here : id = x
    · rw [if_pos here, blind]
    · rw [if_neg here]

/-- A search that succeeds has found a node with a wanted label. -/
theorem firstWith_label (distinct : f.ids.Nodup) (found : f.firstWith wanted = some x) :
    ∃ l, f.label? x = some l ∧ wanted l = true := by
  induction f with
  | nil => cases found
  | node id label children rest _ ih =>
    obtain ⟨_, notRest, _, distinctR, apart⟩ := nodup_node distinct
    rw [firstWith] at found
    split at found
    · rename_i good
      cases found
      exact ⟨label, by rw [label?, if_pos rfl], good⟩
    · obtain ⟨l, labelled, good⟩ := ih distinctR found
      have behind := spine_sub (firstWith_mem found)
      have notHere : id ≠ x := fun same => notRest (same ▸ behind)
      have notBelow : x ∉ children.ids := fun inside => apart x inside behind
      exact ⟨l, by rw [label?, if_neg notHere, label?_of_not_mem notBelow, Option.none_or, labelled], good⟩

/-- A search that fails has seen every top-level node. -/
theorem firstWith_none (fails : f.firstWith wanted = none) (distinct : f.ids.Nodup) (top : y ∈ f.spine)
    (labelled : f.label? y = some l) : wanted l = false := by
  induction f with
  | nil => simp [spine] at top
  | node id label children rest _ ih =>
    obtain ⟨_, _, _, distinctR, apart⟩ := nodup_node distinct
    rw [firstWith] at fails
    split at fails
    · cases fails
    · rename_i unwanted
      rw [label?] at labelled
      rcases List.mem_cons.mp top with rfl | behind
      · rw [if_pos rfl] at labelled
        cases labelled
        simpa using unwanted
      · have behindIds := spine_sub behind
        have notHere : id ≠ y := by
          rintro rfl
          exact (nodup_node distinct).2.1 behindIds
        have notBelow : y ∉ children.ids := fun inside => apart y inside behindIds
        rw [if_neg notHere, label?_of_not_mem notBelow, Option.none_or] at labelled
        exact ih fails distinctR behind labelled

end UmkaOs.Lib.Forest
