import Mathlib.Logic.Relation

namespace UmkaOs.Lib

universe u

variable {State : Type u} {Step : State → State → Prop} {place : State → Prop} {s t : State}

/-- Somewhere on its way the system is in such a place. -/
def Comes (Step : State → State → Prop) (place : State → Prop) (s : State) : Prop :=
  ∃ t, Relation.ReflTransGen Step s t ∧ place t

theorem comes_iff : Comes Step place s ↔ place s ∨ ∃ t, Step s t ∧ Comes Step place t := by
  constructor
  · rintro ⟨t, path, there⟩
    rcases Relation.ReflTransGen.cases_head_iff.mp path with rfl | ⟨next, step, later⟩
    · exact .inl there
    · exact .inr ⟨next, step, t, later, there⟩
  · rintro (here | ⟨next, step, t, later, there⟩)
    · exact ⟨s, .refl, here⟩
    · exact ⟨t, .head step later, there⟩

theorem comes_stuck (stuck : ∀ t, ¬ Step s t) : Comes Step place s ↔ place s := by
  rw [comes_iff, or_iff_left]
  rintro ⟨t, step, -⟩
  exact stuck t step

theorem comes_next (only : ∀ t', Step s t' ↔ t' = t) : Comes Step place s ↔ place s ∨ Comes Step place t := by
  rw [comes_iff]
  simp only [only, exists_eq_left]

theorem kept {Inv : State → Prop} (keeps : ∀ s t, Step s t → Inv s → Inv t) (path : Relation.ReflTransGen Step s t)
    (inv : Inv s) : Inv t := by
  induction path with
  | refl => exact inv
  | tail _ step ih => exact keeps _ _ step ih

theorem not_comes : ¬ Comes Step place s ↔ ∀ t, Relation.ReflTransGen Step s t → ¬ place t := by
  simp only [Comes, not_exists, not_and]

end UmkaOs.Lib
