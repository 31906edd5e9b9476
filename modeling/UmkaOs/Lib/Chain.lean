import Mathlib.Data.List.Nodup
import Mathlib.Logic.Function.Basic

/-! Null-terminated chains in a store of links. A chain is read off from a
`next` function, so the lemmas apply to any record that carries one link. -/

namespace UmkaOs.Lib

variable {α : Type*} {next next' : α → α} {null p : α}

/-- Following `next` from `p` visits exactly `xs` and then reaches `null`. -/
def Chain (next : α → α) (null : α) : α → List α → Prop
  | p, [] => p = null
  | p, x :: xs => p = x ∧ x ≠ null ∧ Chain next null (next x) xs

namespace Chain

@[simp] theorem nil_iff : Chain next null p [] ↔ p = null := Iff.rfl

@[simp] theorem cons_iff {x : α} {xs : List α} :
    Chain next null p (x :: xs) ↔ p = x ∧ x ≠ null ∧ Chain next null (next x) xs := Iff.rfl

/-- Only the links of the chain's own members matter. -/
theorem congr {xs : List α} (chain : Chain next null p xs)
    (agree : ∀ x ∈ xs, next' x = next x) : Chain next' null p xs := by
  induction xs generalizing p with
  | nil => exact chain
  | cons x xs ih =>
    obtain ⟨same, nonnull, rest⟩ := chain
    refine ⟨same, nonnull, ?_⟩
    rw [agree x (by simp)]
    exact ih rest (fun y member => agree y (by simp [member]))

theorem unique {xs ys : List α} (first : Chain next null p xs) (second : Chain next null p ys) :
    xs = ys := by
  induction xs generalizing p ys with
  | nil =>
    cases ys with
    | nil => rfl
    | cons y ys => exact absurd (second.1.symm.trans first) second.2.1
  | cons x xs ih =>
    cases ys with
    | nil => exact absurd (first.1.symm.trans second) first.2.1
    | cons y ys =>
      obtain ⟨headX, _, restX⟩ := first
      obtain ⟨headY, _, restY⟩ := second
      have same : x = y := headX.symm.trans headY
      subst same
      rw [ih restX restY]

theorem suffix {xs ys : List α} {x : α} (chain : Chain next null p (xs ++ x :: ys)) :
    Chain next null x (x :: ys) := by
  induction xs generalizing p with
  | nil => exact ⟨rfl, chain.2.1, chain.2.2⟩
  | cons y xs ih => exact ih chain.2.2

/-- A chain that ends cannot visit a node twice. -/
theorem nodup {xs : List α} (chain : Chain next null p xs) : xs.Nodup := by
  induction xs generalizing p with
  | nil => exact List.nodup_nil
  | cons x xs ih =>
    refine List.nodup_cons.mpr ⟨?_, ih chain.2.2⟩
    intro member
    obtain ⟨front, back, split⟩ := List.append_of_mem member
    have whole : Chain next null x (x :: xs) := ⟨rfl, chain.2.1, chain.2.2⟩
    have parted : Chain next null (next x) (front ++ x :: back) := split ▸ chain.2.2
    have same := congrArg List.length (whole.unique parted.suffix)
    simp [split] at same
    omega

theorem eq_nil_of_null {xs : List α} (chain : Chain next null null xs) : xs = [] :=
  chain.unique rfl

theorem cons_of_ne {xs : List α} (chain : Chain next null p xs) (nonnull : p ≠ null) :
    ∃ rest, xs = p :: rest ∧ Chain next null (next p) rest := by
  cases xs with
  | nil => exact absurd chain nonnull
  | cons x rest =>
    obtain ⟨same, _, tail⟩ := chain
    subst same
    exact ⟨rest, rfl, tail⟩

theorem push [DecidableEq α] {xs : List α} {x : α} (chain : Chain next null p xs) (nonnull : x ≠ null)
    (fresh : x ∉ xs) : Chain (Function.update next x p) null x (x :: xs) := by
  refine ⟨rfl, nonnull, ?_⟩
  rw [Function.update_self]
  apply chain.congr
  intro y member
  exact Function.update_of_ne (fun same => fresh (by rwa [← same])) _ _

/-- Rerouting the predecessor's link past `x` removes just `x`. -/
theorem unlink [DecidableEq α] {xs ys : List α} {before x : α}
    (chain : Chain next null p (xs ++ before :: x :: ys)) :
    Chain (Function.update next before (next x)) null p (xs ++ before :: ys) := by
  have distinct := chain.nodup
  induction xs generalizing p with
  | nil =>
    obtain ⟨same, nonnull, next_eq, _, rest⟩ := chain
    refine ⟨same, nonnull, ?_⟩
    rw [Function.update_self]
    apply rest.congr
    intro y member
    apply Function.update_of_ne
    intro clash
    subst clash
    exact (List.nodup_cons.mp distinct).1 (by simp [member])
  | cons y xs ih =>
    obtain ⟨same, nonnull, rest⟩ := chain
    refine ⟨same, nonnull, ?_⟩
    have other : y ≠ before := by
      intro clash
      subst clash
      exact (List.nodup_cons.mp distinct).1 (by simp)
    rw [Function.update_of_ne other]
    exact ih rest (List.nodup_cons.mp distinct).2

end Chain

end UmkaOs.Lib
