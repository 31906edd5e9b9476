import Mathlib.Data.List.Basic

namespace UmkaOs.Lib

universe u

variable {α : Type u} [DecidableEq α]

def agree : List α → List α → Nat
  | x :: a, y :: b => if x = y then agree a b + 1 else 0
  | _, _ => 0

variable {a b : List α} {x y stop : α} {n i : Nat}

@[simp] theorem agree_nil_left : agree [] b = 0 := rfl

@[simp] theorem agree_nil_right : agree a [] = 0 := by cases a <;> rfl

@[simp] theorem agree_cons : agree (x :: a) (y :: b) = if x = y then agree a b + 1 else 0 := rfl

@[simp] theorem agree_self (a : List α) : agree a a = a.length := by
  induction a with
  | nil => rfl
  | cons x a ih => simp [ih]

theorem agree_comm (a b : List α) : agree a b = agree b a := by
  induction a generalizing b with
  | nil => simp
  | cons x a ih =>
    cases b with
    | nil => simp
    | cons y b =>
      by_cases same : x = y
      · simp [same, ih b]
      · simp [same, Ne.symm same]

theorem agree_le (a b : List α) : agree a b ≤ a.length := by
  induction a generalizing b with
  | nil => simp
  | cons x a ih =>
    cases b with
    | nil => simp
    | cons y b =>
      have later := ih b
      rw [agree_cons, List.length_cons]
      split <;> omega

theorem getD_agree (stop : α) (before : i < agree a b) : a.getD i stop = b.getD i stop := by
  induction a generalizing b i with
  | nil => simp at before
  | cons x a ih =>
    cases b with
    | nil => simp at before
    | cons y b =>
      rw [agree_cons] at before
      split at before
      · rename_i same
        subst same
        cases i with
        | zero => rfl
        | succ i => exact ih (Nat.lt_of_succ_lt_succ before)
      · omega

/-- Different lists differ where they part, an end counting as `stop`. -/
theorem getD_agree_ne (plainA : stop ∉ a) (plainB : stop ∉ b) (differ : a ≠ b) :
    a.getD (agree a b) stop ≠ b.getD (agree a b) stop := by
  induction a generalizing b with
  | nil =>
    cases b with
    | nil => exact absurd rfl differ
    | cons y b =>
      intro same
      have here : stop = y := same
      exact plainB (here ▸ List.mem_cons_self)
  | cons x a ih =>
    cases b with
    | nil =>
      intro same
      have here : x = stop := same
      exact plainA (here ▸ List.mem_cons_self)
    | cons y b =>
      rw [agree_cons]
      split
      · rename_i same
        subst same
        rw [List.getD_cons_succ, List.getD_cons_succ]
        exact ih (fun member => plainA (List.mem_cons_of_mem _ member))
          (fun member => plainB (List.mem_cons_of_mem _ member)) fun tails => differ (by rw [tails])
      · assumption

theorem agree_take (a b : List α) (n : Nat) : agree (a.take n) (b.take n) = min n (agree a b) := by
  induction a generalizing b n with
  | nil => simp
  | cons x a ih =>
    cases b with
    | nil => simp
    | cons y b =>
      cases n with
      | zero => simp
      | succ n =>
        rw [List.take_succ_cons, List.take_succ_cons, agree_cons, agree_cons, ih b n]
        split <;> omega

/-- Two cut lists are the same up to where the lists part. -/
theorem take_eq_take_iff : a.take n = b.take n ↔ a = b ∨ n ≤ agree a b := by
  induction a generalizing b n with
  | nil =>
    cases b with
    | nil => simp
    | cons y b => cases n <;> simp
  | cons x a ih =>
    cases b with
    | nil => cases n <;> simp
    | cons y b =>
      cases n with
      | zero => simp
      | succ n =>
        by_cases same : x = y
        · simp [same, ih]
        · simp [same]

/-- The lexicographic order is decided where the lists part. -/
theorem lt_iff_agree [LT α] (asymm : ∀ x y : α, x < y → ¬ y < x) (lowA : ∀ x ∈ a, stop < x)
    (lowB : ∀ y ∈ b, stop < y) : a < b ↔ a.getD (agree a b) stop < b.getD (agree a b) stop := by
  have irrefl : ∀ x : α, ¬ x < x := fun x less => asymm x x less less
  induction a generalizing b with
  | nil =>
    cases b with
    | nil => simpa using irrefl stop
    | cons y b => simpa using lowB y List.mem_cons_self
  | cons x a ih =>
    cases b with
    | nil => simpa using asymm stop x (lowA x List.mem_cons_self)
    | cons y b =>
      have later := @ih b (fun c member => lowA c (List.mem_cons_of_mem _ member))
        (fun c member => lowB c (List.mem_cons_of_mem _ member))
      rw [List.cons_lt_cons_iff, agree_cons]
      by_cases same : x = y
      · subst same
        simpa [irrefl x] using later
      · simp [same]

end UmkaOs.Lib
