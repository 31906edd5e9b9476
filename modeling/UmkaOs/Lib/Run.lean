import Mathlib.Data.List.Basic

namespace UmkaOs.Lib

universe u v

variable {State : Type u} {Label : Type v} {Step : State → Label → State → Prop}

/-- A run, with the state that each of its steps starts from. -/
inductive Run (Step : State → Label → State → Prop) : State → List (State × Label) → State → Prop
  | stop (s : State) : Run Step s [] s
  | next {s middle last : State} {label : Label} {rest : List (State × Label)}
      (first : Step s label middle) (later : Run Step middle rest last) : Run Step s ((s, label) :: rest) last

namespace Run

variable {s middle last : State} {steps more : List (State × Label)} {label : Label}

theorem trans (front : Run Step s steps middle) (back : Run Step middle more last) :
    Run Step s (steps ++ more) last := by
  induction front with
  | stop => exact back
  | next first _ ih => exact .next first (ih back)

theorem single (step : Step s label middle) : Run Step s [(s, label)] middle := .next step (.stop _)

theorem split (run : Run Step s (steps ++ more) last) :
    ∃ middle, Run Step s steps middle ∧ Run Step middle more last := by
  induction steps generalizing s with
  | nil => exact ⟨s, .stop s, run⟩
  | cons step rest ih =>
    cases run with
    | next first later =>
      obtain ⟨middle, front, back⟩ := ih later
      exact ⟨middle, .next first front, back⟩

theorem around (run : Run Step s steps last) (member : (middle, label) ∈ steps) :
    ∃ front after back, steps = front ++ (middle, label) :: back ∧ Run Step s front middle ∧
      Step middle label after ∧ Run Step after back last := by
  obtain ⟨front, back, rfl⟩ := List.append_of_mem member
  obtain ⟨reached, before, rest⟩ := run.split
  cases rest with
  | next first later => exact ⟨front, _, back, rfl, before, first, later⟩

theorem invariant {Inv : State → Prop} (keeps : ∀ {s label s'}, Inv s → Step s label s' → Inv s')
    (run : Run Step s steps last) (start : Inv s) : Inv last := by
  induction run with
  | stop => exact start
  | next first _ ih => exact ih (keeps start first)

/-- An invariant of states together with the steps that led to them, for runs
whose steps all meet a condition. -/
theorem history_of {Inv : State → List (State × Label) → Prop} {Good : State × Label → Prop}
    (keeps : ∀ {s label s' past}, Inv s past → Good (s, label) → Step s label s' → Inv s' (past ++ [(s, label)]))
    (run : Run Step s steps last) (good : ∀ step ∈ steps, Good step) {past : List (State × Label)}
    (start : Inv s past) : Inv last (past ++ steps) := by
  induction run generalizing past with
  | stop => simpa using start
  | next first _ ih =>
    have rest := ih (fun step member => good step (List.mem_cons_of_mem _ member))
      (keeps start (good _ (by simp)) first)
    simpa [List.append_assoc] using rest

theorem history {Inv : State → List (State × Label) → Prop}
    (keeps : ∀ {s label s' past}, Inv s past → Step s label s' → Inv s' (past ++ [(s, label)]))
    (run : Run Step s steps last) {past : List (State × Label)} (start : Inv s past) : Inv last (past ++ steps) :=
  @history_of _ _ _ _ _ _ Inv (fun _ => True) (fun inv _ step => keeps inv step) run (fun _ _ => trivial) _ start

end Run

/-- The run of a function that takes every label. -/
def trace (next : State → Label → State) (s : State) : List Label → List (State × Label)
  | [] => []
  | label :: labels => (s, label) :: trace next (next s label) labels

theorem run_trace (next : State → Label → State) (s : State) (labels : List Label) :
    Run (fun s label s' => next s label = s') s (trace next s labels) (labels.foldl next s) := by
  induction labels generalizing s with
  | nil => exact .stop s
  | cons label labels ih => exact .next rfl (ih (next s label))

/-- The run of a function that may fail, and the state it ends in. -/
def attempt {Error : Type*} (exec : State → Label → Except Error State) (s : State) :
    List Label → Option (List (State × Label) × State)
  | [] => some ([], s)
  | label :: labels =>
    match exec s label with
    | .ok next => (attempt exec next labels).map fun run => ((s, label) :: run.1, run.2)
    | .error _ => none

theorem run_attempt {Error : Type*} {exec : State → Label → Except Error State} {s last : State} {labels : List Label}
    {steps : List (State × Label)} (attempted : attempt exec s labels = some (steps, last)) :
    Run (fun s label s' => exec s label = .ok s') s steps last := by
  induction labels generalizing s steps with
  | nil =>
    cases attempted
    exact .stop _
  | cons label labels ih =>
    rw [attempt] at attempted
    split at attempted
    · rename_i next ok
      obtain ⟨⟨rest, final⟩, later, same⟩ := Option.map_eq_some_iff.mp attempted
      cases same
      exact .next ok (ih later)
    · cases attempted

end UmkaOs.Lib
