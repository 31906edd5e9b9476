namespace UmkaOs.Lib

universe u v

variable {ε : Type u} {α β γ δ : Type v} {fault : ε → Prop}

/-- The computation does not fail. -/
def Returns (x : Except ε α) : Prop := ∃ a, x = .ok a

theorem returns_ok (a : α) : Returns (.ok a : Except ε α) := ⟨a, rfl⟩

theorem not_returns_error (e : ε) : ¬ Returns (.error e : Except ε α) := by
  rintro ⟨a, same⟩
  cases same

theorem returns_bind {x : Except ε α} {f : α → Except ε β} (rest : ∀ a, Returns (f a)) :
    Returns (x >>= f) ↔ Returns x := by
  cases x with
  | ok a => exact iff_of_true (rest a) (returns_ok a)
  | error e => exact iff_of_false (not_returns_error e) (not_returns_error e)

/-- Both return related values, or both fail with one fault, which is an allowed one. -/
inductive Lockstep (fault : ε → Prop) (related : α → β → Prop) : Except ε α → Except ε β → Prop
  | returns (a : α) (b : β) (values : related a b) : Lockstep fault related (.ok a) (.ok b)
  | fails (e : ε) (allowed : fault e) : Lockstep fault related (.error e) (.error e)

namespace Lockstep

variable {related : α → β → Prop} {x : Except ε α} {y : Except ε β}

theorem mono {looser : α → β → Prop} (step : Lockstep fault related x y) (weaken : ∀ a b, related a b → looser a b) :
    Lockstep fault looser x y := by
  cases step with
  | returns a b values => exact .returns a b (weaken a b values)
  | fails e allowed => exact .fails e allowed

theorem same (x : Except ε α) (allowed : ∀ e, x = .error e → fault e) : Lockstep fault (· = ·) x x := by
  cases x with
  | ok a => exact .returns a a rfl
  | error e => exact .fails e (allowed e rfl)

theorem bind {next : γ → δ → Prop} {f : α → Except ε γ} {g : β → Except ε δ} (first : Lockstep fault related x y)
    (rest : ∀ a b, related a b → Lockstep fault next (f a) (g b)) : Lockstep fault next (x >>= f) (y >>= g) := by
  cases first with
  | returns a b values => exact rest a b values
  | fails e allowed => exact .fails e allowed

theorem then_left {next : γ → β → Prop} (first : Lockstep fault related x y) (f : α → γ)
    (values : ∀ a b, related a b → next (f a) b) : Lockstep fault next (x >>= fun a => .ok (f a)) y := by
  cases first with
  | returns a b same => exact .returns (f a) b (values a b same)
  | fails e allowed => exact .fails e allowed

theorem then_right {next : α → δ → Prop} (first : Lockstep fault related x y) (f : β → δ)
    (values : ∀ a b, related a b → next a (f b)) : Lockstep fault next x (y >>= fun b => .ok (f b)) := by
  cases first with
  | returns a b same => exact .returns a (f b) (values a b same)
  | fails e allowed => exact .fails e allowed

theorem before_right {next : α → δ → Prop} {f : β → δ} (step : Lockstep fault next x (y >>= fun b => .ok (f b))) :
    Lockstep fault (fun a b => next a (f b)) x y := by
  cases y with
  | ok b =>
    cases step with
    | returns a _ values => exact .returns a b values
  | error e =>
    cases step with
    | fails _ allowed => exact .fails e allowed

theorem bind_eq {f : α → Except ε γ} {g : β → Except ε γ} (first : Lockstep fault related x y)
    (alike : ∀ a b, related a b → f a = g b) : x >>= f = y >>= g := by
  cases first with
  | returns a b values => exact alike a b values
  | fails e allowed => rfl

theorem ok_left {a : α} (step : Lockstep fault related x y) (first : x = .ok a) : ∃ b, y = .ok b ∧ related a b := by
  cases step with
  | returns _ b values =>
    cases first
    exact ⟨b, rfl, values⟩
  | fails e _ => cases first

theorem ok_right {b : β} (step : Lockstep fault related x y) (second : y = .ok b) : ∃ a, x = .ok a ∧ related a b := by
  cases step with
  | returns a _ values =>
    cases second
    exact ⟨a, rfl, values⟩
  | fails e _ => cases second

theorem error_right {e : ε} (step : Lockstep fault related x y) (second : y = .error e) : x = .error e := by
  cases step with
  | returns a _ values => cases second
  | fails e _ =>
    cases second
    rfl

theorem returns_iff (step : Lockstep fault related x y) : Returns x ↔ Returns y := by
  cases step with
  | returns a b values => exact iff_of_true (returns_ok a) (returns_ok b)
  | fails e allowed => exact iff_of_false (not_returns_error e) (not_returns_error e)

theorem ite {p q : Prop} [Decidable p] [Decidable q] {x' : Except ε α} {y' : Except ε β} (alike : p ↔ q)
    (thens : p → Lockstep fault related x y) (elses : ¬ p → Lockstep fault related x' y') :
    Lockstep fault related (if p then x else x') (if q then y else y') := by
  by_cases holds : p
  · rw [if_pos holds, if_pos (alike.mp holds)]
    exact thens holds
  · rw [if_neg holds, if_neg (fun also => holds (alike.mpr also))]
    exact elses holds

theorem branch {next : γ → δ → Prop} {x' : Except ε α} {y' : Except ε β} {f : α → Except ε γ} {g : β → Except ε δ}
    (c : Bool) (thens : Lockstep fault related x y) (elses : Lockstep fault related x' y')
    (rest : ∀ a b, related a b → Lockstep fault next (f a) (g b)) :
    Lockstep fault next (if c = true then x >>= f else x' >>= f) (if c = true then y >>= g else y' >>= g) := by
  cases c with
  | true => exact thens.bind rest
  | false => exact elses.bind rest

end Lockstep

end UmkaOs.Lib
