import UmkaOs.Irq.Queue

namespace UmkaOs.Irq

open Lib Kernel

variable {s s' last : Kernel} {n : UInt8} {event : Event} {steps : List (Kernel × Event)}

/-- From the snapshot of a pass to its `hlt`. -/
def Kernel.Awake (s : Kernel) : Prop := s.Taken ∧ s.pc ≠ .halted

/-- Input waits in the array. -/
def Waits (s : Kernel) : Prop := ∃ packet ∈ s.waiting, packet.bytes ≠ []

/-- No handler run between the snapshot of a pass and its `hlt` takes in a byte. -/
def Prompt (step : Kernel × Event) : Prop :=
  match step.2 with
  | .irq n => step.1.Awake → step.1.umkaLock = false → n = 12 ∨ n = 1 → step.1.controller = []
  | _ => True

/-- At every `hlt` of the run nothing waits. -/
def NeverSleepsOn (s : Kernel) (steps : List (Kernel × Event)) : Prop :=
  ∀ front t, front <+: steps → Run Step s front t → t.pc = .hlt → ¬ Waits t

/-- After a handler run something waits if it did before or came in. -/
theorem irq_waits (step : Step s (.irq n) s') :
    Waits s' ↔ Waits s ∨ s.umkaLock = false ∧ (n = 12 ∨ n = 1) ∧ s.controller ≠ [] := by
  obtain ⟨s1, run, rfl⟩ := irq_ok step
  have same : Waits s1.wake ↔ Waits s1 := by rw [Waits, Waits, wake_waiting]
  rw [same]
  rcases handler_ok run with ⟨unlocked, device, _, rfl⟩ | ⟨neither, rfl⟩
  · rw [Waits, waiting_push ⟨n, s.controller.map (·.byte)⟩ rfl rfl]
    simp [Waits, unlocked, device, or_and_right, exists_or]
  · have none : ¬ (s.umkaLock = false ∧ (n = 12 ∨ n = 1) ∧ s.controller ≠ []) :=
      fun both => neither ⟨both.1, both.2.1⟩
    simp only [none, or_false]
    exact Iff.rfl

/-- A handler that runs during a pass does not end it. -/
theorem irq_awake (step : Step s (.irq n) s') : s'.Awake ↔ s.Awake := by
  obtain ⟨_, ⟨halted, enters⟩ | ⟨running, pc, _⟩⟩ := irq_frame step
  · simp [Awake, Taken, halted, enters]
  · simp [Awake, Taken, pc]

/-- Through a pass nothing waits, as long as nothing is taken in. -/
theorem step_empty (inv : s.Consistent) (empty : s.Awake → ¬ Waits s) (prompt : Prompt (s, event))
    (step : Step s event s') (awake : s'.Awake) : ¬ Waits s' := by
  cases event with
  | arrive arrival =>
    cases step
    exact empty awake
  | irq n =>
    have before := (irq_awake step).mp awake
    rw [irq_waits step]
    rintro (waits | ⟨unlocked, device, some⟩)
    · exact empty before waits
    · exact some (prompt before unlocked device)
  | statement =>
    cases step
    by_cases pc : s.pc = .reset
    · rw [Waits, (statement_reset inv pc).2.2.2]
      simp
    · have running : s.pc ≠ .halted := fun halted => awake.2 (by simp [statement, halted])
      rw [Waits, (statement_pending inv pc).2]
      exact empty ⟨taken_before inv pc awake.1, running⟩

/-- Until the `hlt` of the pass, what waits goes on waiting. -/
theorem step_waits (inv : s.Consistent) (awake : s.Awake) (before : s.pc ≠ .hlt) (waits : Waits s)
    (step : Step s event s') : s'.Awake ∧ Waits s' := by
  cases event with
  | arrive arrival =>
    cases step
    exact ⟨awake, waits⟩
  | irq n => exact ⟨(irq_awake step).mpr awake, (irq_waits step).mpr (.inl waits)⟩
  | statement =>
    cases step
    have other : s.pc ≠ .reset := fun pc => by
      have taken := awake.1
      simp [Taken, pc] at taken
    refine ⟨?_, by rwa [Waits, (statement_pending inv other).2]⟩
    cases pc : s.pc with
    | hlt => exact absurd pc before
    | halted => exact absurd pc awake.2
    | enter | lock | count | copy k | reset => exact absurd awake.1 (by simp [Taken, pc])
    | loop => by_cases left : s.i < s.lpacketCount <;> simp [Awake, Taken, statement, pc, left]
    | test => by_cases nothing : s.packet.bytes = [] <;> simp [Awake, Taken, statement, pc, nothing]
    | unlock | fetch | setIrq | setPtr | setLength | call | schedule => simp [Awake, Taken, statement, pc]

/-- What waits during a pass is slept on at its end. -/
theorem slept_on (run : Run Step s steps last) (inv : s.Consistent) (awake : s.Awake) (waits : Waits s)
    (sleeps : last.pc = .hlt) : ∃ front t, front <+: steps ∧ Run Step s front t ∧ t.pc = .hlt ∧ Waits t := by
  induction run with
  | stop s => exact ⟨[], s, List.nil_prefix, .stop s, sleeps, waits⟩
  | @next s middle last label rest first later ih =>
    by_cases here : s.pc = .hlt
    · exact ⟨[], s, List.nil_prefix, .stop s, here, waits⟩
    · obtain ⟨awake', waits'⟩ := step_waits inv awake here waits first
      obtain ⟨front, t, split, reach, pc, found⟩ := ih (step_consistent inv first) awake' waits' sleeps
      exact ⟨(s, label) :: front, t, List.cons_prefix_cons.mpr ⟨rfl, split⟩, .next first reach, pc, found⟩

/-- A run whose handlers are all prompt never sleeps on input; and a run that has
come to a `hlt` and never slept on input has had only prompt handlers. -/
theorem wakeups (booted : Booted s) (run : Run Step s steps last) :
    ((∀ step ∈ steps, Prompt step) → NeverSleepsOn s steps) ∧
      (last.pc = .hlt → NeverSleepsOn s steps → ∀ step ∈ steps, Prompt step) := by
  constructor
  · rintro prompt front t ⟨back, split⟩ reach sleeps
    have start : s.Awake → ¬ Waits s := fun _ => by simp [Waits, waiting, booted.none]
    have inv := @Run.history_of _ _ _ _ _ _ (fun t _ => t.Consistent ∧ (t.Awake → ¬ Waits t)) Prompt
      (fun inv good step => ⟨step_consistent inv.1 step, step_empty inv.1 inv.2 good step⟩) reach
      (fun step member => prompt step (split ▸ List.mem_append_left _ member)) [] ⟨booted.consistent, start⟩
    exact inv.2 (by simp [Awake, Taken, sleeps])
  · rintro sleeps never ⟨t, event⟩ member
    obtain ⟨front, after, back, rfl, reach, step, later⟩ := run.around member
    cases event with
    | arrive arrival => trivial
    | statement => trivial
    | irq n =>
      intro awake unlocked device
      by_contra some
      have consistent := step_consistent (reach.invariant step_consistent booted.consistent) step
      obtain ⟨more, u, split, further, pc, waits⟩ := slept_on later consistent ((irq_awake step).mpr awake)
        ((irq_waits step).mpr (.inr ⟨unlocked, device, some⟩)) sleeps
      refine never (front ++ (t, .irq n) :: more) u ?_ (reach.trans (.next step further)) pc waits
      obtain ⟨rest, rfl⟩ := split
      exact ⟨rest, by simp⟩

/-- A key is pressed while the machine sleeps, and the pass that delivers it runs
up to its call of `umkaScheduleFn`. -/
def deliverKey : List Event :=
  [.statement, .arrive ⟨0x1E, .keyboard⟩, .irq 1] ++ List.replicate 142 .statement

theorem wakeups_key :
    ((∀ step ∈ trace boot deliverKey, Prompt step) → NeverSleepsOn boot (trace boot deliverKey)) ∧
      ((after boot deliverKey).pc = .hlt → NeverSleepsOn boot (trace boot deliverKey) →
        ∀ step ∈ trace boot deliverKey, Prompt step) :=
  wakeups booted_boot (run_events (by decide +kernel))

/-- The key is released while `umkaScheduleFn` runs, and the machine goes to sleep on it. -/
def releaseLate : List Event := deliverKey ++ [.arrive ⟨0x9E, .keyboard⟩, .irq 1, .statement]

theorem sleeps_on_release : ¬ NeverSleepsOn boot (trace boot releaseLate) := by
  intro never
  refine never _ _ List.prefix_rfl (run_events (by decide +kernel)) (by decide +kernel) ?_
  rw [Waits]
  decide +kernel

end UmkaOs.Irq
