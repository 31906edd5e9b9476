import UmkaOs.Irq.Queue

/-! Where the bytes of the mouse go: two devices share one drain loop, and a
handler that finds the lock held throws away what it reads. -/

namespace UmkaOs.Irq

open Lib Kernel

variable {s s' last : Kernel} {n : UInt8} {event : Event} {past steps : List (Kernel × Event)}
  {arrivals : List Arrival}

/-- What these packets bring to `handleMouseIrq`. -/
def mouseBytes (packets : List Packet) : List UInt8 := packets.flatMap handleMouseIrq

@[simp] theorem mouseBytes_append (front back : List Packet) :
    mouseBytes (front ++ back) = mouseBytes front ++ mouseBytes back := List.flatMap_append

@[simp] theorem mouseBytes_full (packets : List Packet) : mouseBytes (full packets) = mouseBytes packets := by
  induction packets with
  | nil => rfl
  | cons packet rest ih =>
    by_cases nothing : packet.bytes = []
    · have none : handleMouseIrq packet = [] := by
        rw [handleMouseIrq]
        split
        · exact nothing
        · rfl
      simpa [full, mouseBytes, nothing, none] using ih
    · simpa [full, mouseBytes, nothing] using ih

/-- The mouse bytes that arrived have been passed to `handleMouseIrq`, or are in
the local copy, in the array or in the controller, in this order. -/
def Accounted (s : Kernel) (past : List (Kernel × Event)) : Prop :=
  mouseBytes (called past) ++ mouseBytes s.pending ++ mouseBytes s.waiting ++ bytesOf .mouse s.controller =
    bytesOf .mouse (past.flatMap arrivedBy)

/-- A handler run finds the lock free and only bytes of its own device, or no
byte of the mouse at all. -/
def Routed (step : Kernel × Event) : Prop :=
  match step.2 with
  | .irq n =>
    if step.1.umkaLock = false ∧ n = 12 then bytesOf .keyboard step.1.controller = []
    else bytesOf .mouse step.1.controller = []
  | _ => True

theorem bytesOf_append (device : Device) (front back : List Arrival) :
    bytesOf device (front ++ back) = bytesOf device front ++ bytesOf device back := by
  simp [bytesOf]

theorem all_mouse_iff : arrivals.map (·.byte) = bytesOf .mouse arrivals ↔ bytesOf .keyboard arrivals = [] := by
  have total : (bytesOf .keyboard arrivals).length + (bytesOf .mouse arrivals).length = arrivals.length := by
    induction arrivals with
    | nil => rfl
    | cons arrival rest ih =>
      obtain ⟨byte, device⟩ := arrival
      cases device <;> simp [bytesOf] at ih ⊢ <;> omega
  constructor
  · intro same
    have length := congrArg List.length same
    rw [List.length_map] at length
    exact List.eq_nil_of_length_eq_zero (by omega)
  · intro none
    have all : ∀ arrival ∈ arrivals, arrival.device = .mouse := by
      intro arrival member
      cases device : arrival.device with
      | mouse => rfl
      | keyboard =>
        have found : arrival.byte ∈ bytesOf .keyboard arrivals :=
          List.mem_map_of_mem (List.mem_filter.mpr ⟨member, by simp [device]⟩)
        rw [none] at found
        cases found
    rw [bytesOf, List.filter_eq_self.mpr (by simpa using all)]

/-- What a handler run stores for the mouse is what it takes from the controller. -/
theorem stored_mouse_iff (step : Step s (.irq n) s') :
    mouseBytes (storedBy (s, .irq n)) = bytesOf .mouse s.controller ↔ Routed (s, .irq n) := by
  rw [storedBy_irq step]
  simp only [Routed]
  by_cases mouse : s.umkaLock = false ∧ n = 12
  · rw [if_pos mouse, if_pos ⟨mouse.1, .inl mouse.2⟩, ← all_mouse_iff, mouse.2]
    simp [mouseBytes, handleMouseIrq]
  · have none : mouseBytes (if s.umkaLock = false ∧ (n = 12 ∨ n = 1) then [⟨n, s.controller.map (·.byte)⟩] else []) =
        [] := by
      split
      · rename_i both
        have key : n = 1 := both.2.resolve_left fun same => mouse ⟨both.1, same⟩
        rw [key]
        rfl
      · rfl
    rw [if_neg mouse, none]
    exact eq_comm

theorem irq_controller (step : Step s (.irq n) s') : s'.controller = [] := by
  obtain ⟨s1, run, rfl⟩ := irq_ok step
  rw [wake_controller]
  rcases handler_ok run with ⟨_, _, _, rfl⟩ | ⟨_, rfl⟩ <;> rfl

theorem accounted_iff (inv : s.Consistent) (accounted : Accounted s past) (step : Step s event s') :
    Accounted s' (past ++ [(s, event)]) ↔
      mouseBytes (storedBy (s, event)) ++ bytesOf .mouse s'.controller =
        bytesOf .mouse s.controller ++ bytesOf .mouse (arrivedBy (s, event)) := by
  have moved : mouseBytes (calledBy (s, event)) ++ (mouseBytes s'.pending ++ mouseBytes s'.waiting) =
      mouseBytes s.pending ++ (mouseBytes s.waiting ++ mouseBytes (storedBy (s, event))) := by
    have packets := congrArg mouseBytes (step_undelivered inv step)
    simpa only [mouseBytes_append, mouseBytes_full, undelivered, List.append_assoc] using packets
  have arrived : past.flatMap arrivedBy ++ arrivedBy (s, event) = (past ++ [(s, event)]).flatMap arrivedBy := by simp
  rw [Accounted] at accounted ⊢
  rw [← arrived, bytesOf_append, ← accounted, called_snoc, mouseBytes_append]
  have whole : mouseBytes (called past) ++ mouseBytes (calledBy (s, event)) ++ mouseBytes s'.pending ++
      mouseBytes s'.waiting = mouseBytes (called past) ++ mouseBytes s.pending ++ mouseBytes s.waiting ++
        mouseBytes (storedBy (s, event)) := by
    simp only [List.append_assoc, moved]
  rw [whole]
  simp only [List.append_assoc, List.append_cancel_left_eq]

/-- One step keeps the account exactly if it meets the condition. -/
theorem accounted_step (inv : s.Consistent) (accounted : Accounted s past) (step : Step s event s') :
    Accounted s' (past ++ [(s, event)]) ↔ Routed (s, event) := by
  rw [accounted_iff inv accounted step]
  cases event with
  | arrive arrival =>
    cases step
    simp [storedBy, Routed, arrivedBy, bytesOf_append, mouseBytes]
  | irq n =>
    rw [irq_controller step, ← stored_mouse_iff step]
    simp [bytesOf, arrivedBy]
  | statement =>
    cases step
    have same : s.statement.controller = s.controller := by
      rw [Kernel.statement]
      repeat' split
      all_goals rfl
    simp [storedBy, Routed, arrivedBy, bytesOf, mouseBytes, same]

/-- In every run all mouse bytes are accounted for all along exactly if every
handler run meets the condition. -/
theorem mouse_bytes_iff (booted : Booted s) (run : Run Step s steps last) :
    (∀ front t, front <+: steps → Run Step s front t → Accounted t front) ↔ ∀ step ∈ steps, Routed step := by
  have start : Accounted s [] := by
    have empty := booted.undelivered
    rw [undelivered, List.append_eq_nil_iff] at empty
    simp [Accounted, empty, booted.controller, called, bytesOf, mouseBytes]
  have consistent : ∀ {front t}, Run Step s front t → t.Consistent :=
    fun reach => reach.invariant step_consistent booted.consistent
  constructor
  · rintro all ⟨t, event⟩ member
    obtain ⟨front, after, back, rfl, reach, step, _⟩ := run.around member
    have before := all front t (List.prefix_append ..) reach
    have behind := all (front ++ [(t, event)]) after ⟨back, by simp⟩ (reach.trans (.single step))
    exact (accounted_step (consistent reach) before step).mp behind
  · rintro routed front t ⟨back, split⟩ reach
    have inv := @Run.history_of _ _ _ _ _ _ (fun t past => t.Consistent ∧ Accounted t past) Routed
      (fun inv good step => ⟨step_consistent inv.1 step, (accounted_step inv.1 inv.2 step).mpr good⟩) reach
      (fun step member => routed step (split ▸ List.mem_append_left _ member)) [] ⟨booted.consistent, start⟩
    exact inv.2

/-- A key press and, after it has been handled, a mouse byte. -/
def keyThenMouse : List Event :=
  [.arrive ⟨0x1E, .keyboard⟩, .irq 1, .arrive ⟨0x08, .mouse⟩, .irq 12, .statement]

theorem mouse_bytes_iff_key :
    (∀ front t, front <+: trace boot keyThenMouse → Run Step boot front t → Accounted t front) ↔
      ∀ step ∈ trace boot keyThenMouse, Routed step :=
  mouse_bytes_iff booted_boot (run_events rfl)

/-- A mouse byte arrives while `umkaRuntimeSchedule` holds the lock: the handler
reads it and throws it away. -/
def mouseInWindow : List Event :=
  [.statement, .arrive ⟨0x1E, .keyboard⟩, .irq 1, .statement, .statement, .arrive ⟨0x08, .mouse⟩, .irq 12]

theorem mouse_byte_lost : Run Step boot (trace boot mouseInWindow) (after boot mouseInWindow) ∧
    ¬ Accounted (after boot mouseInWindow) (trace boot mouseInWindow) := by
  refine ⟨run_events rfl, ?_⟩
  rw [Accounted]
  decide

end UmkaOs.Irq
