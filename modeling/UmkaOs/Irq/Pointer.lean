import UmkaOs.Input.Mouse
import UmkaOs.Irq.Mouse

namespace UmkaOs.Irq

open Lib Kernel
open Input (Decoder MouseEvent MousePacket User encode)

/-- The kernel with the programs that it calls. -/
structure System where
  kernel : Kernel
  decoder : Decoder
  user : User

namespace System

/-- The call in the next statement, on a screen of `w` by `h`: `system__irq` comes down to
`irq` of `input.um` and `system__schedule` to `schedule` of `user.um`. -/
def umka (w h : Int) (s : System) : System :=
  match s.kernel.pc with
  | .call =>
    { s with decoder := s.decoder.interrupt s.kernel.params.irq (s.kernel.params.ptr.take s.kernel.params.length) }
  | .schedule =>
    let scheduled := Input.schedule w h s.decoder s.user
    { s with decoder := scheduled.1, user := scheduled.2 }
  | _ => s

def exec (w h : Int) (s : System) (event : Event) : Except Fault System := do
  let kernel ← Irq.exec s.kernel event
  let s := if event = .statement then s.umka w h else s
  return { s with kernel := kernel }

/-- A step without a panic. -/
def Step (w h : Int) (s : System) (event : Event) (s' : System) : Prop := s.exec w h event = .ok s'

end System

variable {w h : Int} {s s' origin last : System} {event : Event} {past steps : List (System × Event)} {limit k : Nat}
  {events : List MouseEvent} {bytes : List UInt8}

/-- The mouse as a frame leaves it behind. -/
def settle (u : User) : User := { u with ctx := u.ctx.endFrame }

theorem onPacket_settle (u : User) (v : MousePacket) :
    settle (User.onPacket w h (settle u) v) = settle (User.onPacket w h u v) := by
  dsimp only [User.onPacket, settle]
  split
  · rfl
  · split
    · rfl
    · rfl

theorem moves_settle (moves : List MousePacket) {u u' : User} (same : settle u = settle u') :
    settle (moves.foldl (User.onPacket w h) u) = settle (moves.foldl (User.onPacket w h) u') := by
  induction moves generalizing u u' with
  | nil => exact same
  | cons v rest ih =>
    apply ih
    rw [← onPacket_settle u, same, onPacket_settle]

theorem length_encode (events : List MouseEvent) : (events.flatMap encode).length = 3 * events.length := by
  induction events with
  | nil => rfl
  | cons event rest ih =>
    rw [List.flatMap_cons, List.length_append, ih, List.length_cons]
    have three : (encode event).length = 3 := rfl
    omega

/-- The bytes of a packet that is not whole bring nothing. -/
theorem handle_short {d : Decoder} {cycle : Nat} (cycling : d.mouseCycle = cycle) (short : cycle + bytes.length < 3) :
    (d.handleMouseIrq bytes).packets = d.packets := by
  induction bytes generalizing d cycle with
  | nil => rfl
  | cons byte rest ih =>
    rw [List.length_cons] at short
    rw [Decoder.handleMouseIrq]
    rcases Decoder.turn_cases d byte with ⟨_, _, run⟩ | ⟨first, _, run⟩ | ⟨second, run⟩ | ⟨third, _⟩ | ⟨third, _⟩ |
        ⟨_, _, _, run⟩
    · rw [run]
      rfl
    · rw [run]
      exact @ih { d with mouseBytes := _, mouseCycle := 1 } 1 rfl (by omega)
    · rw [run]
      exact @ih { d with mouseBytes := _, mouseCycle := 2 } 2 rfl (by omega)
    · omega
    · omega
    · rw [run]
      exact ih cycling (by omega)

/-- Of a stream that is cut anywhere the whole packets come out. -/
theorem handle_prefix {d : Decoder} (start : d.mouseCycle = 0) (sent : bytes <+: events.flatMap encode) :
    d.Smooth bytes ∧
      (d.handleMouseIrq bytes).packets = d.packets ++ (events.take (bytes.length / 3)).map (·.toMousePacket) := by
  constructor
  · have whole := (Input.handle_events events start).1
    obtain ⟨rest, cut⟩ := sent
    rw [← cut] at whole
    exact (Decoder.smooth_append.mp whole).1
  · induction events generalizing d bytes with
    | nil =>
      have none := List.prefix_nil.mp sent
      simp [none, Decoder.handleMouseIrq]
    | cons event later ih =>
      obtain ⟨smooth, between, packet⟩ := Input.handle_encoded event start
      have three : (encode event).length = 3 := rfl
      rw [List.flatMap_cons] at sent
      by_cases enough : 3 ≤ bytes.length
      · obtain ⟨tail, rfl⟩ : encode event <+: bytes :=
          List.prefix_of_prefix_length_le (List.prefix_append ..) sent (three ▸ enough)
        rw [List.prefix_append_right_inj] at sent
        have length : (encode event ++ tail).length / 3 = tail.length / 3 + 1 := by
          rw [List.length_append, three]
          omega
        rw [Decoder.handle_append smooth, ih between sent, packet, length, List.take_succ_cons, List.map_cons,
          List.append_assoc]
        rfl
      · have none : bytes.length / 3 = 0 := by omega
        rw [@handle_short _ d 0 start (by omega), none]
        simp

def kernelStep (step : System × Event) : Kernel × Event := (step.1.kernel, step.2)

/-- What `relay` passes to the callback of `schedule`. -/
def relayedBy (step : System × Event) : List MousePacket :=
  if step.2 = .statement ∧ step.1.kernel.pc = .schedule then step.1.decoder.packets else []

def relayed (steps : List (System × Event)) : List MousePacket := steps.flatMap relayedBy

theorem relayed_snoc (past : List (System × Event)) (step : System × Event) :
    relayed (past ++ [step]) = relayed past ++ relayedBy step := by simp [relayed]

/-- Everything a step can do: a packet goes to the decoder, or its packets go to the
pointer, or neither. -/
theorem System.step_cases (step : System.Step w h s event s') : Irq.Step s.kernel event s'.kernel ∧
    ((∃ packet, calledBy (kernelStep (s, event)) = [packet] ∧ relayedBy (s, event) = [] ∧
        s'.decoder = s.decoder.interrupt packet.irq packet.bytes ∧ s'.user = s.user) ∨
      (calledBy (kernelStep (s, event)) = [] ∧ relayedBy (s, event) = s.decoder.packets ∧
        s'.decoder = { s.decoder with packets := [] } ∧
        s'.user = settle (s.decoder.packets.foldl (User.onPacket w h) s.user)) ∨
      (calledBy (kernelStep (s, event)) = [] ∧ relayedBy (s, event) = [] ∧ s'.decoder = s.decoder ∧
        s'.user = s.user)) := by
  obtain ⟨kernel, run, result⟩ := bind_ok step
  cases result
  refine ⟨run, ?_⟩
  by_cases statement : event = .statement
  · subst statement
    cases pc : s.kernel.pc with
    | call =>
      refine .inl ⟨⟨s.kernel.params.irq, s.kernel.params.ptr.take s.kernel.params.length⟩, ?_, ?_, ?_, ?_⟩
      · simp [calledBy, kernelStep, pc]
      · simp [relayedBy, pc]
      · simp [System.umka, pc]
      · simp [System.umka, pc]
    | schedule =>
      refine .inr (.inl ⟨?_, ?_, ?_, ?_⟩)
      · simp [calledBy, kernelStep, pc]
      · simp [relayedBy, pc]
      · simp [System.umka, pc, Input.schedule, Decoder.relay]
      · simp [System.umka, pc, Input.schedule, Decoder.relay, settle]
    | _ =>
      refine .inr (.inr ⟨?_, ?_, ?_, ?_⟩)
      · simp [calledBy, kernelStep, pc]
      · simp [relayedBy, pc]
      · simp [System.umka, pc]
      · simp [System.umka, pc]
  · refine .inr (.inr ⟨?_, ?_, ?_, ?_⟩)
    · simp [calledBy, kernelStep, statement]
    · simp [relayedBy, statement]
    · simp [statement]
    · simp [statement]

theorem interrupt_packet (d : Decoder) (packet : Packet) :
    d.interrupt packet.irq packet.bytes = d.handleMouseIrq (handleMouseIrq packet) := by
  rw [Decoder.interrupt, handleMouseIrq]
  split
  · rename_i mouse
    rw [mouse]
    rfl
  · rename_i other
    split
    · rename_i mouse
      exact absurd mouse other
    · rfl

/-- The decoder and the pointer in the words of what the kernel has passed on. -/
structure Follows (w h : Int) (origin s : System) (past : List (System × Event)) : Prop where
  conserved : Conserved s.kernel (past.map kernelStep)
  accounted : Accounted s.kernel (past.map kernelStep)
  decoded : origin.decoder.Smooth (mouseBytes (called (past.map kernelStep))) →
    s.decoder.behind (relayed past) = origin.decoder.handleMouseIrq (mouseBytes (called (past.map kernelStep)))
  moved : settle s.user = settle ((relayed past).foldl (User.onPacket w h) origin.user)

theorem Follows.start (booted : Booted s.kernel) : Follows w h s s [] := by
  refine ⟨booted.conserved, ?_, ?_, rfl⟩
  · have empty := booted.undelivered
    rw [undelivered, List.append_eq_nil_iff] at empty
    simp [Accounted, empty, booted.controller, called, bytesOf, mouseBytes]
  · intro _
    simp [called, mouseBytes, relayed, Decoder.handleMouseIrq, Decoder.behind]

theorem Follows.step (follows : Follows w h origin s past) (routed : Routed (kernelStep (s, event)))
    (step : System.Step w h s event s') : Follows w h origin s' (past ++ [(s, event)]) := by
  obtain ⟨kernel, program⟩ := System.step_cases step
  have conserved := follows.conserved.step kernel
  have accounted := (accounted_step follows.conserved.consistent follows.accounted kernel).mpr routed
  have steps : (past ++ [(s, event)]).map kernelStep = past.map kernelStep ++ [(s.kernel, event)] := by
    rw [List.map_append]
    rfl
  rw [← steps] at conserved accounted
  have settled : ∀ u, settle (settle u) = settle u := fun _ => rfl
  have calls : called (past.map kernelStep ++ [(s.kernel, event)]) =
      called (past.map kernelStep) ++ calledBy (kernelStep (s, event)) := called_snoc _ _
  refine ⟨conserved, accounted, ?_, ?_⟩
  · intro smooth
    rw [steps, calls, mouseBytes_append] at smooth ⊢
    obtain ⟨before, later⟩ := Decoder.smooth_append.mp smooth
    rw [Decoder.handle_append before, ← follows.decoded before, relayed_snoc]
    rcases program with ⟨packet, call, none, decoder, _⟩ | ⟨call, relay, decoder, _⟩ | ⟨call, none, decoder, _⟩
    · rw [call, none, decoder, interrupt_packet, Decoder.handle_behind, List.append_nil]
      simp [mouseBytes]
    · rw [call, relay, decoder]
      simp [mouseBytes, Decoder.behind, Decoder.handleMouseIrq]
    · rw [call, none, decoder, List.append_nil]
      rfl
  · rw [relayed_snoc, List.foldl_append]
    rcases program with ⟨_, _, none, _, user⟩ | ⟨_, relay, _, user⟩ | ⟨_, none, _, user⟩
    · rw [none, user]
      exact follows.moved
    · rw [relay, user, settled]
      exact moves_settle s.decoder.packets follows.moved
    · rw [none, user]
      exact follows.moved

/-- The mouse has sent no more than these events. -/
def Sent (events : List MouseEvent) (steps : List (System × Event)) : Prop :=
  bytesOf .mouse ((steps.map kernelStep).flatMap arrivedBy) <+: events.flatMap encode

/-- The decoder between two packets of the mouse, with nothing to relay. -/
structure Idle (d : Decoder) : Prop where
  cycle : d.mouseCycle = 0
  packets : d.packets = []

theorem Follows.passed (follows : Follows w h origin s past) (sent : Sent events past) :
    mouseBytes (called (past.map kernelStep)) <+: events.flatMap encode := by
  apply List.IsPrefix.trans _ sent
  rw [← follows.accounted, List.append_assoc, List.append_assoc]
  exact List.prefix_append ..

theorem Follows.packets (follows : Follows w h origin s past) (idle : Idle origin.decoder) (sent : Sent events past) :
    relayed past ++ s.decoder.packets =
      (events.take ((mouseBytes (called (past.map kernelStep))).length / 3)).map (·.toMousePacket) := by
  obtain ⟨smooth, packets⟩ := handle_prefix idle.cycle (follows.passed sent)
  rw [← follows.decoded smooth, idle.packets] at packets
  exact packets

/-- As many events as whole packets of bytes have been passed on. -/
theorem Follows.counted (follows : Follows w h origin s past) (idle : Idle origin.decoder) (sent : Sent events past) :
    (relayed past).length + s.decoder.packets.length = (mouseBytes (called (past.map kernelStep))).length / 3 := by
  have fewer := (follows.passed sent).length_le
  rw [length_encode] at fewer
  rw [← List.length_append, follows.packets idle sent, List.length_map, List.length_take]
  omega

/-- The statements up to and including the call of `umkaScheduleFn`, none behind it. -/
def Kernel.left (s : Kernel) : Nat :=
  match s.pc with
  | .hlt | .halted => 0
  | _ => s.remaining + 1

theorem statement_left {s : Kernel} (inv : s.Consistent) (running : 0 < s.left) (other : s.pc ≠ .schedule) :
    0 < s.statement.left ∧ s.statement.left < s.left := by
  have here := inv.here
  have more : 0 < s.remaining := by
    cases pc : s.pc with
    | schedule => exact absurd pc other
    | hlt | halted => simp [left, pc] at running
    | enter | lock | count | reset | unlock | loop => simp [remaining, pc]
    | copy k =>
      simp only [remaining, pc]
      omega
    | fetch | test | setIrq | setPtr | setLength | call =>
      simp only [Local, pc] at here
      simp only [remaining, pc]
      omega
  have less := statement_remaining inv more
  have goes : s.statement.pc ≠ .hlt ∧ s.statement.pc ≠ .halted := by
    cases pc : s.pc with
    | schedule => exact absurd pc other
    | hlt | halted => simp [left, pc] at running
    | enter =>
      have unlocked : s.umkaLock = false := by simpa [Window, pc] using inv.locked
      simp [statement, pc, unlocked]
    | copy k => by_cases some : k < capacity <;> simp [statement, pc, some]
    | loop => by_cases some : s.i < s.lpacketCount <;> simp [statement, pc, some]
    | test => by_cases nothing : s.packet.bytes.length = 0 <;> simp [statement, pc, nothing]
    | _ => simp [statement, pc]
  have measure : ∀ t : Kernel, t.pc ≠ .hlt → t.pc ≠ .halted → t.left = t.remaining + 1 := by
    intro t first second
    rw [left]
    split
    · contradiction
    · contradiction
    · rfl
  rw [measure _ goes.1 goes.2, measure]
  · omega
  · intro pc
    simp [left, pc] at running
  · intro pc
    simp [left, pc] at running

theorem irq_left {n : UInt8} {s s' : Kernel} (step : Irq.Step s (.irq n) s') (running : 0 < s.left) :
    s'.left = s.left := by
  obtain ⟨_, ⟨halted, _⟩ | ⟨_, pc, same⟩⟩ := irq_frame step
  · simp [left, halted] at running
  · rw [left, left, pc, same]

/-- How far the packets that are there when a pass begins have come on their way to the pointer. -/
structure Relaying (packets : List Packet) (limit : Nat) (s : System) (past : List (System × Event)) : Prop where
  passing : Passing packets limit s.kernel (past.map kernelStep)
  timely : (mouseBytes packets).length / 3 ≤ (relayed past).length ∨
    0 < s.kernel.left ∧ statements (past.map kernelStep) + s.kernel.left ≤ limit + 1

theorem Relaying.step {packets : List Packet} (relaying : Relaying packets limit s past)
    (follows : Follows w h origin s past) (idle : Idle origin.decoder) (sent : Sent events past)
    (step : System.Step w h s event s') : Relaying packets limit s' (past ++ [(s, event)]) := by
  obtain ⟨kernel, program⟩ := System.step_cases step
  have steps : (past ++ [(s, event)]).map kernelStep = past.map kernelStep ++ [(s.kernel, event)] := by
    rw [List.map_append]
    rfl
  have grown : (relayed (past ++ [(s, event)])).length = (relayed past).length + (relayedBy (s, event)).length := by
    rw [relayed_snoc, List.length_append]
  refine ⟨steps ▸ relaying.passing.step kernel, ?_⟩
  rw [steps, grown]
  rcases relaying.timely with early | ⟨running, timely⟩
  · exact .inl (Nat.le_add_right_of_le early)
  cases event with
  | arrive arrival =>
    have same := Except.ok.inj kernel
    rw [← same]
    refine .inr ⟨running, ?_⟩
    simpa [statements, left, remaining] using timely
  | irq n =>
    rw [irq_left kernel running]
    refine .inr ⟨running, ?_⟩
    simpa [statements] using timely
  | statement =>
    by_cases pc : s.kernel.pc = .schedule
    · have done := relaying.passing.done (by simp [remaining, pc])
      have relay : relayedBy (s, .statement) = s.decoder.packets := by simp [relayedBy, pc]
      obtain ⟨later, calls⟩ := done
      have all := follows.counted idle sent
      rw [← calls, mouseBytes_append, List.length_append] at all
      rw [relay]
      exact .inl (by omega)
    · obtain ⟨still, less⟩ := statement_left follows.conserved.consistent running pc
      have same : s.kernel.statement = s'.kernel := Except.ok.inj kernel
      rw [← same]
      refine .inr ⟨still, ?_⟩
      simp only [statements, List.countP_append, List.countP_singleton, decide_true, if_true]
      rw [statements] at timely
      omega

theorem Sent.before {step : System × Event} (sent : Sent events (past ++ [step])) : Sent events past := by
  apply List.IsPrefix.trans _ sent
  rw [List.map_append, List.flatMap_append, bytesOf_append]
  exact List.prefix_append ..

/-- In every run whose handlers lose no byte, wherever they interrupt the scheduler, the
pointer has been moved by the first events of the mouse, each of them once and in order; and
one pass moves it by all that is stored when the pass begins. -/
theorem pointer_follows {more : List (System × Event)} {middle : System} (booted : Booted s.kernel)
    (idle : Idle s.decoder) (run : Run (System.Step w h) s steps middle) (further : Run (System.Step w h) middle more last)
    (routed : ∀ step ∈ steps ++ more, Routed (kernelStep step)) (sent : Sent events (steps ++ more)) :
    ∃ n ≤ events.length, settle last.user =
        settle (((events.take n).map (·.toMousePacket)).foldl (User.onPacket w h) s.user) ∧
      (middle.kernel.pc = .enter → passLength < statements (more.map kernelStep) →
        (mouseBytes (stored (steps.map kernelStep))).length / 3 ≤ n) := by
  have reached := @Run.history_of _ _ _ _ _ _ (Follows w h s) (fun step => Routed (kernelStep step))
    (fun follows good step => follows.step good step) run
    (fun step member => routed step (List.mem_append_left _ member)) [] (Follows.start booted)
  rw [List.nil_append] at reached
  have relays : middle.kernel.pc = .enter → Relaying (full (stored (steps.map kernelStep)))
      (statements (steps.map kernelStep) + passLength) middle steps := by
    intro enters
    refine ⟨⟨reached.conserved, List.prefix_rfl, fun taken => ?_, .inr ?_⟩, .inr ⟨?_, ?_⟩⟩
    · simp [Taken, enters] at taken
    · simp [remaining, enters, passLength]
    · simp [left, enters]
    · simp [left, remaining, enters, passLength]
  obtain ⟨follows, relaying⟩ := @Run.history_of _ _ _ _ _ _
    (fun t past => Follows w h s t past ∧ (Sent events past → middle.kernel.pc = .enter →
      Relaying (full (stored (steps.map kernelStep))) (statements (steps.map kernelStep) + passLength) t past))
    (fun step => Routed (kernelStep step))
    (fun inv good step => ⟨inv.1.step good step, fun sent enters =>
      (inv.2 sent.before enters).step inv.1 idle sent.before step⟩) further
    (fun step member => routed step (List.mem_append_right _ member)) steps ⟨reached, fun _ => relays⟩
  have packets := follows.packets idle sent
  have fewer := congrArg List.length packets
  rw [List.length_append, List.length_map, List.length_take] at fewer
  have seen : relayed (steps ++ more) = (events.take (relayed (steps ++ more)).length).map (·.toMousePacket) := by
    have front := congrArg (List.take (relayed (steps ++ more)).length) packets
    rw [List.take_left, ← List.map_take, List.take_take, Nat.min_eq_left (by omega)] at front
    exact front
  refine ⟨(relayed (steps ++ more)).length, by omega, ?_, ?_⟩
  · rw [follows.moved, ← seen]
  · intro enters enough
    rcases (relaying sent enters).timely with early | ⟨running, late⟩
    · rwa [mouseBytes_full] at early
    · have split : statements ((steps ++ more).map kernelStep) =
          statements (steps.map kernelStep) + statements (more.map kernelStep) := by
        rw [List.map_append]
        simp [statements]
      omega

instance : DecidablePred Routed
  | (s, .irq n) =>
    inferInstanceAs (Decidable (if s.umkaLock = false ∧ n = 12 then bytesOf .keyboard s.controller = []
      else bytesOf .mouse s.controller = []))
  | (_, .arrive _) | (_, .statement) => inferInstanceAs (Decidable True)

def mouseAt (x y : Int) : User := ⟨⟨⟨x, y⟩, ⟨x, y⟩, Input.MouseButton.none, Input.MouseButton.none⟩, x, y, false⟩

/-- The left button is pressed while the mouse moves. -/
def leftPress : MouseEvent := ⟨⟨-3, 7, true, false, false⟩, by decide, by decide⟩

/-- Its bytes come in while the machine sleeps. -/
def pressEvents : List Event :=
  .statement :: (encode leftPress).flatMap fun byte => [.arrive ⟨byte, .mouse⟩, .irq 12]

def asleep : System := ⟨boot, Input.idle, mouseAt 100 100⟩

theorem pointer_follows_press : ∃ steps more middle last, Run (System.Step 1024 768) asleep steps middle ∧
    Run (System.Step 1024 768) middle more last ∧
    settle last.user = settle (User.onPacket 1024 768 (mouseAt 100 100) leftPress.toMousePacket) := by
  have shown : (attempt (System.exec 1024 768) asleep pressEvents).any (fun front =>
      (attempt (System.exec 1024 768) front.2 (List.replicate 1032 .statement)).any fun back =>
        front.2.kernel.pc = .enter ∧ statements (back.1.map kernelStep) = 1032 ∧
          (∀ step ∈ front.1 ++ back.1, Routed (kernelStep step)) ∧
          bytesOf .mouse (((front.1 ++ back.1).map kernelStep).flatMap arrivedBy) = encode leftPress ∧
          mouseBytes (stored (front.1.map kernelStep)) = encode leftPress) := by
    decide +kernel
  obtain ⟨⟨steps, middle⟩, front, rest⟩ := (Option.any_eq_true _ _).mp shown
  obtain ⟨⟨more, last⟩, back, checked⟩ := (Option.any_eq_true _ _).mp rest
  obtain ⟨enters, enough, routed, arrived, stored⟩ := of_decide_eq_true checked
  have run := run_attempt front
  have further := run_attempt back
  have sent : Sent [leftPress] (steps ++ more) := by
    rw [Sent, arrived]
    exact List.prefix_rfl
  obtain ⟨n, most, moved, all⟩ := pointer_follows booted_boot ⟨rfl, rfl⟩ run further routed sent
  have one : 1 ≤ n := by
    have first := all enters (by rw [enough]; decide)
    rwa [stored] at first
  have same : n = 1 := Nat.le_antisymm most one
  rw [same] at moved
  exact ⟨steps, more, middle, last, run, further, moved⟩

end UmkaOs.Irq
