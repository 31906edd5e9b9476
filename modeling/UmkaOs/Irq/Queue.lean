import UmkaOs.Irq.Model

namespace UmkaOs.Irq

open Lib

variable {s s' : Kernel} {n : UInt8} {event : Event} {steps more : List (Kernel × Event)}

namespace Kernel

/-- `lpackets[k]` to `lpackets[lpacket_count - 1]` -/
def localFrom (s : Kernel) (k : Nat) : List Packet := (List.range' k (s.lpacketCount - k)).map s.lpackets

/-- What the scheduler has taken over and not passed on yet. -/
def pending (s : Kernel) : List Packet :=
  match s.pc with
  | .unlock => s.localFrom 0
  | .loop | .fetch => s.localFrom s.i
  | .test | .setIrq | .setPtr | .setLength | .call => s.packet :: s.localFrom (s.i + 1)
  | _ => []

/-- First the local copy, then the array. -/
def undelivered (s : Kernel) : List Packet := s.pending ++ s.waiting

/-- What holds at a statement, beside the lock. -/
def Local (s : Kernel) : Prop :=
  match s.pc with
  | .copy k => s.lpacketCount = s.packetCount ∧ ∀ j < k, s.lpackets j = s.packets j
  | .reset => s.lpacketCount = s.packetCount ∧ ∀ j < capacity, s.lpackets j = s.packets j
  | .unlock => s.lpacketCount ≤ capacity
  | .fetch | .test => s.i < s.lpacketCount
  | .setIrq => s.i < s.lpacketCount ∧ s.packet.bytes ≠ []
  | .setPtr => s.i < s.lpacketCount ∧ s.packet.bytes ≠ [] ∧ s.params.irq = s.packet.irq
  | .setLength =>
    s.i < s.lpacketCount ∧ s.packet.bytes ≠ [] ∧ s.params.irq = s.packet.irq ∧ s.params.ptr = s.packet.bytes
  | .call =>
    s.i < s.lpacketCount ∧ s.packet.bytes ≠ [] ∧ s.params.irq = s.packet.irq ∧ s.params.ptr = s.packet.bytes ∧
      s.params.length = s.packet.bytes.length
  | _ => True

/-- The statements between `umkaLock = 1;` and `umkaLock = 0;`. -/
def Window (s : Kernel) : Prop :=
  match s.pc with
  | .count | .copy _ | .reset | .unlock => True
  | _ => False

structure Consistent (s : Kernel) : Prop where
  locked : s.umkaLock = true ↔ s.Window
  bounded : s.packetCount ≤ capacity
  here : s.Local

end Kernel

open Kernel

theorem fillPacket_ok {p : Nat} {controller : List Arrival} {packets filled : Nat → Packet}
    (run : fillPacket p controller packets = .ok filled) :
    filled = Function.update packets p
      ⟨(packets p).irq, (packets p).bytes ++ controller.map (·.byte)⟩ := by
  induction controller generalizing packets with
  | nil =>
    cases run
    simp
  | cons arrival rest ih =>
    rw [fillPacket] at run
    obtain ⟨packet, added, run⟩ := bind_ok run
    rw [packetAddByte] at added
    split at added
    · cases added
      rw [ih run]
      simp
    · cases added

/-- What a run of the handler does: a new packet with all bytes of the controller, or nothing. -/
theorem handler_ok (run : s.umkaRuntimeHandleIRQ n = .ok s') :
    (s.umkaLock = false ∧ (n = 12 ∨ n = 1) ∧ s.packetCount < capacity ∧ s' = { s with
        packets := Function.update s.packets s.packetCount ⟨n, s.controller.map (·.byte)⟩
        packetCount := s.packetCount + 1, controller := [] }) ∨
      (¬ (s.umkaLock = false ∧ (n = 12 ∨ n = 1)) ∧ s' = s.drain) := by
  rw [umkaRuntimeHandleIRQ] at run
  by_cases locked : s.umkaLock = true
  · rw [if_pos locked] at run
    cases run
    exact .inr ⟨fun both => by simp [locked] at both, rfl⟩
  have unlocked : s.umkaLock = false := by simpa using locked
  rw [if_neg locked] at run
  by_cases device : n = 12 ∨ n = 1
  · rw [if_pos device] at run
    obtain ⟨⟨s1, p⟩, made, run⟩ := bind_ok run
    obtain ⟨packets, filled, run⟩ := bind_ok run
    cases run
    rw [makePacket] at made
    split at made
    · cases made
    · rename_i room
      cases made
      refine .inl ⟨unlocked, device, Nat.lt_of_not_ge room, ?_⟩
      rw [fillPacket_ok filled]
      simp [unlocked]
  · rw [if_neg device] at run
    cases run
    exact .inr ⟨fun both => device both.2, rfl⟩

@[simp] theorem wake_waiting : s.wake.waiting = s.waiting := by
  rw [wake]
  split <;> rfl

@[simp] theorem wake_controller : s.wake.controller = s.controller := by
  rw [wake]
  split <;> rfl

theorem wake_pending : s.wake.pending = s.pending := by
  rw [wake]
  split
  · rename_i halted
    simp [pending, halted]
  · rfl

theorem irq_ok (step : Step s (.irq n) s') : ∃ s1, s.umkaRuntimeHandleIRQ n = .ok s1 ∧ s' = s1.wake := by
  obtain ⟨s1, run, done⟩ := bind_ok (step : (do
    let s ← s.umkaRuntimeHandleIRQ n
    return s.wake : Except Fault Kernel) = .ok s')
  cases done
  exact ⟨s1, run, rfl⟩

theorem waiting_push (packet : Packet) {s1 : Kernel}
    (packets : s1.packets = Function.update s.packets s.packetCount packet)
    (count : s1.packetCount = s.packetCount + 1) : s1.waiting = s.waiting ++ [packet] := by
  rw [waiting, count, List.range_succ, List.map_append, packets]
  congr 1
  · apply List.map_congr_left
    intro j member
    exact Function.update_of_ne (Nat.ne_of_lt (List.mem_range.mp member)) _ _
  · simp

theorem length_waiting : s.waiting.length = s.packetCount := by simp [waiting]

/-- What the handler stores, in the words of the state before it. -/
theorem storedBy_irq (step : Step s (.irq n) s') :
    storedBy (s, .irq n) =
      if s.umkaLock = false ∧ (n = 12 ∨ n = 1) then [⟨n, s.controller.map (·.byte)⟩] else [] := by
  obtain ⟨s1, run, rfl⟩ := irq_ok step
  have stored : storedBy (s, .irq n) = s1.waiting.drop s.packetCount := by
    rw [storedBy, show exec s (.irq n) = _ from step]
    exact congrArg _ wake_waiting
  rw [stored]
  rcases handler_ok run with ⟨unlocked, device, _, rfl⟩ | ⟨neither, rfl⟩
  · rw [if_pos ⟨unlocked, device⟩, waiting_push ⟨n, s.controller.map (·.byte)⟩ rfl rfl, ← length_waiting,
      List.drop_left]
  · rw [if_neg neither]
    exact List.drop_eq_nil_of_le (Nat.le_of_eq length_waiting)

/-- A handler run adds its packet to the array and touches nothing of the scheduler. -/
theorem irq_undelivered (step : Step s (.irq n) s') : s'.undelivered = s.undelivered ++ storedBy (s, .irq n) := by
  rw [storedBy_irq step]
  obtain ⟨s1, run, rfl⟩ := irq_ok step
  rw [undelivered, wake_pending, wake_waiting]
  rcases handler_ok run with ⟨unlocked, device, _, rfl⟩ | ⟨neither, rfl⟩
  · rw [if_pos ⟨unlocked, device⟩, waiting_push ⟨n, s.controller.map (·.byte)⟩ rfl rfl, ← List.append_assoc]
    rfl
  · rw [if_neg neither, List.append_nil]
    rfl

theorem irq_consistent (inv : s.Consistent) (step : Step s (.irq n) s') : s'.Consistent := by
  obtain ⟨s1, run, rfl⟩ := irq_ok step
  have before : s1.Consistent := by
    rcases handler_ok run with ⟨unlocked, _, room, rfl⟩ | ⟨_, rfl⟩
    · refine ⟨inv.locked, room, ?_⟩
      have outside : ¬ s.Window := fun window => by
        rw [inv.locked.mpr window] at unlocked
        cases unlocked
      have here := inv.here
      simp only [Window, Local] at outside here ⊢
      split <;> simp_all
    · exact ⟨inv.locked, inv.bounded, inv.here⟩
  rw [wake]
  split
  · rename_i halted
    refine ⟨?_, before.bounded, trivial⟩
    have locked := before.locked
    simpa [Window, halted] using locked
  · exact before

theorem localFrom_next (more : s.i < s.lpacketCount) :
    s.localFrom s.i = s.lpackets s.i :: s.localFrom (s.i + 1) := by
  have left : s.lpacketCount - s.i = s.lpacketCount - (s.i + 1) + 1 := by omega
  rw [localFrom, left, List.range'_succ, List.map_cons]
  rfl

theorem localFrom_end {k : Nat} (done : s.lpacketCount ≤ k) : s.localFrom k = [] := by
  rw [localFrom, Nat.sub_eq_zero_of_le done]
  rfl

theorem localFrom_copied (count : s.lpacketCount = s.packetCount) (bounded : s.packetCount ≤ capacity)
    (copied : ∀ j < capacity, s.lpackets j = s.packets j) : s.localFrom 0 = s.waiting := by
  rw [localFrom, count, Nat.sub_zero, ← List.range_eq_range', waiting]
  apply List.map_congr_left
  intro j member
  exact copied j (Nat.lt_of_lt_of_le (List.mem_range.mp member) bounded)

theorem statement_consistent (inv : s.Consistent) : s.statement.Consistent := by
  obtain ⟨locked, bounded, here⟩ := inv
  cases pc : s.pc with
  | enter =>
    have unlocked : s.umkaLock = false := by simpa [Window, pc] using locked
    refine ⟨?_, ?_, ?_⟩ <;> simp [statement, pc, unlocked, Window, Local, bounded]
  | copy k =>
    have lock : s.umkaLock = true := by simpa [Window, pc] using locked
    simp only [Local, pc] at here
    by_cases more : k < capacity
    · refine ⟨?_, ?_, ?_⟩ <;> simp only [statement, pc, more, if_true, Window, Local, lock, bounded, true_and, here.1]
      intro j below
      by_cases last : j = k
      · rw [last, Function.update_self]
      · rw [Function.update_of_ne last]
        exact here.2 j (by omega)
    · refine ⟨?_, ?_, ?_⟩ <;> simp only [statement, pc, more, if_false, Window, Local, lock, bounded, true_and, here.1]
      exact fun j below => here.2 j (by omega)
  | loop =>
    have unlocked : s.umkaLock = false := by simpa [Window, pc] using locked
    by_cases left : s.i < s.lpacketCount <;>
      refine ⟨?_, ?_, ?_⟩ <;> simp [statement, pc, left, unlocked, Window, Local, bounded]
  | test =>
    have unlocked : s.umkaLock = false := by simpa [Window, pc] using locked
    simp only [Local, pc] at here
    by_cases nothing : s.packet.bytes = [] <;>
      refine ⟨?_, ?_, ?_⟩ <;> simp [statement, pc, nothing, unlocked, Window, Local, bounded, here]
  | lock | count | reset | unlock | fetch | setIrq | setPtr | setLength | call | schedule | hlt | halted =>
    simp only [Window, Local, pc] at locked here
    refine ⟨?_, ?_, ?_⟩ <;> simp_all [statement, Window, Local]

/-- The packets that carry something. -/
def full (packets : List Packet) : List Packet := packets.filter (·.bytes ≠ [])

@[simp] theorem full_nil : full [] = [] := rfl

@[simp] theorem full_append (front back : List Packet) : full (front ++ back) = full front ++ full back :=
  List.filter_append ..

/-- A statement passes on the first packet or drops an empty one. -/
theorem statement_pending (inv : s.Consistent) (other : s.pc ≠ .reset) :
    calledBy (s, .statement) ++ full s.statement.pending = full s.pending ∧ s.statement.waiting = s.waiting := by
  have here := inv.here
  cases pc : s.pc with
  | reset => exact absurd pc other
  | loop =>
    by_cases left : s.i < s.lpacketCount
    · simp [calledBy, statement, pending, waiting, pc, left, localFrom]
    · simp [calledBy, statement, pending, waiting, pc, left, localFrom_end (Nat.le_of_not_lt left)]
  | fetch =>
    have next := localFrom_next (by simpa [Local, pc] using here)
    simp only [calledBy, pending, pc, next]
    simp [statement, pc, waiting, localFrom]
  | test =>
    by_cases nothing : s.packet.bytes = [] <;>
      simp [calledBy, statement, pending, waiting, localFrom, pc, nothing, full]
  | call =>
    simp only [Local, pc] at here
    obtain ⟨_, some, irq, ptr, length⟩ := here
    simp [calledBy, statement, pending, waiting, localFrom, pc, full, some, irq, ptr, length]
  | enter => cases lock : s.umkaLock <;> simp [calledBy, statement, pending, waiting, pc, lock]
  | copy k => by_cases more : k < capacity <;> simp [calledBy, statement, pending, waiting, pc, more]
  | lock | count | unlock | setIrq | setPtr | setLength | schedule | hlt | halted =>
    simp [calledBy, statement, pending, waiting, localFrom, pc]

/-- Setting `packet_count` to 0 hands the array over to the copy. -/
theorem statement_reset (inv : s.Consistent) (pc : s.pc = .reset) :
    calledBy (s, .statement) = [] ∧ s.pending = [] ∧ s.statement.pending = s.waiting ∧ s.statement.waiting = [] := by
  have here := inv.here
  simp only [Local, pc] at here
  rw [← localFrom_copied here.1 inv.bounded here.2]
  simp [calledBy, statement, pending, pc, waiting, localFrom]

theorem statement_undelivered (inv : s.Consistent) :
    calledBy (s, .statement) ++ full s.statement.undelivered = full s.undelivered := by
  by_cases pc : s.pc = .reset
  · obtain ⟨none, empty, moved, gone⟩ := statement_reset inv pc
    simp [undelivered, none, empty, moved, gone]
  · obtain ⟨passed, stays⟩ := statement_pending inv pc
    rw [undelivered, undelivered, full_append, full_append, ← List.append_assoc, passed, stays]

theorem step_consistent (inv : s.Consistent) (step : Step s event s') : s'.Consistent := by
  cases event with
  | arrive arrival =>
    cases step
    exact ⟨inv.locked, inv.bounded, inv.here⟩
  | irq n => exact irq_consistent inv step
  | statement =>
    cases step
    exact statement_consistent inv

/-- What was there or comes in, stays or goes out. -/
theorem step_undelivered (inv : s.Consistent) (step : Step s event s') :
    calledBy (s, event) ++ full s'.undelivered = full s.undelivered ++ full (storedBy (s, event)) := by
  cases event with
  | arrive arrival =>
    cases step
    simp [calledBy, storedBy, undelivered, pending, waiting, localFrom]
  | irq n => simp [calledBy, irq_undelivered step]
  | statement =>
    cases step
    rw [statement_undelivered inv]
    simp [storedBy]

theorem Booted.consistent (booted : Booted s) : s.Consistent := by
  refine ⟨by simp [Window, booted.pc, booted.unlocked], by simp [booted.none], by simp [Local, booted.pc]⟩

theorem Booted.undelivered (booted : Booted s) : s.undelivered = [] := by
  simp [Kernel.undelivered, pending, waiting, booted.pc, booted.none]

/-- All packets that handlers stored in a run, and all that were passed on. -/
def stored (steps : List (Kernel × Event)) : List Packet := steps.flatMap storedBy

def called (steps : List (Kernel × Event)) : List Packet := steps.flatMap calledBy

theorem stored_snoc (past : List (Kernel × Event)) (step : Kernel × Event) :
    stored (past ++ [step]) = stored past ++ storedBy step := by simp [stored]

theorem called_snoc (past : List (Kernel × Event)) (step : Kernel × Event) :
    called (past ++ [step]) = called past ++ calledBy step := by simp [called]

/-- Stored is what was passed on and what is still underway. -/
structure Conserved (s : Kernel) (past : List (Kernel × Event)) : Prop where
  consistent : s.Consistent
  balance : full (stored past) = called past ++ full s.undelivered

theorem Conserved.step {past : List (Kernel × Event)} (conserved : Conserved s past) (step : Step s event s') :
    Conserved s' (past ++ [(s, event)]) := by
  refine ⟨step_consistent conserved.consistent step, ?_⟩
  rw [stored_snoc, called_snoc, full_append, conserved.balance, List.append_assoc, List.append_assoc,
    step_undelivered conserved.consistent step]

theorem Booted.conserved (booted : Booted s) : Conserved s [] :=
  ⟨booted.consistent, by simp [stored, called, booted.undelivered]⟩

namespace Kernel

/-- The most statements that are left until the loop of a pass ends. -/
def remaining (s : Kernel) : Nat :=
  match s.pc with
  | .enter => 1031
  | .lock => 1030
  | .count => 1029
  | .copy k => 900 + (capacity - k)
  | .reset => 899
  | .unlock => 898
  | .loop => 7 * (s.lpacketCount - s.i) + 1
  | .fetch => 7 * (s.lpacketCount - s.i)
  | .test => 7 * (s.lpacketCount - s.i) - 1
  | .setIrq => 7 * (s.lpacketCount - s.i) - 2
  | .setPtr => 7 * (s.lpacketCount - s.i) - 3
  | .setLength => 7 * (s.lpacketCount - s.i) - 4
  | .call => 7 * (s.lpacketCount - s.i) - 5
  | .schedule | .hlt | .halted => 0

end Kernel

/-- The statements of the longest pass, up to the end of its loop. -/
def passLength : Nat := 1031

def statements (steps : List (Kernel × Event)) : Nat := steps.countP (·.2 = .statement)

theorem statement_remaining (inv : s.Consistent) (more : 0 < s.remaining) : s.statement.remaining < s.remaining := by
  obtain ⟨locked, bounded, here⟩ := inv
  cases pc : s.pc with
  | enter =>
    have unlocked : s.umkaLock = false := by simpa [Window, pc] using locked
    simp [remaining, statement, pc, unlocked]
  | copy k =>
    by_cases left : k < capacity
    · simp only [remaining, statement, pc, left, if_true]
      omega
    · simp only [remaining, statement, pc, left, if_false]
      omega
  | loop => by_cases left : s.i < s.lpacketCount <;> simp [remaining, statement, pc, left]
  | test =>
    simp only [Local, pc] at here
    by_cases nothing : s.packet.bytes.length = 0
    · simp only [remaining, statement, pc, nothing, if_true]
      omega
    · simp only [remaining, statement, pc, nothing, if_false]
      omega
  | unlock =>
    simp only [Local, pc, capacity] at here
    simp only [remaining, statement, pc]
    omega
  | schedule | hlt | halted => simp [remaining, pc] at more
  | lock | count | reset | fetch | setIrq | setPtr | setLength | call =>
    simp only [Local, pc] at here
    simp only [remaining, statement, pc, capacity]
    omega

namespace Kernel

/-- The snapshot of the pass has been taken. -/
def Taken (s : Kernel) : Prop :=
  match s.pc with
  | .enter | .lock | .count | .copy _ | .reset => False
  | _ => True

end Kernel

/-- Only `packet_count = 0;` takes a snapshot. -/
theorem taken_before (inv : s.Consistent) (other : s.pc ≠ .reset) (after : s.statement.Taken) : s.Taken := by
  cases pc : s.pc with
  | reset => exact absurd pc other
  | enter =>
    have unlocked : s.umkaLock = false := by simpa [Window, pc] using inv.locked
    simp [Taken, statement, pc, unlocked] at after
  | copy k => by_cases more : k < capacity <;> simp [Taken, statement, pc, more] at after
  | lock | count => simp [Taken, statement, pc] at after
  | unlock | loop | fetch | test | setIrq | setPtr | setLength | call | schedule | hlt | halted => simp [Taken, pc]

theorem remaining_zero (inv : s.Consistent) (none : s.remaining = 0) : s.Taken ∧ s.pending = [] := by
  have here := inv.here
  cases pc : s.pc with
  | schedule | hlt | halted => simp [Taken, pending, pc]
  | enter | lock | count | copy k | reset | unlock | loop | fetch | test | setIrq | setPtr | setLength | call =>
    simp only [Local, pc] at here
    simp only [remaining, pc] at none
    omega

/-- An interrupt leaves the pass alone, but it may end a `hlt`. -/
theorem irq_frame (step : Step s (.irq n) s') : s'.pending = s.pending ∧
    (s.pc = .halted ∧ s'.pc = .enter ∨ s.pc ≠ .halted ∧ s'.pc = s.pc ∧ s'.remaining = s.remaining) := by
  obtain ⟨s1, run, rfl⟩ := irq_ok step
  have kept : s1.pending = s.pending ∧ s1.pc = s.pc ∧ s1.remaining = s.remaining := by
    rcases handler_ok run with ⟨_, _, _, rfl⟩ | ⟨_, rfl⟩ <;> exact ⟨rfl, rfl, rfl⟩
  refine ⟨by rw [wake_pending, kept.1], ?_⟩
  rw [wake]
  split
  · rename_i halted
    exact .inl ⟨kept.2.1 ▸ halted, rfl⟩
  · rename_i running
    exact .inr ⟨kept.2.1 ▸ running, kept.2⟩

variable {packets : List Packet} {limit : Nat}

/-- How far `packets`, all of them stored already, have come in a pass that ends
before statement number `limit`. -/
structure Passing (packets : List Packet) (limit : Nat) (s : Kernel) (past : List (Kernel × Event)) : Prop where
  conserved : Conserved s past
  known : packets <+: full (stored past)
  taken : s.Taken → packets <+: called past ++ full s.pending
  timely : packets <+: called past ∨ statements past + s.remaining ≤ limit

theorem Passing.done {past : List (Kernel × Event)} (passing : Passing packets limit s past) (none : s.remaining = 0) :
    packets <+: called past := by
  obtain ⟨taken, empty⟩ := remaining_zero passing.conserved.consistent none
  simpa [empty] using passing.taken taken

/-- The snapshot is taken by one statement, and no packet is skipped later on. -/
theorem statement_taken {past : List (Kernel × Event)} (passing : Passing packets limit s past)
    (after : s.statement.Taken) :
    packets <+: called (past ++ [(s, .statement)]) ++ full s.statement.pending := by
  have inv := passing.conserved.consistent
  rw [called_snoc, List.append_assoc]
  by_cases pc : s.pc = .reset
  · obtain ⟨none, empty, moved, _⟩ := statement_reset inv pc
    have known := passing.known
    rw [passing.conserved.balance, undelivered, empty, List.nil_append] at known
    rwa [none, moved, List.nil_append]
  · rw [(statement_pending inv pc).1]
    exact passing.taken (taken_before inv pc after)

theorem Passing.step {past : List (Kernel × Event)} (passing : Passing packets limit s past)
    (step : Step s event s') : Passing packets limit s' (past ++ [(s, event)]) := by
  have grown : packets <+: called past → packets <+: called (past ++ [(s, event)]) := by
    rw [called_snoc]
    exact fun front => front.trans (List.prefix_append ..)
  refine ⟨passing.conserved.step step, ?_, ?_, ?_⟩
  · rw [stored_snoc, full_append]
    exact passing.known.trans (List.prefix_append ..)
  · cases event with
    | arrive arrival =>
      cases step
      show s.Taken → packets <+: called (past ++ [(s, .arrive arrival)]) ++ full s.pending
      rw [called_snoc]
      simpa [calledBy] using passing.taken
    | irq n =>
      obtain ⟨pending, ⟨_, enters⟩ | ⟨_, pc, _⟩⟩ := irq_frame step
      · intro taken
        simp [Taken, enters] at taken
      · rw [called_snoc, pending]
        simpa [Taken, pc, calledBy] using passing.taken
    | statement =>
      cases step
      exact statement_taken passing
  · rcases passing.timely with early | timely
    · exact .inl (grown early)
    · by_cases none : s.remaining = 0
      · exact .inl (grown (passing.done none))
      · refine .inr ?_
        rw [statements, List.countP_append, List.countP_singleton]
        rw [statements] at timely
        cases event with
        | arrive arrival =>
          cases step
          exact timely
        | irq n =>
          obtain ⟨_, ⟨halted, _⟩ | ⟨_, _, same⟩⟩ := irq_frame step
          · simp [remaining, halted] at none
          · rw [same]
            exact timely
        | statement =>
          cases step
          have less := statement_remaining passing.conserved.consistent (Nat.pos_of_ne_zero none)
          simp only [decide_true, if_true]
          omega

/-- In every run the packets that handlers stored are, in order and unchanged,
those that `umkaIRQFn` was called with followed by those still underway. What is
stored when a pass begins has been passed on at most `passLength` statements later. -/
theorem irq_handover {last : Kernel} (booted : Booted s) (run : Run Step s steps last) :
    full (stored steps) = called steps ++ full last.undelivered ∧
      ∀ more t, last.pc = .enter → Run Step last more t → passLength ≤ statements more →
        full (stored steps) <+: called (steps ++ more) := by
  have conserved : Conserved last steps := by
    simpa using run.history (fun inv step => inv.step step) booted.conserved
  refine ⟨conserved.balance, fun more t enters further enough => ?_⟩
  have start : Passing (full (stored steps)) (statements steps + passLength) last steps := by
    refine ⟨conserved, List.prefix_rfl, fun taken => ?_, .inr ?_⟩
    · simp [Taken, enters] at taken
    · simp [remaining, enters, passLength]
  have passing := further.history (fun inv step => inv.step step) start
  rcases passing.timely with early | timely
  · exact early
  · refine passing.done ?_
    have split : statements (steps ++ more) = statements steps + statements more := by
      simp [statements]
    omega

/-- A key is pressed while the machine sleeps. -/
def keyPress : List Event := [.statement, .arrive ⟨0x1E, .keyboard⟩, .irq 1]

theorem irq_handover_key : (after boot keyPress).pc = .enter ∧
    full (stored (trace boot keyPress)) = called (trace boot keyPress) ++ full (after boot keyPress).undelivered ∧
    ∀ more t, (after boot keyPress).pc = .enter → Run Step (after boot keyPress) more t → passLength ≤ statements more →
      full (stored (trace boot keyPress)) <+: called (trace boot keyPress ++ more) :=
  ⟨rfl, irq_handover booted_boot (run_events rfl)⟩

end UmkaOs.Irq
