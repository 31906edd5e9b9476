import UmkaOs.Machine
import UmkaOs.Lib.Run

/-! The interrupt side of `sys/umka.c`: the packets array, the handler of both
devices, and `umkaRuntimeSchedule` statement by statement inside the main loop
of `kmain`. -/

namespace UmkaOs.Irq

open Lib

inductive Device where
  | keyboard | mouse
  deriving DecidableEq

/-- A byte in the PS/2 controller and where it comes from; the ports do not tell. -/
structure Arrival where
  byte : UInt8
  device : Device
  deriving DecidableEq

/-- `Packet`; `length` is the length of the list. -/
structure Packet where
  irq : UInt8
  bytes : List UInt8
  deriving DecidableEq

/-- Where `kmain` stands: the statement of `umkaRuntimeSchedule` that comes next,
or the `hlt` behind it. -/
inductive Pc where
  /-- `if (umkaLock) return;` -/
  | enter
  /-- `umkaLock = 1;` -/
  | lock
  /-- `size_t lpacket_count = packet_count;` -/
  | count
  /-- `memcpy(lpackets, packets, sizeof(packets));`, with `k` packets copied. -/
  | copy (k : Nat)
  /-- `packet_count = 0;` -/
  | reset
  /-- `umkaLock = 0;` -/
  | unlock
  /-- `i < lpacket_count` -/
  | loop
  /-- `Packet packet = lpackets[i];` -/
  | fetch
  /-- `if (packet.length == 0) continue;` -/
  | test
  /-- The three parameters of the call. -/
  | setIrq | setPtr | setLength
  /-- `umkaCall(umka, &umkaIRQFn);` -/
  | call
  /-- `umkaCall(umka, &umkaScheduleFn);` -/
  | schedule
  /-- About to execute `hlt`. -/
  | hlt
  /-- `hlt` waits for an interrupt. -/
  | halted
  deriving DecidableEq

/-- The parameter slots of `umkaIRQFn`. -/
structure Params where
  irq : UInt8
  ptr : List UInt8
  length : Nat

structure Kernel where
  controller : List Arrival
  umkaLock : Bool
  packets : Nat → Packet
  packetCount : Nat
  pc : Pc
  lpackets : Nat → Packet
  lpacketCount : Nat
  i : Nat
  packet : Packet
  params : Params

/-- `sizeof(packets) / sizeof(packets[0])` -/
def capacity : Nat := 128

/-- `sizeof(packet->bytes)` -/
def packetSize : Nat := 128

def packetAddByte (packet : Packet) (byte : UInt8) : Except Fault Packet :=
  if packet.bytes.length < packetSize then .ok { packet with bytes := packet.bytes ++ [byte] } else .error .panic

namespace Kernel

/-- Returns the index of the new packet. -/
def makePacket (s : Kernel) (irq : UInt8) : Except Fault (Kernel × Nat) :=
  if s.packetCount ≥ capacity then .error .panic
  else .ok ({ s with
    packets := Function.update s.packets s.packetCount ⟨irq, []⟩
    packetCount := s.packetCount + 1 }, s.packetCount)

/-- `while ((in8(0x64) & 1) == 1) packetAddByte(p, in8(0x60));` -/
def fillPacket (p : Nat) : List Arrival → (Nat → Packet) → Except Fault (Nat → Packet)
  | [], packets => .ok packets
  | arrival :: rest, packets => do
    let packet ← packetAddByte (packets p) arrival.byte
    fillPacket p rest (Function.update packets p packet)

/-- Every byte in the controller is read and thrown away. -/
def drain (s : Kernel) : Kernel := { s with controller := [] }

/-- `umkaRuntimeHandleIRQ`, less the end-of-interrupt writes. -/
def umkaRuntimeHandleIRQ (s : Kernel) (irq : UInt8) : Except Fault Kernel :=
  if s.umkaLock then .ok s.drain
  else if irq = 12 ∨ irq = 1 then do
    let s := { s with umkaLock := true }
    let (s, p) ← s.makePacket irq
    let packets ← fillPacket p s.controller s.packets
    return { s with packets := packets, controller := [], umkaLock := false }
  else .ok s.drain

/-- The next statement. The calls into Umka return; they leave everything here alone. -/
def statement (s : Kernel) : Kernel :=
  match s.pc with
  | .enter => if s.umkaLock then { s with pc := .hlt } else { s with pc := .lock }
  | .lock => { s with umkaLock := true, pc := .count }
  | .count => { s with lpacketCount := s.packetCount, pc := .copy 0 }
  | .copy k =>
    if k < capacity then { s with lpackets := Function.update s.lpackets k (s.packets k), pc := .copy (k + 1) }
    else { s with pc := .reset }
  | .reset => { s with packetCount := 0, pc := .unlock }
  | .unlock => { s with umkaLock := false, i := 0, pc := .loop }
  | .loop => if s.i < s.lpacketCount then { s with pc := .fetch } else { s with pc := .schedule }
  | .fetch => { s with packet := s.lpackets s.i, pc := .test }
  | .test =>
    if s.packet.bytes.length = 0 then { s with i := s.i + 1, pc := .loop } else { s with pc := .setIrq }
  | .setIrq => { s with params := { s.params with irq := s.packet.irq }, pc := .setPtr }
  | .setPtr => { s with params := { s.params with ptr := s.packet.bytes }, pc := .setLength }
  | .setLength => { s with params := { s.params with length := s.packet.bytes.length }, pc := .call }
  | .call => { s with i := s.i + 1, pc := .loop }
  | .schedule => { s with pc := .hlt }
  | .hlt => { s with pc := .halted }
  | .halted => s

/-- The end of an interrupt ends a `hlt`. -/
def wake (s : Kernel) : Kernel := if s.pc = .halted then { s with pc := .enter } else s

end Kernel

/-- What happens next: a byte arrives at the controller, an interrupt is handled,
or `kmain` goes on by one statement. -/
inductive Event where
  | arrive (arrival : Arrival)
  | irq (n : UInt8)
  | statement
  deriving DecidableEq

def exec (s : Kernel) : Event → Except Fault Kernel
  | .arrive arrival => .ok { s with controller := s.controller ++ [arrival] }
  | .irq n => do
    let s ← s.umkaRuntimeHandleIRQ n
    return s.wake
  | .statement => .ok s.statement

/-- A step without a panic. -/
def Step (s : Kernel) (event : Event) (s' : Kernel) : Prop := exec s event = .ok s'

def execAll (s : Kernel) : List Event → Except Fault Kernel
  | [] => .ok s
  | event :: events => do
    let s ← exec s event
    execAll s events

/-- The events with the states they happen in. -/
def trace (s : Kernel) : List Event → List (Kernel × Event)
  | [] => []
  | event :: events => (s, event) :: match exec s event with
    | .ok s' => trace s' events
    | .error _ => []

/-- The state behind the events. -/
def after (s : Kernel) (events : List Event) : Kernel :=
  match execAll s events with
  | .ok t => t
  | .error _ => s

theorem run_events {s : Kernel} {events : List Event} (ok : (execAll s events).isOk = true) :
    Run Step s (trace s events) (after s events) := by
  induction events generalizing s with
  | nil => exact .stop s
  | cons event events ih =>
    rw [after, execAll] at *
    cases first : exec s event with
    | error e => simp [first, bind, Except.bind, Except.isOk, Except.toBool] at ok
    | ok s1 =>
      rw [trace, first]
      simp only [first, bind, Except.bind] at ok ⊢
      have rest := ih ok
      rw [after] at rest
      refine .next first ?_
      cases later : execAll s1 events with
      | error e => simp [later, Except.isOk, Except.toBool] at ok
      | ok t => simpa [later] using rest

/-- `kmain` behind its `sti`: `umkaRuntimeSchedule` has found nothing. -/
structure Booted (s : Kernel) : Prop where
  pc : s.pc = .hlt
  unlocked : s.umkaLock = false
  none : s.packetCount = 0
  controller : s.controller = []

/-- One such state. -/
def boot : Kernel where
  controller := []
  umkaLock := false
  packets := fun _ => ⟨0, []⟩
  packetCount := 0
  pc := .hlt
  lpackets := fun _ => ⟨0, []⟩
  lpacketCount := 0
  i := 0
  packet := ⟨0, []⟩
  params := ⟨0, [], 0⟩

theorem booted_boot : Booted boot := ⟨rfl, rfl, rfl, rfl⟩

/-- `packets[0]` to `packets[packet_count - 1]` -/
def Kernel.waiting (s : Kernel) : List Packet := (List.range s.packetCount).map s.packets

/-- The packets that a handler run leaves in the array. -/
def storedBy (step : Kernel × Event) : List Packet :=
  match step.2, exec step.1 step.2 with
  | .irq _, .ok s' => s'.waiting.drop step.1.packetCount
  | _, _ => []

/-- What `umkaIRQFn` is called with; `system__irq` reads `length` bytes from `ptr`. -/
def calledBy (step : Kernel × Event) : List Packet :=
  if step.2 = .statement ∧ step.1.pc = .call then
    [⟨step.1.params.irq, step.1.params.ptr.take step.1.params.length⟩]
  else []

/-- `irq` of `input.um`: the bytes it passes to `handleMouseIrq`. -/
def handleMouseIrq (packet : Packet) : List UInt8 :=
  match packet.irq with
  | 12 => packet.bytes
  | _ => []

/-- The bytes of a device, in order. -/
def bytesOf (device : Device) (arrivals : List Arrival) : List UInt8 :=
  (arrivals.filter (·.device = device)).map (·.byte)

def arrivedBy (step : Kernel × Event) : List Arrival :=
  match step.2 with
  | .arrive arrival => [arrival]
  | _ => []

end UmkaOs.Irq
