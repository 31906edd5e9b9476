import UmkaOs.Input.Model

namespace UmkaOs.Input

open Decoder

variable {d : Decoder} {byte : UInt8} {batches : List (List UInt8)} {front back : List UInt8}

namespace Decoder

/-- The loop runs over these bytes without a `break`. -/
def Smooth (d : Decoder) : List UInt8 → Prop
  | [] => True
  | byte :: rest => (d.turn byte).2 = false ∧ (d.turn byte).1.Smooth rest

/-- The decoder behind packets that were there before. -/
def behind (packets : List MousePacket) (d : Decoder) : Decoder := { d with packets := packets ++ d.packets }

theorem turn_cases (d : Decoder) (byte : UInt8) :
    (d.mouseCycle = 0 ∧ headless byte ∧ d.turn byte = (d, true)) ∨
    (d.mouseCycle = 0 ∧ ¬ headless byte ∧
      d.turn byte = ({ d with mouseBytes := Function.update d.mouseBytes 0 byte, mouseCycle := 1 }, false)) ∨
    (d.mouseCycle = 1 ∧
      d.turn byte = ({ d with mouseBytes := Function.update d.mouseBytes 1 byte, mouseCycle := 2 }, false)) ∨
    (d.mouseCycle = 2 ∧ overflowed (d.mouseBytes 0) ∧
      d.turn byte = ({ d with mouseBytes := Function.update d.mouseBytes 2 byte, mouseCycle := 0 }, true)) ∨
    (d.mouseCycle = 2 ∧ ¬ overflowed (d.mouseBytes 0) ∧
      d.turn byte = ({
        mouseCycle := 0
        mouseBytes := Function.update d.mouseBytes 2 byte
        packets := d.packets ++ [mousePacket (Function.update d.mouseBytes 2 byte)] }, false)) ∨
    (d.mouseCycle ≠ 0 ∧ d.mouseCycle ≠ 1 ∧ d.mouseCycle ≠ 2 ∧ d.turn byte = (d, false)) := by
  by_cases first : d.mouseCycle = 0
  · by_cases none : headless byte <;> simp [turn, first, none]
  · by_cases second : d.mouseCycle = 1
    · simp [turn, second]
    · by_cases third : d.mouseCycle = 2
      · by_cases spills : overflowed (d.mouseBytes 0) <;> simp [turn, third, spills]
      · simp [turn, first, second, third]

theorem turn_behind (packets : List MousePacket) (d : Decoder) (byte : UInt8) :
    (d.behind packets).turn byte = ((d.turn byte).1.behind packets, (d.turn byte).2) := by
  rcases turn_cases d byte with ⟨start, none, run⟩ | ⟨start, headed, run⟩ | ⟨second, run⟩ | ⟨third, spills, run⟩ |
      ⟨third, fits, run⟩ | ⟨first, second, third, run⟩ <;>
    rw [run]
  · simp [turn, behind, start, none]
  · simp [turn, behind, start, headed]
  · simp [turn, behind, second]
  · simp [turn, behind, third, spills]
  · simp [turn, behind, third, fits]
  · simp [turn, behind, first, second, third]

/-- A `break` leaves the decoder at the start of a packet. -/
theorem turn_stops (stops : (d.turn byte).2 = true) : (d.turn byte).1.mouseCycle = 0 := by
  rcases turn_cases d byte with
    ⟨start, _, run⟩ | ⟨_, _, run⟩ | ⟨_, run⟩ | ⟨_, _, run⟩ | ⟨_, _, run⟩ | ⟨_, _, _, run⟩ <;>
    rw [run] at stops ⊢
  · exact start
  all_goals cases stops

theorem handle_behind (packets : List MousePacket) (d : Decoder) (bytes : List UInt8) :
    (d.behind packets).handleMouseIrq bytes = (d.handleMouseIrq bytes).behind packets := by
  induction bytes generalizing d with
  | nil => rfl
  | cons byte rest ih =>
    simp only [handleMouseIrq, turn_behind]
    split
    · rfl
    · exact ih _

theorem handle_cons (byte : UInt8) (rest : List UInt8) (goes : (d.turn byte).2 = false) :
    d.handleMouseIrq (byte :: rest) = (d.turn byte).1.handleMouseIrq rest := by
  simp [handleMouseIrq, goes]

theorem handle_append (smooth : d.Smooth front) (back : List UInt8) :
    d.handleMouseIrq (front ++ back) = (d.handleMouseIrq front).handleMouseIrq back := by
  induction front generalizing d with
  | nil => rfl
  | cons byte rest ih =>
    obtain ⟨goes, later⟩ := smooth
    rw [List.cons_append, handle_cons _ _ goes, handle_cons _ _ goes]
    exact ih later

theorem smooth_append : d.Smooth (front ++ back) ↔ d.Smooth front ∧ (d.handleMouseIrq front).Smooth back := by
  induction front generalizing d with
  | nil => simp [Smooth, handleMouseIrq]
  | cons byte rest ih =>
    simp only [List.cons_append, Smooth, and_assoc]
    refine and_congr_right fun goes => ?_
    rw [ih, handle_cons _ _ goes]

/-- Without a `break` only the bytes count, not where they are cut. -/
theorem decode_smooth (smooth : d.Smooth batches.flatten) : d.decode batches = d.handleMouseIrq batches.flatten := by
  induction batches generalizing d with
  | nil => rfl
  | cons batch later ih =>
    obtain ⟨first, rest⟩ := smooth_append.mp smooth
    rw [List.flatten_cons, handle_append first, ← ih rest]
    rfl

end Decoder

/-- What a mouse reports, in the nine bits of the protocol. -/
structure MouseEvent extends MousePacket where
  dx_range : -256 ≤ dx ∧ dx ≤ 255
  dy_range : -256 ≤ dy ∧ dy ≤ 255

/-- The first byte of a packet: bit 3 set, the overflow bits clear. -/
def header (lmb rmb mmb left down : Bool) : UInt8 :=
  (if lmb then 1 else 0) ||| (if rmb then 2 else 0) ||| (if mmb then 4 else 0) ||| 8 |||
    (if left then 0x10 else 0) ||| (if down then 0x20 else 0)

/-- The low byte of a nine bit number. -/
def lowByte (n : Int) : UInt8 := UInt8.ofNat (n % 256).toNat

def encode (event : MouseEvent) : List UInt8 :=
  [header event.lmb event.rmb event.mmb (event.dx < 0) (event.dy < 0), lowByte event.dx, lowByte event.dy]

theorem header_bits (lmb rmb mmb left down : Bool) : let byte := header lmb rmb mmb left down
    ¬ headless byte ∧ ¬ overflowed byte ∧ decide (byte &&& 1 > 0) = lmb ∧ decide (byte &&& 2 > 0) = rmb ∧
      decide (byte &&& 4 > 0) = mmb ∧ (byte.toNat <<< 4) &&& 0x100 = (if left then 256 else 0) ∧
      (byte.toNat <<< 3) &&& 0x100 = (if down then 256 else 0) := by
  revert lmb rmb mmb left down
  decide

theorem low_toNat (n : Int) : ((lowByte n).toNat : Int) = n % 256 := by
  rw [lowByte, UInt8.toNat_ofNat']
  omega

theorem mousePacket_encoded (event : MouseEvent) (bytes : Fin 3 → UInt8)
    (first : bytes 0 = header event.lmb event.rmb event.mmb (event.dx < 0) (event.dy < 0))
    (second : bytes 1 = lowByte event.dx) (third : bytes 2 = lowByte event.dy) :
    mousePacket bytes = event.toMousePacket := by
  obtain ⟨⟨dx, dy, lmb, rmb, mmb⟩, dxRange, dyRange⟩ := event
  obtain ⟨_, _, left, right, middle, dxSign, dySign⟩ := header_bits lmb rmb mmb (dx < 0) (dy < 0)
  simp only at first second third dxRange dyRange
  simp only [mousePacket, delta, first, second, third, left, right, middle, dxSign, dySign, low_toNat,
    MousePacket.mk.injEq, and_true, decide_eq_true_eq]
  constructor
  · split <;> omega
  · split <;> omega

/-- The three bytes of an event pass without a `break` and append it. -/
theorem handle_encoded (event : MouseEvent) (start : d.mouseCycle = 0) :
    d.Smooth (encode event) ∧ (d.handleMouseIrq (encode event)).mouseCycle = 0 ∧
      (d.handleMouseIrq (encode event)).packets = d.packets ++ [event.toMousePacket] := by
  obtain ⟨headed, fits, _⟩ := header_bits event.lmb event.rmb event.mmb (event.dx < 0) (event.dy < 0)
  have decoded := @mousePacket_encoded event
  simp [encode, Smooth, handleMouseIrq, turn, start, headed, fits, decoded, Function.update]

theorem handle_events (events : List MouseEvent) (start : d.mouseCycle = 0) :
    d.Smooth (events.flatMap encode) ∧ (d.handleMouseIrq (events.flatMap encode)).mouseCycle = 0 ∧
      (d.handleMouseIrq (events.flatMap encode)).packets = d.packets ++ events.map (·.toMousePacket) := by
  induction events generalizing d with
  | nil => exact ⟨trivial, start, by simp [handleMouseIrq]⟩
  | cons event later ih =>
    obtain ⟨smooth, between, packet⟩ := handle_encoded event start
    obtain ⟨rest, cycle, packets⟩ := ih between
    rw [List.flatMap_cons, handle_append smooth]
    refine ⟨smooth_append.mpr ⟨smooth, rest⟩, cycle, ?_⟩
    rw [packets, packet]
    simp

/-- A batch of the mouse, and after it perhaps a `relay` whose callback keeps a log. -/
def deliverBatch (s : Decoder × List MousePacket) (batch : List UInt8 × Bool) : Decoder × List MousePacket :=
  let d := s.1.interrupt 12 batch.1
  if batch.2 then d.relay (fun log packet => log ++ [packet]) s.2 else (d, s.2)

/-- Batches with relays between them, and what has been relayed in the end. -/
def deliver (d : Decoder) (batches : List (List UInt8 × Bool)) : Decoder × List MousePacket :=
  batches.foldl deliverBatch (d, [])

theorem relay_log (d : Decoder) (log : List MousePacket) :
    d.relay (fun log packet => log ++ [packet]) log = ({ d with packets := [] }, log ++ d.packets) := by
  rw [relay]
  simp [← List.flatMap_def]

/-- A relay only moves packets: the log and the packets together are those of
the batches alone. -/
theorem deliver_behind (s : Decoder × List MousePacket) (batches : List (List UInt8 × Bool)) :
    (batches.foldl deliverBatch s).1.behind (batches.foldl deliverBatch s).2 =
      (s.1.behind s.2).decode (batches.map Prod.fst) := by
  induction batches generalizing s with
  | nil => rfl
  | cons batch later ih =>
    have once : (deliverBatch s batch).1.behind (deliverBatch s batch).2 =
        (s.1.behind s.2).handleMouseIrq batch.1 := by
      rw [handle_behind, deliverBatch, interrupt, if_pos rfl]
      split
      · rw [relay_log]
        simp [behind]
      · rfl
    rw [List.foldl_cons, ih, once]
    rfl

/-- Directly after a relay nothing is left to relay. -/
theorem deliver_relayed (s : Decoder × List MousePacket) (batches : List (List UInt8 × Bool))
    (relayed : ∃ batch ∈ batches.getLast?, batch.2 = true) : (batches.foldl deliverBatch s).1.packets = [] := by
  obtain ⟨batch, last, flag⟩ := relayed
  obtain ⟨front, rfl⟩ := List.getLast?_eq_some_iff.mp last
  rw [List.foldl_append, List.foldl_cons, List.foldl_nil, deliverBatch, if_pos flag]
  rfl

/-- Whatever the batches and the relays between them, the events come out of
`relay` in their order: those not relayed yet are the packets that wait. -/
theorem events_delivered (d : Decoder) (start : d.mouseCycle = 0) (events : List MouseEvent)
    (batches : List (List UInt8 × Bool)) (split : (batches.map Prod.fst).flatten = events.flatMap encode) :
    (deliver d batches).1.mouseCycle = 0 ∧
      (deliver d batches).2 ++ (deliver d batches).1.packets = d.packets ++ events.map (·.toMousePacket) ∧
      ((∃ batch ∈ batches.getLast?, batch.2 = true) →
        (deliver d batches).2 = d.packets ++ events.map (·.toMousePacket)) := by
  obtain ⟨smooth, cycle, packets⟩ := handle_events events start
  rw [← split] at smooth cycle packets
  have whole := deliver_behind (d, []) batches
  have alone : (Decoder.behind [] d) = d := by simp [behind]
  rw [alone, decode_smooth smooth] at whole
  have ends : (deliver d batches).1.mouseCycle = 0 := by
    have same := congrArg mouseCycle whole
    exact same.trans cycle
  have all : (deliver d batches).2 ++ (deliver d batches).1.packets = d.packets ++ events.map (·.toMousePacket) := by
    have same := congrArg Decoder.packets whole
    exact same.trans packets
  refine ⟨ends, all, fun relayed => ?_⟩
  have nothing : (deliver d batches).1.packets = [] := deliver_relayed _ _ relayed
  simpa [nothing] using all

/-- The decoder as `input.um` starts. -/
def idle : Decoder := ⟨0, fun _ => 0, []⟩

theorem events_delivered_drag :
    let batches := [([0x19], true), ([0xFD, 0x07, 0x28], true), ([], false), ([0x00, 0x00], true)]
    let events : List MouseEvent :=
      [⟨⟨-3, 7, true, false, false⟩, by decide, by decide⟩, ⟨⟨0, -256, false, false, false⟩, by decide, by decide⟩]
    (deliver idle batches).1.mouseCycle = 0 ∧
      (deliver idle batches).2 ++ (deliver idle batches).1.packets = idle.packets ++ events.map (·.toMousePacket) ∧
      ((∃ batch ∈ batches.getLast?, batch.2 = true) →
        (deliver idle batches).2 = idle.packets ++ events.map (·.toMousePacket)) :=
  events_delivered idle rfl _ _ (by decide)

end UmkaOs.Input
