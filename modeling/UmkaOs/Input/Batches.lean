import UmkaOs.Input.Mouse

/-! When the cuts between the batches do not matter: a `break` drops the rest
of its batch, so what lies behind it must not change the decoder either way. -/

namespace UmkaOs.Input

open Decoder

variable {d : Decoder} {byte : UInt8} {bytes rest front back : List UInt8} {t : Fin 3 → UInt8}
  {cycle : Int}

/-- Bytes that leave a decoder at the start of a packet as it is, wherever one
begins to read them: no headers, and copies of the overflowed packet it holds. -/
inductive Echo (t : Fin 3 → UInt8) : List UInt8 → Prop
  | done : Echo t []
  | skip (byte : UInt8) (rest : List UInt8) (none : headless byte) (later : Echo t rest) : Echo t (byte :: rest)
  | again (rest : List UInt8) (headed : ¬ headless (t 0)) (spills : overflowed (t 0)) (second : headless (t 1))
      (third : headless (t 2)) (later : Echo t rest) : Echo t (t 0 :: t 1 :: t 2 :: rest)

/-- The loop runs to the end of the bytes, or behind the first one on which it
leaves there is nothing but an echo. The triple is what the decoder holds. -/
def Steady (cycle : Int) (t : Fin 3 → UInt8) : List UInt8 → Prop
  | [] => True
  | byte :: rest =>
    if cycle = 0 then if headless byte then Echo t rest else Steady 1 (Function.update t 0 byte) rest
    else if cycle = 1 then Steady 2 (Function.update t 1 byte) rest
    else if cycle = 2 then
      if overflowed (t 0) then Echo (Function.update t 2 byte) rest else Steady 0 (Function.update t 2 byte) rest
    else Steady cycle t rest

theorem Echo.tail (echo : Echo t (byte :: rest)) : Echo t rest := by
  cases echo with
  | skip _ _ _ later => exact later
  | again _ _ _ second third later => exact .skip _ _ second (.skip _ _ third later)

theorem Echo.suffix (echo : Echo t (front ++ back)) : Echo t back := by
  induction front with
  | nil => exact echo
  | cons _ _ ih => exact ih echo.tail

theorem Echo.headed (echo : Echo t (byte :: rest)) (headed : ¬ headless byte) : headless (t 1) ∧ headless (t 2) := by
  cases echo with
  | skip _ _ none _ => exact absurd none headed
  | again _ _ _ second third _ => exact ⟨second, third⟩

/-- Where a decoder that holds `t` stands in an echo. -/
inductive Echoing (t : Fin 3 → UInt8) : Int → List UInt8 → Prop
  | first (rest : List UInt8) (later : Echo t rest) : Echoing t 0 rest
  | second (rest : List UInt8) (spills : overflowed (t 0)) (third : headless (t 2)) (later : Echo t rest) :
      Echoing t 1 (t 1 :: t 2 :: rest)
  | third (rest : List UInt8) (spills : overflowed (t 0)) (later : Echo t rest) : Echoing t 2 (t 2 :: rest)

theorem Echoing.batch (d : Decoder) (place : Echoing d.mouseBytes cycle (front ++ back)) :
    ∃ next, { d with mouseCycle := cycle }.handleMouseIrq front = { d with mouseCycle := next } ∧
      Echoing d.mouseBytes next back := by
  induction front generalizing cycle with
  | nil => exact ⟨cycle, rfl, place⟩
  | cons byte rest ih =>
    generalize whole : byte :: rest ++ back = bytes at place
    cases place with
    | first _ echo =>
      cases echo with
      | done => cases whole
      | skip _ _ none later =>
        cases whole
        exact ⟨0, by simp [handleMouseIrq, turn, none], .first _ later.suffix⟩
      | again later headed spills second third echo =>
        obtain ⟨same, behind⟩ := List.cons.inj whole
        have second : Echoing d.mouseBytes 1 (rest ++ back) := by
          rw [← List.append_eq, behind]
          exact .second later spills third echo
        obtain ⟨next, run, place⟩ := ih second
        exact ⟨next, by simpa [handleMouseIrq, turn, same, headed] using run, place⟩
    | second later spills third echo =>
      obtain ⟨same, behind⟩ := List.cons.inj whole
      have third : Echoing d.mouseBytes 2 (rest ++ back) := by
        rw [← List.append_eq, behind]
        exact .third later spills echo
      obtain ⟨next, run, place⟩ := ih third
      exact ⟨next, by simpa [handleMouseIrq, turn, same] using run, place⟩
    | third later spills echo =>
      obtain ⟨same, behind⟩ := List.cons.inj whole
      rw [← behind] at echo
      exact ⟨0, by simp [handleMouseIrq, turn, same, spills], .first _ echo.suffix⟩

theorem Echoing.decode (d : Decoder) (batches : List (List UInt8))
    (place : Echoing d.mouseBytes cycle batches.flatten) :
    { d with mouseCycle := cycle }.decode batches = { d with mouseCycle := 0 } := by
  induction batches generalizing cycle with
  | nil =>
    cases place with
    | first => rfl
  | cons batch later ih =>
    obtain ⟨next, run, place⟩ := Echoing.batch d place
    have rest := ih place
    rw [Decoder.decode, List.foldl_cons, run]
    exact rest

/-- Behind a `break`: however much of the rest is dropped with its batch, what
comes in later batches changes nothing. -/
def Stuck (d : Decoder) (rest : List UInt8) : Prop :=
  ∀ front batches, rest = front ++ batches.flatten → d.decode batches = d

theorem Stuck.tail (stuck : Stuck d (byte :: rest)) : Stuck d rest := by
  rintro front batches rfl
  exact stuck (byte :: front) batches rfl

theorem packets_grow (d : Decoder) (bytes : List UInt8) :
    ∃ more, (d.handleMouseIrq bytes).packets = d.packets ++ more := by
  have split : d = Decoder.behind d.packets { d with packets := [] } := by simp [behind]
  have whole := handle_behind d.packets { d with packets := [] } bytes
  rw [← split] at whole
  rw [whole]
  exact ⟨_, rfl⟩

/-- A packet with an overflow bit is stored, and the loop is left. -/
theorem handle_dropped (start : d.mouseCycle = 0) (headed : ¬ headless byte) (spills : overflowed byte) (x y : UInt8)
    (rest : List UInt8) : d.handleMouseIrq (byte :: x :: y :: rest) =
      { d with mouseBytes := Function.update (Function.update (Function.update d.mouseBytes 0 byte) 1 x) 2 y } := by
  simp [handleMouseIrq, turn, start, headed, spills]

theorem handle_kept (start : d.mouseCycle = 0) (headed : ¬ headless byte) (fits : ¬ overflowed byte) (x y : UInt8)
    (rest : List UInt8) : (d.handleMouseIrq (byte :: x :: y :: rest)).packets ≠ d.packets := by
  intro same
  let stored := Function.update (Function.update (Function.update d.mouseBytes 0 byte) 1 x) 2 y
  let kept : Decoder := { d with mouseBytes := stored, packets := d.packets ++ [mousePacket stored] }
  have run : d.handleMouseIrq (byte :: x :: y :: rest) = kept.handleMouseIrq rest := by
    simp [handleMouseIrq, turn, start, headed, fits, stored, kept]
  obtain ⟨more, grown⟩ := packets_grow kept rest
  rw [run, grown] at same
  simpa [kept] using congrArg List.length same

theorem stuck_iff (start : d.mouseCycle = 0) : Stuck d rest ↔ Echo d.mouseBytes rest := by
  constructor
  · intro stuck
    induction rest with
    | nil => exact .done
    | cons byte rest ih =>
      have echo := ih stuck.tail
      by_cases none : headless byte
      · exact .skip _ _ none echo
      have whole : d.handleMouseIrq (byte :: rest) = d := stuck [] [byte :: rest] (by simp)
      rcases rest with _ | ⟨x, _ | ⟨y, rest⟩⟩
      · simpa [handleMouseIrq, turn, start, none] using congrArg mouseCycle whole
      · simpa [handleMouseIrq, turn, start, none] using congrArg mouseCycle whole
      · by_cases spills : overflowed byte
        · have held := congrArg mouseBytes (handle_dropped start none spills x y rest)
          rw [whole] at held
          have copy : byte = d.mouseBytes 0 ∧ x = d.mouseBytes 1 ∧ y = d.mouseBytes 2 := by
            rw [held]
            simp [Function.update]
          obtain ⟨rfl, rfl, rfl⟩ := copy
          have second : headless (d.mouseBytes 1) := by
            by_contra headed
            exact headed (echo.headed headed).1
          have third : headless (d.mouseBytes 2) := by
            by_contra headed
            exact headed (echo.tail.headed headed).2
          exact .again _ none spills second third echo.tail.tail
        · exact absurd (congrArg Decoder.packets whole) (handle_kept start none spills x y rest)
  · rintro echo front batches rfl
    have same := Echoing.decode d batches (.first _ echo.suffix)
    rwa [← start] at same

/-- The state a byte leaves tells whether the bytes behind it are steady. -/
theorem steady_cons : Steady d.mouseCycle d.mouseBytes (byte :: rest) ↔
    if (d.turn byte).2 then (d.turn byte).1.mouseCycle = 0 ∧ Echo (d.turn byte).1.mouseBytes rest
    else Steady (d.turn byte).1.mouseCycle (d.turn byte).1.mouseBytes rest := by
  have unfolded : Steady d.mouseCycle d.mouseBytes (byte :: rest) =
      if d.mouseCycle = 0 then
        if headless byte then Echo d.mouseBytes rest else Steady 1 (Function.update d.mouseBytes 0 byte) rest
      else if d.mouseCycle = 1 then Steady 2 (Function.update d.mouseBytes 1 byte) rest
      else if d.mouseCycle = 2 then
        if overflowed (d.mouseBytes 0) then Echo (Function.update d.mouseBytes 2 byte) rest
        else Steady 0 (Function.update d.mouseBytes 2 byte) rest
      else Steady d.mouseCycle d.mouseBytes rest := rfl
  rw [unfolded]
  rcases turn_cases d byte with ⟨start, none, run⟩ | ⟨start, headed, run⟩ | ⟨second, run⟩ | ⟨third, spills, run⟩ |
      ⟨third, fits, run⟩ | ⟨first, second, third, run⟩ <;>
    rw [run]
  · simp [start, none]
  · simp [start, headed]
  · simp [second]
  · simp [third, spills]
  · simp [third, fits]
  · simp [first, second, third]

/-- Every cut of the bytes decodes as one batch does. -/
def Uniform (d : Decoder) (bytes : List UInt8) : Prop :=
  ∀ batches : List (List UInt8), batches.flatten = bytes → d.decode batches = d.handleMouseIrq bytes

theorem uniform_iff_singles : Uniform d bytes ↔
    ∀ batches : List (List UInt8), batches.flatten = bytes → d.decode batches = d.decode (bytes.map ([·])) := by
  have singles : (bytes.map ([·])).flatten = bytes := by simp [← List.flatMap_def]
  constructor
  · intro uniform batches whole
    rw [uniform batches whole, uniform _ singles]
  · intro same batches whole
    have once := same [bytes] (by simp)
    rw [same batches whole, ← once]
    rfl

theorem decode_first {batches : List (List UInt8)} (whole : batches.flatten = byte :: rest) :
    ∃ front later, rest = front ++ later.flatten ∧
      ∀ d : Decoder, d.decode batches = (d.handleMouseIrq (byte :: front)).decode later := by
  induction batches with
  | nil => cases whole
  | cons batch later ih =>
    cases batch with
    | nil => exact ih whole
    | cons first front =>
      cases whole
      exact ⟨front, later, rfl, fun _ => rfl⟩

theorem uniform_on (goes : (d.turn byte).2 = false) : Uniform d (byte :: rest) ↔ Uniform (d.turn byte).1 rest := by
  constructor
  · intro uniform batches whole
    have same := uniform ([byte] :: batches) (by simp [whole])
    rw [handle_cons byte rest goes] at same
    rw [← same, decode, decode, List.foldl_cons, handle_cons byte [] goes]
    rfl
  · intro uniform batches whole
    obtain ⟨front, later, split, run⟩ := decode_first whole
    rw [run, handle_cons byte front goes, handle_cons byte rest goes]
    exact uniform (front :: later) split.symm

theorem uniform_stop (stops : (d.turn byte).2 = true) : Uniform d (byte :: rest) ↔ Stuck (d.turn byte).1 rest := by
  have left : ∀ rest, d.handleMouseIrq (byte :: rest) = (d.turn byte).1 := by
    intro rest
    simp [handleMouseIrq, stops]
  constructor
  · rintro uniform front batches rfl
    have same := uniform ((byte :: front) :: batches) rfl
    rw [left, decode, List.foldl_cons, left] at same
    exact same
  · intro stuck batches whole
    obtain ⟨front, later, split, run⟩ := decode_first whole
    rw [run, left, left]
    exact stuck front later split

theorem uniform_iff : Uniform d bytes ↔ Steady d.mouseCycle d.mouseBytes bytes := by
  induction bytes generalizing d with
  | nil =>
    refine iff_of_true (fun batches none => ?_) trivial
    have smooth : d.Smooth batches.flatten := by
      rw [none]
      trivial
    rw [decode_smooth smooth, none]
  | cons byte rest ih =>
    rw [steady_cons]
    cases leaves : (d.turn byte).2 with
    | true => rw [uniform_stop leaves, stuck_iff (turn_stops leaves)]; simp [turn_stops leaves]
    | false => rw [uniform_on leaves, ih]; simp

/-- Every cut of the bytes into batches leaves the same packets and the same
state as one byte a batch, exactly for steady bytes. -/
theorem batches_iff (d : Decoder) (bytes : List UInt8) :
    (∀ batches : List (List UInt8), batches.flatten = bytes → d.decode batches = d.decode (bytes.map ([·]))) ↔
      Steady d.mouseCycle d.mouseBytes bytes := by
  rw [← uniform_iff_singles, uniform_iff]

/-- A byte without bit 3 takes the packet behind it along when both come in one batch. -/
theorem batch_dropped : ¬ ∀ batches : List (List UInt8), batches.flatten = [0x00, 0x08, 0x01, 0x00] →
    idle.decode batches = idle.decode ([0x00, 0x08, 0x01, 0x00].map ([·])) := by
  intro same
  have packets := congrArg Decoder.packets (same [[0x00, 0x08, 0x01, 0x00]] rfl)
  revert packets
  decide

end UmkaOs.Input
