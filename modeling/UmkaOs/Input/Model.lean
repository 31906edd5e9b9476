import UmkaOs.Machine
import UmkaOs.Lib.Run
import Mathlib.Logic.Function.Basic

/-! The input path above the interrupts: the mouse decoder and the packet list
of `kernel/input.um`, the callback of `user/user.um` and the mouse state of
`user/microui.um`. -/

namespace UmkaOs.Input

structure MousePacket where
  dx : Int
  dy : Int
  lmb : Bool
  rmb : Bool
  mmb : Bool
  deriving DecidableEq

/-- The globals of `input.um`. Its packets are all mouse packets. -/
structure Decoder where
  mouseCycle : Int
  mouseBytes : Fin 3 → UInt8
  packets : List MousePacket

/-- `byte & 0x8 == 0` -/
def headless (byte : UInt8) : Prop := byte &&& 0x8 = 0

instance : DecidablePred headless := fun byte => inferInstanceAs (Decidable (byte &&& 0x8 = 0))

/-- `(mouseBytes[0] & 0x80) > 0 || (mouseBytes[0] & 0x40) > 0` -/
def overflowed (byte : UInt8) : Prop := byte &&& 0x80 > 0 ∨ byte &&& 0x40 > 0

instance : DecidablePred overflowed :=
  fun byte => inferInstanceAs (Decidable (byte &&& 0x80 > 0 ∨ byte &&& 0x40 > 0))

/-- `int16(low) - ((header << shift) & 0x100)` -/
def delta (header low : UInt8) (shift : Nat) : Int := low.toNat - ((header.toNat <<< shift) &&& 0x100 : Nat)

def mousePacket (bytes : Fin 3 → UInt8) : MousePacket where
  dx := delta (bytes 0) (bytes 1) 4
  dy := delta (bytes 0) (bytes 2) 3
  lmb := bytes 0 &&& 1 > 0
  rmb := bytes 0 &&& 2 > 0
  mmb := bytes 0 &&& 4 > 0

namespace Decoder

/-- The switch on `mouseCycle`, and whether it leaves the loop: a `break` in it
is one of the loop over the bytes. -/
def turn (d : Decoder) (byte : UInt8) : Decoder × Bool :=
  if d.mouseCycle = 0 then
    if headless byte then (d, true)
    else ({ d with mouseBytes := Function.update d.mouseBytes 0 byte, mouseCycle := d.mouseCycle + 1 }, false)
  else if d.mouseCycle = 1 then
    ({ d with mouseBytes := Function.update d.mouseBytes 1 byte, mouseCycle := d.mouseCycle + 1 }, false)
  else if d.mouseCycle = 2 then
    let d := { d with mouseBytes := Function.update d.mouseBytes 2 byte, mouseCycle := 0 }
    if overflowed (d.mouseBytes 0) then (d, true)
    else ({ d with packets := d.packets ++ [mousePacket d.mouseBytes] }, false)
  else (d, false)

def handleMouseIrq (d : Decoder) : List UInt8 → Decoder
  | [] => d
  | byte :: rest =>
    let turned := d.turn byte
    if turned.2 then turned.1 else handleMouseIrq turned.1 rest

/-- `irq` -/
def interrupt (d : Decoder) (irq : UInt8) (bytes : List UInt8) : Decoder :=
  if irq = 12 then d.handleMouseIrq bytes else d

/-- `relay`, for a callback that works on a state of its own. -/
def relay {State : Type*} (f : State → MousePacket → State) (d : Decoder) (s : State) : Decoder × State :=
  ({ d with packets := [] }, d.packets.foldl f s)

/-- One call of `handleMouseIrq` after another. -/
def decode (d : Decoder) (batches : List (List UInt8)) : Decoder := batches.foldl handleMouseIrq d

end Decoder

/-- `MouseButton`, a set of bits. -/
abbrev MouseButton := BitVec 64

namespace MouseButton

def none : MouseButton := 0
def left : MouseButton := 1 <<< 0
def right : MouseButton := 1 <<< 1
def middle : MouseButton := 1 <<< 2

def set (m b : MouseButton) : MouseButton := m ||| b
def unset (m b : MouseButton) : MouseButton := m &&& ~~~b
def has (m b : MouseButton) : Bool := m &&& b ≠ 0

end MouseButton

structure Vec2 where
  x : Int
  y : Int

/-- The mouse fields of microui's `Context`. -/
structure Context where
  mousePos : Vec2
  lastMousePos : Vec2
  mouseDown : MouseButton
  mousePressed : MouseButton

namespace Context

def inputMouseMove (ctx : Context) (x y : Int) : Context := { ctx with mousePos := ⟨x, y⟩ }

def inputMouseDown (ctx : Context) (x y : Int) (btn : MouseButton) : Context :=
  let ctx := ctx.inputMouseMove x y
  { ctx with mouseDown := ctx.mouseDown.set btn, mousePressed := ctx.mousePressed.set btn }

def inputMouseUp (ctx : Context) (x y : Int) (btn : MouseButton) : Context :=
  let ctx := ctx.inputMouseMove x y
  { ctx with mouseDown := ctx.mouseDown.unset btn }

/-- `end`, less what it does to the widgets. -/
def endFrame (ctx : Context) : Context :=
  { ctx with mousePressed := MouseButton.none, lastMousePos := ctx.mousePos }

end Context

/-- The globals of `user.um` that its callback works on. -/
structure User where
  ctx : Context
  mouseX : Int
  mouseY : Int
  wasLmb : Bool

/-- `if v < 0 { v = 0 }` and, behind it, `if v > high { v = high }` -/
def clamp (v high : Int) : Int :=
  let v := if v < 0 then 0 else v
  if v > high then high else v

/-- The callback of `schedule`, on a screen of `w` by `h`. -/
def User.onPacket (w h : Int) (u : User) (v : MousePacket) : User :=
  let u := { u with mouseX := clamp (u.mouseX + v.dx) w, mouseY := clamp (u.mouseY + -v.dy) h }
  let ctx :=
    if v.lmb && !u.wasLmb then u.ctx.inputMouseDown u.mouseX u.mouseY MouseButton.left
    else if u.wasLmb then u.ctx.inputMouseMove u.mouseX u.mouseY
    else u.ctx.inputMouseUp u.mouseX u.mouseY MouseButton.left
  { u with ctx := ctx, wasLmb := v.lmb }

/-- `schedule`, less the tasks and the drawing. -/
def schedule (w h : Int) (d : Decoder) (u : User) : Decoder × User :=
  let relayed := d.relay (User.onPacket w h) u
  (relayed.1, { relayed.2 with ctx := relayed.2.ctx.endFrame })

end UmkaOs.Input
