import UmkaOs.Machine
import UmkaOs.Lib.Run
import UmkaOs.Lib.Writes

/-! `sys/gfx.c` on a 1024x768 screen: the queue of commands, the drawing
functions, and `gfxSwap` with its hashes of cells. Every drawing function is the
list of its writes to the back buffer. -/

namespace UmkaOs.Gfx

open Lib

/-- `vesa_mode_info_struct.width` -/
def screenWidth : Int := 1024

/-- `vesa_mode_info_struct.height` -/
def screenHeight : Int := 768

def cellSize : Int := 16

def cellsX : Nat := 64

def cellsY : Nat := 48

structure Rect where
  x : Int
  y : Int
  w : Int
  h : Int
  deriving DecidableEq

namespace Rect

/-- `x + w` -/
def right (r : Rect) : Int := toInt32 (r.x + r.w)

/-- `y + h` -/
def bottom (r : Rect) : Int := toInt32 (r.y + r.h)

end Rect

def screen : Rect := ⟨0, 0, screenWidth, screenHeight⟩

/-- `CMD_DRAW_BCKG` to `CMD_DRAW_CLIP`. -/
inductive CommandType where
  | bckg | icon | char | rect | clip
  deriving DecidableEq

structure Command extends Rect where
  type : CommandType
  data : Int
  color : UInt32
  deriving DecidableEq

/-- What is read from files and from `font8x8.c`. The background is an array of words
in memory, so its width and its height are less than `2 ^ 30`. -/
structure Art where
  font8x8 : Int → Nat → UInt8
  iconWidth : Int
  iconData : Int → UInt32
  backgroundWidth : UInt32
  backgroundHeight : UInt32
  backgroundData : Int → UInt32
  narrow : backgroundWidth.toNat < 2 ^ 30
  low : backgroundHeight.toNat < 2 ^ 30

/-- What the hashing of cells is made of: the two values that `gfxInit` fills the
arrays with, `FNV_32_INIT`, and the hash of a command taken into the hash of a cell. -/
structure Hashing (H : Type) where
  zeros : H
  ones : H
  init : H
  mix : H → Command → H

structure Display (H : Type) where
  commands : List Command
  color : UInt32
  clip : Rect
  backbuffer : Int → UInt32
  pixels : Int → UInt8
  hashes1 : Nat → H
  hashes2 : Nat → H

def fnv32Init : UInt32 := 0x811c9dc5

def fnv32buf (buf : List UInt8) (hval : UInt32) : UInt32 :=
  buf.foldl (fun hval byte =>
    let hval := hval ^^^ byte.toUInt32
    hval + ((hval <<< 1) + (hval <<< 4) + (hval <<< 7) + (hval <<< 8) + (hval <<< 24))) hval

/-- A word in memory. -/
def wordBytes (n : UInt32) : List UInt8 :=
  [n.toUInt8, (n >>> 8).toUInt8, (n >>> 16).toUInt8, (n >>> 24).toUInt8]

def CommandType.code : CommandType → UInt32
  | bckg => 0
  | icon => 1
  | char => 2
  | rect => 3
  | clip => 4

/-- The bytes of a `struct Command`, with padding of zeros behind `data`. -/
def Command.bytes (cmd : Command) : List UInt8 :=
  let word (i : Int) := wordBytes (UInt32.ofNat (toUInt32 i))
  wordBytes cmd.type.code ++ UInt8.ofNat (toUInt32 cmd.data) :: [0, 0, 0] ++ wordBytes cmd.color ++ word cmd.x ++
    word cmd.y ++ word cmd.w ++ word cmd.h

def fnvHashing : Hashing UInt32 where
  zeros := 0
  ones := 0x01010101
  init := fnv32Init
  mix hval cmd := fnv32buf (wordBytes (fnv32buf cmd.bytes fnv32Init)) hval

def rectIntersect (a b : Rect) : Rect :=
  let x := if a.x > b.x then a.x else b.x
  let y := if a.y > b.y then a.y else b.y
  ⟨x, y, toInt32 ((if a.right < b.right then a.right else b.right) - x),
    toInt32 ((if a.bottom < b.bottom then a.bottom else b.bottom) - y)⟩

def rectOverlap (a b : Rect) : Bool :=
  a.x < b.right && a.right > b.x && a.y < b.bottom && a.bottom > b.y

/-! Drawing: the index in the back buffer and the color of every write. -/

def gfxSetPixel (clip : Rect) (x y : Int) (color : UInt32) : List (Int × UInt32) :=
  if x < clip.x ∨ y < clip.y ∨ x ≥ clip.right ∨ y ≥ clip.bottom then []
  else [(toInt32 (x + y * screenWidth), color)]

def gfxDoDrawIcon (art : Art) (clip : Rect) (color : UInt32) (px py c : Int) : List (Int × UInt32) :=
  (List.range 12).flatMap fun (x : Nat) => (List.range 16).flatMap fun (y : Nat) =>
    let ccolor := art.iconData (x + c * 12 + y * art.iconWidth)
    if ccolor &&& 0xFF ≠ 0 then gfxSetPixel clip (toInt32 (px + x)) (toInt32 (py + y)) (ccolor &&& color) else []

def gfxDoDrawChar (art : Art) (clip : Rect) (color : UInt32) (x y c : Int) : List (Int × UInt32) :=
  (List.range 8).flatMap fun (i : Nat) => (List.range 8).flatMap fun (j : Nat) =>
    if (art.font8x8 c i).toNat.testBit j then gfxSetPixel clip (toInt32 (x + j)) (toInt32 (y + i)) color else []

def gfxDoDrawRect (clip : Rect) (color : UInt32) (r : Rect) : List (Int × UInt32) :=
  let z := rectIntersect clip r
  (List.range z.h.toNat).flatMap fun (i : Nat) => (List.range z.w.toNat).map fun (j : Nat) =>
    (toInt32 (z.x + j + (z.y + i) * screenWidth), color)

/-- The rows that `CMD_DRAW_BCKG` copies; `w1 * 4` is a `size_t`. -/
def backgroundRows (art : Art) (region area : Rect) : List (Int × UInt32) :=
  let z := rectIntersect region area
  (List.range z.h.toNat).flatMap fun (y : Nat) =>
    let texY := toInt32 (y + z.y - area.y)
    if texY < 0 ∨ texY ≥ art.backgroundHeight.toNat then []
    else (List.range (toUInt32 (z.w * 4) / 4)).map fun (j : Nat) =>
      (toInt32 (z.x + (z.y + y) * screenWidth) + j,
        art.backgroundData (z.x - area.x + texY * art.backgroundWidth.toNat + j))

namespace Display

variable {H : Type}

/-- Writes to the back buffer, in order. -/
def put (g : Display H) (writes : List (Int × UInt32)) : Display H :=
  { g with backbuffer := writeAll g.backbuffer writes }

/-- The `switch` over the type of a command. -/
def drawCommand (art : Art) (region : Rect) (g : Display H) (cmd : Command) : Display H :=
  let g := { g with color := cmd.color }
  match cmd.type with
  | .bckg => g.put (backgroundRows art region cmd.toRect)
  | .icon => g.put (gfxDoDrawIcon art g.clip g.color cmd.x cmd.y cmd.data)
  | .char => g.put (gfxDoDrawChar art g.clip g.color cmd.x cmd.y cmd.data)
  | .rect => g.put (gfxDoDrawRect g.clip g.color (rectIntersect region cmd.toRect))
  | .clip => { g with clip := cmd.toRect }

/-- The three bytes of every pixel of a region. -/
def blitWrites (backbuffer : Int → UInt32) (region : Rect) : List (Int × UInt8) :=
  (List.range region.h.toNat).flatMap fun (i : Nat) => (List.range region.w.toNat).flatMap fun (j : Nat) =>
    let k := region.x + j + (region.y + i) * screenWidth
    [(k * 3, (backbuffer k).toUInt8), (k * 3 + 1, (backbuffer k >>> 8).toUInt8),
      (k * 3 + 2, (backbuffer k >>> 16).toUInt8)]

def blit (g : Display H) (region : Rect) : Display H :=
  { g with pixels := writeAll g.pixels (blitWrites g.backbuffer region) }

/-- The loop over the commands: those that do not overlap the region are skipped. -/
def drawAll (art : Art) (region : Rect) (g : Display H) (commands : List Command) : Display H :=
  commands.foldl (fun g cmd => if rectOverlap region cmd.toRect then drawCommand art region g cmd else g) g

def gfxRedrawRegion (art : Art) (g : Display H) (region : Rect) : Display H :=
  (drawAll art region { g with clip := screen } g.commands).blit region

end Display

/-- A coordinate as the number of a cell, cut to the `count` cells of the screen. -/
def cellOf (coordinate : Int) (count : Nat) : Nat :=
  let cell := coordinate.tdiv cellSize
  let cell := if cell < 0 then 0 else cell
  let cell := if cell ≥ count then (count : Int) - 1 else cell
  cell.toNat

/-- The cells whose hashes a command goes into. -/
def touchedCells (r : Rect) : List Nat :=
  let x1 := cellOf r.x cellsX
  let y1 := cellOf r.y cellsY
  let x2 := cellOf r.right cellsX
  let y2 := cellOf r.bottom cellsY
  (List.range' x1 (x2 + 1 - x1)).flatMap fun x => (List.range' y1 (y2 + 1 - y1)).map fun y => x + y * cellsX

def hashCommand {H : Type} (hashing : Hashing H) (hashes : Nat → H) (cmd : Command) : Nat → H :=
  (touchedCells cmd.toRect).foldl (fun hashes i => Function.update hashes i (hashing.mix (hashes i) cmd)) hashes

/-- `while (x < CELLS_X && …) x++;` -/
def runEnd (dirty : Nat → Bool) : Nat → Nat → Nat
  | 0, x => x
  | left + 1, x => if dirty x then runEnd dirty left (x + 1) else x

/-- The loop over the cells of a row that are left: the runs of dirty cells, as
first cell and end. -/
def scanRow (dirty : Nat → Bool) : Nat → Nat → List (Nat × Nat)
  | 0, _ => []
  | left + 1, x =>
    let stop := runEnd dirty (left + 1) x
    (if x ≠ stop then [(x, stop)] else []) ++ scanRow dirty (left - (stop - x)) (stop + 1)
  termination_by left => left

/-- The regions that are drawn again. -/
def dirtyRegions {H : Type} [DecidableEq H] (hashes1 hashes2 : Nat → H) : List Rect :=
  (List.range cellsY).flatMap fun y =>
    (scanRow (fun x => hashes1 (x + y * cellsX) ≠ hashes2 (x + y * cellsX)) cellsX 0).map fun (start, stop) =>
      ⟨start * cellSize, y * cellSize, cellSize * (stop - start), cellSize⟩

namespace Display

variable {H : Type} [DecidableEq H]

def gfxSwap (art : Art) (hashing : Hashing H) (g : Display H) : Display H :=
  let g := { g with hashes1 := g.commands.foldl (hashCommand hashing) g.hashes1 }
  let g := (dirtyRegions g.hashes1 g.hashes2).foldl (gfxRedrawRegion art) g
  { g with commands := [], hashes2 := g.hashes1, hashes1 := fun _ => hashing.init }

end Display

/-- The calls that fill the queue, and `gfxSwap`. -/
inductive Call where
  | setColor (r g b a : Int32)
  | drawBackground
  | drawIcon (x y : Int32) (c : Int8)
  | drawChar (x y : Int32) (c : Int8)
  | drawRect (x y w h : Int32)
  | drawClip (x y w h : Int32)
  | swap

/-- The length of the array `commands`. -/
def queueSize : Nat := 4096

namespace Display

variable {H : Type} [DecidableEq H]

def push (g : Display H) (cmd : Command) : Display H :=
  if g.commands.length ≥ queueSize then g else { g with commands := g.commands ++ [cmd] }

/-- `(width - background_desc.width) / 2`, an unsigned difference, as an `int`. -/
def centered (screenSize : Nat) (size : UInt32) : Int := signed32 (wrap32 (screenSize + (2 ^ 32 - size.toNat)) / 2)

def call (art : Art) (hashing : Hashing H) (g : Display H) : Call → Display H
  | .setColor red green blue _ => { g with color := (red <<< 16 ||| green <<< 8 ||| blue).toUInt32 }
  | .drawBackground => g.push {
      type := .bckg, data := 0, color := 0xFFFFFFFF
      x := centered 1024 art.backgroundWidth, y := centered 768 art.backgroundHeight
      w := signed32 art.backgroundWidth.toNat, h := signed32 art.backgroundHeight.toNat }
  | .drawIcon x y c => g.push {
      type := .icon, data := c.toInt, color := g.color, x := x.toInt, y := y.toInt, w := 12, h := 16 }
  | .drawChar x y c => g.push {
      type := .char, data := c.toInt, color := g.color, x := x.toInt, y := y.toInt, w := 8, h := 8 }
  | .drawRect x y w h => g.push {
      type := .rect, data := 0, color := g.color, x := x.toInt, y := y.toInt, w := w.toInt, h := h.toInt }
  | .drawClip x y w h => g.push {
      type := .clip, data := 0, color := 0, toRect := rectIntersect ⟨x.toInt, y.toInt, w.toInt, h.toInt⟩ screen }
  | .swap => g.gfxSwap art hashing

/-- A step of a program that draws. -/
def Step (art : Art) (hashing : Hashing H) (g : Display H) (call : Call) (g' : Display H) : Prop :=
  g.call art hashing call = g'

/-- The state that `gfxInit` leaves; the two buffers hold anything. -/
structure Started (hashing : Hashing H) (g : Display H) : Prop where
  commands : g.commands = []
  hashes1 : g.hashes1 = fun _ => hashing.zeros
  hashes2 : g.hashes2 = fun _ => hashing.ones

end Display

end UmkaOs.Gfx
