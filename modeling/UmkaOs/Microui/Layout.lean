import UmkaOs.Microui.Model

/-! The layout of `user/microui.um`: rows of cells. A layout that is pushed is appended to
the stack, but `getLayout` always returns the one at the bottom. -/

namespace UmkaOs.Microui

open Input

inductive LayoutNextType where
  | none | absolute | relative
  deriving DecidableEq

structure Layout where
  body : Rect
  next : Rect
  position : Vec2
  size : Vec2
  max : Vec2
  widths : List Int
  itemIndex : Nat
  nextRow : Int
  nextType : LayoutNextType
  indent : Int

/-- The sizes of the style. -/
structure Style where
  size : Vec2
  padding : Int
  spacing : Int
  indent : Int
  titleHeight : Int
  scrollbarSize : Int
  thumbSize : Int

def defaultStyle : Style := ⟨⟨68, 10⟩, 5, 4, 24, 24, 12, 8⟩

namespace Layout

/-- `layoutRow` -/
def row (layout : Layout) (widths : List Int) (height : Int) : Layout :=
  { layout with
    widths := if widths ≠ [] then widths else layout.widths
    position := ⟨layout.indent, layout.nextRow⟩
    size := { layout.size with y := height }
    itemIndex := 0 }

/-- The size of the next cell. -/
def extent (style : Style) (layout : Layout) : Vec2 :=
  let w := if layout.widths.length > 0 then layout.widths.getD layout.itemIndex 0 else layout.size.x
  let h := layout.size.y
  let w := if w = 0 then style.size.x + style.padding * 2 else w
  let h := if h = 0 then style.size.y + style.padding * 2 else h
  let w := if w < 0 then w + (layout.body.w - layout.position.x + 1) else w
  let h := if h < 0 then h + (layout.body.h - layout.position.y + 1) else h
  ⟨w, h⟩

/-- The end of `layoutNext`: a cell relative to the body is placed. -/
def place (style : Style) (layout : Layout) (res : Rect) : Rect × Layout :=
  let position := { layout.position with x := layout.position.x + (res.w + style.spacing) }
  let nextRow := Max.max layout.nextRow (res.y + res.h + style.spacing)
  let res := { res with x := res.x + layout.body.x, y := res.y + layout.body.y }
  let max := ⟨Max.max layout.max.x (res.x + res.w), Max.max layout.max.y (res.y + res.h)⟩
  (res, { layout with position := position, nextRow := nextRow, max := max })

/-- `layoutNext` -/
def cell (style : Style) (layout : Layout) : Rect × Layout :=
  match layout.nextType with
  | .absolute => (layout.next, { layout with nextType := .none })
  | .relative => { layout with nextType := .none }.place style layout.next
  | .none =>
    let layout := if layout.itemIndex = layout.widths.length then layout.row [] layout.size.y else layout
    let size := layout.extent style
    let res := ⟨layout.position.x, layout.position.y, size.x, size.y⟩
    { layout with itemIndex := layout.itemIndex + 1 }.place style res

end Layout

def getLayout : List Layout → Except Fault Layout
  | [] => .error .panic
  | layout :: _ => .ok layout

def layoutRow (widths : List Int) (height : Int) : List Layout → Except Fault (List Layout)
  | [] => .error .panic
  | layout :: rest => .ok (layout.row widths height :: rest)

def layoutNext (style : Style) : List Layout → Except Fault (Rect × List Layout)
  | [] => .error .panic
  | layout :: rest =>
    let (r, layout) := layout.cell style
    .ok (r, layout :: rest)

def pushLayout (body : Rect) (scroll : Vec2) (layouts : List Layout) : Except Fault (List Layout) :=
  let layout : Layout :=
    { body := ⟨body.x - scroll.x, body.y - scroll.y, body.w, body.h⟩
      next := ⟨0, 0, 0, 0⟩
      position := ⟨0, 0⟩
      size := ⟨0, 0⟩
      max := ⟨-0x1000000, -0x1000000⟩
      widths := []
      itemIndex := 0
      nextRow := 0
      nextType := .none
      indent := 0 }
  layoutRow [0] 0 (layouts ++ [layout])

def layoutBeginColumn (style : Style) (layouts : List Layout) : Except Fault (Rect × List Layout) := do
  let (r, layouts) ← layoutNext style layouts
  let layouts ← pushLayout r ⟨0, 0⟩ layouts
  .ok (r, layouts)

def layoutEndColumn (layouts : List Layout) : Except Fault (List Layout) := do
  let b ← getLayout layouts
  match layouts.dropLast with
  | [] => .error .panic
  | a :: rest =>
    let position : Vec2 :=
      ⟨max a.position.x (b.position.x + b.body.x - a.body.x), max a.position.y (b.position.y + b.body.y - a.body.y)⟩
    .ok ({ a with position := position, max := ⟨max a.max.x b.max.x, max a.max.y b.max.y⟩ } :: rest)

/-- What the controls of a window do to its layout. -/
inductive LayoutOp where
  | row (widths : List Int) (height : Int)
  | next
  | width (w : Int)
  | height (h : Int)
  /-- Of a tree node that begins or ends. -/
  | indent (amount : Int)
  | beginColumn
  | endColumn

/-- The cells that an operation hands out. -/
def LayoutOp.run (style : Style) : LayoutOp → List Layout → Except Fault (List Rect × List Layout)
  | row widths h, layouts => do
    let layouts ← layoutRow widths h layouts
    .ok ([], layouts)
  | next, layouts => do
    let (r, layouts) ← layoutNext style layouts
    .ok ([r], layouts)
  | width _, [] => .error .panic
  | width w, layout :: rest => .ok ([], { layout with size := { layout.size with x := w } } :: rest)
  | height _, [] => .error .panic
  | height h, layout :: rest => .ok ([], { layout with size := { layout.size with y := h } } :: rest)
  | indent _, [] => .error .panic
  | indent amount, layout :: rest => .ok ([], { layout with indent := layout.indent + amount } :: rest)
  | beginColumn, layouts => do
    let (r, layouts) ← layoutBeginColumn style layouts
    .ok ([r], layouts)
  | endColumn, layouts => do
    let layouts ← layoutEndColumn layouts
    .ok ([], layouts)

def runLayout (style : Style) : List LayoutOp → List Layout → Except Fault (List Rect × List Layout)
  | [], layouts => .ok ([], layouts)
  | op :: ops, layouts => do
    let (cells, layouts) ← op.run style layouts
    let (later, layouts) ← runLayout style ops layouts
    .ok (cells ++ later, layouts)

end UmkaOs.Microui
