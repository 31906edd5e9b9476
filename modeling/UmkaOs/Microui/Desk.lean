import UmkaOs.Microui.Clip
import UmkaOs.Microui.Controls
import UmkaOs.Microui.Layout

namespace UmkaOs.Microui

open Input

namespace Options

def noResize : Options := 1 <<< 4

def noScroll : Options := 1 <<< 5

def noClose : Options := 1 <<< 6

def noTitle : Options := 1 <<< 7

def autoSize : Options := 1 <<< 9

def popup : Options := 1 <<< 10

end Options

def Rect.expanded (r : Rect) (n : Int) : Rect := ⟨r.x - n, r.y - n, r.w + n * 2, r.h + n * 2⟩

/-- `begin` -/
def mouseDelta (mouse : Input.Context) : Vec2 :=
  ⟨mouse.mousePos.x - mouse.lastMousePos.x, mouse.mousePos.y - mouse.lastMousePos.y⟩

/-- A call of `beginWindow`, with the ids that it makes from the title. `outer` are the
containers it is called in, and `lowest` is the body of the layout at the bottom of the
stack, if there is one. -/
structure Window where
  cnt : Ref
  rect : Rect
  opt : Options
  title : Id
  close : Id
  scrollbarx : Id
  scrollbary : Id
  resize : Id
  outer : List Ref
  lowest : Option Rect

/-- The variables of `beginWindow`: the shape of its container, the body that is left, and
what it shares with the controls. -/
structure Begun where
  shape : Shape
  body : Rect
  interaction : Interaction

def moved (delta : Vec2) (r : Rect) : Rect := { r with x := r.x + delta.x, y := r.y + delta.y }

def resized (delta : Vec2) (r : Rect) : Rect := { r with w := max 96 (r.w + delta.x), h := max 64 (r.h + delta.y) }

/-- `clamp`, on numbers that a `real` holds. -/
def clamp (x a b : Int) : Int := if x < a then a else if x > b then b else x

section
variable (style : Style) (mouse : Input.Context) (hoverRoot : Option Ref) (w : Window)

namespace Begun

def updateControl (b : Begun) (id : Id) (rect clip : Rect) (opt : Options) : Begun :=
  { b with interaction := b.interaction.updateControl mouse hoverRoot ⟨id, rect, clip, w.cnt :: w.outer, opt⟩ }

/-- `id == ctx.focus && ctx.mouseDown.has(.Left)` -/
def Holds (b : Begun) (id : Id) : Prop := id = b.interaction.focus ∧ mouse.mouseDown.has MouseButton.left = true

instance (b : Begun) (id : Id) : Decidable (b.Holds mouse id) :=
  inferInstanceAs (Decidable (id = b.interaction.focus ∧ mouse.mouseDown.has MouseButton.left = true))

def reshape (b : Begun) (rect : Rect) : Begun := { b with shape := { b.shape with rect := rect } }

def scrollTo (b : Begun) (scroll : Vec2) : Begun := { b with shape := { b.shape with scroll := scroll } }

def shut (b : Begun) : Begun := { b with shape := { b.shape with isOpen := false } }

/-- A part of the window that changes its rectangle while it is held. -/
def grip (b : Begun) (id : Id) (r : Rect) (move : Rect → Rect) : Begun :=
  let b := b.updateControl mouse hoverRoot w id r unclippedRect w.opt
  if b.Holds mouse id then b.reshape (move b.shape.rect) else b

def closeButton (b : Begun) (tr : Rect) : Begun :=
  let r : Rect := ⟨tr.x + tr.w - tr.h, tr.y, tr.h, tr.h⟩
  let b := b.updateControl mouse hoverRoot w w.close r unclippedRect w.opt
  if mouse.mousePressed.has MouseButton.left ∧ w.close = b.interaction.focus then b.shut else b

/-- The title bar, with `rect` as it was before. -/
def titleBar (b : Begun) (rect : Rect) : Begun :=
  let tr := { rect with h := style.titleHeight }
  let b := b.grip mouse hoverRoot w w.title tr (moved (mouseDelta mouse))
  let b := { b with body := { b.body with y := b.body.y + tr.h, h := b.body.h - tr.h } }
  if w.opt.has .noClose then b else b.closeButton mouse hoverRoot w tr

/-- A scroll bar of a body of some length: how far the content is scrolled. -/
def scrolled (held : Prop) [Decidable held] (delta length content scroll : Int) : Int :=
  clamp (if held then scroll + (delta * content).tdiv length else scroll) 0 (content - length)

/-- `scrollbar` with `hor`. -/
def scrollbarHor (b : Begun) (cs : Vec2) (clip : Rect) : Begun :=
  if cs.x - b.body.w > 0 ∧ b.body.w > 0 then
    let base : Rect := ⟨b.body.x, b.body.y + b.body.h, b.body.w, style.scrollbarSize⟩
    let b := b.updateControl mouse hoverRoot w w.scrollbarx base clip 0
    let x := scrolled (b.Holds mouse w.scrollbarx) (mouseDelta mouse).x b.body.w cs.x b.shape.scroll.x
    b.scrollTo { b.shape.scroll with x := x }
  else b.scrollTo { b.shape.scroll with x := 0 }

/-- `scrollbar` without `hor`. -/
def scrollbarVer (b : Begun) (cs : Vec2) (clip : Rect) : Begun :=
  if cs.y - b.body.h > 0 ∧ b.body.h > 0 then
    let base : Rect := ⟨b.body.x + b.body.w, b.body.y, style.scrollbarSize, b.body.h⟩
    let b := b.updateControl mouse hoverRoot w w.scrollbary base clip 0
    let y := scrolled (b.Holds mouse w.scrollbary) (mouseDelta mouse).y b.body.h cs.y b.shape.scroll.y
    b.scrollTo { b.shape.scroll with y := y }
  else b.scrollTo { b.shape.scroll with y := 0 }

/-- `scrollbars`: the body of the frame before decides whether they take place away. -/
def scrollbars (b : Begun) : Begun :=
  let cs : Vec2 := ⟨b.shape.contentSize.x + style.padding * 2, b.shape.contentSize.y + style.padding * 2⟩
  let clip := b.body.intersectedWith unclippedRect
  let width := if cs.y > b.shape.body.h then b.body.w - style.scrollbarSize else b.body.w
  let height := if cs.x > b.shape.body.w then b.body.h - style.scrollbarSize else b.body.h
  let b := { b with body := { b.body with w := width, h := height } }
  (b.scrollbarHor style mouse hoverRoot w cs clip).scrollbarVer style mouse hoverRoot w cs clip

/-- The corner that resizes, with `rect` as it was before the title bar. -/
def corner (b : Begun) (rect : Rect) : Begun :=
  let sz := style.titleHeight
  let r : Rect := ⟨rect.x + rect.w - sz, rect.y + rect.h - sz, sz, sz⟩
  b.grip mouse hoverRoot w w.resize r (resized (mouseDelta mouse))

end Begun

/-- The thumb along its track: where it starts and how long it is. -/
def thumb (start length content scroll : Int) : Int × Int :=
  let size := max style.thumbSize ((length * length).tdiv content)
  (start + (scroll * (length - size)).tdiv (content - length), size)

/-- `beginWindow` behind `getContainer_`, for a window that is open, less what it draws. -/
def Window.begin (shape : Shape) (s : Interaction) : Begun :=
  let rect := if shape.rect.w = 0 then w.rect else shape.rect
  let b : Begun := ⟨{ shape with rect := rect }, rect, s⟩
  let b := if w.opt.has .noTitle then b else b.titleBar style mouse hoverRoot w rect
  let b := if w.opt.has .noScroll then b else b.scrollbars style mouse hoverRoot w
  let inner := b.body.expanded (-style.padding)
  let b := { b with shape := { b.shape with body := b.body } }
  let b := if w.opt.has .noResize then b else b.corner style mouse hoverRoot w rect
  let r := w.lowest.getD { inner with x := inner.x - b.shape.scroll.x, y := inner.y - b.shape.scroll.y }
  let b :=
    if w.opt.has .autoSize then
      b.reshape { b.shape.rect with
        w := b.shape.contentSize.x + (b.shape.rect.w - r.w)
        h := b.shape.contentSize.y + (b.shape.rect.h - r.h) }
    else b
  if w.opt.has .popup ∧ mouse.mousePressed.any ∧ hoverRoot ≠ some w.cnt then b.shut else b

end

/-- What a frame shows, in order: a control, the beginning of a window, or its end, where
`popContainer` notes the size of what the window contains. -/
inductive Item where
  | control (c : Control)
  | window (w : Window)
  | pop (cnt : Ref) (contentSize : Vec2)

/-- The shapes of all containers, what the controls share, and where the mouse was. -/
structure Desk where
  shapes : Ref → Shape
  interaction : Interaction
  lastMousePos : Vec2

def Desk.setShape (d : Desk) (cnt : Ref) (shape : Shape) : Desk :=
  { d with shapes := Function.update d.shapes cnt shape }

def Item.run (style : Style) (mouse : Input.Context) (hoverRoot : Option Ref) (d : Desk) : Item → Desk
  | control c => { d with interaction := d.interaction.updateControl mouse hoverRoot c }
  | window w =>
    if (d.shapes w.cnt).isOpen then
      let b := w.begin style mouse hoverRoot (d.shapes w.cnt) d.interaction
      { d.setShape w.cnt b.shape with interaction := b.interaction }
    else d
  | pop cnt contentSize => d.setShape cnt { d.shapes cnt with contentSize := contentSize }

/-- The mouse before a frame, and the frame. The place of the mouse in the frame before is
noted by `end`. -/
structure Tick where
  mouse : Input.Context
  hoverRoot : Option Ref
  items : List Item

def Desk.mouse (d : Desk) (t : Tick) : Input.Context := { t.mouse with lastMousePos := d.lastMousePos }

def Desk.frame (style : Style) (d : Desk) (t : Tick) : Desk :=
  let shown := t.items.foldl (Item.run style (d.mouse t) t.hoverRoot) d
  { shown with interaction := shown.interaction.endFrame, lastMousePos := t.mouse.mousePos }

end UmkaOs.Microui
