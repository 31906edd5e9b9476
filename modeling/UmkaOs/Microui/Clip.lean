import UmkaOs.Microui.Model

/-! Clipping. What is drawn is cut to the rectangle on top of the clip stack, and only what
overlaps the edge of it is drawn between two clip commands. On a screen that keeps to these
commands the picture is the one in which every pixel is tested against that rectangle. -/

namespace UmkaOs.Microui

open Input

def unclippedRect : Rect := ⟨0, 0, 0x1000000, 0x1000000⟩

namespace Rect

def intersectedWith (r1 r2 : Rect) : Rect :=
  let x1 := max r1.x r2.x
  let y1 := max r1.y r2.y
  let x2 := min (r1.x + r1.w) (r2.x + r2.w)
  let y2 := min (r1.y + r1.h) (r2.y + r2.h)
  let x2 := if x2 < x1 then x1 else x2
  let y2 := if y2 < y1 then y1 else y2
  ⟨x1, y1, x2 - x1, y2 - y1⟩

/-- A point is in both rectangles, whatever their sizes. -/
theorem overlaps_intersectedWith (r1 r2 : Rect) (p : Vec2) :
    (r1.intersectedWith r2).overlaps p ↔ r1.overlaps p ∧ r2.overlaps p := by
  simp only [intersectedWith, overlaps]
  constructor
  · intro inside
    split at inside <;> split at inside <;> omega
  · intro inside
    rw [if_neg (by omega), if_neg (by omega)]
    omega

end Rect

inductive ClipState where
  | none | part | all

/-- `checkClip`, with the clip rectangle on top of the stack. -/
def checkClip (cr r : Rect) : ClipState :=
  if r.x > cr.x + cr.w ∨ r.x + r.w < cr.x ∨ r.y > cr.y + cr.h ∨ r.y + r.h < cr.y then .all
  else if r.x ≥ cr.x ∧ r.x + r.w ≤ cr.x + cr.w ∧ r.y ≥ cr.y ∧ r.y + r.h ≤ cr.y + cr.h then .none
  else .part

theorem checkClip_all {cr r : Rect} (outside : checkClip cr r = .all) (p : Vec2) :
    ¬ (cr.overlaps p ∧ r.overlaps p) := by
  rw [checkClip] at outside
  simp only [Rect.overlaps]
  split at outside
  · omega
  · split at outside <;> cases outside

theorem checkClip_none {cr r : Rect} (inside : checkClip cr r = .none) {p : Vec2} (member : r.overlaps p) :
    cr.overlaps p := by
  rw [checkClip] at inside
  simp only [Rect.overlaps] at member ⊢
  split at inside
  · cases inside
  · split at inside
    · omega
    · cases inside

def drawRect (clip rect : Rect) (color : Color) : List Draw :=
  let rect := rect.intersectedWith clip
  if rect.w > 0 ∧ rect.h > 0 then [.rect rect color] else []

/-- The rectangles of `drawBox`. -/
def Rect.edges (rect : Rect) : List Rect :=
  [⟨rect.x + 1, rect.y, rect.w - 2, 1⟩, ⟨rect.x + 1, rect.y + rect.h - 1, rect.w - 2, 1⟩, ⟨rect.x, rect.y, 1, rect.h⟩,
    ⟨rect.x + rect.w - 1, rect.y, 1, rect.h⟩]

def drawBox (clip rect : Rect) (color : Color) : List Draw := rect.edges.flatMap fun edge => drawRect clip edge color

/-- A command between the clip commands that the state asks for. -/
def drawClipped (clip rect : Rect) (d : Draw) : List Draw :=
  match checkClip clip rect with
  | .all => []
  | .none => [d]
  | .part => [.clip clip, d, .clip unclippedRect]

def drawText (clip : Rect) (text : List UInt8) (pos : Vec2) (color : Color) : List Draw :=
  drawClipped clip ⟨pos.x, pos.y, textWidth text, textHeight⟩ (.text pos color text)

def drawIcon (clip : Rect) (id : Icon) (rect : Rect) (color : Color) : List Draw :=
  drawClipped clip rect (.icon rect id color)

/-- What a control asks for. -/
inductive Request where
  | pushClip (rect : Rect)
  /-- `beginRootContainer` -/
  | pushRoot
  | popClip
  | rect (rect : Rect) (color : Color)
  | box (rect : Rect) (color : Color)
  | text (text : List UInt8) (pos : Vec2) (color : Color)
  | icon (id : Icon) (rect : Rect) (color : Color)
  /-- `setCursor`, where the cursor changes. -/
  | cursor (id : Cursor)

/-- `CLIPSTACK_SIZE` -/
def clipStackSize : Nat := 32

/-- `FixedStack.push` on the clip stack. Its top is the first rectangle. -/
def pushClipStack (r : Rect) (stack : List Rect) : Except Fault (List Rect) :=
  if stack.length < clipStackSize then .ok (r :: stack) else .error .panic

def Request.run : Request → List Rect → Except Fault (List Draw × List Rect)
  | pushClip _, [] => .error .panic
  | pushClip r, last :: stack => do
    let stack ← pushClipStack (r.intersectedWith last) (last :: stack)
    .ok ([], stack)
  | pushRoot, stack => do
    let stack ← pushClipStack unclippedRect stack
    .ok ([], stack)
  | popClip, [] => .error .panic
  | popClip, _ :: stack => .ok ([], stack)
  | rect _ _, [] => .error .panic
  | rect r color, clip :: stack => .ok (drawRect clip r color, clip :: stack)
  | box _ _, [] => .error .panic
  | box r color, clip :: stack => .ok (drawBox clip r color, clip :: stack)
  | text _ _ _, [] => .error .panic
  | text string pos color, clip :: stack => .ok (drawText clip string pos color, clip :: stack)
  | icon _ _ _, [] => .error .panic
  | icon id r color, clip :: stack => .ok (drawIcon clip id r color, clip :: stack)
  | cursor id, stack => .ok ([.cursor id], stack)

def runRequests : List Request → List Rect → Except Fault (List Draw × List Rect)
  | [], stack => .ok ([], stack)
  | request :: rest, stack => do
    let (draws, stack) ← request.run stack
    let (later, stack) ← runRequests rest stack
    .ok (draws ++ later, stack)

abbrev Image := Vec2 → UInt32

/-- What `gfxSetColor` makes of a color. -/
def Color.word (color : Color) : UInt32 :=
  (Int32.ofNat color.r.toNat <<< 16 ||| Int32.ofNat color.g.toNat <<< 8 ||| Int32.ofNat color.b.toNat).toUInt32

/-- The pixels of texts and icons. They keep inside of the rectangles they are measured by. -/
structure Ink where
  text : List UInt8 → Vec2 → Color → Vec2 → Option UInt32
  icon : Icon → Rect → Color → Vec2 → Option UInt32
  text_inside : ∀ string pos color p, (text string pos color p).isSome →
    (⟨pos.x, pos.y, textWidth string, textHeight⟩ : Rect).overlaps p
  icon_inside : ∀ id rect color p, (icon id rect color p).isSome → rect.overlaps p

def fill (rect : Rect) (color : Color) (p : Vec2) : Option UInt32 := if rect.overlaps p then some color.word else none

/-- The pixels that are inside the clip rectangle. -/
def cut (clip : Rect) (pixels : Vec2 → Option UInt32) (p : Vec2) : Option UInt32 :=
  if clip.overlaps p then pixels p else none

def paint (pixels : Vec2 → Option UInt32) (image : Image) : Image := fun p => (pixels p).getD (image p)

structure Screen where
  clip : Rect
  image : Image

namespace Screen

/-- A screen that keeps to the clip commands. -/
def exec (ink : Ink) (screen : Screen) : Draw → Screen
  | .clip rect => { screen with clip := rect }
  | .rect rect color => { screen with image := paint (cut screen.clip (fill rect color)) screen.image }
  | .text pos color string => { screen with image := paint (cut screen.clip (ink.text string pos color)) screen.image }
  | .icon rect id color => { screen with image := paint (cut screen.clip (ink.icon id rect color)) screen.image }
  | .cursor _ => screen

end Screen

/-- The image that is asked for: every pixel is tested against the clip rectangle. -/
def Request.ideal (ink : Ink) (clip : Rect) (image : Image) : Request → Image
  | pushClip _ | pushRoot | popClip | cursor _ => image
  | rect r color => paint (cut clip (fill r color)) image
  | box r color => r.edges.foldl (fun image edge => paint (cut clip (fill edge color)) image) image
  | text string pos color => paint (cut clip (ink.text string pos color)) image
  | icon id r color => paint (cut clip (ink.icon id r color)) image

/-- The requests in order, each with the top of the stack at the time. -/
def ideal (ink : Ink) : List Request → List Rect → Image → Image
  | [], _, image => image
  | request :: rest, stack, image =>
    match request.run stack with
    | .error _ => image
    | .ok (_, stack') => ideal ink rest stack' (request.ideal ink (stack.headD unclippedRect) image)

variable {ink : Ink} {image : Image} {clip rect : Rect} {stack stack' : List Rect} {requests : List Request}
  {draws : List Draw} {request : Request} {pixels : Vec2 → Option UInt32}

theorem paint_none (none : ∀ p, pixels p = none) (image : Image) : paint pixels image = image := by
  funext p
  rw [paint, none, Option.getD_none]

/-- A clip rectangle on the screen. -/
def Onscreen (clip : Rect) : Prop := ∀ p, clip.overlaps p → unclippedRect.overlaps p

theorem Onscreen.intersectedWith (onscreen : Onscreen clip) (r : Rect) : Onscreen (r.intersectedWith clip) :=
  fun p inside => onscreen p ((Rect.overlaps_intersectedWith r clip p).mp inside).2

theorem cut_fill (onscreen : Onscreen clip) (rect : Rect) (color : Color) :
    cut unclippedRect (fill (rect.intersectedWith clip) color) = cut clip (fill rect color) := by
  funext p
  simp only [cut, fill, Rect.overlaps_intersectedWith]
  by_cases inside : clip.overlaps p
  · simp [inside, onscreen p inside]
  · simp [inside]

theorem drawRect_exec (onscreen : Onscreen clip) (rect : Rect) (color : Color) (image : Image) :
    (drawRect clip rect color).foldl (Screen.exec ink) ⟨unclippedRect, image⟩ =
      ⟨unclippedRect, paint (cut clip (fill rect color)) image⟩ := by
  rw [← cut_fill onscreen, drawRect]
  split
  · rfl
  · rename_i empty
    rw [paint_none]
    · rfl
    · intro p
      rw [cut, fill]
      split
      · rw [if_neg]
        intro inside
        rw [Rect.overlaps] at inside
        omega
      · rfl

theorem drawClipped_exec (onscreen : Onscreen clip) {d : Draw}
    (draws : ∀ screen, Screen.exec ink screen d = { screen with image := paint (cut screen.clip pixels) screen.image })
    (inside : ∀ p, (pixels p).isSome → rect.overlaps p) (image : Image) :
    (drawClipped clip rect d).foldl (Screen.exec ink) ⟨unclippedRect, image⟩ =
      ⟨unclippedRect, paint (cut clip pixels) image⟩ := by
  rw [drawClipped]
  cases state : checkClip clip rect with
  | all =>
    rw [paint_none]
    · rfl
    · intro p
      rw [cut]
      split
      · rename_i covered
        by_contra some
        exact checkClip_all state p ⟨covered, inside p (Option.isSome_iff_ne_none.mpr some)⟩
      · rfl
  | none =>
    have same : cut unclippedRect pixels = cut clip pixels := by
      funext p
      rw [cut, cut]
      by_cases some : (pixels p).isSome
      · have covered := checkClip_none state (inside p some)
        rw [if_pos covered, if_pos (onscreen p covered)]
      · rw [Option.not_isSome_iff_eq_none.mp some, ite_self, ite_self]
    show Screen.exec ink ⟨unclippedRect, image⟩ d = _
    rw [draws, same]
  | part =>
    show Screen.exec ink (Screen.exec ink ⟨clip, image⟩ d) (.clip unclippedRect) = _
    rw [draws]
    rfl

theorem drawRects_exec (onscreen : Onscreen clip) (rects : List Rect) (color : Color) (image : Image) :
    (rects.flatMap fun r => drawRect clip r color).foldl (Screen.exec ink) ⟨unclippedRect, image⟩ =
      ⟨unclippedRect, rects.foldl (fun image r => paint (cut clip (fill r color)) image) image⟩ := by
  induction rects generalizing image with
  | nil => rfl
  | cons r rest ih => rw [List.flatMap_cons, List.foldl_append, drawRect_exec onscreen, ih, List.foldl_cons]

theorem pushClipStack_cases (run : pushClipStack rect stack = .ok stack') : stack' = rect :: stack := by
  rw [pushClipStack] at run
  split at run
  · cases run
    rfl
  · cases run

theorem onscreen_unclipped : Onscreen unclippedRect := fun _ inside => inside

/-- After one request the picture is as it is asked for, and no clipping is left behind. -/
theorem Request.exec (onscreen : ∀ r ∈ stack, Onscreen r) (run : request.run stack = .ok (draws, stack'))
    (image : Image) : draws.foldl (Screen.exec ink) ⟨unclippedRect, image⟩ =
      ⟨unclippedRect, request.ideal ink (stack.headD unclippedRect) image⟩ ∧ ∀ r ∈ stack', Onscreen r := by
  cases stack with
  | nil =>
    cases request with
    | pushRoot =>
      obtain ⟨pushed, push, result⟩ := bind_ok run
      cases result
      rw [pushClipStack_cases push, List.forall_mem_cons]
      exact ⟨rfl, onscreen_unclipped, onscreen⟩
    | cursor id =>
      cases run
      exact ⟨rfl, onscreen⟩
    | _ => cases run
  | cons clip stack =>
    obtain ⟨top, others⟩ := List.forall_mem_cons.mp onscreen
    cases request with
    | pushClip r =>
      obtain ⟨pushed, push, result⟩ := bind_ok run
      cases result
      rw [pushClipStack_cases push, List.forall_mem_cons]
      exact ⟨rfl, top.intersectedWith r, onscreen⟩
    | pushRoot =>
      obtain ⟨pushed, push, result⟩ := bind_ok run
      cases result
      rw [pushClipStack_cases push, List.forall_mem_cons]
      exact ⟨rfl, onscreen_unclipped, onscreen⟩
    | popClip =>
      cases run
      exact ⟨rfl, others⟩
    | rect r color =>
      cases run
      exact ⟨drawRect_exec top r color image, onscreen⟩
    | box r color =>
      cases run
      exact ⟨drawRects_exec top r.edges color image, onscreen⟩
    | text string pos color =>
      cases run
      exact ⟨drawClipped_exec top (fun _ => rfl) (ink.text_inside string pos color) image, onscreen⟩
    | icon id r color =>
      cases run
      exact ⟨drawClipped_exec top (fun _ => rfl) (ink.icon_inside id r color) image, onscreen⟩
    | cursor id =>
      cases run
      exact ⟨rfl, onscreen⟩

theorem runRequests_exec (ink : Ink) (onscreen : ∀ r ∈ stack, Onscreen r)
    (run : runRequests requests stack = .ok (draws, stack'))
    (image : Image) : draws.foldl (Screen.exec ink) ⟨unclippedRect, image⟩ =
      ⟨unclippedRect, ideal ink requests stack image⟩ ∧ ∀ r ∈ stack', Onscreen r := by
  induction requests generalizing stack draws image with
  | nil =>
    cases run
    exact ⟨rfl, onscreen⟩
  | cons request rest ih =>
    obtain ⟨⟨new, middle⟩, first, next⟩ := bind_ok run
    obtain ⟨⟨later, last⟩, second, result⟩ := bind_ok next
    cases result
    obtain ⟨shown, onscreen'⟩ := request.exec onscreen first image
    rw [List.foldl_append, shown, ideal, first]
    exact ih onscreen' second _

/-- Whatever was drawn before in the frame, a sequence of requests shows on the screen what
it would show if every pixel were tested against the clip rectangle of its request, and it
leaves the screen without clipping, so that the windows can be painted in any order. -/
theorem clip_exact (ink : Ink) {before : List Request} {done : List Draw}
    (start : runRequests before [] = .ok (done, stack)) (run : runRequests requests stack = .ok (draws, stack'))
    (image : Image) :
    draws.foldl (Screen.exec ink) ⟨unclippedRect, image⟩ = ⟨unclippedRect, ideal ink requests stack image⟩ := by
  have onscreen := (runRequests_exec ink (List.forall_mem_nil _) start image).2
  exact (runRequests_exec ink onscreen run image).1

/-- Texts and icons that fill their rectangles. -/
def solid : Ink where
  text string pos color := fill ⟨pos.x, pos.y, textWidth string, textHeight⟩ color
  icon _ rect color := fill rect color
  text_inside string pos color p := by simp [fill]
  icon_inside id rect color p := by simp [fill]

def white : Color := ⟨255, 255, 255, 255⟩

theorem clip_exact_text :
    ([.clip ⟨0, 0, 10, 10⟩, .text ⟨4, 0⟩ white [65], .clip unclippedRect] : List Draw).foldl (Screen.exec solid)
      ⟨unclippedRect, fun _ => 0⟩ =
    ⟨unclippedRect, ideal solid [.pushClip ⟨0, 0, 10, 10⟩, .text [65] ⟨4, 0⟩ white, .popClip] [unclippedRect]
      fun _ => 0⟩ := by
  have start : runRequests [.pushRoot] [] = .ok ([], [unclippedRect]) := rfl
  exact clip_exact solid start rfl _

end UmkaOs.Microui
