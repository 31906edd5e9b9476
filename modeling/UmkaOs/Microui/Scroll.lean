import UmkaOs.Microui.Drag

namespace UmkaOs.Microui

open Input

variable {style : Style} {mouse : Input.Context} {hoverRoot : Option Ref} {s : Interaction} {w : Window} {b : Begun}
  {cs : Vec2} {clip : Rect} {shape : Shape} {d : Desk} {tick last : Tick} {ticks : List Tick} {content : Vec2}
  {shape' : Shape}

def Rect.size (r : Rect) : Vec2 := ⟨r.w, r.h⟩

/-- The content with the padding around it. -/
def padded (style : Style) (content : Vec2) : Vec2 :=
  ⟨content.x + style.padding * 2, content.y + style.padding * 2⟩

/-- A window less its title bar. -/
def Window.inside (w : Window) (style : Style) (rect : Rect) : Vec2 :=
  ⟨rect.w, if w.opt.has .noTitle then rect.h else rect.h - style.titleHeight⟩

/-- The scroll keeps to the content behind the end of the body. -/
structure InReach (length content scroll : Int) : Prop where
  least : 0 ≤ scroll
  most : scroll ≤ max 0 (content - length)

theorem clamp_inReach (x : Int) {length content : Int} (longer : content - length > 0) :
    InReach length content (clamp x 0 (content - length)) := by
  rw [clamp]
  split
  · exact ⟨le_refl 0, by omega⟩
  · split
    · exact ⟨by omega, by omega⟩
    · exact ⟨by omega, by omega⟩

theorem inReach_zero (length content : Int) : InReach length content 0 := ⟨le_refl 0, le_max_left _ _⟩

/-- The thumb of a bar that is shown stays in its track. -/
def InTrack (style : Style) (start length content scroll : Int) : Prop :=
  0 < length → length < content → style.thumbSize ≤ length →
    start ≤ (thumb style start length content scroll).1 ∧
      (thumb style start length content scroll).1 + (thumb style start length content scroll).2 ≤ start + length

theorem InReach.inTrack {length content scroll : Int} (reach : InReach length content scroll) (start : Int) :
    InTrack style start length content scroll := by
  intro some longer short
  obtain ⟨least, most⟩ := reach
  have behind : 0 < content - length := by omega
  have square : (length * length).tdiv content ≤ length := by
    rw [Int.tdiv_eq_ediv_of_nonneg (Int.mul_nonneg some.le some.le)]
    exact Int.ediv_le_of_le_mul (by omega) (Int.mul_le_mul_of_nonneg_left longer.le some.le)
  have free : 0 ≤ length - max style.thumbSize ((length * length).tdiv content) := by omega
  rw [thumb]
  dsimp only
  generalize max style.thumbSize ((length * length).tdiv content) = size at free ⊢
  have way : 0 ≤ scroll * (length - size) := Int.mul_nonneg least free
  -- The way of the thumb ends with that of the scroll.
  have far : scroll * (length - size) ≤ (length - size) * (content - length) := by
    rw [Int.mul_comm]
    exact Int.mul_le_mul_of_nonneg_left (by omega) free
  rw [Int.tdiv_eq_ediv_of_nonneg way]
  have first := Int.ediv_nonneg way behind.le
  have last := Int.ediv_le_of_le_mul behind far
  constructor
  · omega
  · omega

/-- The room that the bars leave of the inside, by the room of the frame before. -/
def room (bar : Int) (inside cs before : Vec2) : Vec2 :=
  ⟨if cs.y > before.y then inside.x - bar else inside.x, if cs.x > before.x then inside.y - bar else inside.y⟩

/-- The content fits without bars and not beside one, and by the room of the frame before just
one of them is shown: each makes the other necessary. -/
structure Flickers (bar : Int) (inside cs before : Vec2) : Prop where
  x : inside.x - bar < cs.x ∧ cs.x ≤ inside.x
  y : inside.y - bar < cs.y ∧ cs.y ≤ inside.y
  one : cs.y > before.y ↔ ¬ cs.x > before.x

variable {bar : Int} {inside before : Vec2}

theorem Flickers.next (flickers : Flickers bar inside cs before) :
    Flickers bar inside cs (room bar inside cs before) := by
  obtain ⟨x, y, one⟩ := flickers
  refine ⟨x, y, ?_⟩
  dsimp only [room]
  split_ifs
  · omega
  · omega
  · omega
  · omega

/-- Just one bar takes room, at the side in one of the two frames and below in the other. -/
def TakeTurns (bar : Int) (inside first second : Vec2) : Prop :=
  first = ⟨inside.x - bar, inside.y⟩ ∧ second = ⟨inside.x, inside.y - bar⟩ ∨
    first = ⟨inside.x, inside.y - bar⟩ ∧ second = ⟨inside.x - bar, inside.y⟩

theorem Flickers.turns (flickers : Flickers bar inside cs before) :
    TakeTurns bar inside (room bar inside cs before) (room bar inside cs (room bar inside cs before)) := by
  obtain ⟨x, y, one⟩ := flickers
  by_cases side : cs.y > before.y
  · have first : room bar inside cs before = ⟨inside.x - bar, inside.y⟩ := by
      rw [room, if_pos side, if_neg (one.mp side)]
    refine .inl ⟨first, ?_⟩
    rw [first, room, if_neg (by dsimp only; omega), if_pos (by dsimp only; omega)]
  · have below : cs.x > before.x := by
      by_contra none
      exact side (one.mpr none)
    have first : room bar inside cs before = ⟨inside.x, inside.y - bar⟩ := by
      rw [room, if_neg side, if_pos below]
    refine .inr ⟨first, ?_⟩
    rw [first, room, if_pos (by dsimp only; omega), if_neg (by dsimp only; omega)]

theorem Flickers.changes (flickers : Flickers bar inside cs before) :
    room bar inside cs (room bar inside cs before) ≠ room bar inside cs before := by
  have x := flickers.x
  intro same
  rcases flickers.turns with ⟨first, second⟩ | ⟨first, second⟩ <;>
  · have width := congrArg Vec2.x (second.symm.trans (same.trans first))
    dsimp only at width
    omega

/-- Whether the bar at the side is shown does not depend on the one below. -/
theorem side_room (apart : ¬ (inside.y - bar < cs.y ∧ cs.y ≤ inside.y)) (thick : 0 ≤ bar) (before : Vec2) :
    cs.y > (room bar inside cs before).y ↔ cs.y > inside.y := by
  dsimp only [room]
  split_ifs
  · omega
  · rfl

theorem below_room (apart : ¬ (inside.x - bar < cs.x ∧ cs.x ≤ inside.x)) (thick : 0 ≤ bar) (before : Vec2) :
    cs.x > (room bar inside cs before).x ↔ cs.x > inside.x := by
  dsimp only [room]
  split_ifs
  · omega
  · rfl

/-- Both bars stay, or none. -/
theorem room_fixed (both : cs.y > before.y ↔ cs.x > before.x) (x : inside.x - bar < cs.x ∧ cs.x ≤ inside.x)
    (y : inside.y - bar < cs.y ∧ cs.y ≤ inside.y) :
    room bar inside cs (room bar inside cs before) = room bar inside cs before := by
  refine congrArg₂ Vec2.mk ?_ ?_
  · dsimp only [room]
    grind
  · dsimp only [room]
    grind

/-- The bars are those that the room of the frame before asks for. -/
theorem room_congr {before' : Vec2} (y : cs.y > before.y ↔ cs.y > before'.y) (x : cs.x > before.x ↔ cs.x > before'.x) :
    room bar inside cs before = room bar inside cs before' := by
  simp only [room, y, x]

/-- Where the bars do not flicker, they settle in three frames. -/
theorem room_settles (thick : 0 ≤ bar) (steady : ¬ Flickers bar inside cs before) :
    room bar inside cs ((room bar inside cs)^[3] before) = (room bar inside cs)^[3] before := by
  show room bar inside cs (room bar inside cs (room bar inside cs (room bar inside cs before))) =
    room bar inside cs (room bar inside cs (room bar inside cs before))
  by_cases x : inside.x - bar < cs.x ∧ cs.x ≤ inside.x
  · by_cases y : inside.y - bar < cs.y ∧ cs.y ≤ inside.y
    · have both : cs.y > before.y ↔ cs.x > before.x := by
        by_contra one
        exact steady ⟨x, y, by grind⟩
      have fixed := room_fixed both x y
      rw [fixed, fixed, fixed]
    · -- The bar at the side is decided by the content alone, and then so is the one below.
      have side := side_room y thick
      have width : ∀ p, (room bar inside cs (room bar inside cs p)).x =
          if cs.y > inside.y then inside.x - bar else inside.x := fun p => if_congr (side p) rfl rfl
      refine room_congr ?_ ?_
      · rw [side, side]
      · rw [width, width]
  · have below := below_room x thick
    have height : ∀ p, (room bar inside cs (room bar inside cs p)).y =
        if cs.x > inside.x then inside.y - bar else inside.y := fun p => if_congr (below p) rfl rfl
    refine room_congr ?_ ?_
    · rw [height, height]
    · rw [below, below]

theorem Flickers.iterate (flickers : Flickers bar inside cs before) (n : Nat) :
    Flickers bar inside cs ((room bar inside cs)^[n] before) := by
  induction n with
  | zero => exact flickers
  | succ n ih =>
    rw [Function.iterate_succ_apply']
    exact ih.next

/-- From the third frame on. -/
theorem room_iterate (thick : 0 ≤ bar) {n : Nat} (later : 3 ≤ n) :
    (room bar inside cs)^[n + 1] before = (room bar inside cs)^[n] before ↔ ¬ Flickers bar inside cs before := by
  rw [Function.iterate_succ_apply']
  constructor
  · intro same flickers
    obtain ⟨m, rfl⟩ : ∃ m, n = m + 1 := ⟨n - 1, by omega⟩
    rw [Function.iterate_succ_apply'] at same
    exact (flickers.iterate m).changes same
  · intro steady
    obtain ⟨m, rfl⟩ := Nat.exists_eq_add_of_le later
    have fixed := Function.iterate_fixed (room_settles thick steady) m
    rw [Nat.add_comm, Function.iterate_add_apply, fixed]
    exact room_settles thick steady

/-- What a call makes of the shape of a window that scrolls. -/
structure Scrolled (style : Style) (w : Window) (shape shape' : Shape) : Prop where
  body : shape'.body.size =
    room style.scrollbarSize (w.inside style (w.placed shape).rect) (padded style shape.contentSize) shape.body.size
  contentSize : shape'.contentSize = shape.contentSize
  x : InReach shape'.body.w (padded style shape.contentSize).x shape'.scroll.x
  y : InReach shape'.body.h (padded style shape.contentSize).y shape'.scroll.y

theorem scrollbarHor_fits (b : Begun) :
    (b.scrollbarHor style mouse hoverRoot w cs clip).body = b.body ∧
      (b.scrollbarHor style mouse hoverRoot w cs clip).shape =
        { b.shape with scroll := (b.scrollbarHor style mouse hoverRoot w cs clip).shape.scroll } ∧
      InReach b.body.w cs.x (b.scrollbarHor style mouse hoverRoot w cs clip).shape.scroll.x := by
  rw [Begun.scrollbarHor]
  split
  · rename_i shown
    exact ⟨rfl, rfl, clamp_inReach _ shown.1⟩
  · exact ⟨rfl, rfl, inReach_zero _ _⟩

theorem scrollbarVer_fits (b : Begun) :
    (b.scrollbarVer style mouse hoverRoot w cs clip).body = b.body ∧
      (b.scrollbarVer style mouse hoverRoot w cs clip).shape =
        { b.shape with
          scroll := { b.shape.scroll with y := (b.scrollbarVer style mouse hoverRoot w cs clip).shape.scroll.y } } ∧
      InReach b.body.h cs.y (b.scrollbarVer style mouse hoverRoot w cs clip).shape.scroll.y := by
  rw [Begun.scrollbarVer]
  split
  · rename_i shown
    exact ⟨rfl, rfl, clamp_inReach _ shown.1⟩
  · exact ⟨rfl, rfl, inReach_zero _ _⟩

theorem bars_fit (style : Style) (mouse : Input.Context) (hoverRoot : Option Ref) (w : Window) (cs : Vec2) (clip : Rect)
    {b b' : Begun}
    (drawn : (b.scrollbarHor style mouse hoverRoot w cs clip).scrollbarVer style mouse hoverRoot w cs clip = b') :
    b'.body = b.body ∧ b'.shape = { b.shape with scroll := b'.shape.scroll } ∧
      InReach b.body.w cs.x b'.shape.scroll.x ∧ InReach b.body.h cs.y b'.shape.scroll.y := by
  obtain ⟨body, shape, x⟩ := @scrollbarHor_fits style mouse hoverRoot w cs clip b
  obtain ⟨body', shape', y⟩ :=
    @scrollbarVer_fits style mouse hoverRoot w cs clip (b.scrollbarHor style mouse hoverRoot w cs clip)
  rw [drawn] at body' shape' y
  rw [body] at body' y
  refine ⟨body', ?_, ?_, y⟩
  · rw [shape', shape]
  · rw [shape']
    exact x

/-- What the two bars make of the room of the body and of the scroll. -/
structure Barred (style : Style) (b b' : Begun) : Prop where
  shape : b'.shape = { b.shape with scroll := b'.shape.scroll }
  body : b'.body.size =
    room style.scrollbarSize b.body.size (padded style b.shape.contentSize) b.shape.body.size
  x : InReach b'.body.w (padded style b.shape.contentSize).x b'.shape.scroll.x
  y : InReach b'.body.h (padded style b.shape.contentSize).y b'.shape.scroll.y

theorem scrollbars_barred (b : Begun) : Barred style b (b.scrollbars style mouse hoverRoot w) := by
  obtain ⟨body, shape, x, y⟩ := bars_fit style mouse hoverRoot w _ _ (rfl : _ = b.scrollbars style mouse hoverRoot w)
  refine ⟨shape, ?_, ?_, ?_⟩
  · rw [body]
    rfl
  · rw [body]
    exact x
  · rw [body]
    exact y

/-- The parts of a shape that no grip changes. -/
structure Beside (shape shape' : Shape) : Prop where
  body : shape'.body = shape.body
  contentSize : shape'.contentSize = shape.contentSize
  scroll : shape'.scroll = shape.scroll

theorem grip_beside (b : Begun) (id : Id) (r : Rect) (move : Rect → Rect) :
    Beside b.shape (b.grip mouse hoverRoot w id r move).shape ∧ (b.grip mouse hoverRoot w id r move).body = b.body := by
  rw [Begun.grip]
  split
  · exact ⟨⟨rfl, rfl, rfl⟩, rfl⟩
  · exact ⟨⟨rfl, rfl, rfl⟩, rfl⟩

theorem titleBar_beside (b : Begun) (rect : Rect) : Beside b.shape (b.titleBar style mouse hoverRoot w rect).shape ∧
    (b.titleBar style mouse hoverRoot w rect).body.size = ⟨b.body.w, b.body.h - style.titleHeight⟩ := by
  obtain ⟨beside, body⟩ := @grip_beside mouse hoverRoot w b w.title { rect with h := style.titleHeight }
    (moved (mouseDelta mouse))
  obtain ⟨same, contentSize, scroll⟩ := beside
  rw [Begun.titleBar]
  dsimp only
  split
  · refine ⟨⟨same, contentSize, scroll⟩, ?_⟩
    rw [body]
    rfl
  · rw [Begun.closeButton]
    dsimp only
    split
    · refine ⟨⟨same, contentSize, scroll⟩, ?_⟩
      rw [← body]
      rfl
    · refine ⟨⟨same, contentSize, scroll⟩, ?_⟩
      rw [← body]
      rfl

theorem corner_beside (b : Begun) (rect : Rect) : Beside b.shape (b.corner style mouse hoverRoot w rect).shape :=
  (grip_beside b w.resize ⟨rect.x + rect.w - style.titleHeight, rect.y + rect.h - style.titleHeight,
    style.titleHeight, style.titleHeight⟩ (resized (mouseDelta mouse))).1

namespace Beside

variable {kept : Shape} {p : Prop} [Decidable p]

theorem reshape (beside : Beside kept b.shape) (rect : Rect) : Beside kept (if p then b.reshape rect else b).shape := by
  split
  · exact ⟨beside.body, beside.contentSize, beside.scroll⟩
  · exact beside

theorem shut (beside : Beside kept b.shape) : Beside kept (if p then b.shut else b).shape := by
  split
  · exact ⟨beside.body, beside.contentSize, beside.scroll⟩
  · exact beside

end Beside

/-- The window with its title bar. -/
def Window.titled (w : Window) (style : Style) (mouse : Input.Context) (hoverRoot : Option Ref) (b : Begun) : Begun :=
  if w.opt.has .noTitle then b else b.titleBar style mouse hoverRoot w b.shape.rect

theorem titled_beside (b : Begun) (whole : b.body = b.shape.rect) :
    Beside b.shape (w.titled style mouse hoverRoot b).shape ∧
      (w.titled style mouse hoverRoot b).body.size = w.inside style b.shape.rect := by
  rw [Window.titled, Window.inside]
  split
  · refine ⟨⟨rfl, rfl, rfl⟩, ?_⟩
    rw [whole]
    rfl
  · rw [← whole]
    exact titleBar_beside b _

/-- Behind the bars, a window changes nothing else of its shape. -/
theorem begin_beside (scrolls : w.opt.has .noScroll = false) {b' : Begun}
    (barred : (w.titled style mouse hoverRoot ⟨w.placed shape, (w.placed shape).rect, s⟩).scrollbars style mouse
      hoverRoot w = b') :
    Beside { b'.shape with body := b'.body } (w.begin style mouse hoverRoot shape s).shape := by
  have cornered : Beside { b'.shape with body := b'.body } (if w.opt.has .noResize then
      { b' with shape := { b'.shape with body := b'.body } }
      else ({ b' with shape := { b'.shape with body := b'.body } } : Begun).corner style mouse hoverRoot w
        (w.placed shape).rect).shape := by
    split
    · exact ⟨rfl, rfl, rfl⟩
    · exact corner_beside { b' with shape := { b'.shape with body := b'.body } } (w.placed shape).rect
  rw [Window.begin]
  dsimp only
  rw [scrolls, if_neg Bool.false_ne_true]
  rw [Window.titled, Window.placed] at barred
  rw [barred]
  exact (cornered.reshape _).shut

theorem begin_scrolled (scrolls : w.opt.has .noScroll = false) :
    Scrolled style w shape (w.begin style mouse hoverRoot shape s).shape := by
  obtain ⟨body, contentSize, scroll⟩ := @begin_beside style mouse hoverRoot s w shape scrolls _ rfl
  obtain ⟨titled, inside⟩ := @titled_beside style mouse hoverRoot w ⟨w.placed shape, (w.placed shape).rect, s⟩ rfl
  generalize w.titled style mouse hoverRoot ⟨w.placed shape, (w.placed shape).rect, s⟩ = b
    at body contentSize scroll titled inside
  obtain ⟨same, room, x, y⟩ := @scrollbars_barred style mouse hoverRoot w b
  have before : b.shape.contentSize = shape.contentSize := titled.contentSize
  have shown : b.shape.body = shape.body := titled.body
  rw [same] at contentSize
  rw [before] at room x y
  rw [shown, inside] at room
  refine ⟨?_, contentSize.trans before, ?_, ?_⟩
  · rw [body]
    exact room
  · rw [body, scroll]
    exact x
  · rw [body, scroll]
    exact y

/-- The item has nothing to do with a container. -/
def Item.Elsewhere (cnt : Ref) : Item → Prop
  | control _ => True
  | window v => v.cnt ≠ cnt
  | pop c _ => c ≠ cnt

/-- The window is shown once, with content of one size. -/
def Tick.Contains (w : Window) (content : Vec2) (tick : Tick) : Prop :=
  ∃ before within after, tick.items = before ++ .window w :: within ++ .pop w.cnt content :: after ∧
    ∀ item ∈ before ++ within ++ after, item.Elsewhere w.cnt

theorem items_elsewhere (style : Style) (mouse : Input.Context) (hoverRoot : Option Ref) {items : List Item} {cnt : Ref}
    (elsewhere : ∀ item ∈ items, item.Elsewhere cnt) (d : Desk) :
    (items.foldl (Item.run style mouse hoverRoot) d).shapes cnt = d.shapes cnt := by
  induction items generalizing d with
  | nil => rfl
  | cons item rest ih =>
    rw [List.forall_mem_cons] at elsewhere
    rw [List.foldl_cons, ih elsewhere.2]
    cases item with
    | control => rfl
    | pop c => exact Function.update_of_ne elsewhere.1.symm _ _
    | window v =>
      rw [Item.run]
      split
      · exact Function.update_of_ne elsewhere.1.symm _ _
      · rfl

theorem frame_begins (style : Style) (d : Desk) (contains : tick.Contains w content) : ∃ s,
    (d.frame style tick).shapes w.cnt =
      { (if (d.shapes w.cnt).isOpen then (w.begin style (d.mouse tick) tick.hoverRoot (d.shapes w.cnt) s).shape
        else d.shapes w.cnt) with contentSize := content } := by
  obtain ⟨before, within, after, items, elsewhere⟩ := contains
  rw [List.forall_mem_append, List.forall_mem_append] at elsewhere
  obtain ⟨⟨first, inner⟩, last⟩ := elsewhere
  have same := items_elsewhere style (d.mouse tick) tick.hoverRoot first d
  rw [Desk.frame, items]
  dsimp only
  rw [List.foldl_append, List.foldl_cons, List.foldl_append, List.foldl_cons]
  generalize before.foldl (Item.run style (d.mouse tick) tick.hoverRoot) d = d₁ at same
  refine ⟨d₁.interaction, ?_⟩
  rw [items_elsewhere _ _ _ last, Item.run, Item.run, same]
  simp only [Desk.setShape, Function.update_self]
  rw [items_elsewhere _ _ _ inner]
  split
  · simp only [Function.update_self]
  · rw [same]

/-- The scroll of a window in a frame that showed it. -/
structure Shape.InReach (style : Style) (content : Vec2) (shape : Shape) : Prop where
  x : Microui.InReach shape.body.w (padded style content).x shape.scroll.x
  y : Microui.InReach shape.body.h (padded style content).y shape.scroll.y

theorem frame_fits (scrolls : w.opt.has .noScroll = false) (contains : tick.Contains w content)
    (contentSize : (d.shapes w.cnt).contentSize = content)
    (reach : (d.shapes w.cnt).isOpen = false → (d.shapes w.cnt).InReach style content) :
    ((d.frame style tick).shapes w.cnt).contentSize = content ∧
      ((d.frame style tick).shapes w.cnt).InReach style content := by
  obtain ⟨s, shape⟩ := frame_begins style d contains
  rw [shape]
  refine ⟨rfl, ?_⟩
  cases isOpen : (d.shapes w.cnt).isOpen with
  | false => exact ⟨(reach isOpen).x, (reach isOpen).y⟩
  | true =>
    have scrolled := @begin_scrolled style (d.mouse tick) tick.hoverRoot s w (d.shapes w.cnt) scrolls
    rw [← contentSize]
    exact ⟨scrolled.x, scrolled.y⟩

theorem frames_fits (scrolls : w.opt.has .noScroll = false) (contains : ∀ tick ∈ ticks, tick.Contains w content)
    (contentSize : (d.shapes w.cnt).contentSize = content) (reach : (d.shapes w.cnt).InReach style content) :
    ((ticks.foldl (Desk.frame style) d).shapes w.cnt).InReach style content := by
  induction ticks generalizing d with
  | nil => exact reach
  | cons tick rest ih =>
    rw [List.forall_mem_cons] at contains
    obtain ⟨contentSize', reach'⟩ := frame_fits scrolls contains.1 contentSize fun _ => reach
    exact ih contains.2 contentSize' reach'

/-- Whatever the mouse does, in all frames that show a window with content of the size that it
had before, its scroll keeps to the content, and the thumbs of its bars to their tracks. -/
theorem scroll_fits (scrolls : w.opt.has .noScroll = false) (some : ticks ≠ [])
    (contains : ∀ tick ∈ ticks, tick.Contains w content) (isOpen : (d.shapes w.cnt).isOpen = true)
    (contentSize : (d.shapes w.cnt).contentSize = content)
    (shape : (ticks.foldl (Desk.frame style) d).shapes w.cnt = shape') :
    shape'.InReach style content ∧
      InTrack style shape'.body.x shape'.body.w (padded style content).x shape'.scroll.x ∧
      InTrack style shape'.body.y shape'.body.h (padded style content).y shape'.scroll.y := by
  have reach : shape'.InReach style content := by
    rw [← shape]
    cases ticks with
    | nil => exact absurd rfl some
    | cons tick rest =>
      rw [List.forall_mem_cons] at contains
      obtain ⟨contentSize', reach'⟩ := @frame_fits style w d tick content scrolls contains.1 contentSize fun shut => by
        rw [shut] at isOpen
        cases isOpen
      rw [List.foldl_cons]
      exact frames_fits scrolls contains.2 contentSize' reach'
  exact ⟨reach, reach.x.inTrack _, reach.y.inTrack _⟩

/-- The first window with some content in it. -/
def page (mouse : Input.Context) (content : Vec2) : Tick :=
  ⟨mouse, some firstWindow.cnt, [.window firstWindow, .pop firstWindow.cnt content]⟩

def noMouse : Input.Context := ⟨⟨0, 0⟩, ⟨0, 0⟩, MouseButton.none, MouseButton.none⟩

/-- The mouse at the right, where the bar of the first window is. -/
def overBar (y : Int) (down pressed : MouseButton) : Input.Context := ⟨⟨442, y⟩, ⟨0, 0⟩, down, pressed⟩

theorem page_contains (mouse : Input.Context) (content : Vec2) : (page mouse content).Contains firstWindow content :=
  ⟨[], [], [], rfl, List.forall_mem_nil _⟩

theorem scroll_fits_pulled : ∃ shape, ([page (overBar 80 0 0) ⟨300, 500⟩, page (overBar 80 1 1) ⟨300, 500⟩,
      page (overBar 900 1 0) ⟨300, 500⟩].foldl (Desk.frame defaultStyle)
        (twoShapes.frame defaultStyle (page noMouse ⟨300, 500⟩))).shapes firstWindow.cnt = shape ∧
    shape.scroll = ⟨0, 334⟩ ∧ InTrack defaultStyle shape.body.y shape.body.h 510 334 := by
  refine ⟨⟨⟨50, 50, 400, 200⟩, ⟨50, 74, 388, 176⟩, ⟨300, 500⟩, ⟨0, 334⟩, true⟩, rfl, rfl, ?_⟩
  have contains : ∀ tick ∈ [page (overBar 80 0 0) ⟨300, 500⟩, page (overBar 80 1 1) ⟨300, 500⟩,
      page (overBar 900 1 0) ⟨300, 500⟩], tick.Contains firstWindow ⟨300, 500⟩ := by
    simp [page_contains]
  obtain ⟨_, _, track⟩ := @scroll_fits defaultStyle firstWindow (twoShapes.frame defaultStyle (page noMouse ⟨300, 500⟩))
    _ ⟨300, 500⟩ _ rfl (List.cons_ne_nil _ _) contains rfl rfl rfl
  exact track

/-- No button is down or has been pressed. -/
structure Quiet (mouse : Input.Context) : Prop where
  down : mouse.mouseDown.has MouseButton.left = false
  pressed : mouse.mousePressed.any = false

theorem Quiet.grip (quiet : Quiet mouse) (b : Begun) (id : Id) (r : Rect) (move : Rect → Rect) :
    (b.grip mouse hoverRoot w id r move).shape = b.shape := by
  rw [Begun.grip, if_neg fun holds => Bool.eq_false_iff.mp quiet.down holds.2]
  rfl

theorem Quiet.titleBar (quiet : Quiet mouse) (b : Begun) (rect : Rect) :
    (b.titleBar style mouse hoverRoot w rect).shape = b.shape := by
  have still := @Quiet.grip mouse hoverRoot w quiet b w.title { rect with h := style.titleHeight }
    (moved (mouseDelta mouse))
  rw [Begun.titleBar]
  split
  · exact still
  · rw [Begun.closeButton, if_neg fun both => Bool.eq_false_iff.mp quiet.pressed (any_of_has both.1)]
    exact still

theorem Quiet.controls (quiet : Quiet mouse) : (w.controls style mouse hoverRoot shape s).shape.rect = shape.rect ∧
    (w.controls style mouse hoverRoot shape s).shape.isOpen = shape.isOpen := by
  have titled : (if w.opt.has .noTitle then (⟨shape, shape.rect, s⟩ : Begun)
      else Begun.titleBar style mouse hoverRoot w ⟨shape, shape.rect, s⟩ shape.rect).shape = shape := by
    split
    · rfl
    · exact quiet.titleBar _ _
  rw [Window.controls]
  dsimp only
  generalize (if w.opt.has .noTitle then (⟨shape, shape.rect, s⟩ : Begun)
    else Begun.titleBar style mouse hoverRoot w ⟨shape, shape.rect, s⟩ shape.rect) = b at titled
  have scrolled : (if w.opt.has .noScroll then b else b.scrollbars style mouse hoverRoot w).shape.rect = shape.rect ∧
      (if w.opt.has .noScroll then b else b.scrollbars style mouse hoverRoot w).shape.isOpen = shape.isOpen := by
    rw [← titled]
    split
    · exact ⟨rfl, rfl⟩
    · rw [(scrollbars_barred b).shape]
      exact ⟨rfl, rfl⟩
  split
  · exact scrolled
  · rw [Begun.corner, quiet.grip]
    exact scrolled

/-- A frame without the mouse: the window stays, and the bars are placed anew. -/
structure Laid (style : Style) (w : Window) (content : Vec2) (shape shape' : Shape) : Prop where
  rect : shape'.rect = shape.rect
  isOpen : shape'.isOpen = true
  contentSize : shape'.contentSize = content
  body : shape'.body.size =
    room style.scrollbarSize (w.inside style shape.rect) (padded style content) shape.body.size

/-- A window with scroll bars whose size its content does not decide. -/
structure Window.Scrolls (w : Window) : Prop where
  scrolls : w.opt.has .noScroll = false
  autoSize : w.opt.has .autoSize = false

theorem frame_laid (style : Style) (scrolls : w.Scrolls) (contains : tick.Contains w content)
    (quiet : Quiet tick.mouse) (isOpen : (d.shapes w.cnt).isOpen = true) (wide : (d.shapes w.cnt).rect.w ≠ 0)
    (contentSize : (d.shapes w.cnt).contentSize = content) :
    Laid style w content (d.shapes w.cnt) ((d.frame style tick).shapes w.cnt) := by
  obtain ⟨s, shape⟩ := frame_begins style d contains
  have quiet' : Quiet (d.mouse tick) := ⟨quiet.down, quiet.pressed⟩
  have scrolled := @begin_scrolled style (d.mouse tick) tick.hoverRoot s w (d.shapes w.cnt) scrolls.scrolls
  have begun := @begin_controls style (d.mouse tick) tick.hoverRoot s w (d.shapes w.cnt) scrolls.autoSize
  rw [if_neg fun all => Bool.eq_false_iff.mp quiet'.pressed all.2.1, placed_wide wide] at begun
  obtain ⟨rect, still⟩ := @Quiet.controls style _ tick.hoverRoot s w (d.shapes w.cnt) quiet'
  have body := scrolled.body
  rw [placed_wide wide, contentSize] at body
  rw [shape, if_pos isOpen]
  refine ⟨?_, ?_, rfl, body⟩
  · rw [begun]
    exact rect
  · rw [begun]
    exact still.trans isOpen

theorem frames_laid (scrolls : w.Scrolls) (contains : ∀ tick ∈ ticks, tick.Contains w content)
    (quiet : ∀ tick ∈ ticks, Quiet tick.mouse) (isOpen : (d.shapes w.cnt).isOpen = true)
    (wide : (d.shapes w.cnt).rect.w ≠ 0) (contentSize : (d.shapes w.cnt).contentSize = content) :
    ((ticks.foldl (Desk.frame style) d).shapes w.cnt).body.size =
      (room style.scrollbarSize (w.inside style (d.shapes w.cnt).rect) (padded style content))^[ticks.length]
        (d.shapes w.cnt).body.size := by
  induction ticks generalizing d with
  | nil => rfl
  | cons tick rest ih =>
    rw [List.forall_mem_cons] at contains quiet
    obtain ⟨rect, isOpen', contentSize', body⟩ := frame_laid style scrolls contains.1 quiet.1 isOpen wide contentSize
    rw [List.foldl_cons, ih contains.2 quiet.2 isOpen' (rect ▸ wide) contentSize', rect, body]
    rfl

/-- The bars of a window take turns in all frames if they do so from the first on. -/
theorem frames_turn (scrolls : w.Scrolls) (contains : ∀ tick ∈ ticks, tick.Contains w content)
    (quiet : ∀ tick ∈ ticks, Quiet tick.mouse) (isOpen : (d.shapes w.cnt).isOpen = true)
    (wide : (d.shapes w.cnt).rect.w ≠ 0) (contentSize : (d.shapes w.cnt).contentSize = content)
    (flickers : Flickers style.scrollbarSize (w.inside style (d.shapes w.cnt).rect) (padded style content)
      (d.shapes w.cnt).body.size) {front rest : List Tick} {first second : Tick}
    (parts : ticks = front ++ first :: second :: rest) :
    TakeTurns style.scrollbarSize (w.inside style (d.shapes w.cnt).rect)
      (((front ++ [first]).foldl (Desk.frame style) d).shapes w.cnt).body.size
      (((front ++ [first, second]).foldl (Desk.frame style) d).shapes w.cnt).body.size := by
  subst parts
  have earlier : ∀ {shown : List Tick}, (∀ tick ∈ shown, tick ∈ front ++ first :: second :: rest) →
      ((shown.foldl (Desk.frame style) d).shapes w.cnt).body.size =
        (room style.scrollbarSize (w.inside style (d.shapes w.cnt).rect) (padded style content))^[shown.length]
          (d.shapes w.cnt).body.size := fun among =>
    frames_laid scrolls (fun tick member => contains tick (among tick member))
      (fun tick member => quiet tick (among tick member)) isOpen wide contentSize
  rw [earlier (by simp; tauto), earlier (by simp; tauto), List.length_append, List.length_append, List.length_singleton,
    List.length_cons, List.length_singleton, ← Nat.add_assoc]
  simp only [Function.iterate_succ_apply']
  exact (flickers.iterate front.length).turns

/-- From the third frame on, in frames without the mouse and with content of one size: the
next frame leaves the bars of a window as they are, exactly unless they take turns from the
first frame on; and then they do so in all frames. -/
theorem scrollbars_settle_iff (thick : 0 ≤ style.scrollbarSize) (scrolls : w.Scrolls) (later : 3 ≤ ticks.length)
    (contains : ∀ tick ∈ ticks ++ [last], tick.Contains w content) (quiet : ∀ tick ∈ ticks ++ [last], Quiet tick.mouse)
    (isOpen : (d.shapes w.cnt).isOpen = true) (wide : (d.shapes w.cnt).rect.w ≠ 0)
    (contentSize : (d.shapes w.cnt).contentSize = content) :
    ((((ticks ++ [last]).foldl (Desk.frame style) d).shapes w.cnt).body.size =
        ((ticks.foldl (Desk.frame style) d).shapes w.cnt).body.size ↔
      ¬ Flickers style.scrollbarSize (w.inside style (d.shapes w.cnt).rect) (padded style content)
        (d.shapes w.cnt).body.size) ∧
    (Flickers style.scrollbarSize (w.inside style (d.shapes w.cnt).rect) (padded style content)
        (d.shapes w.cnt).body.size →
      ∀ front first second rest, ticks ++ [last] = front ++ first :: second :: rest →
        TakeTurns style.scrollbarSize (w.inside style (d.shapes w.cnt).rect)
          (((front ++ [first]).foldl (Desk.frame style) d).shapes w.cnt).body.size
          (((front ++ [first, second]).foldl (Desk.frame style) d).shapes w.cnt).body.size) := by
  refine ⟨?_, fun flickers front first second rest parts =>
    frames_turn scrolls contains quiet isOpen wide contentSize flickers parts⟩
  rw [frames_laid scrolls contains quiet isOpen wide contentSize]
  rw [List.forall_mem_append] at contains quiet
  rw [frames_laid scrolls contains.1 quiet.1 isOpen wide contentSize]
  rw [List.length_append, List.length_singleton]
  exact room_iterate thick later

/-- A line is added to the content while only the bar below is shown. -/
def lineAdded : Desk := [page noMouse ⟨385, 100⟩, page noMouse ⟨385, 160⟩].foldl (Desk.frame defaultStyle) twoShapes

theorem scrollbars_settle_iff_line :
    ((([page noMouse ⟨385, 160⟩, page noMouse ⟨385, 160⟩, page noMouse ⟨385, 160⟩] ++ [page noMouse ⟨385, 160⟩]).foldl
        (Desk.frame defaultStyle) lineAdded).shapes firstWindow.cnt).body.size ≠
      (([page noMouse ⟨385, 160⟩, page noMouse ⟨385, 160⟩, page noMouse ⟨385, 160⟩].foldl
        (Desk.frame defaultStyle) lineAdded).shapes firstWindow.cnt).body.size ∧
    TakeTurns defaultStyle.scrollbarSize ⟨400, 176⟩
      (([page noMouse ⟨385, 160⟩, page noMouse ⟨385, 160⟩].foldl
        (Desk.frame defaultStyle) lineAdded).shapes firstWindow.cnt).body.size
      (([page noMouse ⟨385, 160⟩, page noMouse ⟨385, 160⟩, page noMouse ⟨385, 160⟩].foldl
        (Desk.frame defaultStyle) lineAdded).shapes firstWindow.cnt).body.size := by
  have pages : ∀ tick ∈ [page noMouse ⟨385, 160⟩, page noMouse ⟨385, 160⟩, page noMouse ⟨385, 160⟩] ++
      [page noMouse ⟨385, 160⟩], tick.Contains firstWindow ⟨385, 160⟩ ∧ Quiet tick.mouse := by
    intro tick member
    have page_eq : tick = page noMouse ⟨385, 160⟩ := by simpa using member
    rw [page_eq]
    exact ⟨page_contains _ _, rfl, rfl⟩
  obtain ⟨settled, turns⟩ := @scrollbars_settle_iff defaultStyle firstWindow lineAdded _ _ ⟨385, 160⟩ (by decide)
    ⟨rfl, rfl⟩ (le_refl 3) (fun tick member => (pages tick member).1) (fun tick member => (pages tick member).2) rfl
    (by decide) rfl
  have flickers : Flickers defaultStyle.scrollbarSize (firstWindow.inside defaultStyle
      (lineAdded.shapes firstWindow.cnt).rect) (padded defaultStyle ⟨385, 160⟩)
      (lineAdded.shapes firstWindow.cnt).body.size := ⟨by decide, by decide, by decide⟩
  exact ⟨fun same => settled.mp same flickers, turns flickers [page noMouse ⟨385, 160⟩] _ _ _ rfl⟩

end UmkaOs.Microui
