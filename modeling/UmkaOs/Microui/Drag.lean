import UmkaOs.Microui.Grips

namespace UmkaOs.Microui

open Input

variable {holds : Id → Prop} {style : Style} {mouse : Input.Context} {hoverRoot : Option Ref} {s : Interaction}
  {w : Window} {b : Begun} {d d' : Desk} {shape : Shape} {P : Interaction → Prop} {g : Grip} {tick first : Tick}
  {ticks : List Tick}

def offset (p q : Vec2) : Vec2 := ⟨q.x - p.x, q.y - p.y⟩

/-- How the mouse moves from frame to frame, from a place on. -/
def deltas (p : Vec2) : List Tick → List Vec2
  | [] => []
  | tick :: rest => offset p tick.mouse.mousePos :: deltas tick.mouse.mousePos rest

/-- Where it comes to. -/
def arrival (p : Vec2) : List Tick → Vec2
  | [] => p
  | tick :: rest => arrival tick.mouse.mousePos rest

theorem frames_arrival : (ticks.foldl (Desk.frame style) d).lastMousePos = arrival d.lastMousePos ticks := by
  induction ticks generalizing d with
  | nil => rfl
  | cons tick rest ih => exact ih

theorem moved_deltas (p : Vec2) (ticks : List Tick) (r : Rect) :
    (deltas p ticks).foldl (fun r delta => moved delta r) r = moved (offset p (arrival p ticks)) r := by
  induction ticks generalizing p r with
  | nil => simp [deltas, arrival, moved, offset]
  | cons tick rest ih =>
    refine (ih tick.mouse.mousePos (moved (offset p tick.mouse.mousePos) r)).trans ?_
    simp only [arrival, moved, offset, Rect.mk.injEq, and_true]
    constructor
    · omega
    · omega

/-- The mouse keeps to where the corner would leave the window its least size or more. -/
def Roomy (p : Vec2) (r : Rect) (ticks : List Tick) : Prop :=
  ∀ tick ∈ ticks, 96 ≤ r.w + (offset p tick.mouse.mousePos).x ∧ 64 ≤ r.h + (offset p tick.mouse.mousePos).y

/-- What the corner makes of a rectangle. -/
structure Stretched (travel : Vec2) (r r' : Rect) : Prop where
  place : r'.x = r.x ∧ r'.y = r.y
  grown : r.w + travel.x ≤ r'.w ∧ r.h + travel.y ≤ r'.h

theorem resized_deltas (p : Vec2) (ticks : List Tick) (r : Rect) {r' : Rect}
    (ends : (deltas p ticks).foldl (fun r delta => resized delta r) r = r') :
    Stretched (offset p (arrival p ticks)) r r' ∧
      (ticks ≠ [] ∨ 96 ≤ r.w ∧ 64 ≤ r.h → 96 ≤ r'.w ∧ 64 ≤ r'.h) ∧
      (Roomy p r ticks →
        r'.w = r.w + (offset p (arrival p ticks)).x ∧ r'.h = r.h + (offset p (arrival p ticks)).y) := by
  induction ticks generalizing p r with
  | nil =>
    have same : r = r' := ends
    subst same
    refine ⟨⟨⟨rfl, rfl⟩, ?_⟩, ?_, fun _ => ?_⟩
    · dsimp only [arrival, offset]
      omega
    · exact fun least => least.resolve_left fun some => some rfl
    · dsimp only [arrival, offset]
      omega
  | cons tick rest ih =>
    obtain ⟨⟨place, grown⟩, least, exact'⟩ := ih tick.mouse.mousePos (resized (offset p tick.mouse.mousePos) r) ends
    dsimp only [resized, offset] at place grown least exact'
    refine ⟨⟨place, ?_⟩, fun _ => least (.inr ?_), fun roomy => ?_⟩
    · dsimp only [arrival, offset]
      omega
    · omega
    · rw [Roomy, List.forall_mem_cons] at roomy
      obtain ⟨here, later⟩ := roomy
      dsimp only [arrival, offset] at here later ⊢
      have same := exact' fun next member => by
        have there := later next member
        dsimp only [offset]
        omega
      omega

/-- A window that is held by a grip, after some frames. -/
structure Carried (g : Grip) (w : Window) (ticks : List Tick) (d d' : Desk) : Prop where
  focus : d'.interaction.focus = g.id w
  isOpen : (d'.shapes w.cnt).isOpen = true
  rect : (d'.shapes w.cnt).rect =
    (deltas d.lastMousePos ticks).foldl (fun r delta => g.move delta r) (d.shapes w.cnt).rect
  others : ∀ c, c ≠ w.cnt → (d.shapes c).rect.w ≠ 0 → (d'.shapes c).rect = (d.shapes c).rect

theorem Moved.carried {d₁ : Desk} (moved : Moved g w (mouseDelta (d.mouse tick)) d d₁)
    (carried : Carried g w ticks d₁ d') (place : d₁.lastMousePos = tick.mouse.mousePos) :
    Carried g w (tick :: ticks) d d' := by
  refine ⟨carried.focus, carried.isOpen, ?_, ?_⟩
  · rw [carried.rect, moved.rect, place]
    rfl
  · intro c elsewhere wide
    have same := moved.others c elsewhere wide
    exact (carried.others c elsewhere (same ▸ wide)).trans same

theorem frames_carried (held : w.Held holds g)
    (still : ∀ tick ∈ ticks, tick.mouse.mousePressed.any = false)
    (left : ∀ tick ∈ ticks, tick.mouse.mouseDown.has MouseButton.left = true)
    (shows : ∀ tick ∈ ticks, tick.Shows holds g w) (focus : d.interaction.focus = g.id w)
    (isOpen : (d.shapes w.cnt).isOpen = true) (wide : (d.shapes w.cnt).rect.w ≠ 0) :
    Carried g w ticks d (ticks.foldl (Desk.frame style) d) := by
  induction ticks generalizing d with
  | nil => exact ⟨focus, isOpen, rfl, fun _ _ _ => rfl⟩
  | cons tick rest ih =>
    rw [List.forall_mem_cons] at still left shows
    have ready : Ready holds tick.mouse (g.id w) d.interaction :=
      ⟨.inl focus, fun press => absurd press (Bool.eq_false_iff.mp still.1), fun _ => focus⟩
    have moved := frame_moved style held left.1 shows.1 isOpen wide ready
    have wide' : ((d.frame style tick).shapes w.cnt).rect.w ≠ 0 := by
      rw [moved.rect]
      exact g.move_wide _ wide
    exact moved.carried (ih still.2 left.2 shows.2 moved.focus moved.isOpen wide') rfl

/-- The item reacts to the mouse. -/
def Item.Plain (holds : Id → Prop) : Item → Prop
  | control c => Reacts holds c
  | window v => v.Plain holds
  | pop _ _ => True

/-- The states between frames whose controls all react to the mouse, and where a button that
is pressed is still down in its frame. -/
inductive Desk.Reachable (holds : Id → Prop) (style : Style) : Desk → Prop
  | init (shapes : Ref → Shape) (mousePos : Vec2) : Reachable holds style ⟨shapes, ⟨0, 0, false⟩, mousePos⟩
  | frame {d : Desk} (before : Reachable holds style d) (tick : Tick) (plain : ∀ item ∈ tick.items, item.Plain holds)
    (held : tick.mouse.mousePressed.any → tick.mouse.mouseDown.any) : Reachable holds style (d.frame style tick)

/-- What every control of a frame keeps. -/
def Kept (holds : Id → Prop) (mouse : Input.Context) (hoverRoot : Option Ref) (P : Interaction → Prop) : Prop :=
  ∀ s c, Reacts holds c → P s → P (s.updateControl mouse hoverRoot c)

namespace Kept

variable (kept : Kept holds mouse hoverRoot P) (plain : w.Plain holds)
include kept plain

theorem grip {id : Id} (own : id ∈ w.ids) (r : Rect) (move : Rect → Rect) (start : P b.interaction) :
    P (b.grip mouse hoverRoot w id r move).interaction := by
  rw [Begun.grip]
  split
  · exact kept _ _ (plain.control own r unclippedRect (.inl rfl)) start
  · exact kept _ _ (plain.control own r unclippedRect (.inl rfl)) start

theorem titleBar (r : Rect) (start : P b.interaction) : P (b.titleBar style mouse hoverRoot w r).interaction := by
  have title : w.title ∈ w.ids := by simp [Window.ids]
  have close : w.close ∈ w.ids := by simp [Window.ids]
  have gripped := kept.grip plain title { r with h := style.titleHeight } (moved (mouseDelta mouse)) start
  rw [Begun.titleBar]
  split
  · exact gripped
  · rw [Begun.closeButton]
    split
    · exact kept _ _ (plain.control close _ unclippedRect (.inl rfl)) gripped
    · exact kept _ _ (plain.control close _ unclippedRect (.inl rfl)) gripped

theorem scrollbars (style : Style) (start : P b.interaction) :
    P (b.scrollbars style mouse hoverRoot w).interaction := by
  have ownx : w.scrollbarx ∈ w.ids := by simp [Window.ids]
  have owny : w.scrollbary ∈ w.ids := by simp [Window.ids]
  have first : ∀ {b : Begun} (cs : Vec2) (clip : Rect), P b.interaction →
      P (b.scrollbarHor style mouse hoverRoot w cs clip).interaction := by
    intro b cs clip start
    rw [Begun.scrollbarHor]
    split
    · exact kept _ _ (plain.control ownx _ clip (.inr rfl)) start
    · exact start
  have second : ∀ {b : Begun} (cs : Vec2) (clip : Rect), P b.interaction →
      P (b.scrollbarVer style mouse hoverRoot w cs clip).interaction := by
    intro b cs clip start
    rw [Begun.scrollbarVer]
    split
    · exact kept _ _ (plain.control owny _ clip (.inr rfl)) start
    · exact start
  exact second _ _ (first _ _ start)

theorem controls (start : P s) : P (w.controls style mouse hoverRoot shape s).interaction := by
  have own : w.resize ∈ w.ids := by simp [Window.ids]
  have titled : P (if w.opt.has .noTitle then (⟨shape, shape.rect, s⟩ : Begun)
      else Begun.titleBar style mouse hoverRoot w ⟨shape, shape.rect, s⟩ shape.rect).interaction := by
    split
    · exact start
    · exact kept.titleBar plain shape.rect start
  have scrolled := kept.scrollbars plain style titled
  rw [Window.controls]
  split
  · split
    · exact titled
    · exact scrolled
  · apply kept.grip plain own
    split
    · exact titled
    · exact scrolled

end Kept

theorem begin_interaction : (w.begin style mouse hoverRoot shape s).interaction =
    (w.controls style mouse hoverRoot (w.placed shape) s).interaction := by
  rw [Window.begin]
  split
  · split
    · rfl
    · rfl
  · split
    · rfl
    · rfl

theorem items_kept (style : Style) (kept : Kept holds mouse hoverRoot P) {items : List Item}
    (plain : ∀ item ∈ items, item.Plain holds) (start : P d.interaction) :
    P (items.foldl (Item.run style mouse hoverRoot) d).interaction := by
  induction items generalizing d with
  | nil => exact start
  | cons item rest ih =>
    rw [List.forall_mem_cons] at plain
    apply ih plain.2
    cases item with
    | control c => exact kept _ _ plain.1 start
    | pop => exact start
    | window v =>
      rw [Item.run]
      split
      · show P (v.begin style mouse hoverRoot (d.shapes v.cnt) d.interaction).interaction
        rw [begin_interaction]
        exact kept.controls plain.1 start
      · exact start

theorem Interaction.controls_snoc (shown : List Control) (c : Control) :
    (s.controls mouse hoverRoot (shown ++ [c])).2 =
      ((s.controls mouse hoverRoot shown).2).updateControl mouse hoverRoot c := by
  induction shown generalizing s with
  | nil => rfl
  | cons first rest ih => exact ih

theorem frame_controls (style : Style) (plain : ∀ item ∈ tick.items, item.Plain holds) : ∃ shown : List Control,
    (∀ c ∈ shown, Reacts holds c) ∧
      (d.frame style tick).interaction = (d.interaction.frame (d.mouse tick) tick.hoverRoot shown).2 := by
  have kept : Kept holds (d.mouse tick) tick.hoverRoot fun s => ∃ shown : List Control,
      (∀ c ∈ shown, Reacts holds c) ∧ s = (d.interaction.controls (d.mouse tick) tick.hoverRoot shown).2 := by
    intro s c react
    rintro ⟨shown, reacts, rfl⟩
    refine ⟨shown ++ [c], ?_, ?_⟩
    · rw [List.forall_mem_append, List.forall_mem_singleton]
      exact ⟨reacts, react⟩
    · rw [Interaction.controls_snoc]
  obtain ⟨shown, reacts, same⟩ := items_kept style kept plain ⟨[], List.forall_mem_nil _, rfl⟩
  exact ⟨shown, reacts, congrArg Interaction.endFrame same⟩

theorem Desk.Reachable.interaction (reachable : Desk.Reachable holds style d) :
    Interaction.Reachable holds d.interaction := by
  induction reachable with
  | init => exact .init
  | @frame d before tick plain held ih =>
    obtain ⟨shown, reacts, same⟩ := frame_controls (d := d) style plain
    rw [same]
    exact ih.frame _ _ reacts held

/-- The frame in which the button is pressed, the mouse having been over the grip before, and
the frames in which it is still down. -/
structure Holding (holds : Id → Prop) (style : Style) (g : Grip) (w : Window) (d : Desk) (first : Tick)
    (ticks : List Tick) : Prop where
  reachable : Desk.Reachable holds style d
  hovered : d.interaction.hover = g.id w
  pressed : first.mouse.mousePressed.any = true
  still : ∀ tick ∈ ticks, tick.mouse.mousePressed.any = false
  left : ∀ tick ∈ first :: ticks, tick.mouse.mouseDown.has MouseButton.left = true
  shows : ∀ tick ∈ first :: ticks, tick.Shows holds g w
  isOpen : (d.shapes w.cnt).isOpen = true
  wide : (d.shapes w.cnt).rect.w ≠ 0

theorem Holding.carried (holding : Holding holds style g w d first ticks) (held : w.Held holds g) :
    Carried g w (first :: ticks) d ((first :: ticks).foldl (Desk.frame style) d) := by
  obtain ⟨reachable, hovered, pressed, still, left, shows, isOpen, wide⟩ := holding
  rw [List.forall_mem_cons] at left shows
  obtain ⟨some, releases⟩ := held.plain.ids _ held.own
  have ready : Ready holds first.mouse (g.id w) d.interaction := by
    refine ⟨?_, fun _ => hovered, fun none => absurd pressed (Bool.eq_false_iff.mp none)⟩
    rcases reachable.interaction.settled.2 with focus | focus | hover | same
    · exact .inr (.inr focus)
    · exact .inr (.inl focus)
    · exact absurd (hovered.symm.trans hover) some
    · exact .inl (same.symm.trans hovered)
  have moved := frame_moved style held left.1 shows.1 isOpen wide ready
  have wide' : ((d.frame style first).shapes w.cnt).rect.w ≠ 0 := by
    rw [moved.rect]
    exact g.move_wide _ wide
  exact moved.carried (frames_carried held still left.2 shows.2 moved.focus moved.isOpen wide') rfl

/-- From any reachable state: a window whose title bar was hovered after the frame before the
press follows the mouse exactly for as long as the button is down, whatever else that reacts
and is not sized by its content the frames show, and no other window moves. -/
theorem drag_follows (held : w.Held holds .title) (holding : Holding holds style .title w d first ticks)
    (ends : (first :: ticks).foldl (Desk.frame style) d = d') :
    (d'.shapes w.cnt).isOpen = true ∧ d'.interaction.focus = w.title ∧
      (d'.shapes w.cnt).rect = moved (offset d.lastMousePos d'.lastMousePos) (d.shapes w.cnt).rect ∧
      ∀ c, c ≠ w.cnt → (d.shapes c).rect.w ≠ 0 → (d'.shapes c).rect = (d.shapes c).rect := by
  have carried := holding.carried held
  rw [← ends, frames_arrival, ← moved_deltas]
  exact ⟨carried.isOpen, carried.focus, carried.rect, carried.others⟩

/-- The first of two windows in one place. -/
def firstWindow : Window := ⟨Fin.last 47, ⟨50, 50, 400, 200⟩, 0, 1, 2, 3, 4, 5, [], none⟩

def secondWindow : Window :=
  ⟨⟨1, Nat.succ_lt_succ (Nat.succ_pos 46)⟩, ⟨50, 50, 400, 200⟩, 0, 11, 12, 13, 14, 15, [], none⟩

def twoShapes : Desk :=
  ⟨fun _ => ⟨⟨50, 50, 400, 200⟩, ⟨0, 0, 0, 0⟩, ⟨0, 0⟩, ⟨0, 0⟩, true⟩, ⟨0, 0, false⟩, ⟨0, 0⟩⟩

def mouseTick (x y : Int) (down pressed : MouseButton) : Tick :=
  ⟨⟨⟨x, y⟩, ⟨0, 0⟩, down, pressed⟩, some firstWindow.cnt, [.window firstWindow, .window secondWindow]⟩

theorem twoWindows_plain : ∀ item ∈ [Item.window firstWindow, .window secondWindow], item.Plain fun _ => False := by
  rw [List.forall_mem_cons, List.forall_mem_singleton]
  constructor
  · exact ⟨rfl, rfl, by simp [Window.ids, firstWindow]⟩
  · exact ⟨rfl, rfl, by simp [Window.ids, secondWindow]⟩

theorem firstWindow_held (g : Grip) : firstWindow.Held (fun _ => False) g := by
  refine ⟨twoWindows_plain _ List.mem_cons_self, ?_, by decide, rfl, rfl⟩
  cases g <;> rfl

theorem firstWindow_holding (g : Grip) (x y x' y' x'' y'' : Int)
    (hovered : (twoShapes.frame defaultStyle (mouseTick x y 0 0)).interaction.hover = g.id firstWindow)
    (isOpen : ((twoShapes.frame defaultStyle (mouseTick x y 0 0)).shapes firstWindow.cnt).isOpen = true)
    (wide : ((twoShapes.frame defaultStyle (mouseTick x y 0 0)).shapes firstWindow.cnt).rect.w ≠ 0) :
    Holding (fun _ => False) defaultStyle g firstWindow (twoShapes.frame defaultStyle (mouseTick x y 0 0))
      (mouseTick x' y' 1 1) [mouseTick x'' y'' 1 0] := by
  have shows : ∀ x y down pressed, (mouseTick x y down pressed).Shows (fun _ => False) g firstWindow := by
    intro x y down pressed
    refine ⟨[], _, rfl, ?_⟩
    rw [List.nil_append, List.forall_mem_singleton]
    refine ⟨twoWindows_plain _ (List.mem_cons_of_mem _ List.mem_cons_self), rfl, by decide, ?_⟩
    cases g <;> simp [Window.ids, Grip.id, firstWindow, secondWindow]
  refine ⟨?_, hovered, rfl, by simp [mouseTick, MouseButton.any], ?_, ?_, isOpen, wide⟩
  · exact .frame (.init _ _) _ twoWindows_plain (by simp [mouseTick, MouseButton.any])
  · simp [mouseTick, MouseButton.has, MouseButton.left]
  · simp [shows]

/-- The first window is dragged from a place that the mouse has left already when the button
is seen. -/
theorem drag_follows_two : (([mouseTick 102 61 1 1, mouseTick 120 50 1 0].foldl (Desk.frame defaultStyle)
    (twoShapes.frame defaultStyle (mouseTick 100 60 0 0))).shapes firstWindow.cnt).rect = ⟨70, 40, 400, 200⟩ := by
  have holding := firstWindow_holding .title 100 60 102 61 120 50 (by decide) (by decide) (by decide)
  obtain ⟨_, _, rect, _⟩ := drag_follows (firstWindow_held .title) holding rfl
  rw [rect]
  decide

/-- Likewise a window that is held by its corner stays in its place and grows with the mouse; it is
never smaller than its least size, and as long as the mouse does not ask for less, the corner
follows the mouse exactly. -/
theorem resize_follows (held : w.Held holds .corner) (holding : Holding holds style .corner w d first ticks)
    (ends : (first :: ticks).foldl (Desk.frame style) d = d') :
    Stretched (offset d.lastMousePos d'.lastMousePos) (d.shapes w.cnt).rect (d'.shapes w.cnt).rect ∧
      (96 ≤ (d'.shapes w.cnt).rect.w ∧ 64 ≤ (d'.shapes w.cnt).rect.h) ∧
      (Roomy d.lastMousePos (d.shapes w.cnt).rect (first :: ticks) →
        (d'.shapes w.cnt).rect.w = (d.shapes w.cnt).rect.w + (offset d.lastMousePos d'.lastMousePos).x ∧
          (d'.shapes w.cnt).rect.h = (d.shapes w.cnt).rect.h + (offset d.lastMousePos d'.lastMousePos).y) ∧
      ∀ c, c ≠ w.cnt → (d.shapes c).rect.w ≠ 0 → (d'.shapes c).rect = (d.shapes c).rect := by
  have carried := holding.carried held
  rw [ends] at carried
  obtain ⟨stretched, least, roomy⟩ := resized_deltas _ _ _ carried.rect.symm
  rw [← frames_arrival, ends] at stretched roomy
  exact ⟨stretched, least (.inl (List.cons_ne_nil _ _)), roomy, carried.others⟩

theorem resize_follows_two : 96 ≤ (([mouseTick 440 120 1 1, mouseTick 460 90 1 0].foldl (Desk.frame defaultStyle)
      (twoShapes.frame defaultStyle (mouseTick 440 240 0 0))).shapes firstWindow.cnt).rect.w ∧
    64 ≤ (([mouseTick 440 120 1 1, mouseTick 460 90 1 0].foldl (Desk.frame defaultStyle)
      (twoShapes.frame defaultStyle (mouseTick 440 240 0 0))).shapes firstWindow.cnt).rect.h := by
  have holding := firstWindow_holding .corner 440 240 440 120 460 90 (by decide) (by decide) (by decide)
  obtain ⟨_, least, _⟩ := resize_follows (firstWindow_held .corner) holding rfl
  exact least

end UmkaOs.Microui
