import UmkaOs.Microui.Desk

namespace UmkaOs.Microui

open Input

variable {holds : Id → Prop} {style : Style} {mouse : Input.Context} {hoverRoot : Option Ref} {s s' : Interaction}
  {c : Control} {w v : Window} {b : Begun} {rect : Rect} {t : Id} {d : Desk} {shape : Shape} {item : Item}

/-- The ids of a window's own controls. -/
def Window.ids (w : Window) : List Id := [w.title, w.close, w.scrollbarx, w.scrollbary, w.resize]

/-- The window reacts to the mouse, and none of its own controls holds the focus. -/
structure Window.Plain (holds : Id → Prop) (w : Window) : Prop where
  interacts : w.opt.has .noInteract = false
  releases : w.opt.has .holdFocus = false
  ids : ∀ id ∈ w.ids, id ≠ 0 ∧ ¬ holds id

/-- The grip `t` is pressed or held, and no other window is held. -/
structure Ready (holds : Id → Prop) (mouse : Input.Context) (t : Id) (s : Interaction) : Prop where
  free : s.focus = t ∨ s.focus = 0 ∨ holds s.focus
  pressed : mouse.mousePressed.any = true → s.hover = t
  held : mouse.mousePressed.any = false → s.focus = t

/-- The grip `t` has been shown in this frame. -/
structure Taken (mouse : Input.Context) (t : Id) (s : Interaction) : Prop where
  focus : s.focus = t
  updated : s.updatedFocus = true
  pressed : mouse.mousePressed.any = true → s.hover = t

/-- A control that does not see the press, with a button down. -/
theorem updateControl_beside (hoverRoot : Option Ref) (down : mouse.mouseDown.any = true) (react : Reacts holds c)
    (beside : mouse.mousePressed.any = true → s.hover ≠ c.id) :
    ((s.updateControl mouse hoverRoot c).focus = s.focus ∨
        s.focus = c.id ∧ mouse.mousePressed.any = true ∧ (s.updateControl mouse hoverRoot c).focus = 0) ∧
      (s.hover ≠ c.id → (s.updateControl mouse hoverRoot c).hover = s.hover) ∧
      (s.updatedFocus = true → (s.updateControl mouse hoverRoot c).updatedFocus = true) := by
  obtain ⟨_, interacts, _⟩ := react
  simp only [Interaction.updateControl, interacts, down]
  cases press : mouse.mousePressed.any <;> cases hit : c.mouseOver mouse.mousePos hoverRoot <;>
    by_cases mine : s.focus = c.id <;> by_cases hovered : s.hover = c.id <;>
    simp_all [Interaction.setFocus]

theorem Ready.other (ready : Ready holds mouse t s) (hoverRoot : Option Ref) (down : mouse.mouseDown.any = true)
    (react : Reacts holds c) (other : c.id ≠ t) : Ready holds mouse t (s.updateControl mouse hoverRoot c) := by
  have beside : mouse.mousePressed.any = true → s.hover ≠ c.id := fun press same =>
    other (same.symm.trans (ready.pressed press))
  obtain ⟨focus, hover, _⟩ := updateControl_beside hoverRoot down react beside
  refine ⟨?_, ?_, ?_⟩
  · rcases focus with same | ⟨_, _, none⟩
    · rw [same]
      exact ready.free
    · exact .inr (.inl none)
  · intro press
    rw [hover (beside press)]
    exact ready.pressed press
  · intro still
    rcases focus with same | ⟨_, press, _⟩
    · rw [same]
      exact ready.held still
    · rw [press] at still
      cases still

theorem Taken.other (taken : Taken mouse t s) (hoverRoot : Option Ref) (down : mouse.mouseDown.any = true)
    (react : Reacts holds c) (other : c.id ≠ t) : Taken mouse t (s.updateControl mouse hoverRoot c) := by
  have beside : mouse.mousePressed.any = true → s.hover ≠ c.id := fun press same =>
    other (same.symm.trans (taken.pressed press))
  obtain ⟨focus, hover, updated⟩ := updateControl_beside hoverRoot down react beside
  refine ⟨?_, updated taken.updated, ?_⟩
  · rcases focus with same | ⟨mine, _⟩
    · exact same.trans taken.focus
    · exact absurd (mine.symm.trans taken.focus) other
  · intro press
    rw [hover (beside press)]
    exact taken.pressed press

theorem Ready.taken (ready : Ready holds mouse t s) (hoverRoot : Option Ref) (down : mouse.mouseDown.any = true)
    (react : Reacts holds c) (same : c.id = t) : Taken mouse t (s.updateControl mouse hoverRoot c) := by
  subst same
  obtain ⟨_, interacts, _⟩ := react
  obtain ⟨_, pressed, held⟩ := ready
  cases press : mouse.mousePressed.any with
  | true =>
    have hover := pressed press
    refine ⟨?_, ?_, ?_⟩ <;> simp only [Interaction.updateControl, interacts, down, press] <;>
      cases c.mouseOver mouse.mousePos hoverRoot <;> by_cases mine : s.focus = c.id <;>
      simp [hover, mine, Interaction.setFocus]
  | false =>
    have focus := held press
    refine ⟨?_, ?_, ?_⟩ <;> simp only [Interaction.updateControl, interacts, down, press] <;>
      cases c.mouseOver mouse.mousePos hoverRoot <;> by_cases hovered : s.hover = c.id <;>
      simp [focus, hovered]

/-- What the controls beside the grip keep, while no other window is held. -/
structure Steady (holds : Id → Prop) (mouse : Input.Context) (hoverRoot : Option Ref) (t : Id)
    (P : Interaction → Prop) : Prop where
  free : ∀ {s}, P s → s.focus = t ∨ s.focus = 0 ∨ holds s.focus
  keeps : ∀ {s c}, Reacts holds c → c.id ≠ t → P s → P (s.updateControl mouse hoverRoot c)

theorem ready_steady (hoverRoot : Option Ref) (down : mouse.mouseDown.any = true) :
    Steady holds mouse hoverRoot t (Ready holds mouse t) :=
  ⟨Ready.free, fun react other ready => ready.other hoverRoot down react other⟩

theorem taken_steady (hoverRoot : Option Ref) (down : mouse.mouseDown.any = true) :
    Steady holds mouse hoverRoot t (Taken mouse t) :=
  ⟨fun taken => .inl taken.focus, fun react other taken => taken.other hoverRoot down react other⟩

/-- The window as it was, with the rest of the controls as `P` says. -/
structure Still (P : Interaction → Prop) (rect : Rect) (isOpen : Bool) (b : Begun) : Prop where
  rect : b.shape.rect = rect
  isOpen : b.shape.isOpen = isOpen
  interaction : P b.interaction

theorem Window.Plain.control (react : w.Plain holds) {id : Id} (own : id ∈ w.ids) (rect clip : Rect)
    {opt : Options} (same : opt = w.opt ∨ opt = 0) : Reacts holds ⟨id, rect, clip, w.cnt :: w.outer, opt⟩ := by
  obtain ⟨some, releases⟩ := react.ids id own
  refine ⟨some, ?_, ?_⟩
  · rcases same with rfl | rfl
    · exact react.interacts
    · simp [Options.has]
  · rcases same with rfl | rfl
    · simp [react.releases, releases]
    · simp [Options.has, releases]

variable {P : Interaction → Prop} {o : Bool}

namespace Still

theorem body (still : Still P rect o b) (body : Rect) : Still P rect o { b with body := body } :=
  ⟨still.rect, still.isOpen, still.interaction⟩

/-- A part that an option leaves out. -/
theorem option {b' : Begun} {out : Bool} (still : Still P rect o b) (part : Still P rect o b') :
    Still P rect o (if out then b else b') := by
  split
  · exact still
  · exact part

theorem updateControl (still : Still P rect o b) (steady : Steady holds mouse hoverRoot t P) (react : w.Plain holds)
    {id : Id} (own : id ∈ w.ids) (other : id ≠ t) (r clip : Rect) {opt : Options} (same : opt = w.opt ∨ opt = 0) :
    Still P rect o (b.updateControl mouse hoverRoot w id r clip opt) :=
  ⟨still.rect, still.isOpen, steady.keeps (react.control own r clip same) other still.interaction⟩

theorem unheld (still : Still P rect o b) (steady : Steady holds mouse hoverRoot t P) (react : w.Plain holds)
    {id : Id} (own : id ∈ w.ids) (other : id ≠ t) : id ≠ b.interaction.focus := by
  obtain ⟨some, releases⟩ := react.ids id own
  intro same
  rcases steady.free still.interaction with focus | focus | focus
  · exact other (same.trans focus)
  · exact some (same.trans focus)
  · exact releases (same ▸ focus)

theorem grip (still : Still P rect o b) (steady : Steady holds mouse hoverRoot t P) (react : w.Plain holds)
    {id : Id} (own : id ∈ w.ids) (other : id ≠ t) (r : Rect) (move : Rect → Rect) :
    Still P rect o (b.grip mouse hoverRoot w id r move) := by
  have shown := still.updateControl steady react own other r unclippedRect (.inl rfl)
  rw [Begun.grip]
  rw [if_neg fun holds => shown.unheld steady react own other holds.1]
  exact shown

theorem closeButton (still : Still P rect o b) (steady : Steady holds mouse hoverRoot t P) (react : w.Plain holds)
    (other : w.close ≠ t) (tr : Rect) : Still P rect o (b.closeButton mouse hoverRoot w tr) := by
  have own : w.close ∈ w.ids := by simp [Window.ids]
  have shown := still.updateControl steady react own other ⟨tr.x + tr.w - tr.h, tr.y, tr.h, tr.h⟩ unclippedRect
    (.inl rfl)
  rw [Begun.closeButton]
  rw [if_neg fun both => shown.unheld steady react own other both.2]
  exact shown

theorem titleBar (still : Still P rect o b) (steady : Steady holds mouse hoverRoot t P) (plain : w.Plain holds)
    (title : w.title ≠ t) (close : w.close ≠ t) (r : Rect) :
    Still P rect o (b.titleBar style mouse hoverRoot w r) := by
  have own : w.title ∈ w.ids := by simp [Window.ids]
  have shown := still.grip steady plain own title { r with h := style.titleHeight } (moved (mouseDelta mouse))
  exact (shown.body _).option ((shown.body _).closeButton steady plain close _)

theorem scrollbars (still : Still P rect o b) (steady : Steady holds mouse hoverRoot t P) (plain : w.Plain holds)
    (hor : w.scrollbarx ≠ t) (ver : w.scrollbary ≠ t) :
    Still P rect o (b.scrollbars style mouse hoverRoot w) := by
  have ownx : w.scrollbarx ∈ w.ids := by simp [Window.ids]
  have owny : w.scrollbary ∈ w.ids := by simp [Window.ids]
  have first : ∀ {b : Begun} (cs : Vec2) (clip : Rect), Still P rect o b →
      Still P rect o (b.scrollbarHor style mouse hoverRoot w cs clip) := by
    intro b cs clip still
    rw [Begun.scrollbarHor]
    split
    · have shown := still.updateControl steady plain ownx hor
        ⟨b.body.x, b.body.y + b.body.h, b.body.w, style.scrollbarSize⟩ clip (.inr rfl)
      exact ⟨shown.rect, shown.isOpen, shown.interaction⟩
    · exact ⟨still.rect, still.isOpen, still.interaction⟩
  have second : ∀ {b : Begun} (cs : Vec2) (clip : Rect), Still P rect o b →
      Still P rect o (b.scrollbarVer style mouse hoverRoot w cs clip) := by
    intro b cs clip still
    rw [Begun.scrollbarVer]
    split
    · have shown := still.updateControl steady plain owny ver
        ⟨b.body.x + b.body.w, b.body.y, style.scrollbarSize, b.body.h⟩ clip (.inr rfl)
      exact ⟨shown.rect, shown.isOpen, shown.interaction⟩
    · exact ⟨still.rect, still.isOpen, still.interaction⟩
  exact second _ _ (first _ _ (still.body _))

theorem corner (still : Still P rect o b) (steady : Steady holds mouse hoverRoot t P) (plain : w.Plain holds)
    (resize : w.resize ≠ t) (r : Rect) : Still P rect o (b.corner style mouse hoverRoot w r) := by
  have own : w.resize ∈ w.ids := by simp [Window.ids]
  exact still.grip steady plain own resize _ _

end Still

theorem grip_taken (still : Still (Ready holds mouse t) rect o b) (plain : w.Plain holds) (own : t ∈ w.ids)
    (held : mouse.mouseDown.has MouseButton.left = true) (down : mouse.mouseDown.any = true) (r : Rect)
    (move : Rect → Rect) : Still (Taken mouse t) (move rect) o (b.grip mouse hoverRoot w t r move) := by
  have taken := still.interaction.taken hoverRoot down (plain.control own r unclippedRect (.inl rfl)) rfl
  rw [Begun.grip, if_pos ⟨taken.focus.symm, held⟩]
  refine ⟨?_, still.isOpen, taken⟩
  rw [← still.rect]
  rfl

/-- `beginWindow` up to the options that change the shape without the mouse. -/
def Window.controls (w : Window) (style : Style) (mouse : Input.Context) (hoverRoot : Option Ref) (shape : Shape)
    (s : Interaction) : Begun :=
  let rect := shape.rect
  let b : Begun := ⟨shape, rect, s⟩
  let b := if w.opt.has .noTitle then b else b.titleBar style mouse hoverRoot w rect
  let b := if w.opt.has .noScroll then b else b.scrollbars style mouse hoverRoot w
  let b := { b with shape := { b.shape with body := b.body } }
  if w.opt.has .noResize then b else b.corner style mouse hoverRoot w rect

/-- The rectangle that a window begins with. -/
def Window.placed (w : Window) (shape : Shape) : Shape :=
  { shape with rect := if shape.rect.w = 0 then w.rect else shape.rect }

theorem begin_controls (fixed : w.opt.has .autoSize = false) : w.begin style mouse hoverRoot shape s =
    if w.opt.has .popup ∧ mouse.mousePressed.any ∧ hoverRoot ≠ some w.cnt then
      (w.controls style mouse hoverRoot (w.placed shape) s).shut
    else w.controls style mouse hoverRoot (w.placed shape) s := by
  simp [Window.begin, Window.controls, Window.placed, fixed]

theorem placed_wide (wide : shape.rect.w ≠ 0) : w.placed shape = shape := by
  rw [Window.placed, if_neg wide]

theorem scrolled_still (style : Style) (still : Still P rect o b) (steady : Steady holds mouse hoverRoot t P)
    (plain : w.Plain holds) (hor : w.scrollbarx ≠ t) (ver : w.scrollbary ≠ t) :
    Still P rect o (let b := if w.opt.has .noScroll then b else b.scrollbars style mouse hoverRoot w
      { b with shape := { b.shape with body := b.body } }) := by
  have scrolled : Still P rect o (if w.opt.has .noScroll then b else b.scrollbars style mouse hoverRoot w) :=
    still.option (still.scrollbars steady plain hor ver)
  exact ⟨scrolled.rect, scrolled.isOpen, scrolled.interaction⟩

theorem controls_steady (steady : Steady holds mouse hoverRoot t P) (plain : w.Plain holds)
    (others : ∀ id ∈ w.ids, id ≠ t) (start : P s) :
    Still P shape.rect shape.isOpen (w.controls style mouse hoverRoot shape s) := by
  have still : Still P shape.rect shape.isOpen ⟨shape, shape.rect, s⟩ := ⟨rfl, rfl, start⟩
  simp only [Window.ids, List.forall_mem_cons] at others
  obtain ⟨title, close, hor, ver, resize, _⟩ := others
  have titled : Still P shape.rect shape.isOpen (if w.opt.has .noTitle then ⟨shape, shape.rect, s⟩
      else Begun.titleBar style mouse hoverRoot w ⟨shape, shape.rect, s⟩ shape.rect) :=
    still.option (still.titleBar steady plain title close _)
  have scrolled := scrolled_still style titled steady plain hor ver
  exact scrolled.option (scrolled.corner steady plain resize _)

theorem controls_title (plain : w.Plain holds) (titled : w.opt.has .noTitle = false)
    (held : mouse.mouseDown.has MouseButton.left = true) (down : mouse.mouseDown.any = true)
    (apart : ∀ id ∈ [w.close, w.scrollbarx, w.scrollbary, w.resize], id ≠ w.title)
    (ready : Ready holds mouse w.title s) :
    Still (Taken mouse w.title) (moved (mouseDelta mouse) shape.rect) shape.isOpen
      (w.controls style mouse hoverRoot shape s) := by
  have still : Still (Ready holds mouse w.title) shape.rect shape.isOpen ⟨shape, shape.rect, s⟩ := ⟨rfl, rfl, ready⟩
  have steady := @taken_steady holds mouse w.title hoverRoot down
  simp only [List.forall_mem_cons] at apart
  obtain ⟨close, hor, ver, resize, _⟩ := apart
  have own : w.title ∈ w.ids := by simp [Window.ids]
  have gripped := @grip_taken holds mouse hoverRoot w _ _ _ _ still plain own held down
    { shape.rect with h := style.titleHeight } (moved (mouseDelta mouse))
  have closed : Still (Taken mouse w.title) (moved (mouseDelta mouse) shape.rect) shape.isOpen
      (Begun.titleBar style mouse hoverRoot w ⟨shape, shape.rect, s⟩ shape.rect) :=
    (gripped.body _).option ((gripped.body _).closeButton steady plain close _)
  have scrolled := scrolled_still style closed steady plain hor ver
  rw [Window.controls, if_neg (Bool.eq_false_iff.mp titled)]
  exact scrolled.option (scrolled.corner steady plain resize _)

theorem controls_corner (plain : w.Plain holds) (resizes : w.opt.has .noResize = false)
    (held : mouse.mouseDown.has MouseButton.left = true) (down : mouse.mouseDown.any = true)
    (apart : ∀ id ∈ [w.title, w.close, w.scrollbarx, w.scrollbary], id ≠ w.resize)
    (ready : Ready holds mouse w.resize s) :
    Still (Taken mouse w.resize) (resized (mouseDelta mouse) shape.rect) shape.isOpen
      (w.controls style mouse hoverRoot shape s) := by
  have still : Still (Ready holds mouse w.resize) shape.rect shape.isOpen ⟨shape, shape.rect, s⟩ := ⟨rfl, rfl, ready⟩
  have steady := @ready_steady holds mouse w.resize hoverRoot down
  simp only [List.forall_mem_cons] at apart
  obtain ⟨title, close, hor, ver, _⟩ := apart
  have own : w.resize ∈ w.ids := by simp [Window.ids]
  have titled : Still (Ready holds mouse w.resize) shape.rect shape.isOpen
      (if w.opt.has .noTitle then ⟨shape, shape.rect, s⟩
      else Begun.titleBar style mouse hoverRoot w ⟨shape, shape.rect, s⟩ shape.rect) :=
    still.option (still.titleBar steady plain title close _)
  have scrolled := scrolled_still style titled steady plain hor ver
  rw [Window.controls, if_neg (Bool.eq_false_iff.mp resizes)]
  exact grip_taken scrolled plain own held down _ _

/-- The parts of a window that change its rectangle. -/
inductive Grip where
  | title | corner

namespace Grip

def id (w : Window) : Grip → Id
  | title => w.title
  | corner => w.resize

def move : Grip → Vec2 → Rect → Rect
  | title => moved
  | corner => resized

def absent : Grip → Options
  | title => .noTitle
  | corner => .noResize

theorem move_wide (g : Grip) (delta : Vec2) {r : Rect} (wide : r.w ≠ 0) : (g.move delta r).w ≠ 0 := by
  cases g with
  | title => exact wide
  | corner =>
    show max 96 (r.w + delta.x) ≠ 0
    omega

end Grip

variable {g : Grip} {ticks : List Tick} {tick : Tick} {d' : Desk}

/-- A window that can be held by a grip: it has the grip, under an id of its own, and
nothing else changes its rectangle. -/
structure Window.Held (holds : Id → Prop) (g : Grip) (w : Window) : Prop where
  plain : w.Plain holds
  present : w.opt.has g.absent = false
  distinct : w.ids.Nodup
  autoSize : w.opt.has .autoSize = false
  popup : w.opt.has .popup = false

theorem Window.Held.own (held : w.Held holds g) : g.id w ∈ w.ids := by
  cases g <;> simp [Grip.id, Window.ids]

theorem begin_grip (style : Style) (hoverRoot : Option Ref) (held : w.Held holds g)
    (left : mouse.mouseDown.has MouseButton.left = true) (down : mouse.mouseDown.any = true)
    (wide : shape.rect.w ≠ 0) (ready : Ready holds mouse (g.id w) s) :
    Still (Taken mouse (g.id w)) (g.move (mouseDelta mouse) shape.rect) shape.isOpen
      (w.begin style mouse hoverRoot shape s) := by
  obtain ⟨plain, present, distinct, autoSize, popup⟩ := held
  rw [begin_controls autoSize, popup, if_neg (fun all => Bool.false_ne_true all.1), placed_wide wide]
  simp only [Window.ids, List.nodup_cons, List.mem_cons, List.not_mem_nil, or_false, not_or] at distinct
  cases g with
  | title =>
    apply controls_title plain present left down _ ready
    simp only [List.forall_mem_cons]
    grind
  | corner =>
    apply controls_corner plain present left down _ ready
    simp only [List.forall_mem_cons]
    grind

/-- Whatever else a frame shows. -/
def Item.Apart (holds : Id → Prop) (w : Window) (t : Id) : Item → Prop
  | control c => Reacts holds c ∧ c.id ≠ t
  | window v => v.Plain holds ∧ v.opt.has .autoSize = false ∧ v.cnt ≠ w.cnt ∧ ∀ id ∈ v.ids, id ≠ t
  | pop _ _ => True

/-- The windows stay where they are. -/
structure Rests (P : Interaction → Prop) (cnt : Ref) (d d' : Desk) : Prop where
  interaction : P d'.interaction
  rects : ∀ c, (d.shapes c).rect.w ≠ 0 → (d'.shapes c).rect = (d.shapes c).rect
  isOpen : (d'.shapes cnt).isOpen = (d.shapes cnt).isOpen

theorem Item.rests (style : Style) (item : Item) (steady : Steady holds mouse hoverRoot t P)
    (apart : item.Apart holds w t) (start : P d.interaction) :
    Rests P w.cnt d (item.run style mouse hoverRoot d) := by
  cases item with
  | control c => exact ⟨steady.keeps apart.1 apart.2 start, fun _ _ => rfl, rfl⟩
  | pop cnt contentSize =>
    refine ⟨start, fun c _ => ?_, ?_⟩ <;> simp only [Item.run, Desk.setShape, Function.update_apply] <;> split
    · rename_i same
      rw [same]
    · rfl
    · rename_i same
      rw [same]
    · rfl
  | window v =>
    obtain ⟨plain, autoSize, elsewhere, others⟩ := apart
    rw [Item.run]
    split
    · have still : Still P _ _ (v.controls style mouse hoverRoot (v.placed (d.shapes v.cnt)) d.interaction) :=
        controls_steady steady plain others start
      have shown : P (v.begin style mouse hoverRoot (d.shapes v.cnt) d.interaction).interaction ∧
          (v.begin style mouse hoverRoot (d.shapes v.cnt) d.interaction).shape.rect =
            (v.placed (d.shapes v.cnt)).rect := by
        rw [begin_controls autoSize]
        split
        · exact ⟨still.interaction, still.rect⟩
        · exact ⟨still.interaction, still.rect⟩
      refine ⟨shown.1, fun c wide => ?_, ?_⟩
      · simp only [Desk.setShape, Function.update_apply]
        split
        · rename_i same
          subst same
          rw [shown.2, placed_wide wide]
        · rfl
      · simp only [Desk.setShape, Function.update_apply, if_neg elsewhere.symm]
    · exact ⟨start, fun _ _ => rfl, rfl⟩

theorem Rests.trans {d₁ d₂ d₃ : Desk} {Q : Interaction → Prop} {cnt : Ref} (first : Rests P cnt d₁ d₂)
    (second : Rests Q cnt d₂ d₃) : Rests Q cnt d₁ d₃ := by
  refine ⟨second.interaction, fun c wide => ?_, second.isOpen.trans first.isOpen⟩
  have same := first.rects c wide
  exact (second.rects c (same ▸ wide)).trans same

theorem items_rest (style : Style) (steady : Steady holds mouse hoverRoot t P) {items : List Item}
    (apart : ∀ item ∈ items, item.Apart holds w t) (start : P d.interaction) :
    Rests P w.cnt d (items.foldl (Item.run style mouse hoverRoot) d) := by
  induction items generalizing d with
  | nil => exact ⟨start, fun _ _ => rfl, rfl⟩
  | cons item rest ih =>
    rw [List.forall_mem_cons] at apart
    have first := item.rests style steady apart.1 start
    exact first.trans (ih apart.2 first.interaction)

/-- The window is shown once, and whatever else is shown is apart from it. -/
def Tick.Shows (holds : Id → Prop) (g : Grip) (w : Window) (tick : Tick) : Prop :=
  ∃ before after, tick.items = before ++ .window w :: after ∧
    ∀ item ∈ before ++ after, item.Apart holds w (g.id w)

/-- A window that is held by a grip, after a frame: it has moved, and no other window has. -/
structure Moved (g : Grip) (w : Window) (delta : Vec2) (d d' : Desk) : Prop where
  focus : d'.interaction.focus = g.id w
  isOpen : (d'.shapes w.cnt).isOpen = true
  rect : (d'.shapes w.cnt).rect = g.move delta (d.shapes w.cnt).rect
  others : ∀ c, c ≠ w.cnt → (d.shapes c).rect.w ≠ 0 → (d'.shapes c).rect = (d.shapes c).rect

theorem any_of_has {m b : MouseButton} (has : m.has b = true) : m.any = true := by
  rw [MouseButton.any, decide_eq_true_eq]
  rintro rfl
  simp [MouseButton.has] at has

theorem items_moved (style : Style) (mouse : Input.Context) (hoverRoot : Option Ref) (held : w.Held holds g)
    (left : mouse.mouseDown.has MouseButton.left = true) {before after : List Item}
    (apart : ∀ item ∈ before ++ after, item.Apart holds w (g.id w))
    (isOpen : (d.shapes w.cnt).isOpen = true) (wide : (d.shapes w.cnt).rect.w ≠ 0)
    (ready : Ready holds mouse (g.id w) d.interaction)
    (shown : (before ++ .window w :: after).foldl (Item.run style mouse hoverRoot) d = d') :
    Taken mouse (g.id w) d'.interaction ∧ (d'.shapes w.cnt).isOpen = true ∧
      (d'.shapes w.cnt).rect = g.move (mouseDelta mouse) (d.shapes w.cnt).rect ∧
      ∀ c, c ≠ w.cnt → (d.shapes c).rect.w ≠ 0 → (d'.shapes c).rect = (d.shapes c).rect := by
  rw [List.forall_mem_append] at apart
  have down := any_of_has left
  have first := items_rest style (ready_steady hoverRoot down) apart.1 ready
  rw [List.foldl_append, List.foldl_cons] at shown
  generalize before.foldl (Item.run style mouse hoverRoot) d = d₁ at first shown
  have same := first.rects w.cnt wide
  have still := begin_grip style hoverRoot held left down (same ▸ wide) first.interaction
  rw [Item.run, if_pos (first.isOpen.trans isOpen)] at shown
  generalize w.begin style mouse hoverRoot (d₁.shapes w.cnt) d₁.interaction = b at still shown
  have later := items_rest (d := { d₁.setShape w.cnt b.shape with interaction := b.interaction }) style
    (taken_steady hoverRoot down) apart.2 still.interaction
  dsimp only at shown
  rw [shown] at later
  refine ⟨later.interaction, ?_, ?_, ?_⟩
  · have opened := later.isOpen
    simp only [Desk.setShape, Function.update_self] at opened
    rw [opened, still.isOpen, first.isOpen, isOpen]
  · have moved := later.rects w.cnt
    simp only [Desk.setShape, Function.update_self, still.rect, same] at moved
    exact moved (g.move_wide _ wide)
  · intro c elsewhere wide'
    have stays := first.rects c wide'
    have rests := later.rects c
    simp only [Desk.setShape, Function.update_of_ne elsewhere, stays] at rests
    exact rests wide'

theorem frame_moved (style : Style) (held : w.Held holds g) (left : tick.mouse.mouseDown.has MouseButton.left = true)
    (shows : tick.Shows holds g w) (isOpen : (d.shapes w.cnt).isOpen = true) (wide : (d.shapes w.cnt).rect.w ≠ 0)
    (ready : Ready holds tick.mouse (g.id w) d.interaction) :
    Moved g w (mouseDelta (d.mouse tick)) d (d.frame style tick) := by
  obtain ⟨before, after, items, apart⟩ := shows
  have ready' : Ready holds (d.mouse tick) (g.id w) d.interaction := ⟨ready.free, ready.pressed, ready.held⟩
  obtain ⟨taken, open', rect, others⟩ := items_moved style (d.mouse tick) tick.hoverRoot held left apart
    isOpen wide ready' rfl
  rw [← items] at taken open' rect others
  refine ⟨?_, open', rect, others⟩
  simp only [Desk.frame, Interaction.endFrame, taken.updated, not_true_eq_false, if_false]
  exact taken.focus

end UmkaOs.Microui
