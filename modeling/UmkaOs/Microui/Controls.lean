import UmkaOs.Microui.Model

namespace UmkaOs.Input.MouseButton

def any (m : MouseButton) : Bool := m ≠ 0

end UmkaOs.Input.MouseButton

namespace UmkaOs.Microui

open Input

namespace Options

def noInteract : Options := 1 <<< 2

def holdFocus : Options := 1 <<< 8

end Options

/-- The fields of the context that controls share. -/
structure Interaction where
  hover : Id
  focus : Id
  updatedFocus : Bool

/-- A control as it is shown in a frame, with the top of the clip stack and the stack of
containers. -/
structure Control where
  id : Id
  rect : Rect
  clip : Rect
  containerStack : List Ref
  opt : Options

/-- The head of a container is never `-1`, so the search stops at the first one. -/
def inHoverRoot (hoverRoot : Option Ref) : List Ref → Bool
  | [] => false
  | c :: _ => hoverRoot = some c

def Control.mouseOver (c : Control) (mousePos : Vec2) (hoverRoot : Option Ref) : Bool :=
  c.rect.overlaps mousePos && c.clip.overlaps mousePos && inHoverRoot hoverRoot c.containerStack

namespace Interaction

def setFocus (s : Interaction) (id : Id) : Interaction := { s with focus := id, updatedFocus := true }

def updateControl (s : Interaction) (mouse : Input.Context) (hoverRoot : Option Ref) (c : Control) : Interaction :=
  let mouseover := c.mouseOver mouse.mousePos hoverRoot
  let s := if s.focus = c.id then { s with updatedFocus := true } else s
  if c.opt.has .noInteract then s
  else
    let s := if mouseover ∧ ¬ mouse.mouseDown.any then { s with hover := c.id } else s
    let s :=
      if s.focus = c.id then
        let s := if mouse.mousePressed.any ∧ ¬ mouseover then s.setFocus 0 else s
        if ¬ mouse.mouseDown.any ∧ ¬ c.opt.has .holdFocus then s.setFocus 0 else s
      else s
    if s.hover = c.id then
      if mouse.mousePressed.any then s.setFocus c.id
      else if ¬ mouseover then { s with hover := 0 }
      else s
    else s

/-- The controls of a frame, and those among them that see the press: `button` and
`checkbox` test for the left button and their own focus. -/
def controls (mouse : Input.Context) (hoverRoot : Option Ref) : List Control → Interaction → List Id × Interaction
  | [], s => ([], s)
  | c :: rest, s =>
    let s := s.updateControl mouse hoverRoot c
    let (later, last) := controls mouse hoverRoot rest s
    (if mouse.mousePressed = MouseButton.left ∧ s.focus = c.id then c.id :: later else later, last)

/-- `end` -/
def endFrame (s : Interaction) : Interaction :=
  { s with focus := if ¬ s.updatedFocus then 0 else s.focus, updatedFocus := false }

def frame (mouse : Input.Context) (hoverRoot : Option Ref) (shown : List Control) (s : Interaction) :
    List Id × Interaction :=
  let (pressed, s) := controls mouse hoverRoot shown s
  (pressed, s.endFrame)

end Interaction

/-- Text boxes keep the focus; the other controls do not, and all of them react. -/
def Reacts (holds : Id → Prop) (c : Control) : Prop :=
  c.id ≠ 0 ∧ c.opt.has .noInteract = false ∧ (c.opt.has .holdFocus = true ↔ holds c.id)

/-- The states between frames, where a button that is pressed is still down in its frame. -/
inductive Interaction.Reachable (holds : Id → Prop) : Interaction → Prop
  | init : Reachable holds ⟨0, 0, false⟩
  | frame {s : Interaction} (before : Reachable holds s) (mouse : Input.Context) (hoverRoot : Option Ref)
    {shown : List Control} (react : ∀ c ∈ shown, Reacts holds c) (held : mouse.mousePressed.any → mouse.mouseDown.any) :
    Reachable holds (s.frame mouse hoverRoot shown).2

variable {holds : Id → Prop} {s s' : Interaction} {mouse : Input.Context} {c : Control}
  {shown : List Control} {pressed : List Id}

namespace Interaction

theorem updateControl_down (hoverRoot : Option Ref) (down : mouse.mouseDown.any = true) (react : Reacts holds c) :
    (s.hover = c.id ∧ mouse.mousePressed.any = true ∧ (s.updateControl mouse hoverRoot c).focus = c.id ∧
        (s.updateControl mouse hoverRoot c).hover = s.hover) ∨
      (s.hover ≠ c.id ∨ mouse.mousePressed.any = false) ∧
        ((s.updateControl mouse hoverRoot c).focus = s.focus ∨ (s.updateControl mouse hoverRoot c).focus = 0) ∧
        ((s.updateControl mouse hoverRoot c).hover = s.hover ∨
          (s.updateControl mouse hoverRoot c).hover = 0 ∧ mouse.mousePressed.any = false) := by
  obtain ⟨_, interacts, _⟩ := react
  simp only [updateControl, interacts, down]
  cases press : mouse.mousePressed.any <;> cases hit : c.mouseOver mouse.mousePos hoverRoot <;>
    by_cases mine : s.focus = c.id <;> by_cases hovered : s.hover = c.id <;>
    simp [mine, hovered, setFocus]

/-- A control while no button is down: it takes the hover if the mouse is over it, and gives
up its focus unless it holds it. -/
theorem updateControl_idle (hoverRoot : Option Ref) (down : mouse.mouseDown.any = false)
    (press : mouse.mousePressed.any = false) (react : Reacts holds c) :
    (s.updateControl mouse hoverRoot c).hover = (if c.mouseOver mouse.mousePos hoverRoot then c.id
        else if s.hover = c.id then 0 else s.hover) ∧
      ((s.updateControl mouse hoverRoot c).focus = s.focus ∧ (s.focus = c.id → holds c.id) ∨
        (s.updateControl mouse hoverRoot c).focus = 0) ∧
      (s.focus ≠ c.id → (s.updateControl mouse hoverRoot c).focus = s.focus ∧
        (s.updateControl mouse hoverRoot c).updatedFocus = s.updatedFocus) := by
  obtain ⟨_, interacts, held⟩ := react
  simp only [updateControl, interacts, down, press]
  cases hold : c.opt.has .holdFocus <;> cases hit : c.mouseOver mouse.mousePos hoverRoot <;>
    by_cases mine : s.focus = c.id <;> by_cases hovered : s.hover = c.id <;>
    simp [mine, hovered, setFocus, hold, held.mp]

/-- A control has the focus only while it is hovered, or while nothing is, unless it holds
the focus. -/
def Single (holds : Id → Prop) (s : Interaction) : Prop :=
  holds s.focus ∨ s.focus = 0 ∨ s.hover = 0 ∨ s.hover = s.focus

theorem Single.down (single : Single holds s) (hoverRoot : Option Ref) (down : mouse.mouseDown.any = true)
    (react : ∀ c ∈ shown, Reacts holds c) :
    Single holds (s.controls mouse hoverRoot shown).2 := by
  induction shown generalizing s with
  | nil => exact single
  | cons c rest ih =>
    rw [List.forall_mem_cons] at react
    apply ih _ react.2
    rcases updateControl_down hoverRoot down react.1 with ⟨hovered, _, focus, hover⟩ | ⟨_, focus, hover⟩
    · exact .inr (.inr (.inr (hover.trans (hovered.trans focus.symm))))
    · rcases focus with focus | focus
      · rcases hover with hover | ⟨hover, _⟩
        · rw [Single, focus, hover]
          exact single
        · exact .inr (.inr (.inl hover))
      · exact .inr (.inl focus)

/-- Without a button down, what does not hold the focus loses it by the end of the frame. -/
theorem controls_idle (hoverRoot : Option Ref) (down : mouse.mouseDown.any = false)
    (press : mouse.mousePressed.any = false) (react : ∀ c ∈ shown, Reacts holds c) :
    (s.controls mouse hoverRoot shown).2.focus = 0 ∨
      (s.controls mouse hoverRoot shown).2.focus = s.focus ∧
        (holds s.focus ∨ (s.controls mouse hoverRoot shown).2.updatedFocus = s.updatedFocus) := by
  induction shown generalizing s with
  | nil => exact .inr ⟨rfl, .inr rfl⟩
  | cons c rest ih =>
    rw [List.forall_mem_cons] at react
    obtain ⟨_, focus, other⟩ := updateControl_idle (s := s) hoverRoot down press react.1
    rcases ih (s := s.updateControl mouse hoverRoot c) react.2 with none | ⟨same, kept⟩
    · exact .inl none
    · rcases focus with ⟨focus, held⟩ | focus
      · by_cases mine : s.focus = c.id
        · exact .inr ⟨same.trans focus, .inl (mine ▸ held mine)⟩
        · rw [(other mine).1, (other mine).2] at kept
          exact .inr ⟨same.trans focus, kept⟩
      · exact .inl (same.trans focus)

theorem Reachable.settled (reachable : Reachable holds s) : s.updatedFocus = false ∧ Single holds s := by
  induction reachable with
  | init => exact ⟨rfl, .inr (.inl rfl)⟩
  | @frame s before mouse hoverRoot shown react held ih =>
    obtain ⟨fresh, single⟩ := ih
    refine ⟨rfl, ?_⟩
    show Single holds (s.controls mouse hoverRoot shown).2.endFrame
    rw [Single, endFrame]
    dsimp only
    cases down : mouse.mouseDown.any with
    | true =>
      have single' := single.down hoverRoot down react
      split
      · exact .inr (.inl rfl)
      · exact single'
    | false =>
      have press : mouse.mousePressed.any = false := by
        rw [down] at held
        exact Bool.eq_false_iff.mpr fun pressed => Bool.false_ne_true (held pressed)
      rcases controls_idle (s := s) hoverRoot down press react with none | ⟨same, kept⟩
      · rw [none]
        exact .inr (.inl (ite_self _))
      · rw [same]
        rcases kept with holding | untouched
        · split
          · exact .inr (.inl rfl)
          · exact .inl holding
        · rw [untouched, fresh]
          exact .inr (.inl rfl)

/-- Only the control that is hovered and the one that has the focus see a press. -/
theorem controls_pressed {hoverRoot : Option Ref} (down : mouse.mouseDown.any = true)
    (press : mouse.mousePressed.any = true) (react : ∀ c ∈ shown, Reacts holds c) {x : Id}
    (seen : x ∈ (s.controls mouse hoverRoot shown).1) :
    x ≠ 0 ∧ (x = s.hover ∨ x = s.focus) := by
  induction shown generalizing s with
  | nil => cases seen
  | cons c rest ih =>
    rw [List.forall_mem_cons] at react
    have step := updateControl_down (s := s) hoverRoot down react.1
    have some := react.1.1
    have here : (s.updateControl mouse hoverRoot c).focus = c.id → c.id = s.hover ∨ c.id = s.focus := by
      intro mine
      rcases step with ⟨hovered, _⟩ | ⟨_, focus | focus, _⟩
      · exact .inl hovered.symm
      · exact .inr (mine.symm.trans focus)
      · exact absurd (mine.symm.trans focus) some
    have later : x ∈ ((s.updateControl mouse hoverRoot c).controls mouse hoverRoot rest).1 →
        x ≠ 0 ∧ (x = s.hover ∨ x = s.focus) := by
      intro member
      obtain ⟨nonzero, either⟩ := ih react.2 member
      refine ⟨nonzero, ?_⟩
      rcases step with ⟨hovered, _, focus, hover⟩ | ⟨_, focus, hover⟩
      · rw [hover, focus, ← hovered, or_self] at either
        exact .inl either
      · rcases hover with hover | ⟨_, none⟩
        · rw [hover] at either
          rcases focus with focus | focus
          · rwa [focus] at either
          · exact either.imp_right fun zero => absurd (zero.trans focus) nonzero
        · rw [none] at press
          cases press
    rw [controls] at seen
    dsimp only at seen
    split at seen
    · rename_i sees
      rcases List.mem_cons.mp seen with rfl | member
      · exact ⟨some, here sees.2⟩
      · exact later member
    · exact later seen

theorem controls_hovered {hoverRoot : Option Ref} (down : mouse.mouseDown.any = true)
    (left : mouse.mousePressed = MouseButton.left) (react : ∀ c ∈ shown, Reacts holds c) (member : c ∈ shown)
    (hovered : s.hover = c.id) : c.id ∈ (s.controls mouse hoverRoot shown).1 := by
  have press : mouse.mousePressed.any = true := by
    rw [left]
    rfl
  induction shown generalizing s with
  | nil => cases member
  | cons d rest ih =>
    rw [List.forall_mem_cons] at react
    have step := updateControl_down (s := s) hoverRoot down react.1
    have inside : c ∈ rest → c.id ∈ ((s.updateControl mouse hoverRoot d).controls mouse hoverRoot rest).1 := by
      intro later
      apply ih react.2 later
      rcases step with ⟨_, _, _, hover⟩ | ⟨_, _, hover | ⟨_, none⟩⟩
      · exact hover.trans hovered
      · exact hover.trans hovered
      · rw [none] at press
        cases press
    rw [controls]
    dsimp only
    by_cases same : d.id = c.id
    · rcases step with ⟨_, _, focus, _⟩ | ⟨other | none, _⟩
      · rw [if_pos ⟨left, focus⟩, ← same]
        exact List.mem_cons_self
      · exact absurd (hovered.trans same.symm) other
      · rw [none] at press
        cases press
    · have later : c ∈ rest := (List.mem_cons.mp member).resolve_left fun first => same (congrArg Control.id first.symm)
      split
      · exact List.mem_cons_of_mem _ (inside later)
      · exact inside later

/-- Without a button down, the last control under the mouse is hovered at the end. -/
theorem controls_hover (hoverRoot : Option Ref) (down : mouse.mouseDown.any = false)
    (press : mouse.mousePressed.any = false) {before after : List Control}
    (react : ∀ d ∈ before ++ c :: after, Reacts holds d) (above : c.mouseOver mouse.mousePos hoverRoot = true)
    (last : ∀ d ∈ after, d.mouseOver mouse.mousePos hoverRoot = false ∧ d.id ≠ c.id) :
    (s.controls mouse hoverRoot (before ++ c :: after)).2.hover = c.id := by
  have stays : ∀ (s : Interaction) (after : List Control), (∀ d ∈ after, Reacts holds d) →
      (∀ d ∈ after, d.mouseOver mouse.mousePos hoverRoot = false ∧ d.id ≠ c.id) → s.hover = c.id →
      (s.controls mouse hoverRoot after).2.hover = c.id := by
    intro s after react last hovered
    induction after generalizing s with
    | nil => exact hovered
    | cons d rest ih =>
      rw [List.forall_mem_cons] at react last
      obtain ⟨hover, _⟩ := updateControl_idle (s := s) hoverRoot down press react.1
      rw [last.1.1, hovered, if_neg Bool.false_ne_true, if_neg last.1.2.symm] at hover
      exact ih _ react.2 last.2 hover
  induction before generalizing s with
  | nil =>
    rw [List.nil_append, List.forall_mem_cons] at react
    obtain ⟨hover, _⟩ := updateControl_idle (s := s) hoverRoot down press react.1
    rw [if_pos above] at hover
    exact stays _ after react.2 last hover
  | cons d rest ih =>
    rw [List.cons_append, List.forall_mem_cons] at react
    exact ih react.2

end Interaction

/-- In every run of frames whose controls react, a press of the left button that is still down in its frame is
seen by one control at most, besides those that hold the focus; and if the mouse was over a
control in the frame before, with no button down, then the last of these sees the press,
wherever the mouse is now. -/
theorem press_seen (reachable : Interaction.Reachable holds s) (react : ∀ c ∈ shown, Reacts holds c)
    (down : mouse.mouseDown.any = true) (left : mouse.mousePressed = MouseButton.left) (hoverRoot : Option Ref) :
    (∀ x ∈ (s.frame mouse hoverRoot shown).1, ∀ y ∈ (s.frame mouse hoverRoot shown).1, ¬ holds x → ¬ holds y → x = y) ∧
      ∀ (s₀ : Interaction) (idle : Input.Context) (root : Option Ref) (before after : List Control) (c : Control),
        s = (s₀.frame idle root (before ++ c :: after)).2 → idle.mouseDown.any = false → idle.mousePressed.any = false →
        (∀ d ∈ before ++ c :: after, Reacts holds d) → c.mouseOver idle.mousePos root = true →
        (∀ d ∈ after, d.mouseOver idle.mousePos root = false ∧ d.id ≠ c.id) → c ∈ shown →
        c.id ∈ (s.frame mouse hoverRoot shown).1 := by
  have press : mouse.mousePressed.any = true := by
    rw [left]
    rfl
  constructor
  · intro x first y second plain plain'
    obtain ⟨some, either⟩ := Interaction.controls_pressed down press react first
    obtain ⟨some', either'⟩ := Interaction.controls_pressed down press react second
    have single := reachable.settled.2
    rcases either with rfl | rfl <;> rcases either' with rfl | rfl
    · rfl
    · rcases single with hold | zero | zero | same
      · exact absurd hold plain'
      · exact absurd zero some'
      · exact absurd zero some
      · exact same
    · rcases single with hold | zero | zero | same
      · exact absurd hold plain
      · exact absurd zero some
      · exact absurd zero some'
      · exact same.symm
    · rfl
  · rintro s₀ idle root before after c rfl down' press' react' above last member
    exact Interaction.controls_hovered down left react member
      (Interaction.controls_hover root down' press' react' above last)

/-- Two buttons in a row of a window. -/
def twoButtons : List Control :=
  let window : Ref := ⟨0, Nat.succ_pos 47⟩
  [⟨1, ⟨0, 0, 50, 20⟩, ⟨0, 0, 200, 100⟩, [window], 0⟩, ⟨2, ⟨54, 0, 50, 20⟩, ⟨0, 0, 200, 100⟩, [window], 0⟩]

theorem twoButtons_react : ∀ c ∈ twoButtons, Reacts (fun _ => False) c := by
  intro c member
  refine ⟨?_, ?_, ?_⟩ <;> revert c <;> decide

theorem press_seen_second : 2 ∈ (Interaction.frame ⟨⟨10, 5⟩, ⟨60, 5⟩, 1, 1⟩ (some 0) twoButtons
    (Interaction.frame ⟨⟨60, 5⟩, ⟨60, 5⟩, 0, 0⟩ (some 0) twoButtons ⟨0, 0, false⟩).2).1 := by
  have reachable : Interaction.Reachable (fun _ => False)
      (Interaction.frame ⟨⟨60, 5⟩, ⟨60, 5⟩, 0, 0⟩ (some 0) twoButtons ⟨0, 0, false⟩).2 :=
    .frame .init _ _ twoButtons_react (by decide)
  have left : (⟨⟨10, 5⟩, ⟨60, 5⟩, 1, 1⟩ : Input.Context).mousePressed = MouseButton.left := by decide
  obtain ⟨_, seen⟩ := press_seen reachable twoButtons_react (by decide) left (some 0)
  exact seen _ _ _ [⟨1, ⟨0, 0, 50, 20⟩, ⟨0, 0, 200, 100⟩, [0], 0⟩] [] _ rfl (by decide) (by decide) twoButtons_react
    (by decide) (List.forall_mem_nil _) (List.mem_cons_of_mem _ List.mem_cons_self)

end UmkaOs.Microui
