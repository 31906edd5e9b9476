import UmkaOs.Gfx.Swap
import UmkaOs.Microui.Clip
import UmkaOs.Microui.Screen

namespace UmkaOs.Microui

open Gfx (Art Display Hashing)

/-- The loop over the characters of a text, from the one with index `i` on. -/
def drawChars (pos : Input.Vec2) : Nat → List UInt8 → List Gfx.Call
  | _, [] => []
  | i, c :: text =>
    .drawChar (Int32.ofInt (pos.x + i * 8)) (Int32.ofInt pos.y) c.toInt8 :: drawChars pos (i + 1) text

/-- The character of an icon; `drawIcon` has none for the others. -/
def Icon.glyph : Icon → Option Int8
  | .check => some 1
  | .close => some 4
  | .collapsed => some 5
  | .expanded => some 6
  | .max => some 7
  | .none => Option.none

def setColor (color : Color) : Gfx.Call :=
  .setColor (Int32.ofNat color.r.toNat) (Int32.ofNat color.g.toNat) (Int32.ofNat color.b.toNat)
    (Int32.ofNat color.a.toNat)

/-- Where an icon of 12 by 16 pixels is drawn. -/
def iconPlace (rect : Rect) : Input.Vec2 := ⟨rect.x + (rect.w - 12).tdiv 2, rect.y + (rect.h - 16).tdiv 2⟩

/-- The `switch` over the command in `schedule`. -/
def calls : Draw → List Gfx.Call
  | .clip rect => [.drawClip (Int32.ofInt rect.x) (Int32.ofInt rect.y) (Int32.ofInt rect.w) (Int32.ofInt rect.h)]
  | .rect rect color =>
    [setColor color, .drawRect (Int32.ofInt rect.x) (Int32.ofInt rect.y) (Int32.ofInt rect.w) (Int32.ofInt rect.h)]
  | .text pos color text => setColor color :: drawChars pos 0 text
  | .icon rect id color =>
    let place := iconPlace rect
    setColor color :: (id.glyph.map fun c => .drawIcon (Int32.ofInt place.x) (Int32.ofInt place.y) c).toList
  | .cursor _ => []

def charInk (art : Art) (place : Input.Vec2) (c : UInt8) (color : Color) (p : Input.Vec2) : Option UInt32 :=
  if (⟨place.x, place.y, 8, 8⟩ : Rect).overlaps p ∧
      (art.font8x8 c.toInt8.toInt (p.y - place.y).toNat).toNat.testBit (p.x - place.x).toNat then
    some color.word
  else none

def textInk (art : Art) (pos : Input.Vec2) (color : Color) : Nat → List UInt8 → Input.Vec2 → Option UInt32
  | _, [], _ => none
  | i, c :: text, p => (textInk art pos color (i + 1) text p).or (charInk art ⟨pos.x + i * 8, pos.y⟩ c color p)

def glyphInk (art : Art) (place : Input.Vec2) (c : Int8) (color : Color) (p : Input.Vec2) : Option UInt32 :=
  let ccolor := art.iconData (p.x - place.x + c.toInt * 12 + (p.y - place.y) * art.iconWidth)
  if (⟨place.x, place.y, 12, 16⟩ : Rect).overlaps p ∧ ccolor &&& 0xFF ≠ 0 then some (ccolor &&& color.word) else none

theorem charInk_inside {art : Art} {place p : Input.Vec2} {c : UInt8} {color : Color}
    (some : (charInk art place c color p).isSome) : (⟨place.x, place.y, 8, 8⟩ : Rect).overlaps p := by
  rw [charInk] at some
  split at some
  · rename_i inside
    exact inside.1
  · cases some

theorem textInk_inside {art : Art} {pos p : Input.Vec2} {color : Color} {text : List UInt8} {i : Nat}
    (some : (textInk art pos color i text p).isSome) :
    (⟨pos.x + i * 8, pos.y, textWidth text, textHeight⟩ : Rect).overlaps p := by
  induction text generalizing i with
  | nil => cases some
  | cons c text ih =>
    have width : textWidth (c :: text) = textWidth text + 8 := by
      rw [textWidth, textWidth, List.length_cons]
      omega
    have wide : 0 ≤ textWidth text := by
      rw [textWidth]
      omega
    rw [textInk, Option.isSome_or, Bool.or_eq_true] at some
    simp only [Rect.overlaps, width, textHeight]
    rcases some with later | here
    · have inside := ih later
      simp only [Rect.overlaps, textHeight] at inside
      omega
    · have inside := charInk_inside here
      simp only [Rect.overlaps] at inside
      omega

/-- The pixels of the font and of the icons. What an icon has outside of its rectangle is
left out. -/
def artInk (art : Art) : Ink where
  text text pos color := textInk art pos color 0 text
  icon id rect color p :=
    if rect.overlaps p then id.glyph.bind fun c => glyphInk art (iconPlace rect) c color p else none
  text_inside text pos color p some := by
    have inside := textInk_inside some
    simpa using inside
  icon_inside id rect color p some := by
    split at some
    · assumption
    · cases some

variable {H : Type} [DecidableEq H] {art : Art} (hashing : Hashing H) {g : Display H} {screen : Screen}
  {commands : List Gfx.Command} {cmd : Gfx.Command} {x y : Int} {color : Color} {pos : Input.Vec2} {r : Rect}
  {pixels : Input.Vec2 → Option UInt32} {draws : List Draw}

/-- A rectangle whose sides are an `int`. -/
def Rect.Small (r : Rect) : Prop :=
  (-2 ^ 29 ≤ r.x ∧ r.x ≤ 2 ^ 29) ∧ (-2 ^ 29 ≤ r.y ∧ r.y ≤ 2 ^ 29) ∧ (-2 ^ 29 ≤ r.w ∧ r.w ≤ 2 ^ 29) ∧
    (-2 ^ 29 ≤ r.h ∧ r.h ≤ 2 ^ 29)

/-- The sums of its coordinates stay within an `int`, and an icon fits into its rectangle. -/
def Draw.Small : Draw → Prop
  | .clip r => r.Small
  | .rect r _ => r.Small
  | .text pos _ string => (⟨pos.x, pos.y, textWidth string, textHeight⟩ : Rect).Small
  | .icon r _ _ => r.Small ∧ 12 ≤ r.w ∧ 16 ≤ r.h
  | .cursor _ => True

/-- The queue has the picture of a screen and its clip rectangle. -/
structure Paints (art : Art) (commands : List Gfx.Command) (screen : Screen) : Prop where
  clip : ∀ x y, Gfx.screen.Contains x y → ((Gfx.lastClip commands).Contains x y ↔ screen.clip.overlaps ⟨x, y⟩)
  image : ∀ x y, Gfx.screen.Contains x y → Gfx.picture art commands x y = some (screen.image ⟨x, y⟩)

theorem toInt_ofInt {i : Int} (low : -2 ^ 31 ≤ i) (high : i < 2 ^ 31) : (Int32.ofInt i).toInt = i :=
  Int32.toInt_ofInt_of_le low high

theorem contains_ofInt (small : r.Small) : (⟨(Int32.ofInt r.x).toInt, (Int32.ofInt r.y).toInt, (Int32.ofInt r.w).toInt,
    (Int32.ofInt r.h).toInt⟩ : Gfx.Rect).Contains x y ↔ r.overlaps ⟨x, y⟩ := by
  obtain ⟨⟨_, _⟩, ⟨_, _⟩, ⟨_, _⟩, _, _⟩ := small
  rw [toInt_ofInt (by omega) (by omega), toInt_ofInt (by omega) (by omega), toInt_ofInt (by omega) (by omega),
    toInt_ofInt (by omega) (by omega)]
  simp only [Gfx.Rect.Contains, Gfx.Rect.right, Gfx.Rect.bottom, Rect.overlaps]
  rw [toInt32_of_range (by omega) (by omega), toInt32_of_range (by omega) (by omega)]

namespace Paints

theorem command (paints : Paints art commands screen) (drawn : cmd.type ≠ .clip) (clipped : cmd.type ≠ .bckg)
    (same : ∀ x y, Gfx.screen.Contains x y →
      (if cmd.Contains x y then Gfx.ink art cmd x y else none) = pixels ⟨x, y⟩) :
    Paints art (commands ++ [cmd]) { screen with image := paint (cut screen.clip pixels) screen.image } := by
  constructor
  · intro x y on
    rw [Gfx.lastClip_concat, if_neg drawn]
    exact paints.clip x y on
  · intro x y on
    have clip := paints.clip x y on
    show _ = some (paint (cut screen.clip pixels) screen.image ⟨x, y⟩)
    rw [Gfx.picture_concat, paints.image x y on, Gfx.paint, paint, cut, ← same x y on]
    by_cases inside : cmd.Contains x y <;> by_cases within : screen.clip.overlaps ⟨x, y⟩ <;>
      simp [inside, within, clip, clipped]

theorem clipCommand (paints : Paints art commands screen) (type : cmd.type = .clip)
    (same : cmd.toRect = Gfx.rectIntersect ⟨(Int32.ofInt r.x).toInt, (Int32.ofInt r.y).toInt, (Int32.ofInt r.w).toInt,
      (Int32.ofInt r.h).toInt⟩ Gfx.screen) (small : r.Small) :
    Paints art (commands ++ [cmd]) { screen with clip := r } := by
  constructor
  · intro x y on
    rw [Gfx.lastClip_concat, if_pos type, same, Gfx.rectIntersect_contains, contains_ofInt small]
    exact and_iff_left on
  · intro x y on
    have none : Gfx.paint art (Gfx.lastClip commands) cmd x y = none := by
      rw [Gfx.paint, Gfx.ink, type, ite_self]
    rw [Gfx.picture_concat, none]
    exact paints.image x y on

end Paints

theorem paint_nothing (clip : Rect) (image : Image) : paint (cut clip fun _ => none) image = image :=
  paint_none (fun _ => ite_self _) image

theorem paint_or (clip : Rect) (above under : Input.Vec2 → Option UInt32) (image : Image) :
    paint (cut clip fun p => (above p).or (under p)) image = paint (cut clip above) (paint (cut clip under) image) := by
  funext p
  simp only [paint, cut]
  split
  · cases above p <;> rfl
  · rfl

omit [DecidableEq H] in
theorem push_commands (room : g.commands.length < Gfx.queueSize) (cmd : Gfx.Command) :
    (g.push cmd).commands = g.commands ++ [cmd] := by
  rw [Display.push, if_neg (Nat.not_le_of_lt room)]

omit [DecidableEq H] in
theorem Paints.push (paints : Paints art g.commands screen) (room : g.commands.length < Gfx.queueSize)
    (drawn : cmd.type ≠ .clip) (clipped : cmd.type ≠ .bckg)
    (same : ∀ x y, Gfx.screen.Contains x y →
      (if cmd.Contains x y then Gfx.ink art cmd x y else none) = pixels ⟨x, y⟩) :
    Paints art (g.push cmd).commands { screen with image := paint (cut screen.clip pixels) screen.image } ∧
      (g.push cmd).commands.length = g.commands.length + 1 ∧ (g.push cmd).color = g.color := by
  rw [push_commands room, List.length_append]
  refine ⟨paints.command drawn clipped same, rfl, ?_⟩
  rw [Display.push, if_neg (Nat.not_le_of_lt room)]

/-- A glyph of at most 16 by 16 pixels has its corner where an `int` can be. -/
def Near (place : Input.Vec2) : Prop := (-2 ^ 30 ≤ place.x ∧ place.x ≤ 2 ^ 30) ∧ (-2 ^ 30 ≤ place.y ∧ place.y ≤ 2 ^ 30)

theorem contains_glyph {place : Input.Vec2} (near : Near place) {w h : Int} (wide : 0 ≤ w ∧ w ≤ 16)
    (high : 0 ≤ h ∧ h ≤ 16) :
    (⟨place.x, place.y, w, h⟩ : Gfx.Rect).Contains x y ↔ (⟨place.x, place.y, w, h⟩ : Rect).overlaps ⟨x, y⟩ := by
  obtain ⟨⟨_, _⟩, _, _⟩ := near
  simp only [Gfx.Rect.Contains, Gfx.Rect.right, Gfx.Rect.bottom, Rect.overlaps]
  rw [toInt32_of_range (by omega) (by omega), toInt32_of_range (by omega) (by omega)]

theorem Near.toInt {place : Input.Vec2} (near : Near place) :
    (Int32.ofInt place.x).toInt = place.x ∧ (Int32.ofInt place.y).toInt = place.y := by
  obtain ⟨⟨_, _⟩, _, _⟩ := near
  exact ⟨toInt_ofInt (by omega) (by omega), toInt_ofInt (by omega) (by omega)⟩

theorem Paints.rect (paints : Paints art g.commands screen) (small : r.Small) (inked : g.color = color.word)
    (room : g.commands.length < Gfx.queueSize) :
    ∃ g', g.call art hashing (.drawRect (Int32.ofInt r.x) (Int32.ofInt r.y) (Int32.ofInt r.w) (Int32.ofInt r.h)) = g' ∧
      Paints art g'.commands { screen with image := paint (cut screen.clip (fill r color)) screen.image } ∧
      g'.commands.length = g.commands.length + 1 ∧ g'.color = g.color := by
  refine ⟨_, rfl, paints.push room (fun other => by cases other) (fun other => by cases other) ?_⟩
  intro x y _
  have inside := @contains_ofInt x y r small
  by_cases member : r.overlaps ⟨x, y⟩
  · rw [if_pos (inside.mpr member), fill, if_pos member, ← inked]
    rfl
  · rw [if_neg fun other => member (inside.mp other), fill, if_neg member]

theorem Paints.char {place : Input.Vec2} (paints : Paints art g.commands screen) (near : Near place) (c : UInt8)
    (inked : g.color = color.word) (room : g.commands.length < Gfx.queueSize) :
    ∃ g', g.call art hashing (.drawChar (Int32.ofInt place.x) (Int32.ofInt place.y) c.toInt8) = g' ∧
      Paints art g'.commands { screen with image := paint (cut screen.clip (charInk art place c color)) screen.image } ∧
      g'.commands.length = g.commands.length + 1 ∧ g'.color = g.color := by
  refine ⟨_, rfl, paints.push room (fun other => by cases other) (fun other => by cases other) ?_⟩
  intro x y _
  rw [near.toInt.1, near.toInt.2, inked]
  have inside := @contains_glyph x y place near 8 8 (by decide) (by decide)
  by_cases member : (⟨place.x, place.y, 8, 8⟩ : Rect).overlaps ⟨x, y⟩
  · rw [if_pos (inside.mpr member)]
    simp [Gfx.ink, charInk, member]
  · rw [if_neg fun other => member (inside.mp other)]
    simp [charInk, member]

theorem Paints.glyph {place : Input.Vec2} (paints : Paints art g.commands screen) (near : Near place) (c : Int8)
    (inked : g.color = color.word) (room : g.commands.length < Gfx.queueSize) :
    ∃ g', g.call art hashing (.drawIcon (Int32.ofInt place.x) (Int32.ofInt place.y) c) = g' ∧
      Paints art g'.commands
        { screen with image := paint (cut screen.clip (glyphInk art place c color)) screen.image } ∧
      g'.commands.length = g.commands.length + 1 ∧ g'.color = g.color := by
  refine ⟨_, rfl, paints.push room (fun other => by cases other) (fun other => by cases other) ?_⟩
  intro x y _
  rw [near.toInt.1, near.toInt.2, inked]
  have inside := @contains_glyph x y place near 12 16 (by decide) (by decide)
  by_cases member : (⟨place.x, place.y, 12, 16⟩ : Rect).overlaps ⟨x, y⟩
  · rw [if_pos (inside.mpr member)]
    simp [Gfx.ink, glyphInk, member]
  · rw [if_neg fun other => member (inside.mp other)]
    simp [glyphInk, member]

theorem Paints.chars {i : Nat} {text : List UInt8} (paints : Paints art g.commands screen)
    (near : ∀ j, j < text.length → Near ⟨pos.x + (i + j : Nat) * 8, pos.y⟩) (inked : g.color = color.word)
    (room : g.commands.length + text.length ≤ Gfx.queueSize) :
    ∃ g', (drawChars pos i text).foldl (Display.call art hashing) g = g' ∧
      Paints art g'.commands
        { screen with image := paint (cut screen.clip (textInk art pos color i text)) screen.image } ∧
      g'.commands.length = g.commands.length + text.length := by
  induction text generalizing g screen i with
  | nil =>
    refine ⟨g, rfl, ?_, rfl⟩
    show Paints art g.commands { screen with image := paint (cut screen.clip fun _ => none) screen.image }
    rw [paint_nothing]
    exact paints
  | cons c text ih =>
    rw [List.length_cons] at room near
    have here : Near ⟨pos.x + i * 8, pos.y⟩ := near 0 (Nat.succ_pos _)
    obtain ⟨g₁, first, paints₁, length₁, color₁⟩ := paints.char hashing here c inked (by omega)
    have later : ∀ j, j < text.length → Near ⟨pos.x + (i + 1 + j : Nat) * 8, pos.y⟩ := by
      intro j inside
      rw [Nat.add_assoc, Nat.add_comm 1 j]
      exact near (j + 1) (Nat.succ_lt_succ inside)
    obtain ⟨g₂, second, paints₂, length₂⟩ := ih paints₁ later (color₁.trans inked) (by omega)
    refine ⟨g₂, ?_, ?_, ?_⟩
    · rw [drawChars, List.foldl_cons, first, second]
    · have layers : textInk art pos color i (c :: text) = fun p =>
          (textInk art pos color (i + 1) text p).or (charInk art ⟨pos.x + i * 8, pos.y⟩ c color p) := rfl
      rw [layers, paint_or]
      exact paints₂
    · rw [length₂, length₁, List.length_cons]
      omega

/-- The commands that calls put into the queue. -/
def queued (calls : List Gfx.Call) : Nat :=
  calls.countP fun call => match call with
    | .setColor _ _ _ _ => false
    | _ => true

theorem queued_drawChars (i : Nat) (text : List UInt8) : queued (drawChars pos i text) = text.length := by
  induction text generalizing i with
  | nil => rfl
  | cons c text ih =>
    rw [drawChars, queued, List.countP_cons_of_pos rfl, List.length_cons]
    exact congrArg Nat.succ (ih (i + 1))

theorem iconPlace_eq (wide : 12 ≤ r.w) (high : 16 ≤ r.h) :
    iconPlace r = ⟨r.x + (r.w - 12) / 2, r.y + (r.h - 16) / 2⟩ := by
  rw [iconPlace, Int.tdiv_eq_ediv_of_nonneg (by omega), Int.tdiv_eq_ediv_of_nonneg (by omega)]

theorem icon_glyph (wide : 12 ≤ r.w) (high : 16 ≤ r.h) {id : Icon} {c : Int8} (glyph : id.glyph = some c) :
    (artInk art).icon id r color = glyphInk art (iconPlace r) c color := by
  funext p
  simp only [artInk, glyph, Option.bind_some]
  split
  · rfl
  · rename_i outside
    rw [glyphInk, if_neg]
    rintro ⟨inside, _⟩
    rw [iconPlace_eq wide high] at inside
    simp only [Rect.overlaps] at inside outside
    omega

/-- What `schedule` does for a command paints what the command says. -/
theorem Draw.paints (d : Draw) (small : d.Small) (paints : Paints art g.commands screen)
    (room : g.commands.length + queued (calls d) ≤ Gfx.queueSize) :
    ∃ g', (calls d).foldl (Display.call art hashing) g = g' ∧ Paints art g'.commands (screen.exec (artInk art) d) ∧
      g'.commands.length = g.commands.length + queued (calls d) := by
  cases d with
  | clip r =>
    have free : g.commands.length < Gfx.queueSize := room
    refine ⟨_, rfl, ?_, ?_⟩
    · show Paints art (g.push _).commands { screen with clip := r }
      rw [push_commands free]
      exact paints.clipCommand rfl rfl small
    · show (g.push _).commands.length = _
      rw [push_commands free, List.length_append]
      rfl
  | rect r color =>
    have free : g.commands.length < Gfx.queueSize := room
    have chosen : Paints art ({ g with color := color.word } : Display H).commands screen := paints
    obtain ⟨g', drawn, painted, length, _⟩ := chosen.rect hashing small rfl free
    exact ⟨g', drawn, painted, length⟩
  | text pos color text =>
    obtain ⟨⟨_, _⟩, ⟨_, _⟩, ⟨_, _⟩, _⟩ := small
    have chosen : Paints art ({ g with color := color.word } : Display H).commands screen := paints
    have length : queued (calls (.text pos color text)) = text.length := by
      rw [calls, queued, List.countP_cons_of_neg Bool.false_ne_true]
      exact queued_drawChars 0 text
    rw [length] at room ⊢
    have near : ∀ j, j < text.length → Near ⟨pos.x + (0 + j : Nat) * 8, pos.y⟩ := by
      intro j inside
      simp only [textWidth] at *
      constructor <;> constructor <;> dsimp only <;> omega
    obtain ⟨g', drawn, painted, length⟩ := chosen.chars hashing near rfl room
    exact ⟨g', drawn, painted, length⟩
  | icon r id color =>
    obtain ⟨⟨⟨_, _⟩, ⟨_, _⟩, ⟨_, _⟩, _, _⟩, wide, high⟩ := small
    have chosen : Paints art ({ g with color := color.word } : Display H).commands screen := paints
    have near : Near (iconPlace r) := by
      rw [iconPlace_eq wide high]
      constructor <;> constructor <;> dsimp only <;> omega
    cases glyph : id.glyph with
    | none =>
      have none : (artInk art).icon id r color = fun _ => none := by
        funext p
        simp [artInk, glyph]
      have length : queued (calls (.icon r id color)) = 0 := by
        rw [calls, glyph]
        rfl
      refine ⟨{ g with color := color.word }, ?_, ?_, length ▸ rfl⟩
      · rw [calls, glyph]
        rfl
      · show Paints art g.commands
          { screen with image := paint (cut screen.clip ((artInk art).icon id r color)) screen.image }
        rw [none, paint_nothing]
        exact paints
    | some c =>
      have length : queued (calls (.icon r id color)) = 1 := by
        rw [calls, glyph]
        rfl
      rw [length] at room ⊢
      obtain ⟨g', drawn, painted, length, _⟩ := chosen.glyph hashing near c rfl room
      refine ⟨g', ?_, ?_, length⟩
      · rw [calls, glyph]
        exact drawn
      · show Paints art g'.commands
          { screen with image := paint (cut screen.clip ((artInk art).icon id r color)) screen.image }
        rw [icon_glyph wide high glyph]
        exact painted
  | cursor id => exact ⟨g, rfl, paints, rfl⟩

theorem Draw.paints_all (small : ∀ d ∈ draws, d.Small) (paints : Paints art g.commands screen)
    (room : g.commands.length + queued (draws.flatMap calls) ≤ Gfx.queueSize) :
    ∃ g', (draws.flatMap calls).foldl (Display.call art hashing) g = g' ∧
      Paints art g'.commands (draws.foldl (Screen.exec (artInk art)) screen) ∧
      g'.commands.length = g.commands.length + queued (draws.flatMap calls) := by
  induction draws generalizing g screen with
  | nil => exact ⟨g, rfl, paints, rfl⟩
  | cons d rest ih =>
    rw [List.forall_mem_cons] at small
    have both : queued ((d :: rest).flatMap calls) = queued (calls d) + queued (rest.flatMap calls) := by
      rw [List.flatMap_cons]
      exact List.countP_append
    rw [both] at room ⊢
    obtain ⟨g₁, first, paints₁, length₁⟩ := d.paints hashing small.1 paints (by omega)
    obtain ⟨g₂, second, paints₂, length₂⟩ := ih small.2 paints₁ (by omega)
    exact ⟨g₂, by rw [List.flatMap_cons, List.foldl_append, first, second], paints₂, by omega⟩

variable {ctx ctx' : Context} {client : Client} {roots : List Root}

/-- The windows over an image, the first at the bottom. -/
def windowsImage (art : Art) (requests : Root → List Request) (order : List Root) (image : Image) : Image :=
  order.foldl (fun image root => ideal (artInk art) (requests root) [unclippedRect] image) image

theorem windows_exec (requests : Root → List Request) {order : List Root} (image : Image)
    (asked : ∀ root ∈ order, ∃ stack, runRequests (requests root) [unclippedRect] = .ok (root.draws, stack)) :
    (order.flatMap Root.draws).foldl (Screen.exec (artInk art)) ⟨unclippedRect, image⟩ =
      ⟨unclippedRect, windowsImage art requests order image⟩ := by
  induction order generalizing image with
  | nil => rfl
  | cons root rest ih =>
    rw [List.forall_mem_cons] at asked
    obtain ⟨⟨stack, run⟩, others⟩ := asked
    have onscreen : ∀ r ∈ [unclippedRect], Onscreen r := by
      rw [List.forall_mem_singleton]
      exact onscreen_unclipped
    obtain ⟨shown, _⟩ := runRequests_exec (artInk art) onscreen run image
    rw [List.flatMap_cons, List.foldl_append, shown, ih _ others]
    rfl

theorem windows_paint (managed : Managed ctx) (flat : client.Windows) (distinct : (0 :: roots.map Root.id).Nodup)
    (run : ctx.schedule client = .ok (roots, ctx')) (requests : Root → List Request)
    (asked : ∀ root ∈ roots, ∃ stack, runRequests (requests root) [unclippedRect] = .ok (root.draws, stack))
    (small : ∀ root ∈ roots, ∀ d ∈ root.draws, d.Small) {image : Image}
    (start : Paints art g.commands ⟨unclippedRect, image⟩)
    (room : g.commands.length + queued ((roots.flatMap Root.draws).flatMap calls) ≤ Gfx.queueSize) :
    ∃ order : List Root, order.Perm roots ∧
      (order.Pairwise fun a b => (ctx'.containers a.cnt).zindex < (ctx'.containers b.cnt).zindex) ∧
      ∃ fuel draws, drain ctx'.commandList fuel 0 = some draws ∧
        ∃ g', (draws.flatMap calls).foldl (Display.call art hashing) g = g' ∧
          Paints art g'.commands ⟨unclippedRect, windowsImage art requests order image⟩ ∧
          g'.commands.length = g.commands.length + queued ((roots.flatMap Root.draws).flatMap calls) := by
  obtain ⟨order, perm, sorted, fuel, drained⟩ := schedule_painted managed flat distinct run
  have inside : ∀ root ∈ order, root ∈ roots := fun root member => perm.mem_iff.mp member
  have same : queued ((order.flatMap Root.draws).flatMap calls) = queued ((roots.flatMap Root.draws).flatMap calls) :=
    ((perm.flatMap_right Root.draws).flatMap_right calls).countP_eq _
  have small' : ∀ d ∈ order.flatMap Root.draws, d.Small := by
    intro d member
    obtain ⟨root, windows, drawn⟩ := List.mem_flatMap.mp member
    exact small root (inside root windows) d drawn
  rw [← same] at room
  obtain ⟨g', filled, painted, length⟩ := Draw.paints_all hashing small' start room
  rw [windows_exec requests image fun root member => asked root (inside root member)] at painted
  exact ⟨order, perm, sorted, fuel, _, drained 0, g', filled, painted, same ▸ length⟩

/-- Whatever the queue holds, a frame adds its windows from the bottom of the stack to the
top: every pixel of the screen is what the last window says that has it inside of the clip
rectangle of its request. -/
theorem frame_displayed (reachable : ctx.Reachable) (flat : client.Windows) (distinct : (0 :: roots.map Root.id).Nodup)
    (run : ctx.schedule client = .ok (roots, ctx')) (requests : Root → List Request)
    (asked : ∀ root ∈ roots, ∃ stack, runRequests (requests root) [unclippedRect] = .ok (root.draws, stack))
    (small : ∀ root ∈ roots, ∀ d ∈ root.draws, d.Small) {image : Image}
    (start : Paints art g.commands ⟨unclippedRect, image⟩)
    (room : g.commands.length + queued ((roots.flatMap Root.draws).flatMap calls) ≤ Gfx.queueSize) :
    ∃ order : List Root, order.Perm roots ∧
      (order.Pairwise fun a b => (ctx'.containers a.cnt).zindex < (ctx'.containers b.cnt).zindex) ∧
      ∃ fuel draws, drain ctx'.commandList fuel 0 = some draws ∧
        Paints art ((draws.flatMap calls).foldl (Display.call art hashing) g).commands
          ⟨unclippedRect, windowsImage art requests order image⟩ := by
  obtain ⟨order, perm, sorted, fuel, draws, drained, g', filled, painted, _⟩ :=
    windows_paint hashing reachable.managed flat distinct run requests asked small start room
  exact ⟨order, perm, sorted, fuel, draws, drained, filled ▸ painted⟩

/-- The background as `schedule` draws it, before the windows. -/
def desktop : List Gfx.Call := [.setColor 32 32 127 255, .drawRect 0 0 1024 768, .drawBackground]

def background (art : Art) : Gfx.Command where
  type := .bckg
  data := 0
  color := 0xFFFFFFFF
  x := Display.centered 1024 art.backgroundWidth
  y := Display.centered 768 art.backgroundHeight
  w := signed32 art.backgroundWidth.toNat
  h := signed32 art.backgroundHeight.toNat

def desktopCommands (art : Art) : List Gfx.Command := [Gfx.cover (Color.word ⟨32, 32, 127, 255⟩), background art]

def desktopImage (art : Art) : Image := fun p => (Gfx.picture art (desktopCommands art) p.x p.y).getD 0

theorem desktop_commands (empty : g.commands = []) :
    (desktop.foldl (Display.call art hashing) g).commands = desktopCommands art := by
  have first : (g.call art hashing (.setColor 32 32 127 255)).commands = [] := empty
  have ink : (g.call art hashing (.setColor 32 32 127 255)).color = Color.word ⟨32, 32, 127, 255⟩ := rfl
  rw [desktop, List.foldl_cons, List.foldl_cons, List.foldl_cons, List.foldl_nil]
  generalize g.call art hashing (.setColor 32 32 127 255) = g₁ at first ink
  rw [Display.call, Display.call, push_commands, push_commands, first, ink]
  · rfl
  · rw [first]
    decide
  · rw [push_commands, first]
    · show 1 < 4096
      decide
    · rw [first]
      decide

theorem desktop_paints : Paints art (desktopCommands art) ⟨unclippedRect, desktopImage art⟩ := by
  constructor
  · intro x y on
    apply iff_of_true on
    obtain ⟨left, right, top, bottom⟩ := on
    have width : Gfx.screen.right = 1024 := by decide
    have height : Gfx.screen.bottom = 768 := by decide
    have corner : Gfx.screen.x = 0 ∧ Gfx.screen.y = 0 := ⟨rfl, rfl⟩
    simp only [Rect.overlaps, unclippedRect]
    omega
  · intro x y on
    have whole : Gfx.Covered (desktopCommands art) := Gfx.cover_covers _ [background art]
    obtain ⟨color, colored⟩ := @Gfx.Covered.picture art _ x y whole on
    dsimp only [desktopImage]
    rw [colored]
    rfl

/-- What the two windows ask for. -/
def twoRequests (root : Root) : List Request :=
  if root.id = 1 then [.rect ⟨0, 0, 96, 64⟩ ⟨230, 230, 230, 255⟩] else [.rect ⟨32, 32, 96, 64⟩ ⟨25, 25, 25, 255⟩]

theorem twoWindows_asked : ∃ roots ctx', (Context.init pressed).schedule twoWindows = .ok (roots, ctx') ∧
    roots.map Root.id = [1, 2] ∧
    (∀ root ∈ roots, ∃ stack, runRequests (twoRequests root) [unclippedRect] = .ok (root.draws, stack)) ∧
    (∀ root ∈ roots, ∀ d ∈ root.draws, d.Small) ∧ queued ((roots.flatMap Root.draws).flatMap calls) = 2 := by
  obtain ⟨roots, ctx', run, drawn⟩ := twoWindows_drawn
  have ids := congrArg (List.map Prod.fst) drawn
  rw [List.map_map] at ids
  have both : ∀ root ∈ roots, root.id = 1 ∧ root.draws = [.rect ⟨0, 0, 96, 64⟩ ⟨230, 230, 230, 255⟩] ∨
      root.id = 2 ∧ root.draws = [.rect ⟨32, 32, 96, 64⟩ ⟨25, 25, 25, 255⟩] := by
    intro root member
    have listed := List.mem_map_of_mem (f := fun root => (root.id, root.draws)) member
    rw [drawn] at listed
    simpa using listed
  refine ⟨roots, ctx', run, ids, ?_, ?_, ?_⟩
  · intro root member
    rw [twoRequests]
    rcases both root member with ⟨id, drew⟩ | ⟨id, drew⟩ <;> rw [id, drew] <;> exact ⟨[unclippedRect], rfl⟩
  · intro root member d listed
    rcases both root member with ⟨_, drew⟩ | ⟨_, drew⟩ <;> rw [drew, List.mem_singleton] at listed <;>
      rw [listed] <;> simp [Draw.Small, Rect.Small]
  · have draws := congrArg (List.flatMap Prod.snd) drawn
    rw [List.flatMap_map] at draws
    have same : roots.flatMap Root.draws = _ := draws
    rw [same]
    decide

theorem frame_displayed_two : ∃ (roots order : List Root) (draws : List Draw),
    roots.map Root.id = [1, 2] ∧ order.Perm roots ∧
      Paints Gfx.plainArt ((draws.flatMap calls).foldl (Display.call Gfx.plainArt Gfx.listHashing)
        (desktop.foldl (Display.call Gfx.plainArt Gfx.listHashing) Gfx.blank)).commands
        ⟨unclippedRect, windowsImage Gfx.plainArt twoRequests order (desktopImage Gfx.plainArt)⟩ := by
  obtain ⟨roots, ctx', run, ids, asked, small, two⟩ := twoWindows_asked
  have distinct : (0 :: roots.map Root.id).Nodup := by
    rw [ids]
    decide
  have queue := @desktop_commands _ _ Gfx.plainArt Gfx.listHashing Gfx.blank rfl
  have painted := @desktop_paints Gfx.plainArt
  rw [← queue] at painted
  have room : (desktop.foldl (Display.call Gfx.plainArt Gfx.listHashing) Gfx.blank).commands.length +
      queued ((roots.flatMap Root.draws).flatMap calls) ≤ Gfx.queueSize := by
    rw [queue, two]
    decide
  obtain ⟨order, perm, _, fuel, shown, _, paints⟩ := frame_displayed Gfx.listHashing (.init pressed) twoWindows_flat
    distinct run twoRequests asked small painted room
  exact ⟨roots, order, shown, ids, perm, paints⟩

end UmkaOs.Microui
