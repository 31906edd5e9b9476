import UmkaOs.Gfx.Model
import Mathlib.Data.List.Induction

namespace UmkaOs.Gfx

namespace Rect

/-- The pixel lies inside. -/
def Contains (r : Rect) (x y : Int) : Prop := r.x ≤ x ∧ x < r.right ∧ r.y ≤ y ∧ y < r.bottom

instance (r : Rect) (x y : Int) : Decidable (r.Contains x y) := inferInstanceAs (Decidable (_ ∧ _))

end Rect

/-- The color that a command has for a pixel of its rectangle. -/
def ink (art : Art) (cmd : Command) (x y : Int) : Option UInt32 :=
  match cmd.type with
  | .bckg =>
    if 0 ≤ y - cmd.y ∧ y - cmd.y < art.backgroundHeight.toNat then
      some (art.backgroundData (x - cmd.x + (y - cmd.y) * art.backgroundWidth.toNat))
    else none
  | .icon =>
    let ccolor := art.iconData (x - cmd.x + cmd.data * 12 + (y - cmd.y) * art.iconWidth)
    if ccolor &&& 0xFF ≠ 0 then some (ccolor &&& cmd.color) else none
  | .char =>
    if (art.font8x8 cmd.data (y - cmd.y).toNat).toNat.testBit (x - cmd.x).toNat then some cmd.color else none
  | .rect => some cmd.color
  | .clip => none

/-- What a command does to a pixel under a clip rectangle; the background is not clipped. -/
def paint (art : Art) (clip : Rect) (cmd : Command) (x y : Int) : Option UInt32 :=
  if cmd.Contains x y ∧ (cmd.type = .bckg ∨ clip.Contains x y) then ink art cmd x y else none

/-- The clip rectangle after some commands. -/
def lastClip (commands : List Command) : Rect :=
  commands.foldl (fun clip cmd => if cmd.type = .clip then cmd.toRect else clip) screen

/-- The clip rectangle and the color of a pixel after one more command. -/
def execute (art : Art) (x y : Int) (state : Rect × Option UInt32) (cmd : Command) : Rect × Option UInt32 :=
  (if cmd.type = .clip then cmd.toRect else state.1, (paint art state.1 cmd x y).or state.2)

/-- The color of a pixel after some commands, if any of them gives it one. -/
def picture (art : Art) (commands : List Command) (x y : Int) : Option UInt32 :=
  (commands.foldl (execute art x y) (screen, none)).2

/-- The commands that `gfxRedrawRegion` does not skip. -/
def seen (region : Rect) (commands : List Command) : List Command :=
  commands.filter fun cmd => rectOverlap region cmd.toRect

/-- The cell of a pixel. -/
def cellAt (x y : Int) : Rect := ⟨x / cellSize * cellSize, y / cellSize * cellSize, cellSize, cellSize⟩

/-- Where a drawing command would color a pixel that the last clip before it
excludes, the last clip before it that overlaps the cell of the pixel excludes
the pixel too. -/
def Harmless (art : Art) (commands : List Command) : Prop :=
  ∀ before cmd, before ++ [cmd] <+: commands → ∀ x y, screen.Contains x y →
    paint art screen cmd x y ≠ none → cmd.type ≠ .bckg → ¬ (lastClip before).Contains x y →
      ¬ (lastClip (seen (cellAt x y) before)).Contains x y

variable {art : Art} {r a b clip clip' region : Rect} {cmd : Command} {commands others before : List Command}
  {x y : Int}

theorem overlap_of_contains (left : a.Contains x y) (right : b.Contains x y) : rectOverlap a b = true := by
  obtain ⟨_, _, _, _⟩ := left
  obtain ⟨_, _, _, _⟩ := right
  simp only [rectOverlap, gt_iff_lt, Bool.and_eq_true, decide_eq_true_eq]
  omega

theorem not_contains_of_overlap (inside : region.Contains x y) (skipped : ¬ rectOverlap region r = true) :
    ¬ r.Contains x y := fun contains => skipped (overlap_of_contains inside contains)

@[simp] theorem lastClip_nil : lastClip [] = screen := rfl

theorem lastClip_concat :
    lastClip (commands ++ [cmd]) = if cmd.type = .clip then cmd.toRect else lastClip commands := by
  simp [lastClip]

@[simp] theorem picture_nil : picture art [] x y = none := rfl

theorem picture_concat :
    picture art (commands ++ [cmd]) x y = (paint art (lastClip commands) cmd x y).or (picture art commands x y) := by
  have clips : ∀ l : List Command, (l.foldl (execute art x y) (screen, none)).1 = lastClip l := by
    intro l
    induction l using List.reverseRecOn with
    | nil => rfl
    | append_singleton l cmd ih => rw [List.foldl_concat, lastClip_concat, execute, ih]
  rw [picture, List.foldl_concat, execute, clips]
  rfl

theorem seen_concat :
    seen region (commands ++ [cmd]) =
      if rectOverlap region cmd.toRect then seen region commands ++ [cmd] else seen region commands := by
  by_cases overlap : rectOverlap region cmd.toRect <;> simp [seen, overlap]

/-- The clip of the commands that are not skipped is the last one, or the last one is skipped. -/
theorem lastClip_seen (region : Rect) (commands : List Command) :
    lastClip (seen region commands) = lastClip commands ∨ ¬ rectOverlap region (lastClip commands) = true := by
  induction commands using List.reverseRecOn with
  | nil => exact .inl rfl
  | append_singleton commands cmd ih =>
    rw [seen_concat, lastClip_concat]
    by_cases overlap : rectOverlap region cmd.toRect <;> by_cases clip : cmd.type = .clip
    · simp [overlap, clip, lastClip_concat]
    · simpa [overlap, clip, lastClip_concat] using ih
    · simp [overlap, clip]
    · simpa [overlap, clip] using ih

theorem paint_of_clips (same : clip.Contains x y ↔ clip'.Contains x y) :
    paint art clip cmd x y = paint art clip' cmd x y := by
  simp only [paint, same]

theorem paint_outside (outside : ¬ cmd.Contains x y) : paint art clip cmd x y = none :=
  if_neg (fun both => outside both.1)

/-- A region that has everything which overlaps the cell of the pixel. -/
def Rect.Around (region : Rect) (x y : Int) : Prop :=
  region.Contains x y ∧ ∀ r, rectOverlap (cellAt x y) r = true → rectOverlap region r = true

theorem seen_seen (around : region.Around x y) :
    seen (cellAt x y) (seen region commands) = seen (cellAt x y) commands := by
  rw [seen, seen, List.filter_filter]
  refine List.filter_congr fun cmd _ => ?_
  have wider := around.2 cmd.toRect
  cases cell : rectOverlap (cellAt x y) cmd.toRect
  · rfl
  · rw [wider cell]
    rfl

theorem cellAt_sides (on : screen.Contains x y) :
    (cellAt x y).x = x / 16 * 16 ∧ (cellAt x y).right = x / 16 * 16 + 16 ∧ (cellAt x y).y = y / 16 * 16 ∧
      (cellAt x y).bottom = y / 16 * 16 + 16 := by
  obtain ⟨left, right, top, bottom⟩ := on
  have right : x < 1024 := right
  have bottom : y < 768 := bottom
  dsimp only [screen] at left top
  refine ⟨rfl, toInt32_of_range ?_ ?_, rfl, toInt32_of_range ?_ ?_⟩ <;> dsimp only [cellAt, cellSize] <;> omega

theorem cellAt_contains (on : screen.Contains x y) : (cellAt x y).Contains x y := by
  obtain ⟨left, right, top, bottom⟩ := cellAt_sides on
  refine ⟨?_, ?_, ?_, ?_⟩ <;> omega

/-- Skipped clips do not change what a command does inside a region. -/
theorem paint_seen (harmless : Harmless art commands) (front : before ++ [cmd] <+: commands)
    (on : screen.Contains x y) (around : region.Around x y) :
    paint art (lastClip (seen region before)) cmd x y = paint art (lastClip before) cmd x y := by
  rcases lastClip_seen region before with same | skipped
  · rw [same]
  have excluded := not_contains_of_overlap around.1 skipped
  by_cases drawn : paint art screen cmd x y ≠ none ∧ cmd.type ≠ .bckg
  · refine paint_of_clips (iff_of_false ?_ excluded)
    have cell := harmless before cmd front x y on drawn.1 drawn.2 excluded
    rw [← seen_seen around] at cell
    rcases lastClip_seen (cellAt x y) (seen region before) with same | skipped
    · rwa [← same]
    · exact not_contains_of_overlap (cellAt_contains on) skipped
  · have blank : cmd.Contains x y → ink art cmd x y = none ∨ cmd.type = .bckg := by
      intro inside
      rw [not_and_or, not_not, not_not, paint] at drawn
      simpa [inside, on] using drawn
    simp only [paint]
    by_cases inside : cmd.Contains x y
    · rcases blank inside with none | background
      · simp [none]
      · simp [background]
    · simp [inside]

theorem Harmless.front (harmless : Harmless art others) (front : commands <+: others) : Harmless art commands :=
  fun before cmd inner => harmless before cmd (inner.trans front)

/-- Replaying only the commands that overlap a region gives the picture inside it. -/
theorem picture_seen (harmless : Harmless art commands) (on : screen.Contains x y) (around : region.Around x y) :
    picture art (seen region commands) x y = picture art commands x y := by
  induction commands using List.reverseRecOn with
  | nil => rfl
  | append_singleton commands cmd ih =>
    have ih := ih (harmless.front (List.prefix_append _ _))
    rw [seen_concat, picture_concat]
    by_cases overlap : rectOverlap region cmd.toRect
    · rw [if_pos overlap, picture_concat, ih, paint_seen harmless List.prefix_rfl on around]
    · rw [if_neg overlap, ih, paint_outside (not_contains_of_overlap around.1 overlap), Option.none_or]

theorem around_cellAt (on : screen.Contains x y) : (cellAt x y).Around x y :=
  ⟨cellAt_contains on, fun _ overlap => overlap⟩

/-- The picture of a cell is made of the commands that overlap it. -/
theorem picture_of_cell (harmless : Harmless art commands) (harmless' : Harmless art others) (on : screen.Contains x y)
    (same : seen (cellAt x y) commands = seen (cellAt x y) others) :
    picture art commands x y = picture art others x y := by
  rw [← picture_seen harmless on (around_cellAt on), same, picture_seen harmless' on (around_cellAt on)]

end UmkaOs.Gfx
