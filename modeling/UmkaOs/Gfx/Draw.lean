import Mathlib.Data.Int.Order.Basic
import Mathlib.Order.Basic
import UmkaOs.Gfx.Picture

namespace UmkaOs.Gfx

open Lib

variable {art : Art} {a b r clip region : Rect} {cmd : Command} {commands : List Command} {x y : Int} {k : Int}
  {color : UInt32}

namespace Rect

/-- All sides on the screen or on its edge. -/
structure OnScreen (r : Rect) : Prop where
  left : 0 ≤ r.x ∧ r.x ≤ 1024
  right : 0 ≤ r.right ∧ r.right ≤ 1024
  top : 0 ≤ r.y ∧ r.y ≤ 768
  bottom : 0 ≤ r.bottom ∧ r.bottom ≤ 768

/-- A rectangle on the screen whose size is the distance of its sides. -/
structure Plain (r : Rect) : Prop extends r.OnScreen where
  w : r.w = r.right - r.x
  h : r.h = r.bottom - r.y

theorem Contains.on_screen (contains : r.Contains x y) (on : r.OnScreen) : screen.Contains x y := by
  obtain ⟨left, right, top, bottom⟩ := contains
  have width : screen.right = 1024 := by decide
  have height : screen.bottom = 768 := by decide
  refine ⟨?_, ?_, ?_, ?_⟩
  · have := on.left; dsimp only [screen]; omega
  · have := on.right; omega
  · have := on.top; dsimp only [screen]; omega
  · have := on.bottom; omega

end Rect

theorem screen_onScreen : screen.OnScreen := ⟨by decide, by decide, by decide, by decide⟩

theorem rectIntersect_x (a b : Rect) : (rectIntersect a b).x = max a.x b.x := by
  rw [max_comm, max_def_lt]
  rfl

theorem rectIntersect_y (a b : Rect) : (rectIntersect a b).y = max a.y b.y := by
  rw [max_comm, max_def_lt]
  rfl

theorem rectIntersect_w (a b : Rect) : (rectIntersect a b).w = toInt32 (min a.right b.right - max a.x b.x) := by
  rw [← rectIntersect_x, min_def_lt]
  rfl

theorem rectIntersect_h (a b : Rect) : (rectIntersect a b).h = toInt32 (min a.bottom b.bottom - max a.y b.y) := by
  rw [← rectIntersect_y, min_def_lt]
  rfl

theorem rectIntersect_right (a b : Rect) : (rectIntersect a b).right = min a.right b.right := by
  have first := toInt32_range (a.x + a.w)
  have second := toInt32_range (b.x + b.w)
  rw [Rect.right, rectIntersect_x, rectIntersect_w]
  exact toInt32_add_sub (le_min first.1 second.1) (lt_of_le_of_lt (min_le_left _ _) first.2)

theorem rectIntersect_bottom (a b : Rect) : (rectIntersect a b).bottom = min a.bottom b.bottom := by
  have first := toInt32_range (a.y + a.h)
  have second := toInt32_range (b.y + b.h)
  rw [Rect.bottom, rectIntersect_y, rectIntersect_h]
  exact toInt32_add_sub (le_min first.1 second.1) (lt_of_le_of_lt (min_le_left _ _) first.2)

theorem rectIntersect_contains : (rectIntersect a b).Contains x y ↔ a.Contains x y ∧ b.Contains x y := by
  simp only [Rect.Contains, rectIntersect_x, rectIntersect_y, rectIntersect_right, rectIntersect_bottom]
  omega

theorem rectIntersect_plain (on : a.OnScreen) (left : b.x ≤ 1024) (right : 0 ≤ b.right) (top : b.y ≤ 768)
    (bottom : 0 ≤ b.bottom) : (rectIntersect a b).Plain := by
  obtain ⟨⟨left', _⟩, ⟨_, right'⟩, ⟨top', _⟩, ⟨_, bottom'⟩⟩ := on
  have x := rectIntersect_x a b
  have y := rectIntersect_y a b
  have r := rectIntersect_right a b
  have s := rectIntersect_bottom a b
  have w : (rectIntersect a b).w = min a.right b.right - max a.x b.x := by
    rw [rectIntersect_w]
    exact toInt32_of_range (by omega) (by omega)
  have h : (rectIntersect a b).h = min a.bottom b.bottom - max a.y b.y := by
    rw [rectIntersect_h]
    exact toInt32_of_range (by omega) (by omega)
  constructor
  · constructor <;> omega
  · rw [w, r, x]
  · rw [h, s, y]

/-- The writes of a drawing function that colors a pixel of the screen as `color` says. -/
def Draws (writes : List (Int × UInt32)) (ink : Int → Int → Option UInt32) : Prop :=
  ∀ k color, (k, color) ∈ writes ↔ ∃ x y, screen.Contains x y ∧ k = x + y * screenWidth ∧ ink x y = some color

theorem index_injective {x' y' : Int} (on : screen.Contains x y) (on' : screen.Contains x' y')
    (same : x + y * screenWidth = x' + y' * screenWidth) : x = x' ∧ y = y' := by
  have width : screen.right = 1024 := by decide
  obtain ⟨left, right, _, _⟩ := on
  obtain ⟨left', right', _, _⟩ := on'
  dsimp only [screen, screenWidth] at left left' same
  omega

theorem Draws.at {writes : List (Int × UInt32)} {ink : Int → Int → Option UInt32} (draws : Draws writes ink)
    (on : screen.Contains x y) (buffer : Int → UInt32) :
    writeAll buffer writes (x + y * screenWidth) = (ink x y).getD (buffer (x + y * screenWidth)) := by
  refine writeAll_at fun color => ?_
  rw [draws]
  constructor
  · rintro ⟨x', y', on', same, colored⟩
    obtain ⟨rfl, rfl⟩ := index_injective on on' same
    exact colored
  · exact fun colored => ⟨x, y, on, rfl, colored⟩

theorem rows_mem (plain : r.Plain) (pixel : Int → Int → Prop) :
    (∃ i < r.h.toNat, ∃ j < r.w.toNat, pixel (r.x + (j : Nat)) (r.y + (i : Nat))) ↔
      ∃ x y, r.Contains x y ∧ pixel x y := by
  have w := plain.w
  have h := plain.h
  constructor
  · rintro ⟨i, row, j, column, holds⟩
    exact ⟨r.x + j, r.y + i, ⟨by omega, by omega, by omega, by omega⟩, holds⟩
  · rintro ⟨x, y, ⟨left, right, top, bottom⟩, holds⟩
    refine ⟨(y - r.y).toNat, by omega, (x - r.x).toNat, by omega, ?_⟩
    rwa [Int.toNat_of_nonneg (by omega), Int.toNat_of_nonneg (by omega), Int.add_comm, Int.sub_add_cancel,
      Int.add_comm, Int.sub_add_cancel]

theorem index_range (on : screen.Contains x y) : toInt32 (x + y * screenWidth) = x + y * screenWidth := by
  have width : screen.right = 1024 := by decide
  have height : screen.bottom = 768 := by decide
  obtain ⟨left, right, top, bottom⟩ := on
  dsimp only [screen] at left top
  exact toInt32_of_range (by dsimp only [screenWidth]; omega) (by dsimp only [screenWidth]; omega)

theorem gfxSetPixel_mem (on : clip.OnScreen) :
    (k, color) ∈ gfxSetPixel clip x y c ↔ clip.Contains x y ∧ k = x + y * screenWidth ∧ c = color := by
  rw [gfxSetPixel]
  by_cases outside : x < clip.x ∨ y < clip.y ∨ x ≥ clip.right ∨ y ≥ clip.bottom
  · rw [if_pos outside]
    have excluded : ¬ clip.Contains x y := by
      rintro ⟨_, _, _, _⟩
      omega
    simp [excluded]
  · rw [if_neg outside]
    have inside : clip.Contains x y := ⟨by omega, by omega, by omega, by omega⟩
    rw [index_range (inside.on_screen on)]
    simp [inside, eq_comm]

/-- A sum that wraps around is negative. -/
theorem toInt32_small {start step : Int} (low : -2 ^ 31 ≤ start) (high : start < 2 ^ 31) (nonneg : 0 ≤ step)
    (small : step ≤ 16) (positive : 0 ≤ toInt32 (start + step)) : toInt32 (start + step) = start + step := by
  have range := toInt32_range (start + step)
  have wraps := toInt32_emod (start + step)
  omega

theorem glyph_mem {width height : Nat} {glyph : Nat → Nat → Option UInt32} (on : clip.OnScreen)
    (x_range : -2 ^ 31 ≤ r.x ∧ r.x < 2 ^ 31) (y_range : -2 ^ 31 ≤ r.y ∧ r.y < 2 ^ 31)
    (w : r.w = width) (h : r.h = height) (narrow : width ≤ 16) (low : height ≤ 16) :
    (∃ i < width, ∃ j < height, clip.Contains (toInt32 (r.x + (i : Nat))) (toInt32 (r.y + (j : Nat))) ∧
        k = toInt32 (r.x + i) + toInt32 (r.y + j) * screenWidth ∧ glyph i j = some color) ↔
      ∃ x y, screen.Contains x y ∧ k = x + y * screenWidth ∧
        (if r.Contains x y ∧ clip.Contains x y then glyph (x - r.x).toNat (y - r.y).toNat else none) = some color := by
  have right : r.x ≤ 1024 → r.right = r.x + width := fun small => by
    rw [Rect.right, w, toInt32_of_range] <;> omega
  have bottom : r.y ≤ 768 → r.bottom = r.y + height := fun small => by
    rw [Rect.bottom, h, toInt32_of_range] <;> omega
  have edges : screen.right = 1024 ∧ screen.bottom = 768 := by decide
  constructor
  · rintro ⟨i, column, j, row, inside, rfl, colored⟩
    have on' := inside.on_screen on
    have x := toInt32_small x_range.1 x_range.2 (Int.natCast_nonneg i) (by omega) on'.1
    have y := toInt32_small y_range.1 y_range.2 (Int.natCast_nonneg j) (by omega) on'.2.2.1
    rw [x, y] at on' inside
    have here : r.Contains (r.x + i) (r.y + j) := by
      obtain ⟨_, _, _, _⟩ := on'
      refine ⟨by omega, ?_, by omega, ?_⟩
      · rw [right] <;> omega
      · rw [bottom] <;> omega
    refine ⟨r.x + i, r.y + j, on', by rw [x, y], ?_⟩
    have column : (r.x + i - r.x).toNat = i := by omega
    have row : (r.y + j - r.y).toNat = j := by omega
    rw [if_pos ⟨here, inside⟩, column, row]
    exact colored
  · rintro ⟨x, y, on', rfl, colored⟩
    by_cases both : r.Contains x y ∧ clip.Contains x y
    · rw [if_pos both] at colored
      obtain ⟨⟨first, stop, above, below⟩, inside⟩ := both
      obtain ⟨_, _, _, _⟩ := on'
      rw [right (by omega)] at stop
      rw [bottom (by omega)] at below
      have column : toInt32 (r.x + (x - r.x).toNat) = x := by rw [toInt32_of_range] <;> omega
      have row : toInt32 (r.y + (y - r.y).toNat) = y := by rw [toInt32_of_range] <;> omega
      refine ⟨(x - r.x).toNat, by omega, (y - r.y).toNat, by omega, ?_, ?_, colored⟩
      · rwa [column, row]
      · rw [column, row]
    · rw [if_neg both] at colored
      cases colored

/-- What the calls that queue commands guarantee about them. -/
structure Command.Formed (cmd : Command) : Prop where
  x : -2 ^ 31 ≤ cmd.x ∧ cmd.x < 2 ^ 31
  y : -2 ^ 31 ≤ cmd.y ∧ cmd.y < 2 ^ 31
  bckg : cmd.type = .bckg → 0 ≤ cmd.x ∧ 0 ≤ cmd.y ∧ 0 ≤ cmd.w ∧ cmd.w < 2 ^ 31
  icon : cmd.type = .icon → cmd.w = 12 ∧ cmd.h = 16
  char : cmd.type = .char → cmd.w = 8 ∧ cmd.h = 8
  clip : cmd.type = .clip → 0 ≤ cmd.x ∧ cmd.right ≤ 1024 ∧ 0 ≤ cmd.y ∧ cmd.bottom ≤ 768

theorem gfxSetPixel_if {p : Prop} [Decidable p] (on : clip.OnScreen) :
    (k, color) ∈ (if p then gfxSetPixel clip x y c else []) ↔
      clip.Contains x y ∧ k = x + y * screenWidth ∧ (if p then some c else none) = some color := by
  by_cases bit : p
  · rw [if_pos bit, if_pos bit, gfxSetPixel_mem on, Option.some.injEq]
  · simp [bit]

theorem gfxDoDrawIcon_draws (on : clip.OnScreen) (formed : cmd.Formed) (icon : cmd.type = .icon) :
    Draws (gfxDoDrawIcon art clip cmd.color cmd.x cmd.y cmd.data) (paint art clip cmd) := by
  intro k color
  have glyph := @glyph_mem cmd.toRect clip k color 12 16 (fun i j =>
    let ccolor := art.iconData (i + cmd.data * 12 + j * art.iconWidth)
    if ccolor &&& 0xFF ≠ 0 then some (ccolor &&& cmd.color) else none) on formed.x formed.y
    (formed.icon icon).1 (formed.icon icon).2 (by omega) (by omega)
  simp only [gfxDoDrawIcon, List.mem_flatMap, List.mem_range, gfxSetPixel_if on]
  refine glyph.trans (exists_congr fun x => exists_congr fun y => ?_)
  by_cases inside : cmd.Contains x y
  · have column : ((x - cmd.x).toNat : Int) = x - cmd.x := Int.toNat_of_nonneg (by have := inside.1; omega)
    have row : ((y - cmd.y).toNat : Int) = y - cmd.y := Int.toNat_of_nonneg (by have := inside.2.2.1; omega)
    simp [paint, ink, icon, inside, column, row]
  · simp [paint, inside]

theorem loops_swap {m n : Nat} {p : Nat → Nat → Prop} :
    (∃ i < m, ∃ j < n, p i j) ↔ ∃ j < n, ∃ i < m, p i j :=
  ⟨fun ⟨i, row, j, column, h⟩ => ⟨j, column, i, row, h⟩, fun ⟨j, column, i, row, h⟩ => ⟨i, row, j, column, h⟩⟩

theorem gfxDoDrawChar_draws (on : clip.OnScreen) (formed : cmd.Formed) (char : cmd.type = .char) :
    Draws (gfxDoDrawChar art clip cmd.color cmd.x cmd.y cmd.data) (paint art clip cmd) := by
  intro k color
  have glyph := @glyph_mem cmd.toRect clip k color 8 8 (fun j i =>
    if (art.font8x8 cmd.data i).toNat.testBit j then some cmd.color else none) on formed.x formed.y
    (formed.char char).1 (formed.char char).2 (by omega) (by omega)
  simp only [gfxDoDrawChar, List.mem_flatMap, List.mem_range, gfxSetPixel_if on]
  rw [loops_swap]
  refine glyph.trans (exists_congr fun x => exists_congr fun y => ?_)
  simp [paint, ink, char]

theorem draws_iff {rect : Rect} (on : rect.OnScreen) {ink : Int → Int → Option UInt32}
    (inside : ∀ x y, ink x y ≠ none → rect.Contains x y) :
    (∃ x y, screen.Contains x y ∧ k = x + y * screenWidth ∧ ink x y = some color) ↔
      ∃ x y, rect.Contains x y ∧ toInt32 (x + y * screenWidth) = k ∧ ink x y = some color := by
  refine exists_congr fun x => exists_congr fun y => ?_
  constructor
  · rintro ⟨on', rfl, colored⟩
    exact ⟨inside x y (by simp [colored]), index_range on', colored⟩
  · rintro ⟨contains, index, colored⟩
    exact ⟨contains.on_screen on, by rw [← index, index_range (contains.on_screen on)], colored⟩

theorem gfxDoDrawRect_draws (on : clip.OnScreen) (plain : r.Plain) :
    Draws (gfxDoDrawRect clip c r) (fun x y => if clip.Contains x y ∧ r.Contains x y then some c else none) := by
  intro k color
  have both := rectIntersect_plain on plain.left.2 plain.right.1 plain.top.2 plain.bottom.1
  simp only [gfxDoDrawRect, List.mem_flatMap, List.mem_map, List.mem_range, Prod.mk.injEq]
  rw [rows_mem both (fun x y => toInt32 (x + y * screenWidth) = k ∧ c = color)]
  rw [draws_iff both.toOnScreen]
  · refine exists_congr fun x => exists_congr fun y => and_congr_right fun contains => ?_
    rw [if_pos (rectIntersect_contains.mp contains), Option.some.injEq]
  · intro x y colored
    by_contra outside
    rw [rectIntersect_contains] at outside
    exact colored (if_neg outside)

theorem overlap_plain (on : region.OnScreen) (overlap : rectOverlap region r = true) :
    (rectIntersect region r).Plain := by
  simp only [rectOverlap, gt_iff_lt, Bool.and_eq_true, decide_eq_true_eq] at overlap
  obtain ⟨⟨left, _⟩, ⟨_, right⟩, ⟨top, _⟩, ⟨_, bottom⟩⟩ := on
  exact rectIntersect_plain ⟨⟨left, by omega⟩, ⟨by omega, right⟩, ⟨top, by omega⟩, ⟨by omega, bottom⟩⟩
    (by omega) (by omega) (by omega) (by omega)

theorem background_word {z : Rect} {i j : Nat} (plain : z.Plain) (row : i < z.h.toNat) (column : j < z.w.toNat)
    (formed : cmd.Formed) (bckg : cmd.type = .bckg) :
    (¬ (toInt32 (i + z.y - cmd.y) < 0 ∨ toInt32 (i + z.y - cmd.y) ≥ art.backgroundHeight.toNat) ∧
        (toInt32 (z.x + (z.y + i) * screenWidth) + j,
          art.backgroundData (z.x - cmd.x + toInt32 (i + z.y - cmd.y) * art.backgroundWidth.toNat + j)) = (k, color)) ↔
      toInt32 (z.x + j + (z.y + i) * screenWidth) = k ∧ ink art cmd (z.x + j) (z.y + i) = some color := by
  have w := plain.w
  have h := plain.h
  obtain ⟨left, top, _, _⟩ := formed.bckg bckg
  obtain ⟨⟨x, _⟩, ⟨_, right⟩, ⟨y, _⟩, ⟨_, bottom⟩⟩ := plain.toOnScreen
  have high := formed.y.2
  have on : ∀ j' : Int, 0 ≤ j' → j' ≤ j →
      toInt32 (z.x + j' + (z.y + i) * screenWidth) = z.x + j' + (z.y + i) * screenWidth :=
    fun j' nonneg small => toInt32_of_range (by dsimp only [screenWidth]; omega) (by dsimp only [screenWidth]; omega)
  have start := on 0 (by omega) (by omega)
  rw [Int.add_zero] at start
  have texY : toInt32 (i + z.y - cmd.y) = z.y + i - cmd.y := by rw [toInt32_of_range] <;> omega
  rw [texY, start, on j (by omega) (by omega), Prod.mk.injEq, ink, bckg]
  by_cases inside : 0 ≤ z.y + i - cmd.y ∧ z.y + i - cmd.y < art.backgroundHeight.toNat
  · have data : z.x - cmd.x + (z.y + i - cmd.y) * art.backgroundWidth.toNat + j =
        z.x + j - cmd.x + (z.y + i - cmd.y) * art.backgroundWidth.toNat := by omega
    have row : ¬ (z.y + i - cmd.y < 0 ∨ z.y + i - cmd.y ≥ art.backgroundHeight.toNat) := by omega
    rw [if_pos inside, Option.some.injEq, data, Int.add_right_comm, and_iff_right row]
  · have row : z.y + i - cmd.y < 0 ∨ z.y + i - cmd.y ≥ art.backgroundHeight.toNat := by omega
    rw [if_neg inside]
    exact iff_of_false (fun both => both.1 row) (fun both => Option.some_ne_none _ both.2.symm)

theorem row_words (on : region.OnScreen) (wide : region.x < region.right) (formed : cmd.Formed)
    (bckg : cmd.type = .bckg) (overlap : rectOverlap region cmd.toRect = true) :
    toUInt32 ((rectIntersect region cmd.toRect).w * 4) / 4 = (rectIntersect region cmd.toRect).w.toNat := by
  have plain := overlap_plain on overlap
  have w := plain.w
  have x := rectIntersect_x region cmd.toRect
  have right := rectIntersect_right region cmd.toRect
  have small := plain.right
  have left := on.left
  obtain ⟨nonneg, _, narrow, high⟩ := formed.bckg bckg
  have sum : cmd.right % 2 ^ 32 = (cmd.x + cmd.w) % 2 ^ 32 := toInt32_emod (cmd.x + cmd.w)
  have low := formed.x.2
  have range : cmd.right < 2 ^ 31 := (toInt32_range (cmd.x + cmd.w)).2
  simp only [rectOverlap, gt_iff_lt, Bool.and_eq_true, decide_eq_true_eq] at overlap
  have positive : 0 ≤ (rectIntersect region cmd.toRect).w := by omega
  unfold toUInt32
  omega

theorem backgroundRows_draws (on : region.OnScreen) (wide : region.x < region.right) (formed : cmd.Formed)
    (bckg : cmd.type = .bckg) (overlap : rectOverlap region cmd.toRect = true) :
    Draws (backgroundRows art region cmd.toRect) (fun x y =>
      if region.Contains x y then paint art clip cmd x y else none) := by
  intro k color
  have plain := overlap_plain on overlap
  have rows := rows_mem plain (fun x y => toInt32 (x + y * screenWidth) = k ∧ ink art cmd x y = some color)
  simp only [backgroundRows, List.mem_flatMap, List.mem_range, row_words on wide formed bckg overlap]
  rw [draws_iff plain.toOnScreen]
  · refine Iff.trans (exists_congr fun i => and_congr_right fun row => ?_)
      (rows.trans (exists_congr fun x => exists_congr fun y => and_congr_right fun contains => ?_))
    · rw [List.mem_ite_nil_left, List.mem_map, ← exists_and_left]
      refine exists_congr fun j => ?_
      rw [List.mem_range, and_left_comm]
      exact and_congr_right fun column => background_word plain row column formed bckg
    · obtain ⟨inside, here⟩ := rectIntersect_contains.mp contains
      rw [if_pos inside, paint, if_pos ⟨here, .inl bckg⟩]
  · intro x y colored
    by_contra outside
    rw [rectIntersect_contains, not_and] at outside
    by_cases inside : region.Contains x y
    · exact colored (by rw [if_pos inside, paint_outside (outside inside)])
    · exact colored (if_neg inside)

theorem clip_onScreen (on : region.OnScreen) (formed : cmd.Formed) (overlap : rectOverlap region cmd.toRect = true)
    (clip : cmd.type = .clip) : cmd.OnScreen := by
  simp only [rectOverlap, gt_iff_lt, Bool.and_eq_true, decide_eq_true_eq] at overlap
  obtain ⟨left, right, top, bottom⟩ := formed.clip clip
  obtain ⟨⟨_, _⟩, ⟨_, _⟩, ⟨_, _⟩, ⟨_, _⟩⟩ := on
  exact ⟨⟨left, by omega⟩, ⟨by omega, right⟩, ⟨top, by omega⟩, ⟨by omega, bottom⟩⟩

/-- The bytes of a color in the framebuffer. -/
def channel (color : UInt32) : Nat → UInt8
  | 0 => color.toUInt8
  | 1 => (color >>> 8).toUInt8
  | _ => (color >>> 16).toUInt8

/-- The framebuffer has a color at a pixel. -/
def Shows (pixels : Int → UInt8) (x y : Int) (color : UInt32) : Prop :=
  ∀ i < 3, pixels ((x + y * screenWidth) * 3 + (i : Nat)) = channel color i

namespace Display

variable {H : Type} {g : Display H}

@[simp] theorem drawCommand_clip :
    (drawCommand art region g cmd).clip = if cmd.type = .clip then cmd.toRect else g.clip := by
  cases type : cmd.type <;> simp [drawCommand, type, put]

@[simp] theorem drawCommand_commands : (drawCommand art region g cmd).commands = g.commands := by
  cases type : cmd.type <;> simp [drawCommand, type, put]

@[simp] theorem drawCommand_pixels : (drawCommand art region g cmd).pixels = g.pixels := by
  cases type : cmd.type <;> simp [drawCommand, type, put]

@[simp] theorem drawCommand_hashes :
    (drawCommand art region g cmd).hashes1 = g.hashes1 ∧ (drawCommand art region g cmd).hashes2 = g.hashes2 := by
  cases type : cmd.type <;> simp [drawCommand, type, put]

/-- A pixel of the region after a command that is not skipped. -/
theorem drawCommand_at (on : g.clip.OnScreen) (plain : region.Plain) (wide : region.x < region.right)
    (formed : cmd.Formed) (overlap : rectOverlap region cmd.toRect = true) (inside : region.Contains x y) :
    (drawCommand art region g cmd).backbuffer (x + y * screenWidth) =
      (paint art g.clip cmd x y).getD (g.backbuffer (x + y * screenWidth)) := by
  have here := inside.on_screen plain.toOnScreen
  cases type : cmd.type with
  | bckg =>
    have rows := @backgroundRows_draws art g.clip region cmd plain.toOnScreen wide formed type overlap
    have drawn := rows.at here g.backbuffer
    rw [if_pos inside] at drawn
    simpa [drawCommand, type, put] using drawn
  | icon => simpa [drawCommand, type, put] using (gfxDoDrawIcon_draws on formed type).at here g.backbuffer
  | char => simpa [drawCommand, type, put] using (gfxDoDrawChar_draws on formed type).at here g.backbuffer
  | rect =>
    have drawn := (gfxDoDrawRect_draws (c := cmd.color) on (overlap_plain plain.toOnScreen overlap)).at here
      g.backbuffer
    have same : paint art g.clip cmd x y =
        if g.clip.Contains x y ∧ (rectIntersect region cmd.toRect).Contains x y then some cmd.color else none := by
      simp [paint, ink, type, rectIntersect_contains, inside, and_comm]
    rw [same]
    simpa [drawCommand, type, put] using drawn
  | clip => simp [drawCommand, type, paint, ink]

theorem drawAll_concat :
    drawAll art region g (commands ++ [cmd]) =
      if rectOverlap region cmd.toRect then drawCommand art region (drawAll art region g commands) cmd
      else drawAll art region g commands := by
  simp [drawAll]

theorem drawAll_frame : (drawAll art region g commands).commands = g.commands ∧
    (drawAll art region g commands).pixels = g.pixels ∧ (drawAll art region g commands).hashes1 = g.hashes1 ∧
      (drawAll art region g commands).hashes2 = g.hashes2 := by
  induction commands using List.reverseRecOn with
  | nil => simp [drawAll]
  | append_singleton commands cmd ih =>
    rw [drawAll_concat]
    split
    · simpa using ih
    · exact ih

theorem lastClip_onScreen (on : region.OnScreen) (formed : ∀ cmd ∈ commands, cmd.Formed) :
    (lastClip (seen region commands)).OnScreen := by
  induction commands using List.reverseRecOn with
  | nil => exact screen_onScreen
  | append_singleton commands cmd ih =>
    have ih := ih (fun cmd member => formed cmd (List.mem_append_left _ member))
    rw [seen_concat]
    by_cases overlap : rectOverlap region cmd.toRect
    · rw [if_pos overlap, lastClip_concat]
      by_cases clip : cmd.type = .clip
      · rw [if_pos clip]
        exact clip_onScreen on (formed cmd (by simp)) overlap clip
      · rwa [if_neg clip]
    · rwa [if_neg overlap]

/-- A pixel of the region after the loop over the commands: the picture of those
that are not skipped. -/
theorem drawAll_at (plain : region.Plain) (wide : region.x < region.right)
    (formed : ∀ cmd ∈ commands, cmd.Formed) (start : g.clip = screen) (inside : region.Contains x y) :
    (drawAll art region g commands).clip = lastClip (seen region commands) ∧
      (drawAll art region g commands).backbuffer (x + y * screenWidth) =
        (picture art (seen region commands) x y).getD (g.backbuffer (x + y * screenWidth)) := by
  induction commands using List.reverseRecOn with
  | nil => exact ⟨start, rfl⟩
  | append_singleton commands cmd ih =>
    have earlier : ∀ cmd ∈ commands, cmd.Formed := fun cmd member => formed cmd (List.mem_append_left _ member)
    obtain ⟨clip, colored⟩ := ih earlier
    rw [drawAll_concat, seen_concat]
    by_cases overlap : rectOverlap region cmd.toRect
    · rw [if_pos overlap, if_pos overlap, drawCommand_clip, lastClip_concat, clip, picture_concat]
      have on : (drawAll art region g commands).clip.OnScreen := clip ▸ lastClip_onScreen plain.toOnScreen earlier
      rw [drawCommand_at on plain wide (formed cmd (by simp)) overlap inside, clip, colored]
      refine ⟨rfl, ?_⟩
      cases paint art (lastClip (seen region commands)) cmd x y <;> rfl
    · rw [if_neg overlap, if_neg overlap]
      exact ⟨clip, colored⟩

theorem blitWrites_mem {buffer : Int → UInt32} {byte : UInt8} (plain : region.Plain) :
    (k, byte) ∈ blitWrites buffer region ↔ ∃ x y, region.Contains x y ∧
      ∃ i < 3, (x + y * screenWidth) * 3 + (i : Nat) = k ∧ channel (buffer (x + y * screenWidth)) i = byte := by
  rw [← rows_mem plain (fun x y =>
    ∃ i < 3, (x + y * screenWidth) * 3 + (i : Nat) = k ∧ channel (buffer (x + y * screenWidth)) i = byte)]
  simp only [blitWrites, List.mem_flatMap, List.mem_range]
  refine exists_congr fun i => and_congr_right fun _ => exists_congr fun j => and_congr_right fun _ => ?_
  constructor
  · intro member
    simp only [List.mem_cons, List.not_mem_nil, or_false, Prod.mk.injEq] at member
    rcases member with ⟨rfl, rfl⟩ | ⟨rfl, rfl⟩ | ⟨rfl, rfl⟩
    · exact ⟨0, by omega, Int.add_zero _, rfl⟩
    · exact ⟨1, by omega, rfl, rfl⟩
    · exact ⟨2, by omega, rfl, rfl⟩
  · rintro ⟨c, small, rfl, rfl⟩
    obtain rfl | rfl | rfl : c = 0 ∨ c = 1 ∨ c = 2 := by omega
    · simp [channel]
    · simp [channel]
    · simp [channel]

theorem blit_at (plain : region.Plain) (on : screen.Contains x y) {i : Nat} (small : i < 3) :
    (blit g region).pixels ((x + y * screenWidth) * 3 + i) =
      if region.Contains x y then channel (g.backbuffer (x + y * screenWidth)) i
      else g.pixels ((x + y * screenWidth) * 3 + i) := by
  have written := @writeAll_at _ _ _ g.pixels (blitWrites g.backbuffer region) ((x + y * screenWidth) * 3 + i)
    (if region.Contains x y then some (channel (g.backbuffer (x + y * screenWidth)) i) else none) fun byte => by
      rw [blitWrites_mem plain]
      constructor
      · rintro ⟨x', y', inside, i', small', index, rfl⟩
        have same : x' + y' * screenWidth = x + y * screenWidth := by omega
        obtain ⟨rfl, rfl⟩ := index_injective (inside.on_screen plain.toOnScreen) on same
        obtain rfl : i' = i := by omega
        exact if_pos inside
      · intro value
        by_cases inside : region.Contains x y
        · rw [if_pos inside] at value
          exact ⟨x, y, inside, i, small, rfl, Option.some.inj value⟩
        · rw [if_neg inside] at value
          cases value
  refine written.trans ?_
  split <;> rfl

theorem gfxRedrawRegion_frame : (gfxRedrawRegion art g region).commands = g.commands ∧
    (gfxRedrawRegion art g region).hashes1 = g.hashes1 ∧ (gfxRedrawRegion art g region).hashes2 = g.hashes2 := by
  obtain ⟨commands, _, hashes1, hashes2⟩ := @drawAll_frame art region g.commands H { g with clip := screen }
  exact ⟨commands, hashes1, hashes2⟩

/-- Inside the region the framebuffer has the picture of the commands that are not skipped. -/
theorem gfxRedrawRegion_inside (plain : region.Plain) (wide : region.x < region.right)
    (formed : ∀ cmd ∈ g.commands, cmd.Formed) (inside : region.Contains x y)
    (colored : picture art (seen region g.commands) x y = some color) :
    Shows (gfxRedrawRegion art g region).pixels x y color := by
  intro i small
  rw [gfxRedrawRegion, blit_at plain (inside.on_screen plain.toOnScreen) small, if_pos inside,
    (drawAll_at plain wide formed rfl inside).2, colored, Option.getD_some]

theorem gfxRedrawRegion_outside (plain : region.Plain) (on : screen.Contains x y) (outside : ¬ region.Contains x y)
    {i : Nat} (small : i < 3) : (gfxRedrawRegion art g region).pixels ((x + y * screenWidth) * 3 + i) =
      g.pixels ((x + y * screenWidth) * 3 + i) := by
  rw [gfxRedrawRegion, blit_at plain on small, if_neg outside, drawAll_frame.2.1]

end Display

end UmkaOs.Gfx
