import UmkaOs.Gfx.Dirty

namespace UmkaOs.Gfx

open Lib

variable {H : Type} {art : Art} {hashing : Hashing H} {region clip : Rect} {cmd : Command} {commands : List Command}
  {regions : List Rect}

/-- The index of a pixel of the screen. -/
def OnBuffer (k : Int) : Prop := 0 ≤ k ∧ k < screenWidth * screenHeight

/-- A `memcpy` of words from the background image to the back buffer. -/
structure CopiedRow where
  target : Int
  source : Int
  words : Nat

namespace CopiedRow

def writes (art : Art) (row : CopiedRow) : List (Int × UInt32) :=
  (List.range row.words).map fun (j : Nat) => (row.target + j, art.backgroundData (row.source + j))

/-- The words that are read are words of the image. -/
def InImage (art : Art) (row : CopiedRow) : Prop :=
  0 ≤ row.source ∧ row.source + row.words ≤ art.backgroundWidth.toNat * art.backgroundHeight.toNat

end CopiedRow

/-- The rows of `CMD_DRAW_BCKG`, without what they hold. -/
def copiedRows (art : Art) (region area : Rect) : List CopiedRow :=
  let z := rectIntersect region area
  (List.range z.h.toNat).flatMap fun (y : Nat) =>
    let texY := toInt32 (y + z.y - area.y)
    if texY < 0 ∨ texY ≥ art.backgroundHeight.toNat then []
    else [⟨toInt32 (z.x + (z.y + y) * screenWidth), z.x - area.x + texY * art.backgroundWidth.toNat,
      toUInt32 (z.w * 4) / 4⟩]

theorem backgroundRows_copied (art : Art) (region area : Rect) :
    backgroundRows art region area = (copiedRows art region area).flatMap (CopiedRow.writes art) := by
  simp only [backgroundRows, copiedRows, List.flatMap_assoc]
  refine List.flatMap_congr fun y _ => ?_
  split
  · rfl
  · rw [List.flatMap_singleton]
    rfl

/-- The writes of a command to the back buffer. -/
def commandWrites (art : Art) (region clip : Rect) (cmd : Command) : List (Int × UInt32) :=
  match cmd.type with
  | .bckg => backgroundRows art region cmd.toRect
  | .icon => gfxDoDrawIcon art clip cmd.color cmd.x cmd.y cmd.data
  | .char => gfxDoDrawChar art clip cmd.color cmd.x cmd.y cmd.data
  | .rect => gfxDoDrawRect clip cmd.color (rectIntersect region cmd.toRect)
  | .clip => []

/-- The writes of the loop over the commands, from a clip rectangle on. -/
def loopWrites (art : Art) (region : Rect) : Rect → List Command → List (Int × UInt32)
  | _, [] => []
  | clip, cmd :: rest =>
    if rectOverlap region cmd.toRect then
      commandWrites art region clip cmd ++ loopWrites art region (if cmd.type = .clip then cmd.toRect else clip) rest
    else loopWrites art region clip rest

/-- The rows that the loop over the commands copies. -/
def loopRows (art : Art) (region : Rect) (commands : List Command) : List CopiedRow :=
  (seen region commands).flatMap fun cmd => if cmd.type = .bckg then copiedRows art region cmd.toRect else []

namespace Display

variable {g : Display H}

/-- The writes to the back buffer while regions are drawn again. -/
def backbufferWrites (art : Art) (g : Display H) (regions : List Rect) : List (Int × UInt32) :=
  regions.flatMap fun region => loopWrites art region screen g.commands

/-- The writes to the framebuffer while regions are drawn again. -/
def pixelWrites (art : Art) : Display H → List Rect → List (Int × UInt8)
  | _, [] => []
  | g, region :: rest =>
    let g := gfxRedrawRegion art g region
    blitWrites g.backbuffer region ++ pixelWrites art g rest

/-- The rows that are copied while regions are drawn again. -/
def imageRows (art : Art) (g : Display H) (regions : List Rect) : List CopiedRow :=
  regions.flatMap fun region => loopRows art region g.commands

/-- All writes and copies stay inside their buffers. -/
structure InBounds (art : Art) (g : Display H) (regions : List Rect) : Prop where
  backbuffer : ∀ write ∈ backbufferWrites art g regions, OnBuffer write.1
  pixels : ∀ write ∈ pixelWrites art g regions, OnBuffer (write.1 / 3)
  background : ∀ row ∈ imageRows art g regions, row.InImage art

theorem drawCommand_backbuffer :
    (drawCommand art region g cmd).backbuffer = writeAll g.backbuffer (commandWrites art region g.clip cmd) := by
  cases type : cmd.type <;> simp [drawCommand, commandWrites, type, put, writeAll]

theorem drawAll_backbuffer :
    (drawAll art region g commands).backbuffer = writeAll g.backbuffer (loopWrites art region g.clip commands) := by
  induction commands generalizing g with
  | nil => rfl
  | cons cmd rest ih =>
    rw [drawAll, List.foldl_cons, loopWrites]
    by_cases overlap : rectOverlap region cmd.toRect
    · rw [if_pos overlap, if_pos overlap, ← drawAll, ih, drawCommand_backbuffer, drawCommand_clip, writeAll_append]
    · rw [if_neg overlap, if_neg overlap]
      exact ih

theorem gfxRedrawRegion_backbuffer : (gfxRedrawRegion art g region).backbuffer =
    writeAll g.backbuffer (loopWrites art region screen g.commands) :=
  drawAll_backbuffer

theorem gfxRedrawRegion_pixels : (gfxRedrawRegion art g region).pixels =
    writeAll g.pixels (blitWrites (gfxRedrawRegion art g region).backbuffer region) := by
  show writeAll (drawAll art region { g with clip := screen } g.commands).pixels _ = _
  rw [drawAll_frame.2.1]
  rfl

theorem redraw_writes : (regions.foldl (gfxRedrawRegion art) g).backbuffer =
      writeAll g.backbuffer (backbufferWrites art g regions) ∧
    (regions.foldl (gfxRedrawRegion art) g).pixels = writeAll g.pixels (pixelWrites art g regions) := by
  induction regions generalizing g with
  | nil => exact ⟨rfl, rfl⟩
  | cons region rest ih =>
    obtain ⟨backbuffer, pixels⟩ := @ih (gfxRedrawRegion art g region)
    rw [List.foldl_cons, backbuffer, pixels, gfxRedrawRegion_backbuffer]
    constructor
    · rw [backbufferWrites, backbufferWrites, List.flatMap_cons, writeAll_append, gfxRedrawRegion_frame.1]
    · rw [gfxRedrawRegion_pixels, pixelWrites, writeAll_append]

end Display

theorem onBuffer_of_screen {x y : Int} (on : screen.Contains x y) : OnBuffer (x + y * screenWidth) := by
  have edges : screen.right = 1024 ∧ screen.bottom = 768 := by decide
  obtain ⟨left, right, top, bottom⟩ := on
  dsimp only [screen] at left top
  dsimp only [OnBuffer, screenWidth, screenHeight]
  omega

theorem Draws.onBuffer {writes : List (Int × UInt32)} {ink : Int → Int → Option UInt32} (draws : Draws writes ink) :
    ∀ write ∈ writes, OnBuffer write.1 := by
  intro write member
  obtain ⟨x, y, on, index, _⟩ := (draws write.1 write.2).mp member
  rw [index]
  exact onBuffer_of_screen on

theorem commandWrites_onBuffer (on : clip.OnScreen) (plain : region.Plain) (wide : region.x < region.right)
    (formed : cmd.Formed) (overlap : rectOverlap region cmd.toRect = true) :
    ∀ write ∈ commandWrites art region clip cmd, OnBuffer write.1 := by
  unfold commandWrites
  cases type : cmd.type with
  | bckg => exact (@backgroundRows_draws art clip region cmd plain.toOnScreen wide formed type overlap).onBuffer
  | icon => exact (gfxDoDrawIcon_draws on formed type).onBuffer
  | char => exact (gfxDoDrawChar_draws on formed type).onBuffer
  | rect => exact (gfxDoDrawRect_draws on (overlap_plain plain.toOnScreen overlap)).onBuffer
  | clip => exact List.forall_mem_nil _

theorem loopWrites_onBuffer (on : clip.OnScreen) (plain : region.Plain) (wide : region.x < region.right)
    (formed : ∀ cmd ∈ commands, cmd.Formed) : ∀ write ∈ loopWrites art region clip commands, OnBuffer write.1 := by
  induction commands generalizing clip with
  | nil => exact List.forall_mem_nil _
  | cons cmd rest ih =>
    obtain ⟨first, later⟩ := List.forall_mem_cons.mp formed
    rw [loopWrites]
    by_cases overlap : rectOverlap region cmd.toRect
    · rw [if_pos overlap, List.forall_mem_append]
      refine ⟨commandWrites_onBuffer on plain wide first overlap, ih ?_ later⟩
      by_cases clips : cmd.type = .clip
      · rw [if_pos clips]
        exact clip_onScreen plain.toOnScreen first overlap clips
      · rwa [if_neg clips]
    · rw [if_neg overlap]
      exact ih on later

theorem blitWrites_onBuffer {buffer : Int → UInt32} (plain : region.Plain) :
    ∀ write ∈ Display.blitWrites buffer region, OnBuffer (write.1 / 3) := by
  intro write member
  obtain ⟨x, y, inside, i, small, index, _⟩ := (Display.blitWrites_mem plain).mp member
  have pixel : write.1 / 3 = x + y * screenWidth := by omega
  rw [pixel]
  exact onBuffer_of_screen (inside.on_screen plain.toOnScreen)

/-- A background command has the size of the image. -/
def Command.OfImage (art : Art) (cmd : Command) : Prop :=
  cmd.type = .bckg → cmd.w = art.backgroundWidth.toNat ∧ cmd.h = art.backgroundHeight.toNat

/-- Where it overlaps a region, its right side has not wrapped around. -/
theorem background_right (left : 0 ≤ region.x) (formed : cmd.Formed) (ofImage : cmd.OfImage art)
    (bckg : cmd.type = .bckg) (overlap : rectOverlap region cmd.toRect = true) :
    cmd.right = cmd.x + art.backgroundWidth.toNat := by
  have wraps : cmd.right % 2 ^ 32 = (cmd.x + cmd.w) % 2 ^ 32 := toInt32_emod (cmd.x + cmd.w)
  have range : cmd.right < 2 ^ 31 := (toInt32_range (cmd.x + cmd.w)).2
  have narrow := art.narrow
  have high := formed.x.2
  have start := (formed.bckg bckg).1
  rw [(ofImage bckg).1] at wraps
  simp only [rectOverlap, gt_iff_lt, Bool.and_eq_true, decide_eq_true_eq] at overlap
  omega

/-- A row that is copied starts in the image and ends in the same row of the image. -/
theorem copiedRows_inImage (plain : region.Plain) (wide : region.x < region.right) (formed : cmd.Formed)
    (ofImage : cmd.OfImage art) (bckg : cmd.type = .bckg) (overlap : rectOverlap region cmd.toRect = true) :
    ∀ row ∈ copiedRows art region cmd.toRect, row.InImage art := by
  have words := row_words plain.toOnScreen wide formed bckg overlap
  have z := overlap_plain plain.toOnScreen overlap
  have w := z.w
  have x := rectIntersect_x region cmd.toRect
  have right := rectIntersect_right region cmd.toRect
  have stop := background_right plain.left.1 formed ofImage bckg overlap
  intro row member
  simp only [copiedRows, List.mem_flatMap, List.mem_range, words, List.mem_ite_nil_left, List.mem_singleton,
    not_or, Int.not_lt, ge_iff_le, Int.not_le] at member
  obtain ⟨i, _, ⟨nonneg, less⟩, rfl⟩ := member
  simp only [rectOverlap, gt_iff_lt, Bool.and_eq_true, decide_eq_true_eq] at overlap
  have above := Int.mul_nonneg nonneg (Int.natCast_nonneg art.backgroundWidth.toNat)
  have below := Int.mul_le_mul_of_nonneg_right (Int.add_one_le_of_lt less)
    (Int.natCast_nonneg art.backgroundWidth.toNat)
  rw [Int.add_mul, Int.one_mul, Int.mul_comm (art.backgroundHeight.toNat : Int)] at below
  constructor
  · dsimp only
    omega
  · dsimp only
    omega

namespace Display

variable {g start : Display H} {steps : List (Display H × Call)}

theorem pixelWrites_onBuffer (strips : Strips regions) :
    ∀ write ∈ pixelWrites art g regions, OnBuffer (write.1 / 3) := by
  induction regions generalizing g with
  | nil => exact List.forall_mem_nil _
  | cons region rest ih =>
    obtain ⟨⟨row, run, rfl, low, nonempty, narrow⟩, later⟩ := List.forall_mem_cons.mp strips
    rw [pixelWrites, List.forall_mem_append]
    exact ⟨blitWrites_onBuffer (strip_plain low nonempty narrow).1, ih later⟩

/-- Strips of cells are drawn again inside the buffers. -/
theorem inBounds_of_strips (strips : Strips regions)
    (formed : ∀ cmd ∈ g.commands, cmd.Formed ∧ cmd.OfImage art) : InBounds art g regions := by
  have plain : ∀ region ∈ regions, region.Plain ∧ region.x < region.right := by
    intro region member
    obtain ⟨row, run, rfl, low, nonempty, narrow⟩ := strips region member
    exact strip_plain low nonempty narrow
  constructor
  · intro write member
    obtain ⟨region, among, written⟩ := List.mem_flatMap.mp member
    obtain ⟨plain, wide⟩ := plain region among
    exact loopWrites_onBuffer screen_onScreen plain wide (fun cmd queued => (formed cmd queued).1) write written
  · exact pixelWrites_onBuffer strips
  · intro row member
    obtain ⟨region, among, copied⟩ := List.mem_flatMap.mp member
    obtain ⟨plain, wide⟩ := plain region among
    obtain ⟨cmd, drawn, copied⟩ := List.mem_flatMap.mp copied
    obtain ⟨queued, overlap⟩ := List.mem_filter.mp drawn
    obtain ⟨bckg, copied⟩ := List.mem_ite_nil_right.mp copied
    obtain ⟨formed, ofImage⟩ := formed cmd queued
    exact copiedRows_inImage plain wide formed ofImage bckg overlap row copied

variable [DecidableEq H]

theorem call_ofImage (all : ∀ cmd ∈ g.commands, cmd.OfImage art) (call : Call) :
    ∀ cmd ∈ (g.call art hashing call).commands, cmd.OfImage art := by
  cases call with
  | setColor => exact all
  | drawBackground =>
    have narrow := art.narrow
    have low := art.low
    exact push_all all _ fun _ => ⟨signed32_small (by omega), signed32_small (by omega)⟩
  | swap => exact fun cmd member => absurd member (List.not_mem_nil)
  | _ => exact push_all all _ nofun

theorem run_commands (started : Started hashing start) (run : Run (Step art hashing) start steps g) :
    ∀ cmd ∈ g.commands, cmd.Formed ∧ cmd.OfImage art := by
  have first : ∀ cmd ∈ start.commands, cmd.Formed ∧ cmd.OfImage art := by simp [started.commands]
  refine @Run.invariant _ _ _ _ _ _ (fun g => ∀ cmd ∈ g.commands, cmd.Formed ∧ cmd.OfImage art)
    (fun {g call g'} all step => ?_) run first
  cases step
  intro cmd member
  exact ⟨call_formed (fun cmd member => (all cmd member).1) call cmd member,
    call_ofImage (fun cmd member => (all cmd member).2) call cmd member⟩

/-- In every run, whatever the hashes of the cells are, `gfxSwap` writes and copies
inside its buffers only. -/
theorem drawing_in_bounds (started : Started hashing start) (run : Run (Step art hashing) start steps g) :
    (∀ hashes1 hashes2 : Nat → H,
      InBounds art { g with hashes1 := hashes1, hashes2 := hashes2 } (dirtyRegions hashes1 hashes2)) ∧
      (g.gfxSwap art hashing).backbuffer =
        writeAll g.backbuffer (backbufferWrites art (g.hashed hashing) (swapRegions hashing g)) ∧
      (g.gfxSwap art hashing).pixels =
        writeAll g.pixels (pixelWrites art (g.hashed hashing) (swapRegions hashing g)) := by
  have commands := run_commands started run
  obtain ⟨backbuffer, pixels⟩ := gfxSwap_buffers art hashing g
  obtain ⟨backbuffer', pixels'⟩ := @redraw_writes H art (swapRegions hashing g) (g.hashed hashing)
  exact ⟨fun _ _ => inBounds_of_strips dirtyRegions_strips commands,
    backbuffer.trans backbuffer', pixels.trans pixels'⟩

theorem drawing_in_bounds_frame : InBounds plainArt
    { ([.drawBackground, .drawRect (-5) 700 2147483647 100].foldl (call plainArt listHashing) blank) with
      hashes1 := fun _ => none, hashes2 := fun i => if i < 70 then none else listHashing.init }
    (dirtyRegions (fun _ => none) (fun i => if i < 70 then none else listHashing.init)) :=
  (drawing_in_bounds blank_started (run_trace _ _ [.drawBackground, .drawRect (-5) 700 2147483647 100])).1 _ _

end Display

end UmkaOs.Gfx
