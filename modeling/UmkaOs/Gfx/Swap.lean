import UmkaOs.Gfx.Cells

namespace UmkaOs.Gfx

open Lib

variable {H : Type} {art : Art} {hashing : Hashing H} {region : Rect} {cmd : Command}
  {commands others : List Command} {x y : Int} {i : Nat} {color : UInt32}

namespace Display

variable {g : Display H} {regions : List Rect}

/-- The regions that `gfxSwap` draws are strips of cells. -/
def Strips (regions : List Rect) : Prop :=
  ∀ region ∈ regions, ∃ row run, region = strip row run ∧ row < cellsY ∧ run.1 < run.2 ∧ run.2 ≤ cellsX

theorem redraw_frame : (regions.foldl (gfxRedrawRegion art) g).commands = g.commands ∧
    (regions.foldl (gfxRedrawRegion art) g).hashes1 = g.hashes1 := by
  induction regions generalizing g with
  | nil => exact ⟨rfl, rfl⟩
  | cons region rest ih =>
    obtain ⟨commands, hashes1, _⟩ := @gfxRedrawRegion_frame art region H g
    rw [List.foldl_cons, ih.1, ih.2, commands, hashes1]
    exact ⟨rfl, rfl⟩

theorem redraw_outside (strips : Strips regions) (on : screen.Contains x y)
    (outside : ∀ region ∈ regions, ¬ region.Contains x y) (small : i < 3) :
    (regions.foldl (gfxRedrawRegion art) g).pixels ((x + y * screenWidth) * 3 + i) =
      g.pixels ((x + y * screenWidth) * 3 + i) := by
  induction regions generalizing g with
  | nil => rfl
  | cons region rest ih =>
    obtain ⟨row, run, rfl, low, nonempty, narrow⟩ := strips region (by simp)
    rw [List.foldl_cons, ih (fun region member => strips region (List.mem_cons_of_mem _ member))
      (fun region member => outside region (List.mem_cons_of_mem _ member))]
    exact gfxRedrawRegion_outside (strip_plain low nonempty narrow).1 on (outside _ (by simp)) small

/-- A pixel of some region shows what the last region that contains it drew there. -/
theorem redraw_inside (strips : Strips regions) (on : screen.Contains x y) (formed : ∀ cmd ∈ g.commands, cmd.Formed)
    (inside : ∃ region ∈ regions, region.Contains x y) :
    ∃ row run, strip row run ∈ regions ∧ row < cellsY ∧ run.1 < run.2 ∧ run.2 ≤ cellsX ∧
      (strip row run).Contains x y ∧ ∀ color, picture art (seen (strip row run) g.commands) x y = some color →
        Shows (regions.foldl (gfxRedrawRegion art) g).pixels x y color := by
  induction regions using List.reverseRecOn with
  | nil => simp at inside
  | append_singleton regions region ih =>
    have strips' : Strips regions := fun region member => strips region (List.mem_append_left _ member)
    obtain ⟨row, run, rfl, low, nonempty, narrow⟩ := strips region (by simp)
    rw [List.foldl_concat]
    by_cases here : (strip row run).Contains x y
    · refine ⟨row, run, by simp, low, nonempty, narrow, here, fun color colored => ?_⟩
      obtain ⟨plain, wide⟩ := strip_plain low nonempty narrow
      refine gfxRedrawRegion_inside plain wide ?_ here ?_ <;> rw [redraw_frame.1]
      · exact formed
      · exact colored
    · obtain ⟨region, member, contains⟩ := inside
      have earlier : region ∈ regions := by
        rcases List.mem_append.mp member with earlier | last
        · exact earlier
        · exact absurd (List.mem_singleton.mp last ▸ contains) here
      obtain ⟨row', run', member', low', nonempty', narrow', contains', shows⟩ :=
        ih strips' ⟨region, earlier, contains⟩
      refine ⟨row', run', List.mem_append_left _ member', low', nonempty', narrow', contains', ?_⟩
      intro color colored i small
      rw [gfxRedrawRegion_outside (strip_plain low nonempty narrow).1 on here small]
      exact shows color colored i small

variable [DecidableEq H]

theorem dirtyRegions_strips {hashes1 hashes2 : Nat → H} : Strips (dirtyRegions hashes1 hashes2) := by
  intro region member
  obtain ⟨row, run, same, low, nonempty, narrow, _⟩ := dirtyRegions_mem member
  exact ⟨row, run, same, low, nonempty, narrow⟩

/-- A cell with a changed hash is drawn again, in one of the strips. -/
theorem gfxSwap_dirty (formed : ∀ cmd ∈ g.commands, cmd.Formed) (on : screen.Contains x y)
    (dirty : (touching (cellIndex x y) g.commands).foldl hashing.mix (g.hashes1 (cellIndex x y)) ≠
      g.hashes2 (cellIndex x y)) :
    ∃ row run, row < cellsY ∧ run.1 < run.2 ∧ run.2 ≤ cellsX ∧ (strip row run).Contains x y ∧
      ∀ color, picture art (seen (strip row run) g.commands) x y = some color →
        Shows (g.gfxSwap art hashing).pixels x y color := by
  rw [← hash_at] at dirty
  obtain ⟨row, run, _, low, nonempty, narrow, inside, shows⟩ :=
    @redraw_inside H art x y { g with hashes1 := g.commands.foldl (hashCommand hashing) g.hashes1 } _
      dirtyRegions_strips on formed ((dirtyRegions_contains on).mpr dirty)
  exact ⟨row, run, low, nonempty, narrow, inside, shows⟩

/-- A cell with its old hash is left alone. -/
theorem gfxSwap_clean (on : screen.Contains x y)
    (clean : (touching (cellIndex x y) g.commands).foldl hashing.mix (g.hashes1 (cellIndex x y)) =
      g.hashes2 (cellIndex x y)) (small : i < 3) :
    (g.gfxSwap art hashing).pixels ((x + y * screenWidth) * 3 + i) = g.pixels ((x + y * screenWidth) * 3 + i) := by
  rw [← hash_at] at clean
  refine @redraw_outside H art x y i { g with hashes1 := g.commands.foldl (hashCommand hashing) g.hashes1 } _
    dirtyRegions_strips on (fun region member inside => ?_) small
  exact (dirtyRegions_contains on).mp ⟨region, member, inside⟩ clean

end Display

/-- No two chains of commands have one hash, and none has the hash that no cell has yet. -/
structure Hashing.CollisionFree (hashing : Hashing H) : Prop where
  chain : ∀ start ∈ [hashing.zeros, hashing.init], ∀ start' ∈ [hashing.zeros, hashing.init],
    ∀ commands others : List Command, commands.foldl hashing.mix start = others.foldl hashing.mix start' →
      commands = others
  ones : ∀ start ∈ [hashing.zeros, hashing.init], ∀ commands : List Command,
    commands.foldl hashing.mix start ≠ hashing.ones

/-- The first command of the frame is a rectangle that covers the screen. -/
def Covered (commands : List Command) : Prop :=
  ∃ cmd rest, commands = cmd :: rest ∧ cmd.type = .rect ∧ ∀ x y, screen.Contains x y → cmd.Contains x y

/-- The framebuffer has the picture of a frame. -/
def ShowsPicture (art : Art) (commands : List Command) (pixels : Int → UInt8) : Prop :=
  ∀ x y, screen.Contains x y → ∃ color, picture art commands x y = some color ∧ Shows pixels x y color

theorem Covered.picture (covered : Covered commands) (on : screen.Contains x y) :
    ∃ color, picture art commands x y = some color := by
  obtain ⟨cmd, rest, rfl, type, covers⟩ := covered
  induction rest using List.reverseRecOn with
  | nil =>
    refine ⟨cmd.color, ?_⟩
    rw [← List.nil_append [cmd], picture_concat]
    simp [paint, ink, type, covers x y on, on]
  | append_singleton rest last ih =>
    obtain ⟨color, colored⟩ := ih
    rw [← List.cons_append, picture_concat, colored]
    cases paint art (lastClip (cmd :: rest)) last x y with
    | none => exact ⟨color, rfl⟩
    | some other => exact ⟨other, rfl⟩

theorem harmless_of_no_clip (unclipped : ∀ cmd ∈ commands, cmd.type ≠ .clip) : Harmless art commands := by
  intro before cmd front x y on _ _ excluded
  have none : lastClip before = screen := by
    have members : ∀ cmd ∈ before, cmd.type ≠ .clip :=
      fun cmd member => unclipped cmd (front.subset (List.mem_append_left _ member))
    clear front excluded
    induction before using List.reverseRecOn with
    | nil => rfl
    | append_singleton before cmd ih =>
      rw [lastClip_concat, if_neg (members cmd (by simp))]
      exact ih (fun cmd member => members cmd (List.mem_append_left _ member))
  exact absurd (none ▸ on) excluded

namespace Display

variable [DecidableEq H] {g last : Display H} {steps : List (Display H × Call)}

/-- Between two calls: the queue is well formed, and the framebuffer has the
picture of the frame that the hashes were taken from, if there was one. -/
structure Synced (art : Art) (hashing : Hashing H) (g : Display H) : Prop where
  formed : ∀ cmd ∈ g.commands, cmd.Formed
  fresh : ∃ start ∈ [hashing.zeros, hashing.init], g.hashes1 = fun _ => start
  shown : (g.hashes2 = fun _ => hashing.ones) ∨ ∃ commands, ∃ start ∈ [hashing.zeros, hashing.init],
    Harmless art commands ∧ (g.hashes2 = fun i => (touching i commands).foldl hashing.mix start) ∧
      ShowsPicture art commands g.pixels

theorem swap_shows (free : hashing.CollisionFree) (synced : g.Synced art hashing) (covered : Covered g.commands)
    (harmless : Harmless art g.commands) : ShowsPicture art g.commands (g.gfxSwap art hashing).pixels := by
  intro x y on
  obtain ⟨color, colored⟩ := @Covered.picture art _ x y covered on
  refine ⟨color, colored, ?_⟩
  by_cases clean : (touching (cellIndex x y) g.commands).foldl hashing.mix (g.hashes1 (cellIndex x y)) =
      g.hashes2 (cellIndex x y)
  · obtain ⟨start, seed, hashes1⟩ := synced.fresh
    rw [hashes1] at clean
    rcases synced.shown with never | ⟨others, start', seed', harmless', hashes2, shows⟩
    · exact absurd (clean.trans (congrFun never _)) (free.ones start seed _)
    · rw [hashes2] at clean
      have same := free.chain start seed start' seed' _ _ clean
      obtain ⟨color', colored', shows⟩ := shows x y on
      have equal : color' = color := by
        rw [← picture_of_cell harmless harmless' on (seen_of_touching on same), colored] at colored'
        exact (Option.some.inj colored').symm
      intro i small
      rw [gfxSwap_clean on (by rw [hashes1, hashes2]; exact clean) small, ← equal]
      exact shows i small
  · obtain ⟨row, run, low, nonempty, narrow, inside, shows⟩ := gfxSwap_dirty synced.formed on clean
    exact shows color (by rw [picture_seen harmless on (strip_around low nonempty narrow on inside), colored])

theorem signed32_small {n : Nat} (small : n < 2 ^ 31) : signed32 n = n := by
  rw [signed32, wrap32_of_lt (by omega), if_pos small]

theorem centered_range (screenSize : Nat) (size : UInt32) :
    0 ≤ centered screenSize size ∧ centered screenSize size < 2 ^ 31 := by
  have word := wrap32_lt (screenSize + (2 ^ 32 - size.toNat))
  rw [centered, signed32_small (by omega)]
  omega

omit [DecidableEq H] in
theorem push_all {property : Command → Prop} (all : ∀ cmd ∈ g.commands, property cmd) (new : Command)
    (ok : property new) : ∀ cmd ∈ (g.push new).commands, property cmd := by
  unfold push
  split
  · exact all
  · intro other member
    rcases List.mem_append.mp member with old | last
    · exact all other old
    · exact List.mem_singleton.mp last ▸ ok

omit [DecidableEq H] in
theorem push_frame : (g.push cmd).hashes1 = g.hashes1 ∧ (g.push cmd).hashes2 = g.hashes2 ∧
    (g.push cmd).pixels = g.pixels := by
  unfold push
  split <;> exact ⟨rfl, rfl, rfl⟩

theorem call_formed (formed : ∀ cmd ∈ g.commands, cmd.Formed) (call : Call) :
    ∀ cmd ∈ (g.call art hashing call).commands, cmd.Formed := by
  have range : ∀ n : Int32, -2 ^ 31 ≤ n.toInt ∧ n.toInt < 2 ^ 31 := fun n => ⟨n.le_toInt, n.toInt_lt⟩
  cases call with
  | setColor r g b a => exact formed
  | drawBackground =>
    have x := centered_range 1024 art.backgroundWidth
    have y := centered_range 768 art.backgroundHeight
    have narrow := art.narrow
    refine push_all formed _ ⟨⟨?_, x.2⟩, ⟨?_, y.2⟩, fun _ => ⟨x.1, y.1, ?_⟩, nofun, nofun, nofun⟩ <;> dsimp only
    · omega
    · omega
    rw [signed32_small (by omega)]
    omega
  | drawIcon x y c => exact push_all formed _ ⟨range x, range y, nofun, fun _ => ⟨rfl, rfl⟩, nofun, nofun⟩
  | drawChar x y c => exact push_all formed _ ⟨range x, range y, nofun, nofun, fun _ => ⟨rfl, rfl⟩, nofun⟩
  | drawRect x y w h => exact push_all formed _ ⟨range x, range y, nofun, nofun, nofun, nofun⟩
  | drawClip x y w h =>
    have left := rectIntersect_x ⟨x.toInt, y.toInt, w.toInt, h.toInt⟩ screen
    have right := rectIntersect_right ⟨x.toInt, y.toInt, w.toInt, h.toInt⟩ screen
    have top := rectIntersect_y ⟨x.toInt, y.toInt, w.toInt, h.toInt⟩ screen
    have bottom := rectIntersect_bottom ⟨x.toInt, y.toInt, w.toInt, h.toInt⟩ screen
    have edges : screen.x = 0 ∧ screen.right = 1024 ∧ screen.y = 0 ∧ screen.bottom = 768 := by decide
    have x_range := range x
    have y_range := range y
    dsimp only at left top
    exact push_all formed _ ⟨by dsimp only; omega, by dsimp only; omega, nofun, nofun, nofun,
      fun _ => ⟨by dsimp only; omega, by dsimp only; omega, by dsimp only; omega, by dsimp only; omega⟩⟩
  | swap => exact fun cmd member => absurd member (List.not_mem_nil)

/-- Queueing changes neither the hashes nor the framebuffer. -/
theorem call_frame {call : Call} (queues : call ≠ .swap) :
    (g.call art hashing call).hashes1 = g.hashes1 ∧ (g.call art hashing call).hashes2 = g.hashes2 ∧
      (g.call art hashing call).pixels = g.pixels := by
  cases call with
  | swap => exact absurd rfl queues
  | setColor => exact ⟨rfl, rfl, rfl⟩
  | _ => exact push_frame

theorem gfxSwap_hashes : (g.gfxSwap art hashing).hashes1 = (fun _ => hashing.init) ∧
    (g.gfxSwap art hashing).hashes2 = fun i => (touching i g.commands).foldl hashing.mix (g.hashes1 i) := by
  refine ⟨rfl, ?_⟩
  rw [gfxSwap]
  dsimp only
  rw [redraw_frame.2]
  exact funext fun i => hash_at

theorem step_synced (free : hashing.CollisionFree) {g' : Display H} {call : Call} (synced : g.Synced art hashing)
    (frame : call = .swap → Covered g.commands ∧ Harmless art g.commands) (step : Step art hashing g call g') :
    g'.Synced art hashing := by
  cases step
  have formed := @call_formed H art hashing _ g synced.formed call
  by_cases swap : call = .swap
  · subst swap
    obtain ⟨covered, harmless⟩ := frame rfl
    obtain ⟨start, seed, hashes1⟩ := synced.fresh
    refine ⟨formed, ⟨hashing.init, by simp, gfxSwap_hashes.1⟩, .inr ⟨g.commands, start, seed, harmless, ?_,
      swap_shows free synced covered harmless⟩⟩
    refine gfxSwap_hashes.2.trans (funext fun i => ?_)
    rw [hashes1]
  · obtain ⟨hashes1, hashes2, pixels⟩ := @call_frame H art hashing _ g call swap
    refine ⟨formed, ?_, ?_⟩
    · rw [hashes1]
      exact synced.fresh
    · rw [hashes2, pixels]
      exact synced.shown

omit [DecidableEq H] in
theorem Started.synced (started : Started hashing g) : g.Synced art hashing :=
  ⟨by simp [started.commands], ⟨hashing.zeros, by simp, started.hashes1⟩, .inl started.hashes2⟩

omit [DecidableEq H] in
/-- A property of the commands of every frame of a run. -/
def EveryFrame (property : List Command → Prop) (steps : List (Display H × Call)) : Prop :=
  ∀ step ∈ steps, step.2 = .swap → property step.1.commands

/-- After every `gfxSwap` of a run the framebuffer has the picture of the frame. -/
def ShowsFrames (art : Art) (hashing : Hashing H) (steps : List (Display H × Call)) : Prop :=
  ∀ step ∈ steps, step.2 = .swap → ShowsPicture art step.1.commands (step.1.gfxSwap art hashing).pixels

/-- In every run whose frames cover the screen and have no skipped clip rectangle
that matters, the framebuffer has the picture of every frame. -/
theorem redraw_exact (free : hashing.CollisionFree) (started : Started hashing g)
    (run : Run (Step art hashing) g steps last)
    (covered : EveryFrame Covered steps) (harmless : EveryFrame (Harmless art) steps) :
    ShowsFrames art hashing steps := by
  rintro ⟨frame, call⟩ member swap
  obtain ⟨front, after, back, rfl, reach, _, _⟩ := run.around member
  have synced : frame.Synced art hashing := by
    refine @Run.history_of _ _ _ _ _ _ (fun g _ => g.Synced art hashing)
      (fun step => step.2 = .swap → Covered step.1.commands ∧ Harmless art step.1.commands)
      (fun synced good step => step_synced free synced good step) reach (fun step before swap => ?_) [] started.synced
    have earlier := List.mem_append_left ((frame, call) :: back) before
    exact ⟨covered step earlier swap, harmless step earlier swap⟩
  exact swap_shows free synced (covered _ member swap) (harmless _ member swap)

end Display

/-- Hashes that are the commands themselves. -/
def listHashing : Hashing (Option (Bool × List Command)) where
  zeros := some (false, [])
  ones := none
  init := some (true, [])
  mix hash cmd := hash.map fun chain => (chain.1, chain.2 ++ [cmd])

def plainArt : Art where
  font8x8 _ _ := 0
  iconWidth := 12
  iconData _ := 0
  backgroundWidth := 16
  backgroundHeight := 16
  backgroundData _ := 0
  narrow := by decide
  low := by decide

def blank : Display (Option (Bool × List Command)) where
  commands := []
  color := 0xFFFFFF
  clip := screen
  backbuffer _ := 0
  pixels _ := 0
  hashes1 _ := listHashing.zeros
  hashes2 _ := listHashing.ones

theorem listHashing_chain (marked : Bool) (before commands : List Command) :
    commands.foldl listHashing.mix (some (marked, before)) = some (marked, before ++ commands) := by
  induction commands generalizing before with
  | nil => simp
  | cons cmd rest ih =>
    rw [List.foldl_cons]
    exact (ih (before ++ [cmd])).trans (by simp)

theorem listHashing_start {start : Option (Bool × List Command)}
    (seed : start ∈ [listHashing.zeros, listHashing.init]) : ∃ marked, start = some (marked, []) := by
  simp only [listHashing, List.mem_cons, List.not_mem_nil, or_false] at seed
  rcases seed with rfl | rfl
  · exact ⟨false, rfl⟩
  · exact ⟨true, rfl⟩

theorem listHashing_free : listHashing.CollisionFree := by
  constructor
  · intro start seed start' seed' commands others same
    obtain ⟨_, rfl⟩ := listHashing_start seed
    obtain ⟨_, rfl⟩ := listHashing_start seed'
    rw [listHashing_chain, listHashing_chain] at same
    simpa using (congrArg (Option.map Prod.snd) same)
  · intro start seed commands same
    obtain ⟨_, rfl⟩ := listHashing_start seed
    rw [listHashing_chain] at same
    cases same

theorem blank_started : Display.Started listHashing blank := ⟨rfl, rfl, rfl⟩

/-- The steps of a program that starts on the blank display. -/
def stepsOf (calls : List Call) : List (Display (Option (Bool × List Command)) × Call) :=
  trace (Display.call plainArt listHashing) blank calls

def cover (color : UInt32) : Command :=
  { type := .rect, data := 0, color, x := 0, y := 0, w := 1024, h := 768 }

theorem cover_covers (color : UInt32) (rest : List Command) : Covered (cover color :: rest) :=
  ⟨cover color, rest, rfl, rfl, fun _ _ on => on⟩

/-- A frame that covers the screen, and one that draws a square on it. -/
def twoFrames : List Call :=
  [.drawRect 0 0 1024 768, .swap, .drawRect 0 0 1024 768, .drawRect 10 10 20 20, .swap]

theorem twoFrames_commands : ∀ step ∈ stepsOf twoFrames, step.2 = .swap →
    ∃ first rest, step.1.commands = cover first :: rest ∧ ∀ cmd ∈ step.1.commands, cmd.type ≠ .clip := by
  simp only [stepsOf, twoFrames, trace, List.forall_mem_cons]
  refine ⟨nofun, fun _ => ⟨_, [], rfl, ?_⟩, nofun, nofun, fun _ => ⟨_, [_], rfl, ?_⟩, List.forall_mem_nil _⟩
  · intro cmd member
    rw [List.mem_singleton.mp member]
    nofun
  · intro cmd member
    rcases List.mem_cons.mp member with rfl | member
    · nofun
    · rw [List.mem_singleton.mp member]
      nofun

theorem redraw_exact_frames : Display.ShowsFrames plainArt listHashing (stepsOf twoFrames) :=
  Display.redraw_exact listHashing_free blank_started (run_trace _ _ _)
    (fun step member swap => by
      obtain ⟨first, rest, commands, _⟩ := twoFrames_commands step member swap
      exact commands ▸ cover_covers first rest)
    (fun step member swap => by
      obtain ⟨_, _, _, unclipped⟩ := twoFrames_commands step member swap
      exact harmless_of_no_clip unclipped)

def corner : Command := { type := .clip, data := 0, color := 0, x := 0, y := 0, w := 16, h := 16 }

def square : Command := { type := .rect, data := 0, color := 0, x := 0, y := 100, w := 50, h := 50 }

theorem square_shows {g : Display (Option (Bool × List Command))}
    (commands : g.commands = [cover 0xFFFFFF, corner, square]) (hashes1 : g.hashes1 = fun _ => listHashing.zeros)
    (hashes2 : g.hashes2 = fun _ => listHashing.ones) : Shows (g.gfxSwap plainArt listHashing).pixels 0 100 0 := by
  have on : screen.Contains 0 100 := by decide
  have formed : ∀ cmd ∈ g.commands, cmd.Formed := by
    rw [commands]
    simp only [List.forall_mem_cons]
    refine ⟨⟨by decide, by decide, nofun, nofun, nofun, nofun⟩,
      ⟨by decide, by decide, nofun, nofun, nofun, fun _ => by decide⟩,
      ⟨by decide, by decide, nofun, nofun, nofun, nofun⟩, List.forall_mem_nil _⟩
  have dirty : (touching (cellIndex 0 100) g.commands).foldl listHashing.mix (g.hashes1 (cellIndex 0 100)) ≠
      g.hashes2 (cellIndex 0 100) := by
    rw [hashes1, hashes2]
    exact listHashing_free.ones _ (by simp) _
  obtain ⟨row, run, low, nonempty, narrow, inside, shows⟩ :=
    @Display.gfxSwap_dirty _ plainArt listHashing 0 100 g _ formed on dirty
  obtain ⟨left, right, top, bottom⟩ := strip_sides low nonempty narrow
  have row_eq := (strip_contains low nonempty narrow).mp inside
  have skipped : rectOverlap (strip row run) corner.toRect = false := by
    have stop : corner.bottom = 16 := by decide
    have above : ¬ (strip row run).y < corner.bottom := by omega
    simp [rectOverlap, above]
  have drawn : seen (strip row run) g.commands = [cover 0xFFFFFF, square] := by
    have first : rectOverlap (strip row run) (cover 0xFFFFFF).toRect = true := overlap_of_contains inside on
    have last : rectOverlap (strip row run) square.toRect = true := overlap_of_contains inside (by decide)
    simp [commands, seen, first, skipped, last]
  exact shows 0 (by rw [drawn]; decide)

/-- A clip rectangle in the corner and a square far from it, which it should hide. -/
def hiddenSquare : List Call :=
  [.drawRect 0 0 1024 768, .drawClip 0 0 16 16, .setColor 0 0 0 0, .drawRect 0 100 50 50, .swap]

theorem clip_skipped : listHashing.CollisionFree ∧ Display.Started listHashing blank ∧
    Run (Display.Step plainArt listHashing) blank (stepsOf hiddenSquare)
      (hiddenSquare.foldl (Display.call plainArt listHashing) blank) ∧
    Display.EveryFrame Covered (stepsOf hiddenSquare) ∧
      ¬ Display.ShowsFrames plainArt listHashing (stepsOf hiddenSquare) := by
  refine ⟨listHashing_free, blank_started, run_trace _ _ _, ?_, fun all => ?_⟩
  · simp only [Display.EveryFrame, stepsOf, hiddenSquare, trace, List.forall_mem_cons]
    exact ⟨nofun, nofun, nofun, nofun, fun _ => cover_covers _ [_, _], List.forall_mem_nil _⟩
  · simp only [Display.ShowsFrames, stepsOf, hiddenSquare, trace, List.forall_mem_cons] at all
    obtain ⟨color, colored, shows⟩ := all.2.2.2.2.1 trivial 0 100 (by decide)
    have white : picture plainArt [cover 0xFFFFFF, corner, square] 0 100 = some 0xFFFFFF := by decide
    obtain rfl : 0xFFFFFF = color := Option.some.inj (white.symm.trans colored)
    refine absurd ((shows 0 (by omega)).symm.trans (square_shows ?_ ?_ ?_ 0 (by omega))) (by decide)
    · rfl
    · rfl
    · rfl

end UmkaOs.Gfx
