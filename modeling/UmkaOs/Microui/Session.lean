import UmkaOs.Microui.Display

namespace UmkaOs.Microui

open Gfx (Art Display Hashing)

/-- The pointer, which `schedule` draws over the windows. -/
def pointer (mouse : Input.Vec2) : List Gfx.Call :=
  [.setColor 255 255 255 255, .drawIcon (Int32.ofInt mouse.x) (Int32.ofInt mouse.y) 2, .setColor 0 0 0 255,
    .drawIcon (Int32.ofInt mouse.x) (Int32.ofInt mouse.y) 3]

def pointerImage (art : Art) (mouse : Input.Vec2) (image : Image) : Image :=
  paint (cut unclippedRect (glyphInk art mouse 3 ⟨0, 0, 0, 255⟩))
    (paint (cut unclippedRect (glyphInk art mouse 2 ⟨255, 255, 255, 255⟩)) image)

/-- What `schedule` calls in a frame, up to `swap`. -/
def frameCalls (draws : List Draw) (mouse : Input.Vec2) : List Gfx.Call :=
  desktop ++ draws.flatMap calls ++ pointer mouse

variable {H : Type} [DecidableEq H] {art : Art} {hashing : Hashing H} {g g' : Display H} {ctx ctx' : Context}
  {client : Client} {roots : List Root} {draws : List Draw} {list : List Gfx.Call} {call : Gfx.Call}
  {mouse : Input.Vec2} {image : Image}

def filled (art : Art) (hashing : Hashing H) (g : Display H) (draws : List Draw) (mouse : Input.Vec2) : Display H :=
  (frameCalls draws mouse).foldl (Display.call art hashing) g

/-- The windows and the display between frames. The clip rectangles that are set in a frame
are harmless to the cells that are drawn again. -/
inductive Session (art : Art) (hashing : Hashing H) : Context → Display H → Prop
  | boot {g : Display H} (input : Input.Context) (started : Display.Started hashing g) :
    Session art hashing (.init input) g
  | input {ctx : Context} {g : Display H} (before : Session art hashing ctx g) (input : Input.Context) :
    Session art hashing (ctx.withInput input) g
  | frame {ctx ctx' : Context} {g : Display H} {client : Client} {roots : List Root} {fuel : Nat} {draws : List Draw}
    (before : Session art hashing ctx g) (run : ctx.schedule client = .ok (roots, ctx'))
    (drained : drain ctx'.commandList fuel 0 = some draws) (mouse : Input.Vec2)
    (harmless : Gfx.Harmless art (filled art hashing g draws mouse).commands) :
    Session art hashing ctx' ((filled art hashing g draws mouse).gfxSwap art hashing)

theorem Session.reachable (session : Session art hashing ctx g) : ctx.Reachable := by
  induction session with
  | boot input => exact .init input
  | input _ input ih => exact ih.input input
  | frame _ run _ _ _ ih => exact ih.frame run

theorem call_extends (queues : call ≠ .swap) : ∃ more, (g.call art hashing call).commands = g.commands ++ more := by
  have pushed : ∀ cmd, ∃ more, (g.push cmd).commands = g.commands ++ more := by
    intro cmd
    rw [Display.push]
    split
    · exact ⟨[], (List.append_nil _).symm⟩
    · exact ⟨[cmd], rfl⟩
  cases call with
  | setColor => exact ⟨[], (List.append_nil _).symm⟩
  | swap => exact absurd rfl queues
  | _ => exact pushed _

theorem calls_extend (queues : ∀ call ∈ list, call ≠ .swap) :
    ∃ more, (list.foldl (Display.call art hashing) g).commands = g.commands ++ more := by
  induction list generalizing g with
  | nil => exact ⟨[], (List.append_nil _).symm⟩
  | cons call rest ih =>
    rw [List.forall_mem_cons] at queues
    obtain ⟨more, first⟩ := @call_extends _ _ art hashing g call queues.1
    obtain ⟨later, second⟩ := @ih (g.call art hashing call) queues.2
    exact ⟨more ++ later, by rw [List.foldl_cons, second, first, List.append_assoc]⟩

theorem drawChars_queues (pos : Input.Vec2) (i : Nat) (text : List UInt8) :
    ∀ call ∈ drawChars pos i text, call ≠ .swap := by
  induction text generalizing i with
  | nil => exact List.forall_mem_nil _
  | cons c text ih =>
    rw [drawChars, List.forall_mem_cons]
    exact ⟨fun swap => (by cases swap), ih (i + 1)⟩

theorem calls_queue (d : Draw) : ∀ call ∈ calls d, call ≠ .swap := by
  cases d with
  | clip r => simp [calls]
  | rect r color => simp [calls, setColor]
  | text pos color text =>
    rw [calls, List.forall_mem_cons]
    exact ⟨fun swap => (by cases swap), drawChars_queues pos 0 text⟩
  | icon r id color => cases id <;> simp [calls, setColor, Icon.glyph]
  | cursor id => exact List.forall_mem_nil _

theorem frameCalls_queue (draws : List Draw) (mouse : Input.Vec2) : ∀ call ∈ frameCalls draws mouse, call ≠ .swap := by
  rw [frameCalls, List.forall_mem_append, List.forall_mem_append]
  refine ⟨⟨by simp [desktop], ?_⟩, by simp [pointer]⟩
  intro call member
  obtain ⟨d, _, listed⟩ := List.mem_flatMap.mp member
  exact calls_queue d call listed

theorem filled_covered (empty : g.commands = []) (draws : List Draw) (mouse : Input.Vec2) :
    Gfx.Covered (filled art hashing g draws mouse).commands := by
  have queues := frameCalls_queue draws mouse
  rw [frameCalls, List.append_assoc, List.forall_mem_append] at queues
  obtain ⟨more, extended⟩ := @calls_extend _ _ art hashing (desktop.foldl (Display.call art hashing) g) _ queues.2
  rw [filled, frameCalls, List.append_assoc, List.foldl_append, extended, desktop_commands hashing empty]
  exact Gfx.cover_covers _ _

theorem synced_calls (free : hashing.CollisionFree) (synced : g.Synced art hashing)
    (queues : ∀ call ∈ list, call ≠ .swap) : (list.foldl (Display.call art hashing) g).Synced art hashing := by
  induction list generalizing g with
  | nil => exact synced
  | cons call rest ih =>
    rw [List.forall_mem_cons] at queues
    exact ih (Display.step_synced free synced (fun swap => absurd swap queues.1) rfl) queues.2

theorem filled_synced (free : hashing.CollisionFree) (synced : g.Synced art hashing) (draws : List Draw)
    (mouse : Input.Vec2) : (filled art hashing g draws mouse).Synced art hashing :=
  synced_calls free synced (frameCalls_queue draws mouse)

theorem shown_synced (free : hashing.CollisionFree) (synced : g.Synced art hashing) (covered : Gfx.Covered g.commands)
    (harmless : Gfx.Harmless art g.commands) : (g.gfxSwap art hashing).Synced art hashing :=
  Display.step_synced free synced (fun _ => ⟨covered, harmless⟩) (rfl : g.call art hashing .swap = _)

theorem Session.synced (free : hashing.CollisionFree) (session : Session art hashing ctx g) :
    g.commands = [] ∧ g.Synced art hashing := by
  induction session with
  | boot _ started => exact ⟨started.commands, started.synced⟩
  | input _ _ ih => exact ih
  | @frame _ _ _ _ _ _ draws _ _ _ mouse harmless ih =>
    obtain ⟨empty, synced⟩ := ih
    exact ⟨rfl, shown_synced free (filled_synced free synced draws mouse) (filled_covered empty draws mouse) harmless⟩

theorem pointer_paints (paints : Paints art g.commands ⟨unclippedRect, image⟩) (near : Near mouse)
    (room : g.commands.length + 2 ≤ Gfx.queueSize) :
    Paints art ((pointer mouse).foldl (Display.call art hashing) g).commands
      ⟨unclippedRect, pointerImage art mouse image⟩ := by
  have white : Paints art ({ g with color := Color.word ⟨255, 255, 255, 255⟩ } : Display H).commands
      ⟨unclippedRect, image⟩ := paints
  obtain ⟨g₁, first, paints₁, length₁, _⟩ := white.glyph hashing near 2 rfl (by dsimp only; omega)
  have black : Paints art ({ g₁ with color := Color.word ⟨0, 0, 0, 255⟩ } : Display H).commands _ := paints₁
  obtain ⟨g₂, second, paints₂, _⟩ := black.glyph hashing near 3 rfl (by dsimp only; dsimp only at length₁; omega)
  have both : (pointer mouse).foldl (Display.call art hashing) g = g₂ := by
    rw [← second, ← first]
    rfl
  rw [both]
  exact paints₂

/-- From the first frame on, the framebuffer has after every frame the desktop with the
windows from the bottom of the stack to the top and the pointer over them, every pixel
tested against the clip rectangle of its request. -/
theorem frame_shown (free : hashing.CollisionFree) (session : Session art hashing ctx g) (flat : client.Windows)
    (distinct : (0 :: roots.map Root.id).Nodup) (run : ctx.schedule client = .ok (roots, ctx')) {fuel : Nat}
    (drained : drain ctx'.commandList fuel 0 = some draws) (requests : Root → List Request)
    (asked : ∀ root ∈ roots, ∃ stack, runRequests (requests root) [unclippedRect] = .ok (root.draws, stack))
    (small : ∀ root ∈ roots, ∀ d ∈ root.draws, d.Small) (near : Near mouse)
    (room : queued ((roots.flatMap Root.draws).flatMap calls) + 4 ≤ Gfx.queueSize)
    (harmless : Gfx.Harmless art (filled art hashing g draws mouse).commands) : ∃ order : List Root, order.Perm roots ∧
      (order.Pairwise fun a b => (ctx'.containers a.cnt).zindex < (ctx'.containers b.cnt).zindex) ∧
      ∀ x y, Gfx.screen.Contains x y →
        Gfx.Shows ((filled art hashing g draws mouse).gfxSwap art hashing).pixels x y
          (pointerImage art mouse (windowsImage art requests order (desktopImage art)) ⟨x, y⟩) := by
  obtain ⟨empty, synced⟩ := session.synced free
  have queue := @desktop_commands _ _ art hashing g empty
  have start := @desktop_paints art
  rw [← queue] at start
  have length : (desktop.foldl (Display.call art hashing) g).commands.length = 2 := by
    rw [queue]
    rfl
  obtain ⟨order, perm, sorted, fuel', draws', drained', g', windows, painted, length'⟩ :=
    windows_paint hashing session.reachable.managed flat distinct run requests asked small start (by omega)
  have same : draws' = draws := by
    have one := drain_more drained' fuel
    rw [Nat.add_comm, drain_more drained fuel'] at one
    exact (Option.some.inj one).symm
  subst same
  have whole := @pointer_paints _ _ _ hashing _ _ _ painted near (by omega)
  have fills : (pointer mouse).foldl (Display.call art hashing) g' = filled art hashing g draws' mouse := by
    rw [filled, frameCalls, List.foldl_append, List.foldl_append, windows]
  rw [fills] at whole
  have before := filled_synced free synced draws' mouse
  refine ⟨order, perm, sorted, ?_⟩
  intro x y on
  obtain ⟨color, colored, shows⟩ :=
    Display.swap_shows free before (filled_covered empty draws' mouse) harmless x y on
  rw [whole.image x y on] at colored
  cases colored
  exact shows

theorem frame_shown_two : ∃ (roots order : List Root) (draws : List Draw), roots.map Root.id = [1, 2] ∧
    order.Perm roots ∧ ∀ x y, Gfx.screen.Contains x y →
      Gfx.Shows ((filled Gfx.plainArt Gfx.listHashing Gfx.blank draws ⟨40, 40⟩).gfxSwap
        Gfx.plainArt Gfx.listHashing).pixels x y (pointerImage Gfx.plainArt ⟨40, 40⟩
          (windowsImage Gfx.plainArt twoRequests order (desktopImage Gfx.plainArt)) ⟨x, y⟩) := by
  obtain ⟨roots, ctx', run, ids, asked, small, two⟩ := twoWindows_asked
  have distinct : (0 :: roots.map Root.id).Nodup := by
    rw [ids]
    decide
  have room : queued ((roots.flatMap Root.draws).flatMap calls) + 4 ≤ Gfx.queueSize := by
    rw [two]
    decide
  have walked : ((Context.init pressed).schedule twoWindows).toOption.bind (fun r => drain r.2.commandList 20 0) =
      some [.rect ⟨0, 0, 96, 64⟩ ⟨230, 230, 230, 255⟩, .rect ⟨32, 32, 96, 64⟩ ⟨25, 25, 25, 255⟩] := by
    decide +kernel
  rw [run] at walked
  have unclipped : ∀ cmd ∈ (filled Gfx.plainArt Gfx.listHashing Gfx.blank
      [.rect ⟨0, 0, 96, 64⟩ ⟨230, 230, 230, 255⟩, .rect ⟨32, 32, 96, 64⟩ ⟨25, 25, 25, 255⟩] ⟨40, 40⟩).commands,
      cmd.type ≠ .clip := by
    decide +kernel
  obtain ⟨order, perm, _, shows⟩ := frame_shown Gfx.listHashing_free (.boot pressed Gfx.blank_started) twoWindows_flat
    distinct run walked twoRequests asked small ⟨by decide, by decide⟩ room (Gfx.harmless_of_no_clip unclipped)
  exact ⟨roots, order, _, ids, perm, shows⟩

end UmkaOs.Microui
