import UmkaOs.Microui.Hover
import UmkaOs.Microui.Total

namespace UmkaOs.Microui

open Context

variable {ctx ctx' middle : Context} {client client' : Client} {roots roots' : List Root}

theorem twoWindows_drawn : ∃ roots ctx', (init pressed).schedule twoWindows = .ok (roots, ctx') ∧
    roots.map (fun root => (root.id, root.draws)) = [(1, [.rect ⟨0, 0, 96, 64⟩ ⟨230, 230, 230, 255⟩]),
      (2, [.rect ⟨32, 32, 96, 64⟩ ⟨25, 25, 25, 255⟩])] := by
  have shown : (twoWindows.run (init pressed).begin).map (fun r => r.1.map fun root => (root.id, root.draws)) =
      .ok [(1, [.rect ⟨0, 0, 96, 64⟩ ⟨230, 230, 230, 255⟩]), (2, [.rect ⟨32, 32, 96, 64⟩ ⟨25, 25, 25, 255⟩])] := by
    decide +kernel
  obtain ⟨roots, ctx', run⟩ := schedule_ok (Reachable.init pressed).managed rfl twoWindows_flat
    (by decide) (by decide)
  obtain ⟨full, drawn, ends⟩ := schedule_cases run
  rw [drawn] at shown
  exact ⟨roots, ctx', run, Except.ok.inj shown⟩

theorem twoWindows_shown : ∃ roots ctx', roots.map Root.id = [1, 2] ∧
    (init pressed).schedule twoWindows = .ok (roots, ctx') := by
  obtain ⟨roots, ctx', run, drawn⟩ := twoWindows_drawn
  have ids := congrArg (List.map Prod.fst) drawn
  rw [List.map_map] at ids
  exact ⟨roots, ctx', ids, run⟩

theorem schedule_painted (start : Managed ctx) (flat : client.Windows) (distinct : (0 :: roots.map Root.id).Nodup)
    (run : ctx.schedule client = .ok (roots, ctx')) : ∃ order : List Root, order.Perm roots ∧
      (order.Pairwise fun a b => (ctx'.containers a.cnt).zindex < (ctx'.containers b.cnt).zindex) ∧
      ∃ fuel, ∀ more, drain ctx'.commandList (fuel + more) 0 = some (order.flatMap Root.draws) := by
  obtain ⟨full, drawn, ends⟩ := schedule_cases run
  obtain ⟨later, kept, used⟩ := run_later drawn
  have managed := ends.managed (kept start.begin)
  rw [List.nodup_cons] at distinct
  have apart := apart_of_ids (fun root member => (used root member).1) distinct.2
  obtain ⟨p, same, own, drew⟩ := run_drew drawn apart
  have commands : full.commandList = p.code 0 := drew.commands
  have rootList : full.rootList = roots.map Root.cnt := same ▸ drew.roots
  have placed : p.Placed ctx'.containers 0 := drew.placed.congr fun root _ => ends.ends root.cnt
  obtain ⟨order, perm, refs⟩ := perm_of_map (rootList ▸ ends.order)
  have inside : ∀ root ∈ order, root ∈ roots := fun root member => perm.mem_iff.mp member
  refine ⟨order, perm, ?_, ?_⟩
  · have sorted := ends.sorted
    rw [← refs, List.pairwise_map] at sorted
    have different : order.Pairwise fun a b => a.id ≠ b.id := by
      rw [← List.pairwise_map]
      exact (perm.map Root.id).nodup_iff.mpr distinct.2
    apply (sorted.and different).imp_of_mem
    rintro a b member member' ⟨low, other⟩
    obtain ⟨ownA, _⟩ := used a (inside a member)
    obtain ⟨ownB, _⟩ := used b (inside b member')
    rw [← ends.pool] at ownA ownB
    have some : a.id ≠ 0 := fun zero => distinct.1 (zero ▸ List.mem_map_of_mem (inside a member))
    have some' : b.id ≠ 0 := fun zero => distinct.1 (zero ▸ List.mem_map_of_mem (inside b member'))
    apply lt_of_le_of_ne low
    intro level
    have one := managed.apart a.cnt b.cnt (ownA ▸ some) (ownB ▸ some') level
    rw [one] at ownA
    exact other (ownA.symm.trans ownB)
  · have linked := ends.linked
    rw [← refs, commands] at linked
    have walks := link_walks placed (same ▸ apart) (own.trans flat.own) (same ▸ perm) linked
    obtain ⟨fuel, drained⟩ := walks.drain (Nat.le_refl _)
    exact ⟨fuel, drain_more drained⟩

/-- A frame is painted window by window, without gaps and without a window twice, from the
bottom of the stack to its top, in whatever order and however deeply nested the windows
were begun. -/
theorem frame_painted (reachable : Reachable ctx) (flat : client.Windows) (distinct : (0 :: roots.map Root.id).Nodup)
    (run : ctx.schedule client = .ok (roots, ctx')) : ∃ order : List Root, order.Perm roots ∧
      (order.Pairwise fun a b => (ctx'.containers a.cnt).zindex < (ctx'.containers b.cnt).zindex) ∧
      ∃ fuel, ∀ more, drain ctx'.commandList (fuel + more) 0 = some (order.flatMap Root.draws) :=
  schedule_painted reachable.managed flat distinct run

theorem frame_painted_two : ∃ roots ctx' order, roots.map Root.id = [1, 2] ∧ List.Perm order roots ∧
    ∃ fuel, drain (Context.commandList ctx') fuel 0 = some (order.flatMap Root.draws) := by
  obtain ⟨roots, ctx', ids, run⟩ := twoWindows_shown
  obtain ⟨order, perm, _, fuel, drained⟩ := frame_painted (.init pressed) twoWindows_flat
    (by rw [ids]; decide) run
  exact ⟨roots, ctx', order, ids, perm, fuel, drained 0⟩

/-- After every frame the window that is hovered next contains the mouse, and of all windows
that contain the mouse it is painted last. If a button was pressed, it is now above every
other window. -/
theorem frame_hover (reachable : Reachable ctx) (run : ctx.schedule client = .ok (roots, ctx')) :
    (∀ r, ctx'.nextHoverRoot = some r → ∃ root ∈ roots, root.rect.overlaps ctx.mousePos ∧ root.cnt = r) ∧
      (∀ root ∈ roots, root.rect.overlaps ctx.mousePos → ∃ top, ctx'.nextHoverRoot = some top ∧
        (ctx'.containers root.cnt).zindex ≤ (ctx'.containers top).zindex) ∧
      (ctx.mousePressed ≠ 0 → ∀ top ∈ ctx'.nextHoverRoot, ∀ q,
        (ctx'.containers q).zindex ≤ (ctx'.containers top).zindex) := by
  obtain ⟨full, drawn, ends⟩ := schedule_cases run
  obtain ⟨later, kept, used⟩ := run_later drawn
  have managed := kept reachable.managed.begin
  obtain ⟨tops, _⟩ := run_tops drawn nofun
  have none : ctx.begin.nextHoverRoot = none := rfl
  rw [none, ← ends.next] at tops
  rw [ends.click.1]
  refine ⟨?_, ?_, ?_⟩
  · intro r same
    rcases tops.origin with same' | ⟨q, member, same'⟩
    · rw [same] at same'
      cases same'
    · rw [same] at same'
      cases same'
      exact mem_hit.mp member
  · intro root member inside
    obtain ⟨top, same, low⟩ := tops.bound root.cnt (.inl (mem_hit.mpr ⟨root, member, inside, rfl⟩))
    exact ⟨top, same, (clicked_top managed (ends.next ▸ same)).1 root.cnt low⟩
  · intro pressed top same
    have mouse : full.mousePressed = ctx.mousePressed := congrArg Input.Context.mousePressed later.mouse
    exact (clicked_top managed (ends.next ▸ same)).2 (mouse ▸ pressed)

theorem frame_hover_two : ∃ roots ctx', (init pressed).schedule twoWindows = .ok (roots, ctx') ∧
    ∀ top ∈ ctx'.nextHoverRoot, ∀ q, (ctx'.containers q).zindex ≤ (ctx'.containers top).zindex := by
  obtain ⟨roots, ctx', _, run⟩ := twoWindows_shown
  obtain ⟨_, _, front⟩ := frame_hover (.init pressed) run
  exact ⟨roots, ctx', run, front (by decide)⟩

/-- A window of one frame has the same container in the next frame, and the same place in
the stack unless it is clicked, as long as both frames together ask for no more windows than
the pool has items. -/
theorem window_retained (reachable : Reachable ctx) (input : Input.Context)
    (first : ctx.schedule client = .ok (roots, middle))
    (second : (middle.withInput input).schedule client' = .ok (roots', ctx'))
    (zero : 0 ∉ client.ids ++ client'.ids) (few : (client.ids ++ client'.ids).toFinset.card ≤ poolSize) :
    ∀ root ∈ roots, (∀ root' ∈ roots', root'.id = root.id → root'.cnt = root.cnt) ∧
      ((ctx'.containers root.cnt).zindex = (middle.containers root.cnt).zindex ∨
        input.mousePressed ≠ 0 ∧ ctx'.nextHoverRoot = some root.cnt) := by
  obtain ⟨full, drawn, ends⟩ := schedule_cases first
  obtain ⟨full', drawn', ends'⟩ := schedule_cases second
  have managed := reachable.managed.begin
  obtain ⟨later, kept, used⟩ := run_later drawn
  have managed' := ((ends.managed (kept managed)).input input).begin
  obtain ⟨later', kept', used'⟩ := run_later drawn'
  have empty : Held ctx.begin.frame (client.ids ++ client'.ids) ctx.begin := by
    intro r recent
    have old := reachable.managed.updates r
    exact absurd (Nat.le_trans recent old) (Nat.not_succ_le_self _)
  obtain ⟨_, held⟩ := run_keeps drawn empty managed zero few (fun id => List.mem_append_left _) (Nat.le_refl _)
  have frame : middle.frame = ctx.begin.frame := ends.frame.trans later.frame
  have held' : Held middle.frame (client.ids ++ client'.ids) (middle.withInput input).begin := by
    intro r recent
    have recent' : ctx.begin.frame ≤ (full.containerPool r).lastUpdate := by
      rw [← ends.pool, ← frame]
      exact recent
    have member := held r recent'
    rwa [← ends.pool] at member
  obtain ⟨keeps, _⟩ := run_keeps drawn' held' managed' zero few (fun id => List.mem_append_right _) (Nat.le_succ _)
  intro root member
  obtain ⟨own, recent⟩ := used root member
  have recent' : middle.frame ≤ (middle.containerPool root.cnt).lastUpdate := by
    rw [ends.pool, ends.frame]
    exact Nat.le_of_eq recent.symm
  obtain ⟨same, _, level⟩ := keeps root.cnt recent'
  have own' : (full'.containerPool root.cnt).id = root.id := by
    rw [same, ← own, ← ends.pool]
    rfl
  constructor
  · intro root' member' equal
    obtain ⟨self, _⟩ := used' root' member'
    apply (kept' managed').ids root'.cnt root.cnt
    · rw [self, own', equal]
    · rw [self, equal, ← own', same]
      intro unused
      exact zero (unused ▸ held' root.cnt recent')
  · have level' : (full'.containers root.cnt).zindex = (middle.containers root.cnt).zindex := level
    rw [ends'.click.1, ends'.next, ← level']
    have mouse : full'.mousePressed = input.mousePressed := congrArg Input.Context.mousePressed later'.mouse
    rw [← mouse]
    exact clicked_level full' root.cnt

theorem window_retained_two : ∃ roots roots' : List Root, roots.map Root.id = [1, 2] ∧
    ∀ root ∈ roots, ∀ root' ∈ roots', root'.id = root.id → root'.cnt = root.cnt := by
  obtain ⟨roots, middle, ids, first⟩ := twoWindows_shown
  have again : Reachable (middle.withInput pressed) := ((Reachable.init pressed).frame first).input pressed
  obtain ⟨roots', ctx', second⟩ := schedule_ok again.managed again.empty twoWindows_flat (by decide) (by decide)
  have retained := window_retained (.init pressed) pressed first second (by decide) (by decide)
  exact ⟨roots, roots', ids, fun root member => (retained root member).1⟩

end UmkaOs.Microui
