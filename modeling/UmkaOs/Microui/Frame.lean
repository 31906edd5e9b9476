import UmkaOs.Microui.Order

namespace UmkaOs.Microui

open Context

variable {ctx ctx' : Context} {client : Client} {roots : List Root} {base last : Nat}
  {commands commands' : List Command} {containers : Ref → Container} {p : Picture} {order : List Root} {r : Ref}

theorem Reads.kept (reads : Reads commands p base) (placed : p.Placed containers base)
    (drawn : ∀ (i : Nat) (d : Draw), commands[i]? = some (Command.draw d) → commands'[i]? = some (Command.draw d))
    (heads : ∀ root ∈ p.windows, commands'[(containers root.cnt).head]? = commands[(containers root.cnt).head]?) :
    Reads commands' p base := by
  induction p generalizing base with
  | nil => trivial
  | draw d rest ih => exact ⟨drawn base d reads.1, ih reads.2 placed heads⟩
  | window root body rest _ ihRest =>
    obtain ⟨head, _, _, _, later⟩ := placed
    rw [Picture.windows, List.forall_mem_cons, List.forall_mem_append] at heads
    obtain ⟨first, _, others⟩ := heads
    rw [head] at first
    exact ⟨first.trans reads.1, ihRest reads.2 later others⟩

/-- A chain of windows leads to the end of the list. -/
theorem Linked.walks (linked : Linked containers commands last (order.map Root.cnt))
    (bodies : ∀ root ∈ order,
      Walks commands ((containers root.cnt).head + 1) root.draws (containers root.cnt).tail) :
    Walks commands last (order.flatMap Root.draws) commands.length := by
  induction order generalizing last with
  | nil => exact .jump linked (.stop _)
  | cons root rest ih =>
    rw [List.forall_mem_cons] at bodies
    rw [List.flatMap_cons]
    exact .jump linked.1 (bodies.1.trans (ih linked.2 bodies.2))

theorem Picture.empty (own : p.own = []) (windows : p.windows = []) : p = .nil := by
  cases p with
  | nil => rfl
  | draw => cases own
  | window => cases windows

/-- Linking the windows of a picture in any order paints them in that order. -/
theorem link_walks (placed : p.Placed containers 0) (apart : (p.windows.map Root.cnt).Nodup) (own : p.own = [])
    (same : order.Perm p.windows) (run : link containers (order.map Root.cnt) (p.code 0) = .ok commands') :
    Walks commands' 0 (order.flatMap Root.draws) commands'.length := by
  cases order with
  | nil =>
    have none := Picture.empty own (List.nil_perm.mp same)
    subst none
    cases run
    exact .stop 0
  | cons first rest =>
    have inside : ∀ root ∈ first :: rest, root ∈ p.windows := fun root member => same.mem_iff.mp member
    have tails : (0 :: ((first :: rest).map Root.cnt).map fun r => (containers r).tail).Nodup := by
      rw [List.nodup_cons, List.map_map]
      constructor
      · rw [List.mem_map]
        rintro ⟨root, member, zero⟩
        have within := placed.range (inside root member)
        exact absurd zero (Nat.ne_of_gt (Nat.lt_of_le_of_lt (Nat.zero_le _) within.2.1))
      · have apart' := (same.map Root.cnt).nodup_iff.mpr apart
        rw [List.Nodup, List.pairwise_map] at apart' ⊢
        apply apart'.imp_of_mem
        intro a b member member' other
        exact placed.tail_ne_tail (inside a member) (inside b member') other
    obtain ⟨length, kept, drawn, linked⟩ := linkFrom_spec run tails
    apply linked.walks
    intro root member
    have stands : Stands (p.code 0) p 0 := fun k _ => by rw [Nat.zero_add]
    obtain ⟨body, draws, stand, place, behind, part⟩ := stands.body placed (inside root member)
    rw [behind, ← draws]
    apply Reads.walks
    apply stand.reads.kept place drawn
    intro nested within
    apply kept
    rw [List.mem_cons, not_or]
    constructor
    · have later := (place.range within).1
      omega
    · rw [List.map_map, List.mem_map]
      rintro ⟨other, member', same'⟩
      exact placed.head_ne_tail (part within) (inside other member') same'.symm

theorem bringToFront_cases (ctx : Context) (cnt r : Ref) :
    r = cnt ∧ ((ctx.bringToFront cnt).containers r).zindex = ctx.lastZIndex + 1 ∨
      r ≠ cnt ∧ (ctx.bringToFront cnt).containers r = ctx.containers r := by
  by_cases same : r = cnt
  · subst same
    exact .inl ⟨rfl, congrArg Container.zindex (setContainer_self _ r _)⟩
  · exact .inr ⟨same, setContainer_of_ne _ _ same⟩

theorem bringToFront_ends (ctx : Context) (cnt r : Ref) :
    ((ctx.bringToFront cnt).containers r).head = (ctx.containers r).head ∧
      ((ctx.bringToFront cnt).containers r).tail = (ctx.containers r).tail := by
  by_cases same : r = cnt
  · subst same
    rw [bringToFront, setContainer_self]
    exact ⟨rfl, rfl⟩
  · rw [bringToFront, setContainer_of_ne _ _ same]
    exact ⟨rfl, rfl⟩

theorem Managed.bringToFront (managed : Managed ctx) (cnt : Ref) : Managed (ctx.bringToFront cnt) := by
  have front := managed.front
  constructor
  · exact managed.ids
  · exact managed.updates
  · exact Int.add_nonneg front (by decide)
  · intro r
    rcases bringToFront_cases ctx cnt r with ⟨_, z⟩ | ⟨_, same⟩
    · omega
    · rw [same]
      exact managed.level r
  · intro r
    have low := managed.below r
    have top : (ctx.bringToFront cnt).lastZIndex = ctx.lastZIndex + 1 := rfl
    rcases bringToFront_cases ctx cnt r with ⟨_, z⟩ | ⟨_, same⟩
    · omega
    · rw [same]
      omega
  · intro r r' used used' level
    have low := managed.below r
    have low' := managed.below r'
    rcases bringToFront_cases ctx cnt r with ⟨self, z⟩ | ⟨_, same⟩ <;>
      rcases bringToFront_cases ctx cnt r' with ⟨self', z'⟩ | ⟨_, same'⟩
    · rw [self, self']
    · rw [z, same'] at level
      omega
    · rw [same, z'] at level
      omega
    · rw [same, same'] at level
      exact managed.apart r r' used used' level

/-- A click brings the window under the mouse to the front, if it is not there already. -/
theorem clicked_cases (ctx : Context) : ctx.clicked = ctx ∨
    ∃ cnt, ctx.nextHoverRoot = some cnt ∧ ctx.clicked = ctx.bringToFront cnt := by
  rw [clicked]
  cases under : ctx.nextHoverRoot with
  | none => exact .inl rfl
  | some cnt =>
    dsimp only
    split
    · exact .inr ⟨cnt, rfl, rfl⟩
    · exact .inl rfl

structure Ends (ctx ctx' : Context) : Prop where
  frame : ctx'.frame = ctx.frame
  pool : ctx'.containerPool = ctx.containerPool
  next : ctx'.nextHoverRoot = ctx.nextHoverRoot
  stack : ctx.containerStack = [] ∧ ctx'.containerStack = []
  click : ctx'.containers = ctx.clicked.containers ∧ ctx'.lastZIndex = ctx.clicked.lastZIndex
  ends : ∀ r, (ctx'.containers r).head = (ctx.containers r).head ∧ (ctx'.containers r).tail = (ctx.containers r).tail
  managed : Managed ctx → Managed ctx'
  order : ctx'.rootList.Perm ctx.rootList
  sorted : ctx'.rootList.Pairwise fun a b => (ctx'.containers a).zindex ≤ (ctx'.containers b).zindex
  linked : link ctx'.containers ctx'.rootList ctx.commandList = .ok ctx'.commandList

theorem endFrame_cases (run : ctx.endFrame = .ok ctx') : Ends ctx ctx' := by
  rw [Context.endFrame] at run
  split at run
  · cases run
  · rename_i empty
    obtain ⟨commands, first, result⟩ := bind_ok run
    cases result
    have sorting := Lib.quicksort_list (fun cnt => (ctx.clicked.containers cnt).zindex) ctx.clicked.rootList 0
    have front : Managed ctx → Managed ctx.clicked := fun managed => by
      rcases clicked_cases ctx with same | ⟨cnt, _, same⟩ <;> rw [same]
      · exact managed
      · exact managed.bringToFront cnt
    have others : ctx.clicked.frame = ctx.frame ∧ ctx.clicked.containerPool = ctx.containerPool ∧
        ctx.clicked.nextHoverRoot = ctx.nextHoverRoot ∧ ctx.clicked.containerStack = ctx.containerStack ∧
        ctx.clicked.rootList = ctx.rootList ∧ ctx.clicked.commandList = ctx.commandList := by
      rcases clicked_cases ctx with same | ⟨cnt, _, same⟩ <;> rw [same] <;> exact ⟨rfl, rfl, rfl, rfl, rfl, rfl⟩
    obtain ⟨frame, pool, next, pile, rootList, commandList⟩ := others
    constructor
    · exact frame
    · exact pool
    · exact next
    · exact ⟨not_not.mp empty, pile.trans (not_not.mp empty)⟩
    · exact ⟨rfl, rfl⟩
    · intro r
      show (ctx.clicked.containers r).head = _ ∧ (ctx.clicked.containers r).tail = _
      rcases clicked_cases ctx with same | ⟨cnt, _, same⟩ <;> rw [same]
      · exact ⟨rfl, rfl⟩
      · exact bringToFront_ends ctx cnt r
    · intro managed
      obtain ⟨ids, updates, positive, level, below, apart⟩ := front managed
      exact ⟨ids, updates, positive, level, below, apart⟩
    · rw [← rootList]
      exact sorting.1
    · exact sorting.2
    · rw [← commandList]
      exact first

theorem Managed.begin (managed : Managed ctx) : Managed ctx.begin :=
  ⟨managed.ids, fun r => Nat.le_succ_of_le (managed.updates r), managed.front, managed.level, managed.below,
    managed.apart⟩

theorem Managed.input (managed : Managed ctx) (input : Input.Context) : Managed (ctx.withInput input) :=
  ⟨managed.ids, managed.updates, managed.front, managed.level, managed.below, managed.apart⟩

theorem schedule_cases (run : ctx.schedule client = .ok (roots, ctx')) :
    ∃ full, client.run ctx.begin = .ok (roots, full) ∧ Ends full ctx' := by
  obtain ⟨⟨begun, full⟩, first, second⟩ := bind_ok run
  obtain ⟨last, ended, result⟩ := bind_ok second
  cases result
  exact ⟨full, first, endFrame_cases ended⟩

theorem Managed.schedule (managed : Managed ctx) (run : ctx.schedule client = .ok (roots, ctx')) : Managed ctx' := by
  obtain ⟨full, drawn, ends⟩ := schedule_cases run
  exact ends.managed ((run_later drawn).2.1 managed.begin)

theorem managed_init (input : Input.Context) : Managed (init input) :=
  ⟨fun _ _ _ used => absurd rfl used, fun _ => Nat.le_refl 0, Int.le_refl 0, fun _ => Int.le_refl 0,
    fun _ => Int.le_refl 0, fun _ _ used => absurd rfl used⟩

theorem Context.Reachable.managed (reachable : Reachable ctx) : Managed ctx := by
  induction reachable with
  | init input => exact managed_init input
  | input _ input ih => exact ih.input input
  | frame _ run ih => exact ih.schedule run

/-- A rearrangement of the images is one of the list. -/
theorem perm_of_map {α β : Type} {f : α → β} {images : List β} {l : List α} (same : images.Perm (l.map f)) :
    ∃ l' : List α, l'.Perm l ∧ l'.map f = images := by
  have start : List.Forall₂ (fun b a => b = f a) (l.map f) l := by
    rw [← List.forall₂_map_right_iff, List.forall₂_eq_eq_eq]
  obtain ⟨l', whole, perm⟩ := List.perm_comp_forall₂ same start
  rw [← List.forall₂_map_right_iff, List.forall₂_eq_eq_eq] at whole
  exact ⟨l', perm, whole.symm⟩

/-- Windows at the top level draw nothing outside of themselves. -/
theorem Client.Windows.own (flat : client.Windows) : client.own = [] := by
  induction flat with
  | done => rfl
  | window _ ih => exact ih

end UmkaOs.Microui
