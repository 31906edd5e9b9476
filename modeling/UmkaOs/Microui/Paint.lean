import UmkaOs.Microui.Windows

namespace UmkaOs.Microui

open Context

variable {ctx ctx' : Context} {client : Client} {roots : List Root} {base : Nat}
  {containers containers' : Ref → Container}

/-- A client keeps the containers in use, and leaves every window it begins in use under
its id. -/
theorem run_later (run : client.run ctx = .ok (roots, ctx')) : Later ctx ctx' ∧ (Managed ctx → Managed ctx') ∧
    ∀ root ∈ roots, (ctx'.containerPool root.cnt).id = root.id ∧ Recent ctx' root.cnt := by
  induction client generalizing ctx ctx' roots with
  | done =>
    cases run
    exact ⟨.refl ctx, id, List.forall_mem_nil _⟩
  | draw d rest ih =>
    obtain ⟨later, managed, used⟩ := ih run
    exact ⟨⟨later.frame, later.mouse, later.hover, later.recent⟩, fun start => managed ⟨start.ids, start.updates,
      start.front, start.level, start.below, start.apart⟩, used⟩
  | reshape shape rest ih =>
    obtain ⟨middle, first, second⟩ := bind_ok run
    obtain ⟨aside, _⟩ := setShape_cases first
    obtain ⟨later, managed, used⟩ := ih second
    exact ⟨aside.later.trans later, fun start => managed (aside.managed start), used⟩
  | window id rect opt body rest ihBody ihRest =>
    rcases run_window_cases run with ⟨got, middle, provides, _, next⟩ |
      ⟨r, opened, inner, full, shut, later, opens, first, ⟨q, shuts⟩, second, rfl⟩
    · obtain ⟨later, managed, used⟩ := ihRest next
      exact ⟨provides.later.trans later, fun start => managed (provides.managed start), used⟩
    · obtain ⟨laterBody, managedBody, usedBody⟩ := ihBody first
      obtain ⟨laterRest, managedRest, usedRest⟩ := ihRest second
      have behind := shuts.aside.later.trans laterRest
      have kept : ∀ {before : Context}, Later before ctx' → ∀ {x : Ref} {own : Id},
          (before.containerPool x).id = own ∧ Recent before x → (ctx'.containerPool x).id = own ∧ Recent ctx' x := by
        rintro before after x own ⟨same, recent⟩
        rw [(after.recent x recent).1]
        exact ⟨same, after.stays recent⟩
      refine ⟨opens.later.trans (laterBody.trans behind),
        fun start => managedRest (shuts.aside.managed (managedBody (opens.managed start))), ?_⟩
      simp only [List.forall_mem_cons, List.forall_mem_append]
      exact ⟨kept (laterBody.trans behind) ⟨opens.own, opens.used⟩,
        fun root member => kept behind (usedBody root member), usedRest⟩

/-- What was drawn, with the windows that were begun. -/
inductive Picture where
  | nil
  | draw (d : Draw) (rest : Picture)
  | window (root : Root) (body rest : Picture)

namespace Picture

def size : Picture → Nat
  | nil => 0
  | draw _ rest => rest.size + 1
  | window _ body rest => body.size + rest.size + 2

/-- The commands from an index on. -/
def code : Picture → Nat → List Command
  | nil, _ => []
  | draw d rest, base => .draw d :: rest.code (base + 1)
  | window _ body rest, base =>
    .jump (base + body.size + 2) :: (body.code (base + 1) ++ .jump unset :: rest.code (base + body.size + 2))

def windows : Picture → List Root
  | nil => []
  | draw _ rest => rest.windows
  | window root body rest => root :: (body.windows ++ rest.windows)

def own : Picture → List Draw
  | nil => []
  | draw d rest => d :: rest.own
  | window _ _ rest => rest.own

/-- The heads and tails of the containers are those of the picture. -/
def Placed (containers : Ref → Container) : Picture → Nat → Prop
  | nil, _ => True
  | draw _ rest, base => rest.Placed containers (base + 1)
  | window root body rest, base =>
    (containers root.cnt).head = base ∧ (containers root.cnt).tail = base + body.size + 1 ∧ root.draws = body.own ∧
      body.Placed containers (base + 1) ∧ rest.Placed containers (base + body.size + 2)

theorem length_code (p : Picture) (base : Nat) : (p.code base).length = p.size := by
  induction p generalizing base with
  | nil => rfl
  | draw d rest ih => rw [code, List.length_cons, ih, size]
  | window root body rest ihBody ihRest =>
    rw [code, List.length_cons, List.length_append, List.length_cons, ihBody, ihRest, size]
    omega

theorem Placed.congr {p : Picture} (placed : p.Placed containers base)
    (same : ∀ root ∈ p.windows, (containers' root.cnt).head = (containers root.cnt).head ∧
      (containers' root.cnt).tail = (containers root.cnt).tail) : p.Placed containers' base := by
  induction p generalizing base with
  | nil => trivial
  | draw d rest ih => exact ih placed same
  | window root body rest ihBody ihRest =>
    obtain ⟨head, tail, draws, inner, later⟩ := placed
    rw [windows, List.forall_mem_cons, List.forall_mem_append] at same
    obtain ⟨⟨sameHead, sameTail⟩, sameBody, sameRest⟩ := same
    exact ⟨sameHead.trans head, sameTail.trans tail, draws, ihBody inner sameBody, ihRest later sameRest⟩

end Picture

/-- A client has drawn a picture. -/
structure Drew (ctx : Context) (p : Picture) (ctx' : Context) : Prop where
  commands : ctx'.commandList = ctx.commandList ++ p.code ctx.commandList.length
  roots : ctx'.rootList = ctx.rootList ++ p.windows.map Root.cnt
  stack : ctx'.containerStack = ctx.containerStack
  placed : p.Placed ctx'.containers ctx.commandList.length
  others : ∀ r, r ∉ p.windows.map Root.cnt →
    (ctx'.containers r).head = (ctx.containers r).head ∧ (ctx'.containers r).tail = (ctx.containers r).tail

/-- Windows with different ids have different containers. -/
theorem apart_of_ids (owned : ∀ root ∈ roots, (ctx.containerPool root.cnt).id = root.id)
    (apart : (roots.map Root.id).Nodup) : (roots.map Root.cnt).Nodup := by
  have ids : roots.map Root.id = (roots.map Root.cnt).map fun r => (ctx.containerPool r).id := by
    rw [List.map_map]
    exact List.map_congr_left fun root member => (owned root member).symm
  rw [ids] at apart
  exact apart.of_map

theorem Opens.drew {opened full shut : Context} {q : Ref} {root : Root} {id : Id} {body rest : Picture}
    (opens : Opens ctx id root.cnt opened) (drewBody : Drew opened body full) (shuts : Shuts full q shut)
    (drewRest : Drew shut rest ctx') (own : root.draws = body.own)
    (apart : ((Picture.window root body rest).windows.map Root.cnt).Nodup) :
    Drew ctx (.window root body rest) ctx' := by
  rw [Picture.windows, List.map_cons, List.map_append, List.nodup_cons, List.nodup_append'] at apart
  obtain ⟨once, _, _, disjoint⟩ := apart
  rw [List.mem_append, not_or] at once
  obtain ⟨notInner, notLater⟩ := once
  have top : q = root.cnt := by
    have pile := shuts.stack
    rw [drewBody.stack, opens.stack] at pile
    exact (List.cons.inj pile).1.symm
  subst top
  have base : opened.commandList.length = ctx.commandList.length + 1 := by rw [opens.commands]; simp
  have head : (full.containers root.cnt).head = ctx.commandList.length :=
    (drewBody.others _ notInner).1.trans opens.head
  have length : full.commandList.length = ctx.commandList.length + body.size + 1 := by
    rw [drewBody.commands, List.length_append, base, Picture.length_code]
    omega
  have commands : shut.commandList = ctx.commandList ++ .jump (ctx.commandList.length + body.size + 2) ::
      (body.code (ctx.commandList.length + 1) ++ [.jump unset]) := by
    rw [shuts.commands, head, length, drewBody.commands, base, opens.commands]
    simp
  have behind : shut.commandList.length = ctx.commandList.length + body.size + 2 := by
    rw [commands]
    simp [Picture.length_code]
    omega
  have places := drewRest.placed
  rw [behind] at places
  constructor
  · rw [drewRest.commands, behind, commands, Picture.code]
    simp
  · rw [drewRest.roots, shuts.roots, drewBody.roots, opens.roots, Picture.windows]
    simp
  · have pile := shuts.stack
    rw [drewBody.stack, opens.stack] at pile
    rw [drewRest.stack, (List.cons.inj pile).2]
  · refine ⟨?_, ?_, own, ?_, places⟩
    · rw [(drewRest.others _ notLater).1, shuts.head, head]
    · rw [(drewRest.others _ notLater).2, shuts.tail, length]
    · have inner := drewBody.placed
      rw [base] at inner
      apply inner.congr
      intro other member
      have named := List.mem_map_of_mem (f := Root.cnt) member
      have different : other.cnt ≠ root.cnt := fun same => notInner (same ▸ named)
      obtain ⟨sameHead, sameTail⟩ := drewRest.others other.cnt (disjoint named)
      rw [sameHead, sameTail, shuts.others other.cnt different]
      exact ⟨rfl, rfl⟩
  · intro r away
    rw [Picture.windows, List.map_cons, List.map_append, List.mem_cons, List.mem_append, not_or, not_or] at away
    obtain ⟨other, notBody, notRest⟩ := away
    obtain ⟨sameHead, sameTail⟩ := drewRest.others r notRest
    obtain ⟨sameHead', sameTail'⟩ := drewBody.others r notBody
    rw [sameHead, sameTail, shuts.others r other, sameHead', sameTail', opens.others r other]
    exact ⟨rfl, rfl⟩

theorem run_drew (run : client.run ctx = .ok (roots, ctx')) (apart : (roots.map Root.cnt).Nodup) :
    ∃ p : Picture, p.windows = roots ∧ p.own = client.own ∧ Drew ctx p ctx' := by
  induction client generalizing ctx ctx' roots with
  | done =>
    cases run
    exact ⟨.nil, rfl, rfl, by simp [Picture.code], by simp [Picture.windows], rfl, trivial, fun _ _ => ⟨rfl, rfl⟩⟩
  | draw d rest ih =>
    obtain ⟨p, same, own, drew⟩ := ih run apart
    refine ⟨.draw d p, same, congrArg (d :: ·) own, ?_⟩
    obtain ⟨commands, rootList, pile, placed, others⟩ := drew
    have longer : (ctx.pushCommand (.draw d)).commandList.length = ctx.commandList.length + 1 := by simp [pushCommand]
    rw [longer] at commands placed
    refine ⟨?_, rootList, pile, placed, others⟩
    rw [commands, Picture.code, pushCommand, List.append_assoc]
    rfl
  | reshape shape rest ih =>
    obtain ⟨middle, first, second⟩ := bind_ok run
    obtain ⟨_, sameCommands, sameRoots, samePile, _, ends⟩ := setShape_cases first
    obtain ⟨p, same, own, drew⟩ := ih second apart
    obtain ⟨commands, rootList, pile, placed, others⟩ := drew
    rw [sameCommands] at commands placed
    refine ⟨p, same, own, commands, by rw [rootList, sameRoots], by rw [pile, samePile], placed, ?_⟩
    intro r away
    obtain ⟨head, tail⟩ := others r away
    exact ⟨head.trans (ends r).1, tail.trans (ends r).2⟩
  | window id rect opt body rest ihBody ihRest =>
    rcases run_window_cases run with ⟨got, middle, provides, unchanged, next⟩ |
      ⟨r, opened, inner, full, shut, later, opens, first, ⟨q, shuts⟩, second, rfl⟩
    · obtain ⟨sameCommands, sameRoots, samePile, _⟩ := provides.commands
      obtain ⟨p, same, own, commands, rootList, pile, placed, others⟩ := ihRest next apart
      rw [sameCommands] at commands placed
      rw [unchanged] at others
      exact ⟨p, same, own, commands, by rw [rootList, sameRoots], by rw [pile, samePile], placed, others⟩
    · have parts := apart
      rw [List.map_cons, List.map_append, List.nodup_cons, List.nodup_append'] at parts
      obtain ⟨body', sameBody, ownBody, drewBody⟩ := ihBody first parts.2.1
      obtain ⟨rest', sameRest, ownRest, drewRest⟩ := ihRest second parts.2.2.1
      subst sameBody sameRest
      exact ⟨.window _ body' rest', rfl, ownRest, opens.drew drewBody shuts drewRest ownBody.symm apart⟩

end UmkaOs.Microui
