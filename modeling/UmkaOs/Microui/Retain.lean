import UmkaOs.Microui.Frame

namespace UmkaOs.Microui

open Context

variable {ctx ctx' middle : Context} {client client' : Client} {roots roots' : List Root} {id : Id} {cnt : Option Ref}
  {k : Nat} {ids : List Id} {r : Ref}

/-- The items that were used since a frame belong to these ids. -/
def Held (k : Nat) (ids : List Id) (ctx : Context) : Prop :=
  ∀ r, k ≤ (ctx.containerPool r).lastUpdate → (ctx.containerPool r).id ∈ ids

/-- The items that were used since a frame stay with their ids, and keep their places in
the stack of windows. -/
def Keeps (k : Nat) (ctx ctx' : Context) : Prop :=
  ∀ r, k ≤ (ctx.containerPool r).lastUpdate → (ctx'.containerPool r).id = (ctx.containerPool r).id ∧
    k ≤ (ctx'.containerPool r).lastUpdate ∧ (ctx'.containers r).zindex = (ctx.containers r).zindex

theorem Keeps.refl (k : Nat) (ctx : Context) : Keeps k ctx ctx := fun _ used => ⟨rfl, used, rfl⟩

theorem Keeps.trans (first : Keeps k ctx middle) (second : Keeps k middle ctx') : Keeps k ctx ctx' := by
  intro r used
  obtain ⟨same, used', level⟩ := first r used
  obtain ⟨same', used'', level'⟩ := second r used'
  exact ⟨same'.trans same, used'', level'.trans level⟩

theorem Aside.keeps (aside : Aside ctx ctx') : Keeps k ctx ctx' := by
  intro r used
  rw [aside.pool]
  exact ⟨rfl, used, aside.level r⟩

theorem Aside.held (aside : Aside ctx ctx') (held : Held k ids ctx) : Held k ids ctx' := by
  rw [Held, aside.pool]
  exact held

/-- An id that has no item yet finds one that was not used since the frame. -/
theorem Held.room (held : Held k ids ctx) (managed : Managed ctx) (zero : 0 ∉ ids) (few : ids.toFinset.card ≤ poolSize)
    (asked : id ∈ ids) (absent : ∀ r, (ctx.containerPool r).id ≠ id) : ∃ r, (ctx.containerPool r).lastUpdate < k :=
  pool_room managed.ids held zero few asked absent

theorem Provides.held (provides : Provides ctx id cnt ctx') (held : Held k ids ctx) (asked : id ∈ ids) :
    Held k ids ctx' := by
  cases provides with
  | missing => exact held
  | closed => exact held
  | @found idx own =>
    intro r used
    by_cases same : r = idx
    · subst same
      simpa [poolUpdate, own] using asked
    · simp only [poolUpdate, Function.update_of_ne same] at used ⊢
      exact held r used
  | @made idx =>
    intro r used
    rcases setUp_cases ctx id idx r with ⟨_, pool, _⟩ | ⟨_, pool, _⟩ <;> rw [pool] at used ⊢
    · exact asked
    · exact held r used

theorem Provides.keeps (provides : Provides ctx id cnt ctx') (held : Held k ids ctx) (managed : Managed ctx)
    (zero : 0 ∉ ids) (few : ids.toFinset.card ≤ poolSize) (asked : id ∈ ids) (past : k ≤ ctx.frame) :
    Keeps k ctx ctx' := by
  cases provides with
  | missing => exact .refl k ctx
  | closed => exact .refl k ctx
  | @found idx =>
    intro r used
    by_cases same : r = idx
    · subst same
      simpa [poolUpdate] using past
    · simp only [poolUpdate, Function.update_of_ne same]
      exact ⟨trivial, used, trivial⟩
  | @made idx absent old =>
    obtain ⟨spare, stale⟩ := held.room managed zero few asked absent
    intro r used
    have oldest := (oldest_some old).2 spare
    rcases setUp_cases ctx id idx r with ⟨self, _⟩ | ⟨_, pool, same⟩
    · rw [self] at used
      omega
    · rw [pool, same]
      exact ⟨rfl, used, rfl⟩

/-- While the ids that are asked for fit into the pool, nothing that is in use is lost. -/
theorem run_keeps (run : client.run ctx = .ok (roots, ctx')) (held : Held k ids ctx) (managed : Managed ctx)
    (zero : 0 ∉ ids) (few : ids.toFinset.card ≤ poolSize) (asked : ∀ id ∈ client.ids, id ∈ ids) (past : k ≤ ctx.frame) :
    Keeps k ctx ctx' ∧ Held k ids ctx' := by
  induction client generalizing ctx ctx' roots with
  | done =>
    cases run
    exact ⟨.refl k ctx, held⟩
  | draw d rest ih =>
    exact @ih (ctx.pushCommand (.draw d)) _ _ run held (managed.push _) asked past
  | reshape shape rest ih =>
    obtain ⟨middle, first, second⟩ := bind_ok run
    obtain ⟨aside, _⟩ := setShape_cases first
    obtain ⟨keeps, held'⟩ := ih second (aside.held held) (aside.managed managed) asked (aside.frame ▸ past)
    exact ⟨aside.keeps.trans keeps, held'⟩
  | window id rect opt body rest ihBody ihRest =>
    rw [Client.ids, List.forall_mem_cons, List.forall_mem_append] at asked
    obtain ⟨asked, askedBody, askedRest⟩ := asked
    rcases run_window_cases run with ⟨got, middle, provides, _, next⟩ |
      ⟨r, opened, inner, full, shut, later, opens, first, ⟨q, shuts⟩, second, rfl⟩
    · obtain ⟨keeps, held'⟩ := ihRest next (provides.held held asked) (provides.managed managed) askedRest
        (provides.later.frame ▸ past)
      exact ⟨(provides.keeps held managed zero few asked past).trans keeps, held'⟩
    · obtain ⟨middle, provides, aside⟩ := opens.got
      have begun := (provides.keeps held managed zero few asked past).trans aside.keeps
      obtain ⟨keepsBody, heldBody⟩ := ihBody first (aside.held (provides.held held asked)) (opens.managed managed)
        askedBody (opens.later.frame ▸ past)
      obtain ⟨laterBody, managedBody, _⟩ := run_later first
      have frame : shut.frame = ctx.frame := (opens.later.trans (laterBody.trans shuts.aside.later)).frame
      obtain ⟨keepsRest, heldRest⟩ := ihRest second (shuts.aside.held heldBody)
        (shuts.aside.managed (managedBody (opens.managed managed))) askedRest (frame ▸ past)
      exact ⟨begun.trans (keepsBody.trans (shuts.aside.keeps.trans keepsRest)), heldRest⟩

theorem clicked_level (ctx : Context) (r : Ref) : (ctx.clicked.containers r).zindex = (ctx.containers r).zindex ∨
    ctx.mousePressed ≠ 0 ∧ ctx.nextHoverRoot = some r := by
  rw [clicked]
  cases under : ctx.nextHoverRoot with
  | none => exact .inl rfl
  | some top =>
    dsimp only
    split
    · rename_i pressed
      rcases bringToFront_cases ctx top r with ⟨same, _⟩ | ⟨_, same⟩
      · exact .inr ⟨pressed.1, congrArg some same.symm⟩
      · exact .inl (congrArg Container.zindex same)
    · exact .inl rfl

end UmkaOs.Microui
