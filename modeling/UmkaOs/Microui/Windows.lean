import UmkaOs.Microui.Pool

namespace UmkaOs.Microui

open Context

variable {ctx ctx' : Context} {id : Id} {opt : Options} {cnt : Option Ref} {q r : Ref} {rect : Rect} {shape : Shape}
  {body rest : Client} {roots : List Root} {d : Draw}

/-- A window that is begun: it has a container of its own, its head is a jump, and it is
under the mouse unless a window above it is. -/
structure Opens (ctx : Context) (id : Id) (r : Ref) (ctx' : Context) : Prop where
  got : ∃ middle, Provides ctx id (some r) middle ∧ Aside middle ctx'
  later : Later ctx ctx'
  managed : Managed ctx → Managed ctx'
  own : (ctx'.containerPool r).id = id
  used : Recent ctx' r
  commands : ctx'.commandList = ctx.commandList ++ [.jump unset]
  roots : ctx'.rootList = ctx.rootList ++ [r]
  stack : ctx'.containerStack = r :: ctx.containerStack
  head : (ctx'.containers r).head = ctx.commandList.length
  others : ∀ q, q ≠ r → ctx'.containers q = ctx.containers q
  next : (ctx'.nextHoverRoot = some r ∧ (ctx'.containers r).rect.overlaps ctx'.mousePos ∧
      ∀ top ∈ ctx.nextHoverRoot, (ctx'.containers top).zindex < (ctx'.containers r).zindex) ∨
    ctx'.nextHoverRoot = ctx.nextHoverRoot ∧ ((ctx'.containers r).rect.overlaps ctx'.mousePos →
      ∃ top ∈ ctx.nextHoverRoot, (ctx'.containers r).zindex ≤ (ctx'.containers top).zindex)

/-- The end of the window on top of the stack: its tail is a jump, and its head leads
behind the tail. -/
structure Shuts (ctx : Context) (r : Ref) (ctx' : Context) : Prop where
  aside : Aside ctx ctx'
  stack : ctx.containerStack = r :: ctx'.containerStack
  roots : ctx'.rootList = ctx.rootList
  next : ctx'.nextHoverRoot = ctx.nextHoverRoot
  commands : ctx'.commandList =
    (ctx.commandList ++ [Command.jump unset]).set (ctx.containers r).head (Command.jump (ctx.commandList.length + 1))
  head : (ctx'.containers r).head = (ctx.containers r).head
  tail : (ctx'.containers r).tail = ctx.commandList.length
  others : ∀ q, q ≠ r → ctx'.containers q = ctx.containers q

@[simp] theorem setContainer_self (ctx : Context) (r : Ref) (c : Container) :
    (ctx.setContainer r c).containers r = c := by simp [setContainer]

theorem setContainer_of_ne (ctx : Context) (c : Container) (other : q ≠ r) :
    (ctx.setContainer r c).containers q = ctx.containers q := by simp [setContainer, other]

theorem aside_setContainer (ctx : Context) (r : Ref) (c : Container) (level : c.zindex = (ctx.containers r).zindex) :
    Aside ctx (ctx.setContainer r c) := by
  refine ⟨rfl, rfl, rfl, rfl, rfl, fun q => ?_⟩
  by_cases same : q = r
  · subst same
    rw [setContainer_self, level]
  · rw [setContainer_of_ne ctx c same]

theorem Aside.trans {middle : Context} (first : Aside ctx middle) (second : Aside middle ctx') : Aside ctx ctx' :=
  ⟨second.frame.trans first.frame, second.mouse.trans first.mouse, second.hover.trans first.hover,
    second.top.trans first.top, second.pool.trans first.pool, fun r => (second.level r).trans (first.level r)⟩

theorem pushRoot_cases (run : ctx.pushRoot r = .ok ctx') :
    ctx' = { ctx with containerStack := r :: ctx.containerStack, rootList := ctx.rootList ++ [r] } := by
  rw [pushRoot] at run
  split at run
  · cases run
    rfl
  · cases run

/-- The head of a window that begins, and the test for the mouse. -/
def headed (ctx : Context) (r : Ref) : Context :=
  { ctx with containerStack := r :: ctx.containerStack, rootList := ctx.rootList ++ [r] }.setContainer r
    { ctx.containers r with head := ctx.commandList.length }

theorem beginRootContainer_cases (run : ctx.beginRootContainer r = .ok ctx') :
    ctx' = { (headed ctx r).pushCommand (.jump unset) with nextHoverRoot := some r } ∧ (headed ctx r).hovered r ∨
      ctx' = (headed ctx r).pushCommand (.jump unset) ∧ ¬ (headed ctx r).hovered r := by
  obtain ⟨pushed, push, rest⟩ := bind_ok run
  rw [pushRoot_cases push] at rest
  have hovered : ((headed ctx r).pushCommand (.jump unset)).hovered r ↔ (headed ctx r).hovered r := Iff.rfl
  by_cases under : (headed ctx r).hovered r
  · have result := Except.ok.inj rest
    refine .inl ⟨?_, under⟩
    rw [← result]
    exact if_pos (hovered.mpr under)
  · have result := Except.ok.inj rest
    refine .inr ⟨?_, under⟩
    rw [← result]
    exact if_neg (mt hovered.mp under)

theorem not_hovered (away : ¬ ctx.hovered r) (under : (ctx.containers r).rect.overlaps ctx.mousePos) :
    ∃ top ∈ ctx.nextHoverRoot, (ctx.containers r).zindex ≤ (ctx.containers top).zindex := by
  by_contra none
  exact away ⟨under, fun top member => lt_of_not_ge fun above => none ⟨top, member, above⟩⟩

theorem headed_aside (ctx : Context) (r : Ref) : Aside ctx (headed ctx r) :=
  have pushed : Aside ctx { ctx with containerStack := r :: ctx.containerStack, rootList := ctx.rootList ++ [r] } :=
    ⟨rfl, rfl, rfl, rfl, rfl, fun _ => rfl⟩
  pushed.trans (aside_setContainer _ r _ rfl)

theorem Provides.commands (provides : Provides ctx id cnt ctx') : ctx'.commandList = ctx.commandList ∧
    ctx'.rootList = ctx.rootList ∧ ctx'.containerStack = ctx.containerStack ∧ ctx'.nextHoverRoot = ctx.nextHoverRoot ∧
    ∀ q, cnt ≠ some q → ctx'.containers q = ctx.containers q := by
  cases provides with
  | missing => exact ⟨rfl, rfl, rfl, rfl, fun _ _ => rfl⟩
  | closed => exact ⟨rfl, rfl, rfl, rfl, fun _ _ => rfl⟩
  | found => exact ⟨rfl, rfl, rfl, rfl, fun _ _ => rfl⟩
  | @made idx =>
    refine ⟨rfl, rfl, rfl, rfl, fun q other => setUp_containers_of_ne ctx id ?_⟩
    intro same
    exact other (congrArg some same.symm)

/-- A container that is not open was not set up now. -/
theorem Provides.unused (provides : Provides ctx id cnt ctx')
    (shut : ∀ r, cnt = some r → (ctx'.containers r).isOpen = false) : ctx'.containers = ctx.containers := by
  cases provides with
  | missing => rfl
  | closed => rfl
  | found => rfl
  | @made idx =>
    have isOpen : ((setUp ctx id idx).containers idx).isOpen = true := by
      simp [setUp, bringToFront, setContainer, fresh]
    cases isOpen.symm.trans (shut idx rfl)

theorem Provides.opens {middle : Context} {c : Container} (provides : Provides ctx id (some r) middle)
    (isOpen : (middle.containers r).isOpen = true) (level : c.zindex = (middle.containers r).zindex)
    (run : (middle.setContainer r c).beginRootContainer r = .ok ctx') : Opens ctx id r ctx' := by
  obtain ⟨commands, roots, pile, next, others⟩ := provides.commands
  obtain ⟨own, used⟩ := provides.own
  have shaped := aside_setContainer middle r c level
  have aside : Aside middle (headed (middle.setContainer r c) r) := shaped.trans (headed_aside _ r)
  have same : Aside middle ctx' ∧ ctx'.commandList = middle.commandList ++ [.jump unset] ∧
      ctx'.rootList = middle.rootList ++ [r] ∧ ctx'.containerStack = r :: middle.containerStack ∧
      ctx'.containers = (headed (middle.setContainer r c) r).containers := by
    rcases beginRootContainer_cases run with ⟨rfl, _⟩ | ⟨rfl, _⟩ <;>
      exact ⟨⟨aside.frame, aside.mouse, aside.hover, aside.top, aside.pool, aside.level⟩, rfl, rfl, rfl, rfl⟩
  obtain ⟨aside', commands', roots', pile', containers⟩ := same
  constructor
  · exact ⟨middle, provides, aside'⟩
  · exact provides.later.trans aside'.later
  · exact fun managed => aside'.managed (provides.managed managed)
  · rw [aside'.pool]
    exact own
  · exact aside'.later.stays (used isOpen)
  · rw [commands', commands]
  · rw [roots', roots]
  · rw [pile', pile]
  · rw [containers, headed, setContainer_self]
    exact congrArg List.length commands
  · intro q other
    rw [containers, headed, setContainer_of_ne _ _ other]
    exact (setContainer_of_ne middle c other).trans (others q fun same => other (Option.some.inj same).symm)
  · rcases beginRootContainer_cases run with ⟨rfl, under⟩ | ⟨rfl, away⟩
    · refine .inl ⟨rfl, under.1, ?_⟩
      rw [← next]
      exact under.2
    · refine .inr ⟨next, fun under => ?_⟩
      rw [← next]
      exact not_hovered away under

theorem beginWindow_cases (run : ctx.beginWindow id rect opt = .ok (cnt, ctx')) :
    cnt = none ∧ (∃ got, Provides ctx id got ctx' ∧ ctx'.containers = ctx.containers) ∨
      ∃ r, cnt = some r ∧ Opens ctx id r ctx' := by
  obtain ⟨⟨got, middle⟩, get, rest⟩ := bind_ok run
  have provides := getContainer_cases get
  cases got with
  | none =>
    cases rest
    exact .inl ⟨rfl, none, provides, provides.unused nofun⟩
  | some r =>
    dsimp only at rest
    split at rest
    · rename_i isOpen
      obtain ⟨begun, first, last⟩ := bind_ok rest
      cases last
      refine .inr ⟨r, rfl, provides.opens isOpen ?_ first⟩
      split <;> rfl
    · rename_i shut
      cases rest
      refine .inl ⟨rfl, some r, provides, provides.unused ?_⟩
      rintro q same
      cases same
      simpa using shut

theorem patch_cases {commands commands' : List Command} {i dst : Nat} (run : patch commands i dst = .ok commands') :
    (∃ old, commands[i]? = some (.jump old)) ∧ commands' = commands.set i (.jump dst) := by
  rw [patch] at run
  split at run
  · rename_i old found
    cases run
    exact ⟨⟨old, found⟩, rfl⟩
  · cases run

theorem getCurrentContainer_cases (run : ctx.getCurrentContainer = .ok r) :
    ∃ outer, ctx.containerStack = r :: outer := by
  rw [getCurrentContainer] at run
  split at run
  · cases run
  · rename_i top outer pile
    cases run
    exact ⟨outer, pile⟩

theorem endRootContainer_cases (run : ctx.endRootContainer = .ok ctx') : ∃ r, Shuts ctx r ctx' := by
  obtain ⟨r, current, rest⟩ := bind_ok run
  obtain ⟨commands, patched, last⟩ := bind_ok rest
  obtain ⟨outer, pile⟩ := getCurrentContainer_cases current
  obtain ⟨_, linked⟩ := patch_cases patched
  cases last
  have aside := aside_setContainer ctx r { ctx.containers r with tail := ctx.commandList.length } rfl
  refine ⟨r, ⟨aside.frame, aside.mouse, aside.hover, aside.top, aside.pool, aside.level⟩, ?_, rfl, rfl, ?_, ?_, ?_, ?_⟩
  · rw [pile]
    exact congrArg (r :: ·) (congrArg List.tail pile).symm
  · rw [linked]
    simp [pushCommand, setContainer]
  · simp [pushCommand]
  · simp [pushCommand]
  · intro q other
    exact setContainer_of_ne ctx _ other

theorem setShape_cases (run : ctx.setShape shape = .ok ctx') :
    Aside ctx ctx' ∧ ctx'.commandList = ctx.commandList ∧ ctx'.rootList = ctx.rootList ∧
      ctx'.containerStack = ctx.containerStack ∧ ctx'.nextHoverRoot = ctx.nextHoverRoot ∧
      ∀ q, (ctx'.containers q).head = (ctx.containers q).head ∧ (ctx'.containers q).tail = (ctx.containers q).tail := by
  obtain ⟨r, current, rest⟩ := bind_ok run
  cases rest
  refine ⟨aside_setContainer ctx r _ rfl, rfl, rfl, rfl, rfl, fun q => ?_⟩
  by_cases same : q = r
  · subst same
    rw [setContainer_self]
    exact ⟨rfl, rfl⟩
  · rw [setContainer_of_ne ctx _ same]
    exact ⟨rfl, rfl⟩

theorem run_window_cases (run : (Client.window id rect opt body rest).run ctx = .ok (roots, ctx')) :
    (∃ got middle, Provides ctx id got middle ∧ middle.containers = ctx.containers ∧
        rest.run middle = .ok (roots, ctx')) ∨
      ∃ r opened inner full shut later, Opens ctx id r opened ∧ body.run opened = .ok (inner, full) ∧
        (∃ q, Shuts full q shut) ∧ rest.run shut = .ok (later, ctx') ∧
        roots = ⟨id, r, (opened.containers r).rect, body.own⟩ :: (inner ++ later) := by
  obtain ⟨⟨cnt, middle⟩, begun, next⟩ := bind_ok run
  rcases beginWindow_cases begun with ⟨rfl, got, provides, same⟩ | ⟨r, rfl, opens⟩
  · exact .inl ⟨got, middle, provides, same, next⟩
  · obtain ⟨⟨inner, full⟩, first, next⟩ := bind_ok next
    obtain ⟨shut, ended, next⟩ := bind_ok next
    obtain ⟨⟨later, last⟩, second, result⟩ := bind_ok next
    cases result
    exact .inr ⟨r, middle, inner, full, shut, later, opens, first, endRootContainer_cases ended, second, rfl⟩

end UmkaOs.Microui
