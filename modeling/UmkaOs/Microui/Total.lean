import UmkaOs.Microui.Retain

namespace UmkaOs.Microui

open Context

variable {ctx ctx' : Context} {client : Client} {id : Id} {r : Ref} {ids : List Id} {i j : Nat}
  {commands commands' : List Command} {containers : Ref → Container} {order : List Ref}

def IsJump (commands : List Command) (i : Nat) : Prop := ∃ dst, commands[i]? = some (.jump dst)

namespace IsJump

theorem append (jump : IsJump commands i) (more : List Command) : IsJump (commands ++ more) i := by
  obtain ⟨dst, here⟩ := jump
  obtain ⟨inside, _⟩ := List.getElem?_eq_some_iff.mp here
  exact ⟨dst, by rw [List.getElem?_append_left inside, here]⟩

theorem last (commands : List Command) (dst : Nat) : IsJump (commands ++ [.jump dst]) commands.length :=
  ⟨dst, by simp⟩

theorem set (jump : IsJump commands i) (dst : Nat) : IsJump (commands.set j (.jump dst)) i := by
  obtain ⟨old, here⟩ := jump
  obtain ⟨inside, _⟩ := List.getElem?_eq_some_iff.mp here
  by_cases same : j = i
  · subst same
    exact ⟨dst, List.getElem?_set_self inside⟩
  · exact ⟨old, by rw [List.getElem?_set_ne same, here]⟩

theorem patch (jump : IsJump commands i) (dst : Nat) : patch commands i dst = .ok (commands.set i (.jump dst)) := by
  obtain ⟨old, here⟩ := jump
  rw [Context.patch, here]

end IsJump

/-- Between windows: every window that was begun has a jump at its head, and at its tail
if it has ended. -/
structure Sound (ctx : Context) : Prop where
  start : ctx.rootList = [] ∧ ctx.commandList = [] ∨ IsJump ctx.commandList 0
  heads : ∀ r ∈ ctx.rootList, IsJump ctx.commandList (ctx.containers r).head
  tails : ∀ r ∈ ctx.rootList, r ∈ ctx.containerStack ∨ IsJump ctx.commandList (ctx.containers r).tail
  begun : ∀ r ∈ ctx.containerStack, r ∈ ctx.rootList
  depth : ctx.containerStack.length ≤ ctx.rootList.length

theorem Sound.begin (ctx : Context) (empty : ctx.containerStack = []) : Sound ctx.begin := by
  refine ⟨.inl ⟨rfl, rfl⟩, List.forall_mem_nil _, List.forall_mem_nil _, ?_, ?_⟩
  · rw [show ctx.begin.containerStack = [] from empty]
    exact List.forall_mem_nil _
  · rw [show ctx.begin.containerStack = [] from empty]
    exact Nat.zero_le _

theorem Sound.opens (sound : Sound ctx) (opens : Opens ctx id r ctx') : Sound ctx' := by
  have head : IsJump ctx'.commandList (ctx'.containers r).head := by
    rw [opens.commands, opens.head]
    exact .last _ _
  constructor
  · rw [opens.commands]
    rcases sound.start with ⟨_, none⟩ | jump
    · rw [none]
      exact .inr ⟨_, rfl⟩
    · exact .inr (jump.append _)
  · rw [opens.roots]
    intro q member
    by_cases same : q = r
    · rw [same]
      exact head
    · rw [opens.others q same, opens.commands]
      exact (sound.heads q (by simpa [same] using member)).append _
  · rw [opens.roots, opens.stack]
    intro q member
    by_cases same : q = r
    · rw [same]
      exact .inl List.mem_cons_self
    · rw [opens.others q same, opens.commands]
      rcases sound.tails q (by simpa [same] using member) with inside | jump
      · exact .inl (List.mem_cons_of_mem _ inside)
      · exact .inr (jump.append _)
  · rw [opens.stack, opens.roots, List.forall_mem_cons]
    exact ⟨by simp, fun q member => List.mem_append_left _ (sound.begun q member)⟩
  · rw [opens.stack, opens.roots, List.length_cons, List.length_append]
    exact Nat.succ_le_succ sound.depth

theorem Sound.shuts (sound : Sound ctx) (shuts : Shuts ctx r ctx') : Sound ctx' := by
  have member : r ∈ ctx.rootList := sound.begun r (shuts.stack ▸ List.mem_cons_self)
  have keep : ∀ {i}, IsJump ctx.commandList i → IsJump ctx'.commandList i := by
    intro i jump
    rw [shuts.commands]
    exact (jump.append _).set _
  constructor
  · rcases sound.start with ⟨none, _⟩ | jump
    · rw [none] at member
      cases member
    · exact .inr (keep jump)
  · rw [shuts.roots]
    intro q member'
    by_cases same : q = r
    · rw [same, shuts.head]
      exact keep (sound.heads r member)
    · rw [shuts.others q same]
      exact keep (sound.heads q member')
  · rw [shuts.roots]
    intro q member'
    by_cases same : q = r
    · rw [same, shuts.tail, shuts.commands]
      exact .inr ((IsJump.last _ _).set _)
    · rw [shuts.others q same]
      rcases sound.tails q member' with inside | jump
      · rw [shuts.stack, List.mem_cons] at inside
        exact .inl (inside.resolve_left same)
      · exact .inr (keep jump)
  · rw [shuts.roots]
    intro q inside
    exact sound.begun q (shuts.stack ▸ List.mem_cons_of_mem _ inside)
  · have depth := sound.depth
    rw [shuts.stack, List.length_cons] at depth
    rw [shuts.roots]
    omega

theorem Sound.congr (sound : Sound ctx) (commands : ctx'.commandList = ctx.commandList)
    (roots : ctx'.rootList = ctx.rootList) (pile : ctx'.containerStack = ctx.containerStack)
    (ends : ∀ q ∈ ctx.rootList, (ctx'.containers q).head = (ctx.containers q).head ∧
      (ctx'.containers q).tail = (ctx.containers q).tail) : Sound ctx' := by
  constructor
  · rw [commands, roots]
    exact sound.start
  · rw [commands, roots]
    intro q member
    rw [(ends q member).1]
    exact sound.heads q member
  · rw [commands, roots, pile]
    intro q member
    rw [(ends q member).2]
    exact sound.tails q member
  · rw [pile, roots]
    exact sound.begun
  · rw [pile, roots]
    exact sound.depth

theorem ok_bind {α β : Type} {x : Except Fault α} {f : α → Except Fault β} {a : α} (first : x = .ok a)
    (second : ∃ b, f a = .ok b) : ∃ b, (x >>= f) = .ok b := by
  rw [first]
  exact second

theorem getContainer_ok (opt : Options)
    (room : (∀ r, (ctx.containerPool r).id ≠ id) → ∃ r, (ctx.containerPool r).lastUpdate < ctx.frame) :
    ∃ got, ctx.getContainer id opt = .ok got := by
  rw [getContainer]
  cases found : poolGet ctx.containerPool id with
  | some idx =>
    dsimp only
    split
    · exact ⟨_, rfl⟩
    · exact ⟨_, rfl⟩
  | none =>
    dsimp only
    rw [newContainer]
    split
    · exact ⟨_, rfl⟩
    · unfold poolInit
      cases old : oldest ctx.frame ctx.containerPool with
      | none =>
        obtain ⟨r, stale⟩ := room (poolGet_none found)
        exact absurd (oldest_none old r) (Nat.not_le_of_lt stale)
      | some idx => exact ⟨_, rfl⟩

theorem beginWindow_ok {opt : Options} (rect : Rect) {got : Option Ref × Context}
    (get : ctx.getContainer id opt = .ok got) (depth : got.2.containerStack.length < stackSize)
    (room : got.2.rootList.length < stackSize) :
    ∃ begun, ctx.beginWindow id rect opt = .ok begun := by
  obtain ⟨cnt, middle⟩ := got
  rw [beginWindow, get]
  cases cnt with
  | none => exact ⟨_, rfl⟩
  | some r =>
    show ∃ begun, (if (middle.containers r).isOpen then _ else _) = Except.ok begun
    split
    · rw [beginRootContainer, pushRoot]
      have fits : ∀ c : Container, (middle.setContainer r c).containerStack.length < stackSize ∧
          (middle.setContainer r c).rootList.length < stackSize := fun _ => ⟨depth, room⟩
      rw [if_pos (fits _)]
      exact ⟨_, rfl⟩
    · exact ⟨_, rfl⟩

theorem endRootContainer_ok (sound : Sound ctx) {rest : List Ref} (pile : ctx.containerStack = r :: rest) :
    ∃ shut, ctx.endRootContainer = .ok shut := by
  have head := sound.heads r (sound.begun r (pile ▸ List.mem_cons_self))
  have current : ctx.getCurrentContainer = .ok r := by rw [getCurrentContainer, pile]
  have patched : IsJump (ctx.commandList ++ [.jump unset])
      ((ctx.setContainer r { ctx.containers r with tail := ctx.commandList.length }).containers r).head := by
    rw [setContainer_self]
    exact head.append _
  exact ok_bind current (ok_bind (patched.patch _) ⟨_, rfl⟩)

theorem setShape_ok {rest : List Ref} (shape : Shape) (pile : ctx.containerStack = r :: rest) :
    ∃ shaped, ctx.setShape shape = .ok shaped := by
  have current : ctx.getCurrentContainer = .ok r := by rw [getCurrentContainer, pile]
  exact ok_bind current ⟨_, rfl⟩

theorem linkFrom_ok (last : IsJump commands i) (tails : ∀ r ∈ order, IsJump commands (containers r).tail) :
    ∃ linked, linkFrom containers i order commands = .ok linked := by
  induction order generalizing i commands with
  | nil =>
    exact ⟨_, last.patch _⟩
  | cons r rest ih =>
    rw [List.forall_mem_cons] at tails
    exact ok_bind (last.patch _) (ih (tails.1.set _) fun q member => (tails.2 q member).set _)

theorem endFrame_ok (sound : Sound ctx) (empty : ctx.containerStack = []) : ∃ ended, ctx.endFrame = .ok ended := by
  have front : ctx.clicked.rootList = ctx.rootList ∧ ctx.clicked.commandList = ctx.commandList ∧
      ∀ r, (ctx.clicked.containers r).tail = (ctx.containers r).tail := by
    rcases clicked_cases ctx with same | ⟨cnt, _, same⟩ <;> rw [same]
    · exact ⟨rfl, rfl, fun _ => rfl⟩
    · exact ⟨rfl, rfl, fun r => (bringToFront_ends ctx cnt r).2⟩
  obtain ⟨rootList, commandList, ends⟩ := front
  have sorting := (Lib.quicksort_list (fun cnt => (ctx.clicked.containers cnt).zindex) ctx.clicked.rootList 0).1
  generalize sorted : (List.range ctx.clicked.rootList.length).map _ = order at sorting
  have linked : ∃ commands, link ctx.clicked.containers order ctx.clicked.commandList = .ok commands := by
    cases order with
    | nil => exact ⟨_, rfl⟩
    | cons first rest =>
      have members : ∀ r ∈ first :: rest, r ∈ ctx.rootList := fun r member => rootList ▸ sorting.mem_iff.mp member
      rw [commandList]
      apply linkFrom_ok
      · apply sound.start.resolve_left
        rintro ⟨none, _⟩
        have absent := members first List.mem_cons_self
        rw [none] at absent
        cases absent
      · intro r member
        rw [ends]
        apply (sound.tails r (members r member)).resolve_left
        rw [empty]
        exact List.not_mem_nil
  obtain ⟨commands, linked⟩ := linked
  rw [Context.endFrame, if_neg (not_not.mpr empty)]
  subst sorted
  exact ok_bind linked ⟨_, rfl⟩

/-- A client whose windows fit into the pool and the stacks runs to its end. -/
theorem run_ok (sound : Sound ctx) (managed : Managed ctx) (held : Held ctx.frame ids ctx) (zero : 0 ∉ ids)
    (few : ids.toFinset.card ≤ poolSize) (asked : ∀ id ∈ client.ids, id ∈ ids)
    (room : ctx.rootList.length + client.ids.length ≤ stackSize) (place : client.Windows ∨ ctx.containerStack ≠ []) :
    ∃ roots ctx', client.run ctx = .ok (roots, ctx') ∧ Sound ctx' ∧ ctx'.containerStack = ctx.containerStack ∧
      ctx'.rootList.length ≤ ctx.rootList.length + client.ids.length := by
  induction client generalizing ctx with
  | done => exact ⟨[], ctx, rfl, sound, rfl, Nat.le_refl _⟩
  | draw d rest ih =>
    obtain ⟨r, pile, within⟩ : ∃ r pile, ctx.containerStack = r :: pile := by
      rcases place with flat | inside
      · cases flat
      · exact List.exists_cons_of_ne_nil inside
    have start : IsJump ctx.commandList 0 := by
      apply sound.start.resolve_left
      rintro ⟨none, _⟩
      have begun := sound.begun r (within ▸ List.mem_cons_self)
      rw [none] at begun
      cases begun
    have drawn : Sound (ctx.pushCommand (.draw d)) :=
      ⟨.inr (start.append _), fun q member => (sound.heads q member).append _,
        fun q member => (sound.tails q member).imp_right fun jump => jump.append _, sound.begun, sound.depth⟩
    have inside : (ctx.pushCommand (.draw d)).containerStack ≠ [] := within ▸ List.cons_ne_nil r pile
    exact ih drawn (managed.push _) held asked room (.inr inside)
  | reshape shape rest ih =>
    obtain ⟨r, pile, within⟩ : ∃ r pile, ctx.containerStack = r :: pile := by
      rcases place with flat | inside
      · cases flat
      · exact List.exists_cons_of_ne_nil inside
    obtain ⟨shaped, first⟩ := setShape_ok shape within
    obtain ⟨aside, commands, roots, same, _, ends⟩ := setShape_cases first
    have sound' := sound.congr commands roots same fun q _ => ends q
    rw [← aside.frame] at held
    have inside : shaped.containerStack ≠ [] := by
      rw [same, within]
      exact List.cons_ne_nil r pile
    obtain ⟨begun, last, run, result⟩ := ih sound' (aside.managed managed) (aside.held held) asked (roots ▸ room)
      (.inr inside)
    rw [same, roots] at result
    exact ⟨begun, last, by rw [Client.run, first]; exact run, result⟩
  | window id rect opt body rest ihBody ihRest =>
    rw [Client.ids, List.forall_mem_cons, List.forall_mem_append] at asked
    obtain ⟨asked, askedBody, askedRest⟩ := asked
    rw [Client.ids, List.length_cons, List.length_append] at room ⊢
    have placeRest : rest.Windows ∨ ctx.containerStack ≠ [] := place.imp_left fun flat => by cases flat; assumption
    have depth := sound.depth
    obtain ⟨⟨got, found⟩, get⟩ := getContainer_ok opt (held.room managed zero few asked)
    obtain ⟨_, sameRoots, samePile, _⟩ := (getContainer_cases get).commands
    obtain ⟨⟨cnt, opened⟩, begun⟩ := beginWindow_ok rect get (by rw [samePile]; omega) (by rw [sameRoots]; omega)
    rcases beginWindow_cases begun with ⟨rfl, got, provides, same⟩ | ⟨r, rfl, opens⟩
    · obtain ⟨commands, roots, pile, _⟩ := provides.commands
      have sound' := sound.congr commands roots pile fun q _ => by rw [same]; exact ⟨rfl, rfl⟩
      have held' := provides.held held asked
      rw [← provides.later.frame] at held'
      rw [← pile] at placeRest
      obtain ⟨drawn, last, run, result⟩ := ihRest sound' (provides.managed managed) held' askedRest
        (by rw [roots]; omega) placeRest
      rw [pile, roots] at result
      refine ⟨drawn, last, ?_, result.1, result.2.1, by omega⟩
      rw [Client.run, begun]
      exact run
    · have managed' := opens.managed managed
      obtain ⟨middle, provides, aside⟩ := opens.got
      have held' := aside.held (provides.held held asked)
      rw [← opens.later.frame] at held'
      have longer : opened.rootList.length = ctx.rootList.length + 1 := by rw [opens.roots, List.length_append]; rfl
      have inside : opened.containerStack ≠ [] := opens.stack ▸ List.cons_ne_nil r _
      obtain ⟨inner, full, drawn, soundBody, pile, grown⟩ := ihBody (sound.opens opens) managed' held' askedBody
        (by omega) (.inr inside)
      rw [opens.stack] at pile
      obtain ⟨shut, ended⟩ := endRootContainer_ok soundBody pile
      obtain ⟨q, shuts⟩ := endRootContainer_cases ended
      obtain ⟨laterBody, managedBody, _⟩ := run_later drawn
      obtain ⟨_, heldBody⟩ := run_keeps drawn held' managed' zero few askedBody (Nat.le_refl _)
      have heldShut := shuts.aside.held heldBody
      rw [← (laterBody.trans shuts.aside.later).frame] at heldShut
      have under : shut.containerStack = ctx.containerStack := by
        have top := shuts.stack
        rw [pile] at top
        exact (List.cons.inj top).2.symm
      rw [← under] at placeRest
      obtain ⟨later, last, run, sound', pile', grown'⟩ := ihRest (soundBody.shuts shuts)
        (shuts.aside.managed (managedBody managed')) heldShut askedRest (by rw [shuts.roots]; omega) placeRest
      rw [under] at pile'
      rw [shuts.roots] at grown'
      refine ⟨⟨id, r, (opened.containers r).rect, body.own⟩ :: (inner ++ later), last, ?_, sound', pile', by omega⟩
      rw [Client.run, begun]
      show (body.run opened >>= _) = _
      rw [drawn]
      show (full.endRootContainer >>= _) = _
      rw [ended]
      show (rest.run shut >>= _) = _
      rw [run]
      rfl

/-- Between frames no window is open. -/
theorem Context.Reachable.empty (reachable : Reachable ctx) : ctx.containerStack = [] := by
  induction reachable with
  | init input => rfl
  | input _ _ ih => exact ih
  | frame before run =>
    obtain ⟨full, _, ends⟩ := schedule_cases run
    exact ends.stack.2

/-- A frame without too many windows comes to its end. -/
theorem schedule_ok (managed : Managed ctx) (empty : ctx.containerStack = []) (flat : client.Windows)
    (zero : 0 ∉ client.ids) (few : client.ids.length ≤ stackSize) :
    ∃ roots ctx', ctx.schedule client = .ok (roots, ctx') := by
  have fresh : Held ctx.begin.frame client.ids ctx.begin := by
    intro r recent
    exact absurd (Nat.le_trans recent (managed.updates r)) (Nat.not_succ_le_self _)
  have fits : client.ids.toFinset.card ≤ poolSize :=
    Nat.le_trans (List.toFinset_card_le _) (Nat.le_trans few (by decide))
  have room : ctx.begin.rootList.length + client.ids.length ≤ stackSize :=
    Nat.le_trans (Nat.le_of_eq (Nat.zero_add _)) few
  obtain ⟨roots, full, drawn, sound, pile, _⟩ := run_ok (Sound.begin ctx empty) managed.begin fresh zero fits
    (fun id member => member) room (.inl flat)
  obtain ⟨last, ended⟩ := endFrame_ok sound (pile.trans empty)
  refine ⟨roots, last, ?_⟩
  rw [schedule, drawn]
  show (full.endFrame >>= _) = _
  rw [ended]
  rfl

/-- Whatever was shown before, a frame that asks for at most 32 windows does not fail. -/
theorem frame_total (reachable : Reachable ctx) (flat : client.Windows) (zero : 0 ∉ client.ids)
    (few : client.ids.length ≤ stackSize) : ∃ roots ctx', ctx.schedule client = .ok (roots, ctx') :=
  schedule_ok reachable.managed reachable.empty flat zero few

/-- Two windows, the second over the first. -/
def twoWindows : Client :=
  .window 1 ⟨0, 0, 96, 64⟩ 0 (.draw (.rect ⟨0, 0, 96, 64⟩ ⟨230, 230, 230, 255⟩) .done)
    (.window 2 ⟨32, 32, 96, 64⟩ 0 (.draw (.rect ⟨32, 32, 96, 64⟩ ⟨25, 25, 25, 255⟩) .done) .done)

theorem twoWindows_flat : twoWindows.Windows := .window (.window .done)

/-- A button is pressed where the two windows are. -/
def pressed : Input.Context := ⟨⟨40, 40⟩, ⟨0, 0⟩, 0, 1⟩

theorem frame_total_two : ∃ roots ctx', (init pressed).schedule twoWindows = .ok (roots, ctx') :=
  frame_total (.init _) twoWindows_flat (by decide) (by decide)

end UmkaOs.Microui
