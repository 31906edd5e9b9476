import UmkaOs.Microui.Model
import Mathlib.Data.Fintype.Card

namespace UmkaOs.Microui

open Context

variable {ctx ctx' : Context} {items : Pool} {id : Id} {opt : Options} {cnt : Option Ref} {idx r : Ref} {frame : Nat}
  {rect : Rect}

theorem poolGet_some (found : poolGet items id = some idx) : (items idx).id = id := by
  simpa using List.find?_some found

theorem poolGet_none (missing : poolGet items id = none) (r : Ref) : (items r).id ≠ id := by
  simpa using List.find?_eq_none.mp missing r (List.mem_finRange r)

theorem foldl_older (items : Pool) (visited : List Ref) (s : Nat × Option Ref) :
    (visited.foldl (older items) s).1 ≤ s.1 ∧
      (∀ i ∈ visited, (visited.foldl (older items) s).1 ≤ (items i).lastUpdate) ∧
      (visited.foldl (older items) s = s ∨
        ∃ i, visited.foldl (older items) s = ((items i).lastUpdate, some i) ∧ (items i).lastUpdate < s.1) := by
  induction visited generalizing s with
  | nil => exact ⟨Nat.le_refl _, List.forall_mem_nil _, .inl rfl⟩
  | cons i rest ih =>
    rw [List.foldl_cons]
    obtain ⟨below, least, origin⟩ := ih (older items s i)
    have step : older items s i = s ∧ s.1 ≤ (items i).lastUpdate ∨
        older items s i = ((items i).lastUpdate, some i) ∧ (items i).lastUpdate < s.1 := by
      rw [older]
      split
      · rename_i earlier
        exact .inr ⟨rfl, earlier⟩
      · rename_i later
        exact .inl ⟨rfl, Nat.le_of_not_lt later⟩
    rcases step with ⟨same, later⟩ | ⟨taken, earlier⟩
    · rw [same] at below least origin ⊢
      refine ⟨below, ?_, origin⟩
      rw [List.forall_mem_cons]
      exact ⟨Nat.le_trans below later, least⟩
    · rw [taken] at below least origin ⊢
      refine ⟨Nat.le_trans below (Nat.le_of_lt earlier), ?_, .inr ?_⟩
      · rw [List.forall_mem_cons]
        exact ⟨below, least⟩
      · rcases origin with same | ⟨k, last, before⟩
        · exact ⟨i, same, earlier⟩
        · exact ⟨k, last, Nat.lt_trans before earlier⟩

/-- An item is taken if any is older than the frame, and then the oldest one. -/
theorem oldest_some (taken : oldest frame items = some idx) :
    (items idx).lastUpdate < frame ∧ ∀ r, (items idx).lastUpdate ≤ (items r).lastUpdate := by
  obtain ⟨_, least, origin⟩ := foldl_older items (List.finRange poolSize) (frame, none)
  rw [oldest] at taken
  rcases origin with same | ⟨i, last, before⟩
  · rw [same] at taken
    cases taken
  · rw [last] at taken least
    cases taken
    exact ⟨before, fun r => least r (List.mem_finRange r)⟩

theorem oldest_none (taken : oldest frame items = none) (r : Ref) : frame ≤ (items r).lastUpdate := by
  obtain ⟨_, least, origin⟩ := foldl_older items (List.finRange poolSize) (frame, none)
  rw [oldest] at taken
  rcases origin with same | ⟨i, last, _⟩
  · rw [same] at least
    exact least r (List.mem_finRange r)
  · rw [last] at taken
    cases taken

/-- If the items that were used since a frame belong to at most as many ids as the pool has
items, then an id without an item finds one that was not used since. -/
theorem pool_room {k : Nat} {ids : List Id}
    (unique : ∀ r r', (items r).id = (items r').id → (items r).id ≠ 0 → r = r')
    (held : ∀ r, k ≤ (items r).lastUpdate → (items r).id ∈ ids) (zero : 0 ∉ ids) (few : ids.toFinset.card ≤ poolSize)
    (asked : id ∈ ids) (absent : ∀ r, (items r).id ≠ id) : ∃ r, (items r).lastUpdate < k := by
  by_contra none
  have recent : ∀ r, (items r).id ∈ ids := fun r => held r (Nat.le_of_not_lt fun old => none ⟨r, old⟩)
  have inside : ∀ r ∈ (Finset.univ : Finset Ref), (items r).id ∈ ids.toFinset.erase id := by
    intro r _
    rw [Finset.mem_erase, List.mem_toFinset]
    exact ⟨absent r, recent r⟩
  have apart : Set.InjOn (fun r => (items r).id) (Finset.univ : Finset Ref) := by
    intro r _ r' _ same
    apply unique r r' same
    intro unused
    exact zero (unused ▸ recent r)
  have count := Finset.card_le_card_of_injOn _ inside apart
  rw [Finset.card_univ, Fintype.card_fin, Finset.card_erase_of_mem (List.mem_toFinset.mpr asked)] at count
  have positive := Finset.card_pos.mpr ⟨id, List.mem_toFinset.mpr asked⟩
  omega

/-- The pool with an id that has taken an item. -/
def taken (ctx : Context) (id : Id) (idx : Ref) : Pool :=
  Function.update ctx.containerPool idx ⟨id, ctx.frame⟩

/-- A container that was set up for an id. -/
def setUp (ctx : Context) (id : Id) (idx : Ref) : Context :=
  ({ ctx with containerPool := taken ctx id idx }.setContainer idx fresh).bringToFront idx

/-- What `getContainer_` does. -/
inductive Provides (ctx : Context) (id : Id) : Option Ref → Context → Prop
  | missing (absent : ∀ r, (ctx.containerPool r).id ≠ id) : Provides ctx id none ctx
  | closed {idx : Ref} (own : (ctx.containerPool idx).id = id) (shut : (ctx.containers idx).isOpen = false) :
    Provides ctx id (some idx) ctx
  | found {idx : Ref} (own : (ctx.containerPool idx).id = id) :
    Provides ctx id (some idx) { ctx with containerPool := poolUpdate ctx.frame ctx.containerPool idx }
  | made {idx : Ref} (absent : ∀ r, (ctx.containerPool r).id ≠ id)
    (old : oldest ctx.frame ctx.containerPool = some idx) : Provides ctx id (some idx) (setUp ctx id idx)

theorem getContainer_cases (run : ctx.getContainer id opt = .ok (cnt, ctx')) : Provides ctx id cnt ctx' := by
  rw [getContainer] at run
  cases got : poolGet ctx.containerPool id with
  | some idx =>
    rw [got] at run
    dsimp only at run
    split at run
    · cases run
      exact .found (poolGet_some got)
    · rename_i neither
      cases run
      exact .closed (poolGet_some got) (by simpa using (not_or.mp neither).1)
  | none =>
    rw [got] at run
    dsimp only at run
    rw [newContainer] at run
    split at run
    · cases run
      exact .missing (poolGet_none got)
    · obtain ⟨made, first, rest⟩ := bind_ok run
      unfold poolInit at first
      cases old : oldest ctx.frame ctx.containerPool with
      | none =>
        rw [old] at first
        cases first
      | some n =>
        rw [old] at first
        cases first
        cases rest
        have same : poolUpdate ctx.frame (Function.update ctx.containerPool n { ctx.containerPool n with id := id }) n =
            taken ctx id n := by
          rw [poolUpdate, Function.update_idem, Function.update_self]
          rfl
        rw [same]
        exact .made (poolGet_none got) old

/-- The id is retained, and was used in this frame. -/
def Recent (ctx : Context) (r : Ref) : Prop := (ctx.containerPool r).lastUpdate = ctx.frame

/-- Ids and places in the stack of windows are unique. The id of an item that was never used
is 0. -/
structure Managed (ctx : Context) : Prop where
  ids : ∀ r r', (ctx.containerPool r).id = (ctx.containerPool r').id → (ctx.containerPool r).id ≠ 0 → r = r'
  updates : ∀ r, (ctx.containerPool r).lastUpdate ≤ ctx.frame
  front : 0 ≤ ctx.lastZIndex
  level : ∀ r, 0 ≤ (ctx.containers r).zindex
  below : ∀ r, (ctx.containers r).zindex ≤ ctx.lastZIndex
  apart : ∀ r r', (ctx.containerPool r).id ≠ 0 → (ctx.containerPool r').id ≠ 0 →
    (ctx.containers r).zindex = (ctx.containers r').zindex → r = r'

@[simp] theorem setUp_pool (ctx : Context) (id : Id) (idx : Ref) :
    (setUp ctx id idx).containerPool = taken ctx id idx := rfl

theorem taken_self (ctx : Context) (id : Id) (idx : Ref) : taken ctx id idx idx = ⟨id, ctx.frame⟩ :=
  Function.update_self ..

theorem taken_of_ne (ctx : Context) (id : Id) (other : r ≠ idx) : taken ctx id idx r = ctx.containerPool r :=
  Function.update_of_ne other ..

@[simp] theorem setUp_zindex_self (ctx : Context) (id : Id) (idx : Ref) :
    ((setUp ctx id idx).containers idx).zindex = ctx.lastZIndex + 1 := by
  simp [setUp, bringToFront, setContainer]

theorem setUp_containers_of_ne (ctx : Context) (id : Id) (other : r ≠ idx) :
    (setUp ctx id idx).containers r = ctx.containers r := by
  simp [setUp, bringToFront, setContainer, other]

/-- Only the container that is set up changes, and it comes to the front. -/
theorem setUp_cases (ctx : Context) (id : Id) (idx r : Ref) :
    r = idx ∧ (setUp ctx id idx).containerPool r = ⟨id, ctx.frame⟩ ∧
        ((setUp ctx id idx).containers r).zindex = ctx.lastZIndex + 1 ∨
      r ≠ idx ∧ (setUp ctx id idx).containerPool r = ctx.containerPool r ∧
        (setUp ctx id idx).containers r = ctx.containers r := by
  by_cases same : r = idx
  · subst same
    exact .inl ⟨rfl, taken_self ctx id r, setUp_zindex_self ctx id r⟩
  · exact .inr ⟨same, taken_of_ne ctx id same, setUp_containers_of_ne ctx id same⟩

theorem Managed.push (managed : Managed ctx) (command : Command) : Managed (ctx.pushCommand command) :=
  ⟨managed.ids, managed.updates, managed.front, managed.level, managed.below, managed.apart⟩

theorem Managed.setUp (managed : Managed ctx) (absent : ∀ r, (ctx.containerPool r).id ≠ id) (idx : Ref) :
    Managed (setUp ctx id idx) := by
  have top : (Microui.setUp ctx id idx).lastZIndex = ctx.lastZIndex + 1 := rfl
  have positive := managed.front
  constructor
  · intro r r' same used
    rcases setUp_cases ctx id idx r with ⟨self, pool, _⟩ | ⟨other, pool, _⟩ <;>
      rcases setUp_cases ctx id idx r' with ⟨self', pool', _⟩ | ⟨other', pool', _⟩ <;>
      rw [pool, pool'] at same
    · rw [self, self']
    · exact absurd same.symm (absent r')
    · exact absurd same (absent r)
    · rw [pool] at used
      exact managed.ids r r' same used
  · intro r
    rcases setUp_cases ctx id idx r with ⟨self, pool, _⟩ | ⟨other, pool, _⟩ <;> rw [pool]
    · exact Nat.le_refl _
    · exact managed.updates r
  · rw [top]
    omega
  · intro r
    rcases setUp_cases ctx id idx r with ⟨self, pool, z⟩ | ⟨other, pool, same⟩
    · rw [z]
      omega
    · rw [same]
      exact managed.level r
  · intro r
    rw [top]
    rcases setUp_cases ctx id idx r with ⟨self, pool, z⟩ | ⟨other, pool, same⟩
    · rw [z]
    · rw [same]
      exact Int.le_trans (managed.below r) (by omega)
  · intro r r' used used' level
    have low := managed.below r
    have low' := managed.below r'
    rcases setUp_cases ctx id idx r with ⟨self, pool, z⟩ | ⟨other, pool, same⟩ <;>
      rcases setUp_cases ctx id idx r' with ⟨self', pool', z'⟩ | ⟨other', pool', same'⟩
    · rw [self, self']
    · rw [z, same'] at level
      omega
    · rw [same, z'] at level
      omega
    · rw [same, same'] at level
      rw [pool] at used
      rw [pool'] at used'
      exact managed.apart r r' used used' level

/-- What a client does not change in a frame: the containers that are in use keep their
ids and their places in the stack. -/
structure Later (ctx ctx' : Context) : Prop where
  frame : ctx'.frame = ctx.frame
  mouse : ctx'.toContext = ctx.toContext
  hover : ctx'.hoverRoot = ctx.hoverRoot
  recent : ∀ r, Recent ctx r →
    ctx'.containerPool r = ctx.containerPool r ∧ (ctx'.containers r).zindex = (ctx.containers r).zindex

theorem Later.refl (ctx : Context) : Later ctx ctx := ⟨rfl, rfl, rfl, fun _ _ => ⟨rfl, rfl⟩⟩

theorem Later.stays (later : Later ctx ctx') (used : Recent ctx r) : Recent ctx' r := by
  rw [Recent, (later.recent r used).1, later.frame]
  exact used

theorem Later.trans {middle : Context} (first : Later ctx middle) (second : Later middle ctx') : Later ctx ctx' := by
  refine ⟨second.frame.trans first.frame, second.mouse.trans first.mouse, second.hover.trans first.hover, ?_⟩
  intro r used
  obtain ⟨pool, level⟩ := first.recent r used
  obtain ⟨pool', level'⟩ := second.recent r (first.stays used)
  exact ⟨pool'.trans pool, level'.trans level⟩

/-- A step that touches neither the pool nor the stack of windows. -/
structure Aside (ctx ctx' : Context) : Prop where
  frame : ctx'.frame = ctx.frame
  mouse : ctx'.toContext = ctx.toContext
  hover : ctx'.hoverRoot = ctx.hoverRoot
  top : ctx'.lastZIndex = ctx.lastZIndex
  pool : ctx'.containerPool = ctx.containerPool
  level : ∀ r, (ctx'.containers r).zindex = (ctx.containers r).zindex

theorem Aside.later (aside : Aside ctx ctx') : Later ctx ctx' :=
  ⟨aside.frame, aside.mouse, aside.hover, fun r _ => ⟨congrFun aside.pool r, aside.level r⟩⟩

theorem Aside.managed (aside : Aside ctx ctx') (managed : Managed ctx) : Managed ctx' := by
  obtain ⟨frame, _, _, top, pool, level⟩ := aside
  constructor
  · rw [pool]
    exact managed.ids
  · rw [pool, frame]
    exact managed.updates
  · rw [top]
    exact managed.front
  · simp only [level]
    exact managed.level
  · simp only [top, level]
    exact managed.below
  · simp only [pool, level]
    exact managed.apart

theorem Provides.later (provides : Provides ctx id cnt ctx') : Later ctx ctx' := by
  cases provides with
  | missing => exact .refl ctx
  | closed => exact .refl ctx
  | @found idx =>
    refine ⟨rfl, rfl, rfl, fun r used => ⟨?_, rfl⟩⟩
    by_cases same : r = idx
    · subst same
      rw [Recent] at used
      simp [poolUpdate, ← used]
    · exact Function.update_of_ne same ..
  | @made idx absent old =>
    refine ⟨rfl, rfl, rfl, fun r used => ?_⟩
    have stale := (oldest_some old).1
    rcases setUp_cases ctx id idx r with ⟨self, _⟩ | ⟨_, pool, same⟩
    · rw [Recent, self] at used
      omega
    · exact ⟨pool, congrArg Container.zindex same⟩

theorem Provides.managed (provides : Provides ctx id cnt ctx') (managed : Managed ctx) : Managed ctx' := by
  cases provides with
  | missing => exact managed
  | closed => exact managed
  | @found idx =>
    have ids : ∀ r, (poolUpdate ctx.frame ctx.containerPool idx r).id = (ctx.containerPool r).id := by
      intro r
      by_cases same : r = idx <;> simp [poolUpdate, same]
    refine ⟨?_, ?_, managed.front, managed.level, managed.below, ?_⟩
    · simp only [ids]
      exact managed.ids
    · intro r
      by_cases same : r = idx
      · simp [poolUpdate, same]
      · simp only [poolUpdate, Function.update_of_ne same]
        exact managed.updates r
    · simp only [ids]
      exact managed.apart
  | made absent => exact managed.setUp absent _

/-- The container that a window gets has its id, and is in use unless it is closed. -/
theorem Provides.own (provides : Provides ctx id (some idx) ctx') : (ctx'.containerPool idx).id = id ∧
    ((ctx'.containers idx).isOpen = true → Recent ctx' idx) := by
  cases provides with
  | closed own shut => exact ⟨own, fun isOpen => absurd (shut.symm.trans isOpen) Bool.false_ne_true⟩
  | found own => exact ⟨by simpa [poolUpdate] using own, fun _ => by simp [Recent, poolUpdate]⟩
  | made =>
    rw [setUp_pool, taken_self]
    exact ⟨rfl, fun _ => by rw [Recent, setUp_pool, taken_self]; rfl⟩

end UmkaOs.Microui
