import UmkaOs.Microui.Paint
import Mathlib.Data.List.Perm.Basic

/-! The order in which a frame is painted: the windows are sorted by their places in the
stack, the tail of each leads behind the head of the next, and the walk over the commands
draws the windows one after another. -/

namespace UmkaOs.Microui

open Context

variable {ctx ctx' : Context} {client : Client} {roots : List Root} {base i j last : Nat}
  {commands commands' : List Command} {containers : Ref → Container} {d : Draw} {ds : List Draw} {p : Picture}

/-- From an index on, these commands are drawn on the way to another index. -/
inductive Walks (commands : List Command) : Nat → List Draw → Nat → Prop
  | stop (i : Nat) : Walks commands i [] i
  | jump {i dst j : Nat} {ds : List Draw} (here : commands[i]? = some (.jump dst)) (rest : Walks commands dst ds j) :
    Walks commands i ds j
  | draw {i j : Nat} {d : Draw} {ds : List Draw} (here : commands[i]? = some (.draw d))
    (rest : Walks commands (i + 1) ds j) : Walks commands i (d :: ds) j

theorem Walks.trans {k : Nat} {more : List Draw} (first : Walks commands i ds j) (second : Walks commands j more k) :
    Walks commands i (ds ++ more) k := by
  induction first with
  | stop => exact second
  | jump here _ ih => exact .jump here (ih second)
  | draw here _ ih => exact .draw here (ih second)

theorem nextCommand_more {fuel : Nat} {result : Option Draw × Nat} (done : nextCommand commands fuel i = some result)
    (more : Nat) : nextCommand commands (fuel + more) i = some result := by
  induction fuel generalizing i with
  | zero => cases done
  | succ fuel ih =>
    rw [Nat.add_right_comm, nextCommand]
    rw [nextCommand] at done
    cases here : commands[i]? with
    | none => rwa [here] at done
    | some command =>
      rw [here] at done
      cases command with
      | draw d => exact done
      | jump dst => exact ih done

theorem drain_more {fuel : Nat} (done : drain commands fuel i = some ds) (more : Nat) :
    drain commands (fuel + more) i = some ds := by
  induction fuel generalizing i ds with
  | zero => cases done
  | succ fuel ih =>
    rw [drain] at done
    cases next : nextCommand commands (fuel + 1) i with
    | none =>
      rw [next] at done
      cases done
    | some result =>
      have later := nextCommand_more next more
      rw [Nat.add_right_comm] at later ⊢
      rw [drain, later]
      rw [next] at done
      obtain ⟨_ | d, idx⟩ := result
      · exact done
      · obtain ⟨rest, drained, rfl⟩ := Option.map_eq_some_iff.mp done
        exact Option.map_eq_some_iff.mpr ⟨rest, ih drained, rfl⟩

/-- The loops of `nextCommand` and of its caller follow a walk to the end of the list. -/
theorem Walks.drain (walks : Walks commands i ds j) (finish : commands.length ≤ j) :
    ∃ fuel, drain commands fuel i = some ds := by
  induction walks with
  | stop i =>
    have none : commands[i]? = none := List.getElem?_eq_none finish
    exact ⟨1, by rw [Microui.drain, nextCommand, none]⟩
  | @draw i _ d _ here _ ih =>
    obtain ⟨fuel, drained⟩ := ih finish
    refine ⟨fuel + 1, ?_⟩
    rw [Microui.drain, nextCommand, here]
    exact Option.map_eq_some_iff.mpr ⟨_, drained, rfl⟩
  | @jump i dst _ _ here _ ih =>
    obtain ⟨fuel, drained⟩ := ih finish
    refine ⟨fuel + 1, ?_⟩
    rw [Microui.drain, nextCommand, here]
    cases fuel with
    | zero => cases drained
    | succ fuel =>
      rw [Microui.drain] at drained
      cases next : nextCommand commands (fuel + 1) dst with
      | none =>
        rw [next] at drained
        cases drained
      | some result =>
        rw [next] at drained
        dsimp only
        rw [next]
        obtain ⟨_ | d, idx⟩ := result
        · exact drained
        · obtain ⟨rest, later, rfl⟩ := Option.map_eq_some_iff.mp drained
          exact Option.map_eq_some_iff.mpr ⟨rest, drain_more later 1, rfl⟩

/-- What a walk over a picture reads: its own commands, and the jumps over its windows. -/
def Reads (commands : List Command) : Picture → Nat → Prop
  | .nil, _ => True
  | .draw d rest, base => commands[base]? = some (.draw d) ∧ Reads commands rest (base + 1)
  | .window _ body rest, base =>
    commands[base]? = some (.jump (base + body.size + 2)) ∧ Reads commands rest (base + body.size + 2)

theorem Reads.walks (reads : Reads commands p base) : Walks commands base p.own (base + p.size) := by
  induction p generalizing base with
  | nil => exact .stop base
  | draw d rest ih =>
    have later := ih reads.2
    rw [Nat.add_assoc, Nat.add_comm 1] at later
    exact .draw reads.1 later
  | window root body rest ihBody ihRest =>
    have later := ihRest reads.2
    rw [show base + body.size + 2 + rest.size = base + (Picture.window root body rest).size by
      rw [Picture.size]; omega] at later
    exact .jump reads.1 later

/-- The commands of a picture stand in a list from an index on. -/
def Stands (commands : List Command) (p : Picture) (base : Nat) : Prop :=
  ∀ k, k < p.size → commands[base + k]? = (p.code base)[k]?

theorem Stands.draw {rest : Picture} (stands : Stands commands (.draw d rest) base) :
    commands[base]? = some (.draw d) ∧ Stands commands rest (base + 1) := by
  constructor
  · simpa [Picture.code] using stands 0 (Nat.succ_pos _)
  · intro k inside
    have here := stands (k + 1) (Nat.succ_lt_succ inside)
    rwa [Picture.code, List.getElem?_cons_succ, Nat.add_left_comm, Nat.add_comm] at here

theorem Stands.window {root : Root} {body rest : Picture} (stands : Stands commands (.window root body rest) base) :
    commands[base]? = some (.jump (base + body.size + 2)) ∧ Stands commands body (base + 1) ∧
      commands[base + body.size + 1]? = some (.jump unset) ∧ Stands commands rest (base + body.size + 2) := by
  have length := Picture.length_code body (base + 1)
  refine ⟨?_, ?_, ?_, ?_⟩
  · simpa [Picture.code] using stands 0 (by rw [Picture.size]; omega)
  · intro k inside
    have here := stands (k + 1) (by rw [Picture.size]; omega)
    rwa [Picture.code, List.getElem?_cons_succ, List.getElem?_append_left (by omega), ← Nat.add_assoc,
      Nat.add_right_comm] at here
  · have here := stands (body.size + 1) (by rw [Picture.size]; omega)
    rwa [Picture.code, List.getElem?_cons_succ, List.getElem?_append_right (by omega), length, Nat.sub_self,
      List.getElem?_cons_zero, ← Nat.add_assoc] at here
  · intro k inside
    have here := stands (body.size + 1 + k + 1) (by rw [Picture.size]; omega)
    rw [Picture.code, List.getElem?_cons_succ, List.getElem?_append_right (by omega), length,
      show body.size + 1 + k - body.size = k + 1 by omega, List.getElem?_cons_succ] at here
    rw [← here]
    congr 1
    omega

/-- A picture that stands in a list is read by a walk. -/
theorem Stands.reads (stands : Stands commands p base) : Reads commands p base := by
  induction p generalizing base with
  | nil => trivial
  | draw d rest ih => exact ⟨stands.draw.1, ih stands.draw.2⟩
  | window root body rest ihBody ihRest => exact ⟨stands.window.1, ihRest stands.window.2.2.2⟩

theorem Stands.body (stands : Stands commands p base) (placed : p.Placed containers base) {root : Root}
    (member : root ∈ p.windows) : ∃ body : Picture, body.own = root.draws ∧
      Stands commands body ((containers root.cnt).head + 1) ∧ body.Placed containers ((containers root.cnt).head + 1) ∧
      (containers root.cnt).tail = (containers root.cnt).head + 1 + body.size ∧ body.windows ⊆ p.windows := by
  induction p generalizing base with
  | nil => cases member
  | draw d rest ih => exact ih stands.draw.2 placed member
  | window first inside rest ihBody ihRest =>
    obtain ⟨head, tail, draws, placedBody, placedRest⟩ := placed
    obtain ⟨_, standsBody, _, standsRest⟩ := stands.window
    rw [Picture.windows, List.mem_cons, List.mem_append] at member
    rcases member with rfl | inner | later
    · refine ⟨inside, draws.symm, ?_, ?_, ?_, ?_⟩
      · rwa [head]
      · rwa [head]
      · rw [head, tail]
        omega
      · exact fun x within => List.mem_cons_of_mem _ (List.mem_append_left _ within)
    · obtain ⟨body, own, stand, place, behind, part⟩ := ihBody standsBody placedBody inner
      exact ⟨body, own, stand, place, behind,
        fun x within => List.mem_cons_of_mem _ (List.mem_append_left _ (part within))⟩
    · obtain ⟨body, own, stand, place, behind, part⟩ := ihRest standsRest placedRest later
      exact ⟨body, own, stand, place, behind,
        fun x within => List.mem_cons_of_mem _ (List.mem_append_right _ (part within))⟩

namespace Picture.Placed

variable {a b : Root}

theorem range (placed : p.Placed containers base) (member : a ∈ p.windows) :
    base ≤ (containers a.cnt).head ∧ (containers a.cnt).head < (containers a.cnt).tail ∧
      (containers a.cnt).tail < base + p.size := by
  induction p generalizing base with
  | nil => cases member
  | draw d rest ih =>
    have within := ih placed member
    rw [size]
    omega
  | window first inside rest ihBody ihRest =>
    obtain ⟨head, tail, _, placedBody, placedRest⟩ := placed
    rw [size]
    rw [windows, List.mem_cons, List.mem_append] at member
    rcases member with rfl | inner | later
    · omega
    · have within := ihBody placedBody inner
      omega
    · have within := ihRest placedRest later
      omega

theorem head_ne_tail (placed : p.Placed containers base) (first : a ∈ p.windows) (second : b ∈ p.windows) :
    (containers a.cnt).head ≠ (containers b.cnt).tail := by
  induction p generalizing base with
  | nil => cases first
  | draw d rest ih => exact ih placed first second
  | window root inside rest ihBody ihRest =>
    obtain ⟨head, tail, _, placedBody, placedRest⟩ := placed
    rw [windows, List.mem_cons, List.mem_append] at first second
    rcases first with rfl | inner | later <;> rcases second with rfl | inner' | later'
    · omega
    · have within := placedBody.range inner'
      omega
    · have within := placedRest.range later'
      omega
    · have within := placedBody.range inner
      omega
    · exact ihBody placedBody inner inner'
    · have within := placedBody.range inner
      have within' := placedRest.range later'
      omega
    · have within := placedRest.range later
      omega
    · have within := placedRest.range later
      have within' := placedBody.range inner'
      omega
    · exact ihRest placedRest later later'

theorem tail_ne_tail (placed : p.Placed containers base) (first : a ∈ p.windows) (second : b ∈ p.windows)
    (other : a.cnt ≠ b.cnt) : (containers a.cnt).tail ≠ (containers b.cnt).tail := by
  induction p generalizing base with
  | nil => cases first
  | draw d rest ih => exact ih placed first second
  | window root inside rest ihBody ihRest =>
    obtain ⟨head, tail, _, placedBody, placedRest⟩ := placed
    rw [windows, List.mem_cons, List.mem_append] at first second
    rcases first with rfl | inner | later <;> rcases second with rfl | inner' | later'
    · exact absurd rfl other
    · have within := placedBody.range inner'
      omega
    · have within := placedRest.range later'
      omega
    · have within := placedBody.range inner
      omega
    · exact ihBody placedBody inner inner'
    · have within := placedBody.range inner
      have within' := placedRest.range later'
      omega
    · have within := placedRest.range later
      omega
    · have within := placedRest.range later
      have within' := placedBody.range inner'
      omega
    · exact ihRest placedRest later later'

end Picture.Placed

/-- The jumps that lead from one window to the next. -/
def Linked (containers : Ref → Container) (commands : List Command) : Nat → List Ref → Prop
  | last, [] => commands[last]? = some (.jump commands.length)
  | last, cnt :: rest => commands[last]? = some (.jump ((containers cnt).head + 1)) ∧
    Linked containers commands (containers cnt).tail rest

theorem patched_ne {old : Nat} (jump : commands[j]? = some (.jump old)) (drawn : commands[i]? = some (.draw d)) :
    j ≠ i := by
  rintro rfl
  rw [jump] at drawn
  cases drawn

/-- Linking changes the destinations of the jumps at the tails, and nothing else. -/
theorem linkFrom_spec {order : List Ref} (run : linkFrom containers last order commands = .ok commands')
    (apart : (last :: order.map fun r => (containers r).tail).Nodup) :
    commands'.length = commands.length ∧
      (∀ i, i ∉ last :: order.map (fun r => (containers r).tail) → commands'[i]? = commands[i]?) ∧
      (∀ (i : Nat) (d : Draw), commands[i]? = some (Command.draw d) → commands'[i]? = some (Command.draw d)) ∧
      Linked containers commands' last order := by
  induction order generalizing last commands with
  | nil =>
    obtain ⟨⟨old, jump⟩, rfl⟩ := patch_cases run
    obtain ⟨inside, _⟩ := List.getElem?_eq_some_iff.mp jump
    refine ⟨List.length_set, ?_, ?_, ?_⟩
    · intro i away
      exact List.getElem?_set_ne fun same => away (by simp [same])
    · intro i d drawn
      rw [List.getElem?_set_ne (patched_ne jump drawn), drawn]
    · rw [Linked, List.length_set, List.getElem?_set_self inside]
  | cons cnt rest ih =>
    obtain ⟨middle, first, second⟩ := bind_ok run
    obtain ⟨⟨old, jump⟩, rfl⟩ := patch_cases first
    obtain ⟨inside, _⟩ := List.getElem?_eq_some_iff.mp jump
    rw [List.map_cons, List.nodup_cons] at apart
    obtain ⟨length, kept, drawn, linked⟩ := ih second apart.2
    refine ⟨length.trans List.length_set, ?_, ?_, ?_, linked⟩
    · intro i away
      rw [List.map_cons, List.mem_cons, not_or] at away
      rw [kept i away.2, List.getElem?_set_ne fun same => away.1 same.symm]
    · intro i d here
      apply drawn
      rw [List.getElem?_set_ne (patched_ne jump here), here]
    · rw [kept last apart.1, List.getElem?_set_self inside]

end UmkaOs.Microui
