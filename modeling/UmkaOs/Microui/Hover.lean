import UmkaOs.Microui.Frame

namespace UmkaOs.Microui

open Context

variable {ctx ctx' : Context} {client : Client} {roots : List Root} {z z' : Ref → Int} {under more : List Ref}
  {start middle result : Option Ref} {r : Ref}

/-- Of the windows under the mouse and the one before them, the result is at the top. -/
structure Tops (z : Ref → Int) (under : List Ref) (start result : Option Ref) : Prop where
  origin : result = start ∨ ∃ r ∈ under, result = some r
  bound : ∀ r, r ∈ under ∨ start = some r → ∃ top, result = some top ∧ z r ≤ z top

namespace Tops

theorem none (z : Ref → Int) (start : Option Ref) : Tops z [] start start :=
  ⟨.inl rfl, fun r either => ⟨r, either.resolve_left List.not_mem_nil, Int.le_refl _⟩⟩

theorem trans (first : Tops z under start middle) (second : Tops z more middle result) :
    Tops z (under ++ more) start result := by
  constructor
  · rcases second.origin with same | ⟨r, member, same⟩
    · rw [same]
      rcases first.origin with same' | ⟨r, member, same'⟩
      · exact .inl same'
      · exact .inr ⟨r, List.mem_append_left _ member, same'⟩
    · exact .inr ⟨r, List.mem_append_right _ member, same⟩
  · intro r either
    rw [List.mem_append, or_assoc] at either
    have reach : (r ∈ under ∨ start = some r) → ∃ top, result = some top ∧ z r ≤ z top := by
      intro before
      obtain ⟨top, same, low⟩ := first.bound r before
      obtain ⟨top', same', low'⟩ := second.bound top (.inr same)
      exact ⟨top', same', Int.le_trans low low'⟩
    rcases either with member | member | same
    · exact reach (.inl member)
    · exact second.bound r (.inl member)
    · exact reach (.inr same)

theorem congr (tops : Tops z under start result) (inside : ∀ r ∈ under, z' r = z r) (before : ∀ r ∈ start, z' r = z r) :
    Tops z' under start result := by
  refine ⟨tops.origin, fun r either => ?_⟩
  obtain ⟨top, same, low⟩ := tops.bound r either
  have left : z' r = z r := either.elim (inside r) (before r)
  have right : z' top = z top := by
    rcases tops.origin with same' | ⟨q, member, same'⟩
    · exact before top (same'.symm.trans same)
    · rw [same] at same'
      cases same'
      exact inside top member
  exact ⟨top, same, by rw [left, right]; exact low⟩

end Tops

/-- The windows that contain a point. -/
def hit (roots : List Root) (p : Input.Vec2) : List Ref :=
  (roots.filter fun root => decide (root.rect.overlaps p)).map Root.cnt

theorem mem_hit {p : Input.Vec2} : r ∈ hit roots p ↔ ∃ root ∈ roots, root.rect.overlaps p ∧ root.cnt = r := by
  simp [hit, and_assoc]

theorem hit_cons (root : Root) (roots : List Root) (p : Input.Vec2) :
    hit (root :: roots) p = hit [root] p ++ hit roots p := by
  by_cases inside : root.rect.overlaps p <;> simp [hit, inside]

theorem hit_append (roots roots' : List Root) (p : Input.Vec2) :
    hit (roots ++ roots') p = hit roots p ++ hit roots' p := by
  simp [hit]

theorem Opens.tops {id : Id} {draws : List Draw} (opens : Opens ctx id r ctx') :
    Tops (fun q => (ctx'.containers q).zindex) (hit [⟨id, r, (ctx'.containers r).rect, draws⟩] ctx.mousePos)
      ctx.nextHoverRoot ctx'.nextHoverRoot := by
  have mouse : ctx'.mousePos = ctx.mousePos := congrArg Input.Context.mousePos opens.later.mouse
  by_cases inside : (ctx'.containers r).rect.overlaps ctx.mousePos
  · rcases opens.next with ⟨taken, _, above⟩ | ⟨kept, below⟩
    · refine ⟨.inr ⟨r, by simp [hit, inside], taken⟩, ?_⟩
      intro q either
      refine ⟨r, taken, ?_⟩
      rcases either with member | same
      · obtain ⟨root, member', _, rfl⟩ := mem_hit.mp member
        rw [List.mem_singleton.mp member']
      · exact Int.le_of_lt (above q same)
    · refine ⟨.inl kept, ?_⟩
      intro q either
      rcases either with member | same
      · obtain ⟨root, member', _, rfl⟩ := mem_hit.mp member
        rw [List.mem_singleton.mp member']
        obtain ⟨top, same, low⟩ := below (mouse ▸ inside)
        exact ⟨top, kept.trans same, low⟩
      · exact ⟨q, kept.trans same, Int.le_refl _⟩
  · have none : hit [⟨id, r, (ctx'.containers r).rect, draws⟩] ctx.mousePos = [] := by simp [hit, inside]
    rw [none]
    rcases opens.next with ⟨_, contains, _⟩ | ⟨kept, _⟩
    · exact absurd (mouse ▸ contains) inside
    · rw [kept]
      exact .none _ _

theorem Opens.recent {id : Id} (opens : Opens ctx id r ctx') (used : ∀ q ∈ ctx.nextHoverRoot, Recent ctx q) :
    ∀ q ∈ ctx'.nextHoverRoot, Recent ctx' q := by
  intro q same
  rcases opens.next with ⟨taken, _⟩ | ⟨kept, _⟩
  · rw [taken] at same
    cases same
    exact opens.used
  · rw [kept] at same
    exact opens.later.stays (used q same)

/-- The test at each window finds the topmost window. -/
theorem run_tops (run : client.run ctx = .ok (roots, ctx')) (used : ∀ q ∈ ctx.nextHoverRoot, Recent ctx q) :
    Tops (fun q => (ctx'.containers q).zindex) (hit roots ctx.mousePos) ctx.nextHoverRoot ctx'.nextHoverRoot ∧
      ∀ q ∈ ctx'.nextHoverRoot, Recent ctx' q := by
  induction client generalizing ctx ctx' roots with
  | done =>
    cases run
    exact ⟨.none _ _, used⟩
  | draw d rest ih => exact @ih (ctx.pushCommand (.draw d)) _ _ run used
  | reshape shape rest ih =>
    obtain ⟨middle, first, second⟩ := bind_ok run
    obtain ⟨aside, _, _, _, next, _⟩ := setShape_cases first
    have tops := ih second (fun q same => aside.later.stays (used q (next ▸ same)))
    rwa [next, show middle.mousePos = ctx.mousePos from congrArg Input.Context.mousePos aside.mouse] at tops
  | window id rect opt body rest ihBody ihRest =>
    rcases run_window_cases run with ⟨got, middle, provides, _, after⟩ |
      ⟨r, opened, inner, full, shut, later, opens, first, ⟨q, shuts⟩, second, rfl⟩
    · obtain ⟨_, _, _, next, _⟩ := provides.commands
      have tops := ihRest after (fun q same => provides.later.stays (used q (next ▸ same)))
      rwa [next, show middle.mousePos = ctx.mousePos from congrArg Input.Context.mousePos provides.later.mouse] at tops
    · obtain ⟨laterBody, _, usedBody⟩ := run_later first
      obtain ⟨laterRest, _, usedRest⟩ := run_later second
      have behind := shuts.aside.later.trans laterRest
      obtain ⟨topsBody, recentBody⟩ := ihBody first (opens.recent used)
      have recentShut : ∀ q ∈ shut.nextHoverRoot, Recent shut q := fun q same =>
        shuts.aside.later.stays (recentBody q (shuts.next ▸ same))
      obtain ⟨topsRest, recentRest⟩ := ihRest second recentShut
      have mouseBody : opened.mousePos = ctx.mousePos := congrArg Input.Context.mousePos opens.later.mouse
      have mouseRest : shut.mousePos = ctx.mousePos := by
        rw [← mouseBody]
        exact congrArg Input.Context.mousePos (laterBody.trans shuts.aside.later).mouse
      refine ⟨?_, recentRest⟩
      rw [hit_cons, hit_append]
      rw [mouseBody] at topsBody
      rw [mouseRest, shuts.next] at topsRest
      have level : ∀ {before : Context}, Later before ctx' → ∀ q, Recent before q →
          (ctx'.containers q).zindex = (before.containers q).zindex := fun after q recent => (after.recent q recent).2
      apply (opens.tops.congr ?_ ?_).trans ((topsBody.congr ?_ ?_).trans topsRest)
      · intro q member
        obtain ⟨root, member', _, rfl⟩ := mem_hit.mp member
        rw [List.mem_singleton.mp member']
        exact level (laterBody.trans behind) r opens.used
      · intro q same
        have recent := opens.later.stays (used q same)
        exact level (laterBody.trans behind) q recent
      · intro q member
        obtain ⟨root, member', _, rfl⟩ := mem_hit.mp member
        exact level behind root.cnt (usedBody root member').2
      · intro q same
        have recent := opens.recent used q same
        exact (level (laterBody.trans behind) q recent).trans (laterBody.recent q recent).2.symm

/-- A click leaves the window under the mouse above what was below it, and brings it above
everything. -/
theorem clicked_top (managed : Managed ctx) (under : ctx.nextHoverRoot = some r) :
    (∀ q, (ctx.containers q).zindex ≤ (ctx.containers r).zindex →
      (ctx.clicked.containers q).zindex ≤ (ctx.clicked.containers r).zindex) ∧
      (ctx.mousePressed ≠ 0 → ∀ q, (ctx.clicked.containers q).zindex ≤ (ctx.clicked.containers r).zindex) := by
  have front : ∀ q, ((ctx.bringToFront r).containers q).zindex ≤ ((ctx.bringToFront r).containers r).zindex := by
    intro q
    rcases bringToFront_cases ctx r r with ⟨_, z⟩ | ⟨other, _⟩
    · rw [z]
      exact (managed.bringToFront r).below q
    · exact absurd rfl other
  rw [clicked, under]
  dsimp only
  split
  · exact ⟨fun q _ => front q, fun _ => front⟩
  · rename_i stays
    refine ⟨fun q low => low, fun pressed q => ?_⟩
    have low := managed.below q
    have level := managed.level r
    have top : ¬ (ctx.containers r).zindex < ctx.lastZIndex := fun below => stays ⟨pressed, below, level⟩
    omega

end UmkaOs.Microui
