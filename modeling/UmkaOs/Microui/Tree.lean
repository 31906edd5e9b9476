import UmkaOs.Microui.Pool

namespace UmkaOs.Microui

/-- A header as it is shown in a frame: whether it sees a press, and the option `Expanded`. -/
structure Header where
  id : Id
  pressed : Bool
  expanded : Bool

/-- An item without an id, as a header leaves it that is clicked again. -/
def unused : PoolItem := ⟨0, 0⟩

/-- `header_` on its pool: whether it is expanded in this frame. -/
def header (frame : Nat) (items : Pool) (h : Header) : Except Fault (Bool × Pool) :=
  let idx := poolGet items h.id
  let active := idx.isSome
  let expanded := if h.expanded then !active else active
  let active := active ^^ h.pressed
  match idx with
  | some idx => .ok (expanded, if active then poolUpdate frame items idx else Function.update items idx unused)
  | none =>
    if active then do
      let (_, items) ← poolInit frame items h.id
      .ok (expanded, items)
    else .ok (expanded, items)

/-- The headers of a frame, each with its result. -/
def headers (frame : Nat) : List Header → Pool → Except Fault (List (Header × Bool) × Pool)
  | [], items => .ok ([], items)
  | h :: rest, items => do
    let (expanded, items) ← header frame items h
    let (later, items) ← headers frame rest items
    .ok ((h, expanded) :: later, items)

/-- The pools after a number of frames. The headers of a frame have different ids. -/
inductive Trees : Nat → Pool → Prop
  | init : Trees 0 fun _ => unused
  | frame {n : Nat} {items items' : Pool} {shown : List Header} {results : List (Header × Bool)}
    (before : Trees n items) (distinct : (0 :: shown.map Header.id).Nodup)
    (run : headers (n + 1) shown items = .ok (results, items')) : Trees (n + 1) items'

variable {items items' : Pool} {frame n k : Nat} {h : Header} {ids : List Id} {id : Id} {shown : List Header}
  {results : List (Header × Bool)} {expanded : Bool}

/-- An id that was clicked. -/
def Active (items : Pool) (id : Id) : Prop := ∃ r, (items r).id = id

/-- An id that was clicked and was shown since a frame. -/
def Live (k : Nat) (items : Pool) (id : Id) : Prop := ∃ r, (items r).id = id ∧ k ≤ (items r).lastUpdate

theorem Live.active (live : Live k items id) : Active items id := by
  obtain ⟨r, own, _⟩ := live
  exact ⟨r, own⟩

/-- An id has one item at most, and no item is from a later frame. -/
structure Tidy (frame : Nat) (items : Pool) : Prop where
  unique : ∀ r r', (items r).id = (items r').id → (items r).id ≠ 0 → r = r'
  updates : ∀ r, (items r).lastUpdate ≤ frame
  empty : ∀ r, (items r).id = 0 → (items r).lastUpdate = 0

/-- What a header does to its pool. -/
inductive Toggles (frame : Nat) (items : Pool) (h : Header) : Pool → Prop
  | keep {r : Ref} (own : (items r).id = h.id) (stays : h.pressed = false) :
    Toggles frame items h (Function.update items r ⟨h.id, frame⟩)
  | drop {r : Ref} (own : (items r).id = h.id) (click : h.pressed = true) :
    Toggles frame items h (Function.update items r unused)
  | make {r : Ref} (absent : ¬ Active items h.id) (click : h.pressed = true) (old : oldest frame items = some r) :
    Toggles frame items h (Function.update items r ⟨h.id, frame⟩)
  | none (absent : ¬ Active items h.id) (stays : h.pressed = false) : Toggles frame items h items

theorem poolInit_cases {idx : Ref} (run : poolInit frame items id = .ok (idx, items')) :
    oldest frame items = some idx ∧ items' = Function.update items idx ⟨id, frame⟩ := by
  unfold poolInit at run
  cases old : oldest frame items with
  | none =>
    rw [old] at run
    cases run
  | some n =>
    rw [old] at run
    cases run
    refine ⟨rfl, ?_⟩
    rw [poolUpdate, Function.update_idem, Function.update_self]

theorem header_cases (run : header frame items h = .ok (expanded, items')) :
    (Active items h.id ↔ (expanded ^^ h.expanded) = true) ∧ Toggles frame items h items' := by
  rw [header] at run
  cases found : poolGet items h.id with
  | some idx =>
    rw [found] at run
    have own := poolGet_some found
    have active : Active items h.id := ⟨idx, own⟩
    cases click : h.pressed with
    | false =>
      rw [click] at run
      cases run
      refine ⟨⟨fun _ => by cases h.expanded <;> rfl, fun _ => active⟩, ?_⟩
      have kept : poolUpdate frame items idx = Function.update items idx ⟨h.id, frame⟩ := by
        rw [poolUpdate, ← own]
      show Toggles frame items h (poolUpdate frame items idx)
      rw [kept]
      exact .keep own click
    | true =>
      rw [click] at run
      cases run
      exact ⟨⟨fun _ => by cases h.expanded <;> rfl, fun _ => active⟩, .drop own click⟩
  | none =>
    rw [found] at run
    have absent : ¬ Active items h.id := by
      rintro ⟨r, own⟩
      exact poolGet_none found r own
    cases click : h.pressed with
    | false =>
      rw [click] at run
      cases run
      exact ⟨⟨fun active => absurd active absent, fun odd => by cases shown : h.expanded <;> simp [shown] at odd⟩,
        .none absent click⟩
    | true =>
      rw [click] at run
      obtain ⟨⟨idx, made⟩, first, result⟩ := bind_ok run
      cases result
      obtain ⟨old, rfl⟩ := poolInit_cases first
      exact ⟨⟨fun active => absurd active absent, fun odd => by cases shown : h.expanded <;> simp [shown] at odd⟩,
        .make absent click old⟩

namespace Toggles

theorem tidy (toggles : Toggles frame items h items') (tidy : Tidy frame items) (some : h.id ≠ 0) :
    Tidy frame items' := by
  have single : ∀ r : Ref, (∀ q, q ≠ r → (items q).id ≠ h.id) →
      Tidy frame (Function.update items r ⟨h.id, frame⟩) := by
    intro r alone
    constructor
    · intro q q' same used
      by_cases here : q = r <;> by_cases here' : q' = r
      · rw [here, here']
      · simp [here, here'] at same
        exact absurd same.symm (alone q' here')
      · simp [here, here'] at same
        exact absurd same (alone q here)
      · simp only [Function.update_of_ne here, Function.update_of_ne here'] at same used
        exact tidy.unique q q' same used
    · intro q
      by_cases here : q = r
      · simp [here]
      · rw [Function.update_of_ne here]
        exact tidy.updates q
    · intro q zero
      by_cases here : q = r
      · simp [here, some] at zero
      · rw [Function.update_of_ne here] at zero ⊢
        exact tidy.empty q zero
  cases toggles with
  | keep own =>
    apply single
    intro q other same
    exact other (tidy.unique q _ (same.trans own.symm) (same ▸ some))
  | make absent => exact single _ fun q _ same => absent ⟨q, same⟩
  | none => exact tidy
  | @drop r own =>
    constructor
    · intro q q' same used
      by_cases here : q = r <;> by_cases here' : q' = r
      · rw [here, here']
      · simp [here, unused] at used
      · simp [here, here', unused] at same used
        exact absurd same used
      · simp only [Function.update_of_ne here, Function.update_of_ne here'] at same used
        exact tidy.unique q q' same used
    · intro q
      by_cases here : q = r
      · simp [here, unused]
      · rw [Function.update_of_ne here]
        exact tidy.updates q
    · intro q zero
      by_cases here : q = r
      · simp [here, unused]
      · rw [Function.update_of_ne here] at zero ⊢
        exact tidy.empty q zero

theorem own (toggles : Toggles frame items h items') (tidy : Tidy frame items) (some : h.id ≠ 0) :
    (Active items' h.id ↔ (Active items h.id ↔ h.pressed = false)) ∧ (Active items' h.id → Live frame items' h.id) := by
  cases toggles with
  | @keep r own stays =>
    have here : Live frame (Function.update items r ⟨h.id, frame⟩) h.id := ⟨r, by simp⟩
    have active : Active (Function.update items r ⟨h.id, frame⟩) h.id := ⟨r, by simp⟩
    exact ⟨iff_of_true active (iff_of_true ⟨r, own⟩ stays), fun _ => here⟩
  | @drop r own click =>
    have gone : ¬ Active (Function.update items r unused) h.id := by
      rintro ⟨q, same⟩
      by_cases here : q = r
      · simp [here, unused, some.symm] at same
      · rw [Function.update_of_ne here] at same
        exact here (tidy.unique q r (same.trans own.symm) (same ▸ some))
    refine ⟨iff_of_false gone fun both => ?_, fun active => absurd active gone⟩
    exact Bool.false_ne_true ((both.mp ⟨r, own⟩).symm.trans click)
  | @make r absent click =>
    have here : Live frame (Function.update items r ⟨h.id, frame⟩) h.id := ⟨r, by simp⟩
    have active : Active (Function.update items r ⟨h.id, frame⟩) h.id := ⟨r, by simp⟩
    refine ⟨iff_of_true active (iff_of_false absent fun stays => ?_), fun _ => here⟩
    exact Bool.false_ne_true (stays.symm.trans click)
  | none absent stays =>
    exact ⟨iff_of_false absent fun both => absent (both.mpr stays), fun active => absurd active absent⟩

end Toggles

/-- The items that were used since a frame belong to these ids. -/
def Covers (k : Nat) (ids : List Id) (items : Pool) : Prop := ∀ r, k ≤ (items r).lastUpdate → (items r).id ∈ ids

namespace Toggles

theorem covers (toggles : Toggles frame items h items') (covers : Covers k ids items) (asked : h.id ∈ ids)
    (since : 0 < k) : Covers k ids items' := by
  intro q used
  cases toggles with
  | @keep r =>
    by_cases here : q = r
    · simpa [here] using asked
    · rw [Function.update_of_ne here] at used ⊢
      exact covers q used
  | @make r =>
    by_cases here : q = r
    · simpa [here] using asked
    · rw [Function.update_of_ne here] at used ⊢
      exact covers q used
  | none => exact covers q used
  | @drop r =>
    by_cases here : q = r
    · simp [here, unused] at used
      omega
    · rw [Function.update_of_ne here] at used ⊢
      exact covers q used

theorem other (toggles : Toggles frame items h items') (tidy : Tidy frame items) (covers : Covers k ids items)
    (zero : 0 ∉ ids) (few : ids.toFinset.card ≤ poolSize) (asked : h.id ∈ ids) (different : id ≠ h.id)
    (some : id ≠ 0) : (¬ Active items id → ¬ Active items' id) ∧
      ∀ m, k ≤ m → Live m items id → Live m items' id := by
  have rest : ∀ (r : Ref) (item : PoolItem), item.id ≠ id → ¬ Active items id →
      ¬ Active (Function.update items r item) id := by
    rintro r item away absent ⟨q, same⟩
    by_cases here : q = r
    · rw [here, Function.update_self] at same
      exact away same
    · rw [Function.update_of_ne here] at same
      exact absent ⟨q, same⟩
  have stays : ∀ (r : Ref) (item : PoolItem) (m : Nat), ((items r).id ≠ id ∨ (items r).lastUpdate < m) →
      Live m items id → Live m (Function.update items r item) id := by
    rintro r item m away ⟨q, same, used⟩
    refine ⟨q, ?_⟩
    rw [Function.update_of_ne]
    · exact ⟨same, used⟩
    · rintro rfl
      rcases away with other | old
      · exact other same
      · omega
  cases toggles with
  | @keep r own =>
    exact ⟨rest r _ different.symm, fun m _ => stays r _ m (.inl fun same => different (same.symm.trans own))⟩
  | @drop r own =>
    exact ⟨rest r _ some.symm, fun m _ => stays r _ m (.inl fun same => different (same.symm.trans own))⟩
  | @make r absent _ old =>
    refine ⟨rest r _ different.symm, fun m since => stays r _ m (.inr ?_)⟩
    obtain ⟨spare, stale⟩ := pool_room tidy.unique covers zero few asked fun q same => absent ⟨q, same⟩
    have least := (oldest_some old).2 spare
    omega
  | none => exact ⟨fun absent => absent, fun _ _ live => live⟩

end Toggles

/-- What a frame does to the headers: each shows whether it is active when its turn comes,
and is toggled by its press; the others stay as they are. -/
structure Shows (frame k : Nat) (shown : List Header) (items : Pool) (results : List (Header × Bool)) (items' : Pool) :
    Prop where
  whole : results.map Prod.fst = shown
  others : ∀ id, id ≠ 0 → id ∉ shown.map Header.id → (¬ Active items id → ¬ Active items' id) ∧
    ∀ m, k ≤ m → Live m items id → Live m items' id
  seen : ∀ p ∈ results, (Live k items p.1.id ∨ ¬ Active items p.1.id) →
    (Active items p.1.id ↔ (p.2 ^^ p.1.expanded) = true)
  next : ∀ p ∈ results, (Active items' p.1.id ↔ (p.2 ^^ p.1.expanded ^^ p.1.pressed) = true) ∧
    (Active items' p.1.id → Live frame items' p.1.id)

theorem headers_shows (tidy : Tidy frame items) (covers : Covers k ids items) (zero : 0 ∉ ids)
    (few : ids.toFinset.card ≤ poolSize) (asked : ∀ h ∈ shown, h.id ∈ ids) (distinct : (shown.map Header.id).Nodup)
    (since : 0 < k) (past : k ≤ frame) (run : headers frame shown items = .ok (results, items')) :
    Shows frame k shown items results items' := by
  induction shown generalizing items results with
  | nil =>
    cases run
    exact ⟨rfl, fun _ _ _ => ⟨fun absent => absent, fun _ _ live => live⟩, List.forall_mem_nil _,
      List.forall_mem_nil _⟩
  | cons h rest ih =>
    obtain ⟨⟨expanded, middle⟩, first, next⟩ := bind_ok run
    obtain ⟨⟨later, last⟩, second, result⟩ := bind_ok next
    cases result
    rw [List.forall_mem_cons] at asked
    rw [List.map_cons, List.nodup_cons] at distinct
    obtain ⟨active, toggles⟩ := header_cases first
    have some : h.id ≠ 0 := fun none => zero (none ▸ asked.1)
    obtain ⟨toggled, live⟩ := toggles.own tidy some
    have shows := ih (toggles.tidy tidy some) (toggles.covers covers asked.1 since) asked.2 distinct.2 second
    constructor
    · rw [List.map_cons, shows.whole]
    · intro id nonzero away
      rw [List.map_cons, List.mem_cons, not_or] at away
      obtain ⟨absent, stays⟩ := toggles.other tidy covers zero few asked.1 away.1 nonzero
      obtain ⟨absent', stays'⟩ := shows.others id nonzero away.2
      exact ⟨fun none => absent' (absent none), fun m late before => stays' m late (stays m late before)⟩
    · rw [List.forall_mem_cons]
      refine ⟨fun _ => active, fun p member known => ?_⟩
      have inside : p.1.id ∈ rest.map Header.id := by
        rw [← shows.whole, List.map_map]
        exact List.mem_map_of_mem member
      have different : p.1.id ≠ h.id := fun same => distinct.1 (same ▸ inside)
      have nonzero : p.1.id ≠ 0 := by
        obtain ⟨g, among, same⟩ := List.mem_map.mp inside
        exact fun none => zero (none ▸ same ▸ asked.2 g among)
      obtain ⟨absent, stays⟩ := toggles.other tidy covers zero few asked.1 different nonzero
      rcases known with live | none
      · have live' := stays k (Nat.le_refl k) live
        rw [← shows.seen p member (.inl live')]
        exact iff_of_true live.active live'.active
      · rw [← shows.seen p member (.inr (absent none))]
        exact iff_of_false none (absent none)
    · rw [List.forall_mem_cons]
      refine ⟨?_, shows.next⟩
      obtain ⟨absent, stays⟩ := shows.others h.id some distinct.1
      have odd : (expanded ^^ h.expanded ^^ h.pressed) = true ↔ Active middle h.id := by
        rw [toggled, active]
        cases expanded <;> cases h.expanded <;> cases h.pressed <;> decide
      dsimp only
      rw [odd]
      by_cases on : Active middle h.id
      · have kept := stays frame past (live on)
        exact ⟨iff_of_true kept.active on, fun _ => kept⟩
      · exact ⟨iff_of_false (absent on) on, fun active' => absurd active' (absent on)⟩

theorem headers_ok (tidy : Tidy frame items) (covers : Covers k ids items) (zero : 0 ∉ ids)
    (few : ids.toFinset.card ≤ poolSize) (asked : ∀ h ∈ shown, h.id ∈ ids) (since : 0 < k) (past : k ≤ frame) :
    ∃ results items', headers frame shown items = .ok (results, items') ∧ Covers k ids items' := by
  induction shown generalizing items with
  | nil => exact ⟨[], items, rfl, covers⟩
  | cons h rest ih =>
    rw [List.forall_mem_cons] at asked
    have one : ∃ result, header frame items h = .ok result := by
      rw [header]
      cases found : poolGet items h.id with
      | some idx => exact ⟨_, rfl⟩
      | none =>
        dsimp only
        split
        · unfold poolInit
          cases old : oldest frame items with
          | none =>
            obtain ⟨r, stale⟩ := pool_room tidy.unique covers zero few asked.1 (poolGet_none found)
            have young := oldest_none old r
            omega
          | some idx => exact ⟨_, rfl⟩
        · exact ⟨_, rfl⟩
    obtain ⟨⟨expanded, middle⟩, first⟩ := one
    obtain ⟨_, toggles⟩ := header_cases first
    have some : h.id ≠ 0 := fun none => zero (none ▸ asked.1)
    obtain ⟨later, last, second, covers'⟩ :=
      ih (toggles.tidy tidy some) (toggles.covers covers asked.1 since) asked.2
    refine ⟨(h, expanded) :: later, last, ?_, covers'⟩
    rw [headers, first]
    show (headers frame rest middle >>= _) = _
    rw [second]
    rfl

theorem Tidy.next (tidy : Tidy n items) : Tidy (n + 1) items :=
  ⟨tidy.unique, fun r => Nat.le_succ_of_le (tidy.updates r), tidy.empty⟩

theorem headers_tidy (tidy : Tidy frame items) (some : 0 ∉ shown.map Header.id)
    (run : headers frame shown items = .ok (results, items')) : Tidy frame items' := by
  induction shown generalizing items results with
  | nil =>
    cases run
    exact tidy
  | cons h rest ih =>
    obtain ⟨⟨expanded, middle⟩, first, next⟩ := bind_ok run
    obtain ⟨⟨later, last⟩, second, result⟩ := bind_ok next
    cases result
    rw [List.map_cons, List.mem_cons, not_or] at some
    obtain ⟨_, toggles⟩ := header_cases first
    exact ih (toggles.tidy tidy (Ne.symm some.1)) some.2 second

theorem Trees.tidy (trees : Trees n items) : Tidy n items := by
  induction trees with
  | init => exact ⟨fun _ _ _ used => absurd rfl used, fun _ => Nat.le_refl 0, fun _ _ => rfl⟩
  | frame _ distinct run ih => exact headers_tidy ih.next (List.nodup_cons.mp distinct).1 run

/-- A header of one frame comes up in the next frame as it was, toggled by its press, and
no frame fails, as long as both frames together show no more headers than the pool has
items. -/
theorem trees_retained {shown' : List Header} (trees : Trees n items) (distinct : (0 :: shown.map Header.id).Nodup)
    (distinct' : (0 :: shown'.map Header.id).Nodup)
    (few : (shown.map Header.id ++ shown'.map Header.id).toFinset.card ≤ poolSize) :
    ∃ results middle results' items', headers (n + 1) shown items = .ok (results, middle) ∧
      headers (n + 2) shown' middle = .ok (results', items') ∧ results.map Prod.fst = shown ∧
      results'.map Prod.fst = shown' ∧ ∀ p ∈ results, ∀ p' ∈ results', p'.1.id = p.1.id →
        (p'.2 ^^ p'.1.expanded) = (p.2 ^^ p.1.expanded ^^ p.1.pressed) := by
  obtain ⟨some, apart⟩ := List.nodup_cons.mp distinct
  obtain ⟨some', apart'⟩ := List.nodup_cons.mp distinct'
  have zero : (0 : Id) ∉ shown.map Header.id ++ shown'.map Header.id := by
    rw [List.mem_append, not_or]
    exact ⟨some, some'⟩
  have asked : ∀ h ∈ shown, h.id ∈ shown.map Header.id ++ shown'.map Header.id := fun h member =>
    List.mem_append_left _ (List.mem_map_of_mem member)
  have asked' : ∀ h ∈ shown', h.id ∈ shown.map Header.id ++ shown'.map Header.id := fun h member =>
    List.mem_append_right _ (List.mem_map_of_mem member)
  have fresh : Covers (n + 1) (shown.map Header.id ++ shown'.map Header.id) items := by
    intro r recent
    exact absurd (Nat.le_trans recent (trees.tidy.updates r)) (Nat.not_succ_le_self n)
  have tidy := trees.tidy.next
  obtain ⟨results, middle, first, covers⟩ := headers_ok tidy fresh zero few asked (Nat.succ_pos n) (Nat.le_refl _)
  have shows := headers_shows tidy fresh zero few asked apart (Nat.succ_pos n) (Nat.le_refl _) first
  have tidy' := (headers_tidy tidy some first).next
  obtain ⟨results', items', second, _⟩ := headers_ok tidy' covers zero few asked' (Nat.succ_pos n) (Nat.le_succ _)
  have shows' := headers_shows tidy' covers zero few asked' apart' (Nat.succ_pos n) (Nat.le_succ _) second
  refine ⟨results, middle, results', items', first, second, shows.whole, shows'.whole, ?_⟩
  intro p member p' member' same
  obtain ⟨active, live⟩ := shows.next p member
  have seen := shows'.seen p' member'
  rw [same] at seen
  rw [Bool.eq_iff_iff, ← active]
  by_cases on : Active middle p.1.id
  · exact (seen (.inl (live on))).symm
  · exact (seen (.inr on)).symm

theorem trees_retained_two : ∃ results middle results' items',
    headers 1 [⟨1, false, false⟩, ⟨2, true, false⟩] (fun _ => unused) = .ok (results, middle) ∧
      headers 2 [⟨2, false, false⟩, ⟨1, false, false⟩] middle = .ok (results', items') ∧
      ∀ p ∈ results, ∀ p' ∈ results', p'.1.id = p.1.id →
        (p'.2 ^^ p'.1.expanded) = (p.2 ^^ p.1.expanded ^^ p.1.pressed) := by
  have distinct : (0 :: [(⟨1, false, false⟩ : Header), ⟨2, true, false⟩].map Header.id).Nodup := by decide
  have distinct' : (0 :: [(⟨2, false, false⟩ : Header), ⟨1, false, false⟩].map Header.id).Nodup := by decide
  obtain ⟨results, middle, results', items', first, second, _, _, toggled⟩ :=
    trees_retained .init distinct distinct' (by decide)
  exact ⟨results, middle, results', items', first, second, toggled⟩

end UmkaOs.Microui
