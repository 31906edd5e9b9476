import UmkaOs.Blackjack.Model

/-! What `getValues` makes of a hand. The aces are valued one after the other against
the sum so far, and a value is not taken back: three aces, or a king with two aces,
go over 21. -/

namespace UmkaOs.Blackjack

/-- The sum after one more ace. -/
def addAce (sum : Nat) : Nat := sum + aceValue sum

def aces (cards : List Card) : Nat := cards.countP fun card => card.value = .ace

/-- The sum of the cards other than aces. -/
def plainSum (cards : List Card) : Nat := (cards.map fun card => plainValue card.value).sum

/-- The sum with every ace counted as 1. -/
def hardSum (cards : List Card) : Nat :=
  (cards.map fun card => if card.value = .ace then 1 else plainValue card.value).sum

/-- The values of the cards when the sum is `sum` before their aces are valued. -/
def assigned : List Card → Nat → List Nat
  | [], _ => []
  | card :: cards, sum =>
    if card.value = .ace then aceValue sum :: assigned cards (addAce sum)
    else plainValue card.value :: assigned cards sum

variable {cards : List Card} {card : Card} {sum : Nat}

@[simp] theorem aces_cons_ace (ace : card.value = .ace) : aces (card :: cards) = aces cards + 1 :=
  List.countP_cons_of_pos (decide_eq_true ace)

@[simp] theorem aces_cons_other (other : card.value ≠ .ace) : aces (card :: cards) = aces cards :=
  List.countP_cons_of_neg (by simpa using other)

@[simp] theorem plainSum_cons : plainSum (card :: cards) = plainValue card.value + plainSum cards := rfl

theorem plainValues_eq (cards : List Card) (values : List Nat) (sum : Nat) : plainValues cards values sum =
    (values ++ cards.map fun card => plainValue card.value, sum + plainSum cards) := by
  induction cards generalizing values sum with
  | nil => simp [plainValues, plainSum]
  | cons card cards ih =>
    rw [plainValues, ih]
    simp only [plainSum, List.map_cons, List.sum_cons, Nat.add_sub_cancel_left, List.append_assoc,
      List.singleton_append, Nat.add_assoc]

theorem aceValues_eq (cards : List Card) (front : List Nat) (sum : Nat) :
    aceValues cards front.length (front ++ cards.map fun card => plainValue card.value) sum =
      (front ++ assigned cards sum, addAce^[aces cards] sum) := by
  induction cards generalizing front sum with
  | nil => simp [aceValues, assigned, aces]
  | cons card cards ih =>
    have behind (value : Nat) : front ++ value :: cards.map (fun card => plainValue card.value) =
        (front ++ [value]) ++ cards.map fun card => plainValue card.value := by simp
    have length (value : Nat) : front.length + 1 = (front ++ [value]).length := by simp
    rw [aceValues, List.map_cons, List.set_append_right _ _ (Nat.le_refl _), Nat.sub_self, List.set_cons_zero]
    by_cases ace : card.value = .ace
    · rw [if_pos ace, behind, length (aceValue sum), ih, assigned, if_pos ace, aces_cons_ace ace,
        Function.iterate_succ_apply, List.append_assoc, List.singleton_append, addAce]
    · rw [if_neg ace, behind, length (plainValue card.value), ih, assigned, if_neg ace, aces_cons_other ace,
        List.append_assoc, List.singleton_append]

theorem getValues_eq (cards : List Card) :
    getValues cards = (assigned cards (plainSum cards), addAce^[aces cards] (plainSum cards)) := by
  have first := plainValues_eq cards [] 0
  have second := aceValues_eq cards [] (plainSum cards)
  rw [List.nil_append, Nat.zero_add] at first
  rw [getValues, first]
  exact second

theorem length_assigned (cards : List Card) (sum : Nat) : (assigned cards sum).length = cards.length := by
  induction cards generalizing sum with
  | nil => rfl
  | cons card cards ih =>
    rw [assigned]
    split <;> simp [ih]

theorem sum_assigned (cards : List Card) (sum : Nat) :
    (assigned cards sum).sum + sum = plainSum cards + addAce^[aces cards] sum := by
  induction cards generalizing sum with
  | nil => simp [assigned, plainSum, aces]
  | cons card cards ih =>
    by_cases ace : card.value = .ace
    · have later := ih (addAce sum)
      rw [assigned, if_pos ace, List.sum_cons, plainSum_cons, ace, plainValue, aces_cons_ace ace,
        Function.iterate_succ_apply, Nat.zero_add, ← later, addAce]
      omega
    · have later := ih sum
      rw [assigned, if_neg ace, List.sum_cons, plainSum_cons, aces_cons_other ace]
      omega

theorem aceValue_cases (sum : Nat) : aceValue sum = 1 ∨ aceValue sum = 10 ∨ aceValue sum = 11 := by
  rw [aceValue]
  split
  · exact .inr (.inr rfl)
  · split
    · exact .inr (.inl rfl)
    · exact .inl rfl

theorem assigned_ace (cards : List Card) (sum : Nat) : ∀ pair ∈ cards.zip (assigned cards sum),
    pair.1.value = .ace → pair.2 = 1 ∨ pair.2 = 10 ∨ pair.2 = 11 := by
  induction cards generalizing sum with
  | nil => exact List.forall_mem_nil _
  | cons card cards ih =>
    rw [assigned]
    split
    · exact List.forall_mem_cons.mpr ⟨fun _ => aceValue_cases sum, ih _⟩
    next other => exact List.forall_mem_cons.mpr ⟨fun ace => absurd ace other, ih _⟩

theorem hardSum_cons : hardSum (card :: cards) =
    (if card.value = .ace then 1 else plainValue card.value) + hardSum cards := rfl

theorem hardSum_eq (cards : List Card) : hardSum cards = plainSum cards + aces cards := by
  induction cards with
  | nil => rfl
  | cons card cards ih =>
    rw [hardSum_cons, ih, plainSum_cons]
    by_cases ace : card.value = .ace
    · rw [if_pos ace, aces_cons_ace ace, ace, plainValue]
      omega
    · rw [if_neg ace, aces_cons_other ace, Nat.add_assoc]

theorem addAce_large (large : 12 ≤ sum) : addAce sum = sum + 1 := by
  rw [addAce, aceValue, if_neg (by omega), if_neg (by omega)]

theorem iterate_addAce_large (large : 12 ≤ sum) (k : Nat) : addAce^[k] sum = sum + k := by
  induction k generalizing sum with
  | zero => rfl
  | succ k ih =>
    rw [Function.iterate_succ_apply, addAce_large large, ih (by omega)]
    omega

theorem lt_addAce (sum : Nat) : sum < addAce sum := by
  have value := aceValue_cases sum
  rw [addAce]
  omega

/-- No ace counts less than 1. -/
theorem hardSum_le (cards : List Card) : hardSum cards ≤ (getValues cards).2 := by
  have grows (k sum : Nat) : sum + k ≤ addAce^[k] sum := by
    induction k generalizing sum with
    | zero => exact Nat.le_refl sum
    | succ k ih =>
      have later := ih (addAce sum)
      have first := lt_addAce sum
      rw [Function.iterate_succ_apply]
      omega
  rw [hardSum_eq, getValues_eq]
  exact grows _ _

theorem two_le_plainValue {value : Value} (other : value ≠ .ace) : 2 ≤ plainValue value := by
  cases value with
  | ace => exact absurd rfl other
  | _ => decide

theorem plainSum_ne_one (cards : List Card) : plainSum cards ≠ 1 := by
  induction cards with
  | nil => decide
  | cons card cards ih =>
    rw [plainSum_cons]
    by_cases ace : card.value = .ace
    · rw [ace, plainValue, Nat.zero_add]
      exact ih
    · have two := two_le_plainValue ace
      omega

/-- The law of the rules text: an ace is worth 11 or 10 unless that would make the sum
go over 21. -/
structure AceLaw (cards : List Card) : Prop where
  each : (getValues cards).1.length = cards.length
  total : (getValues cards).1.sum = (getValues cards).2
  ace : ∀ pair ∈ cards.zip (getValues cards).1, pair.1.value = .ace → pair.2 = 1 ∨ pair.2 = 10 ∨ pair.2 = 11
  saved : hardSum cards ≤ 21 → (getValues cards).2 ≤ 21

/-- The sums of the other cards and the numbers of aces with which no ace is valued too high. -/
def Savable (plain aces : Nat) : Prop :=
  aces = 0 ∨ 12 ≤ plain ∨ 21 < plain + aces ∨ (10 ≤ plain ∧ aces = 1) ∨
    (1 ≤ plain ∧ plain ≤ 9 ∧ plain + aces ≤ 12) ∨ (plain = 0 ∧ aces ≤ 2)

/-- With an ace, a sum below 12 of the other cards becomes 9 more than with aces of 1,
or 10 more. -/
theorem savable_iff {plain : Nat} (one : plain ≠ 1) (k : Nat) :
    (plain + k ≤ 21 → addAce^[k] plain ≤ 21) ↔ Savable plain k := by
  rw [Savable]
  by_cases large : 12 ≤ plain
  · rw [iterate_addAce_large large]
    omega
  · cases k with
    | zero =>
      rw [Function.iterate_zero_apply]
      omega
    | succ k =>
      rw [Function.iterate_succ_apply]
      rcases Nat.lt_or_ge 0 plain with some | none
      · by_cases ten : plain = 10
        · subst ten
          have first : addAce 10 = 21 := rfl
          rw [first, iterate_addAce_large (by decide)]
          omega
        · have first : addAce plain = plain + 10 := by
            rw [addAce, aceValue, if_neg ten, if_pos (by omega)]
          rw [first, iterate_addAce_large (by omega)]
          omega
      · have zero : plain = 0 := by omega
        subst zero
        -- the first ace counts 10, the second one 11
        cases k with
        | zero => exact iff_of_true (fun _ => by decide) (by omega)
        | succ k =>
          have first : addAce (addAce 0) = 21 := rfl
          rw [Function.iterate_succ_apply, first, iterate_addAce_large (by decide)]
          omega

/-- The law holds of a hand exactly when its aces cannot be valued too high. -/
theorem aceLaw_iff (cards : List Card) : AceLaw cards ↔ Savable (plainSum cards) (aces cards) := by
  rw [← savable_iff (plainSum_ne_one cards)]
  constructor
  · intro law
    have saved := law.saved
    rw [hardSum_eq, getValues_eq] at saved
    exact saved
  · intro saved
    have total := sum_assigned cards (plainSum cards)
    rw [← hardSum_eq] at saved
    refine ⟨?_, ?_, ?_, ?_⟩
    all_goals rw [getValues_eq]
    · exact length_assigned cards _
    · dsimp only
      omega
    · exact assigned_ace cards _
    · exact saved

/-- A king and two aces: 10, 11 and 1, where 10, 1 and 1 would do. -/
theorem king_and_two_aces : ¬ AceLaw [⟨.hearts, .king⟩, ⟨.hearts, .ace⟩, ⟨.clubs, .ace⟩] := by
  intro law
  have saved := law.saved (by decide)
  exact absurd saved (by decide)

end UmkaOs.Blackjack
