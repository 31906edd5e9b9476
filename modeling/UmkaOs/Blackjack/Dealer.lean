import UmkaOs.Blackjack.Draws
import UmkaOs.Blackjack.Values

/-! The dealer's turn. The sum of the dealer can go down with a card, but with the
aces as 1 it goes up with every card. -/

namespace UmkaOs.Blackjack

open Lib

variable {w w' : World} {fuel : Nat}

/-- `stand` draws for the dealer until the sum is 17, and not longer. -/
theorem stand_cases (run : stand fuel w = .ok w') : ∃ drawn pile random, Draws w.inst.pile drawn pile ∧
    w' = { w with inst := { w.inst.withCards (w.inst.dealer ++ drawn) w.inst.player pile with reveal := true },
                  random } ∧
    17 ≤ (getValues (w.inst.dealer ++ drawn)).2 ∧
    ∀ k, k < drawn.length → (getValues (w.inst.dealer ++ drawn.take k)).2 < 17 := by
  induction fuel generalizing w with
  | zero => cases run
  | succ fuel ih =>
    rw [stand] at run
    split at run
    next below =>
      obtain ⟨dealt, first, later⟩ := bind_ok run
      obtain ⟨card, pile, random, top, rfl⟩ := drawDealer_cases first
      obtain ⟨drawn, pile', random', draws, rfl, enough, before⟩ := ih later
      have joined : w.inst.dealer ++ [card] ++ drawn = w.inst.dealer ++ card :: drawn := List.append_assoc ..
      refine ⟨card :: drawn, pile', random', .next top draws, ?_, ?_, ?_⟩
      · rw [← joined]
        rfl
      · rw [← joined]
        exact enough
      · intro k inside
        cases k with
        | zero => simpa using below
        | succ k =>
          rw [List.take_succ_cons, List.append_cons]
          exact before k (Nat.lt_of_succ_lt_succ inside)
    next reached =>
      cases run
      refine ⟨[], w.inst.pile, w.random, .none _, by simp [BlackjackInstance.withCards, BlackjackInstance.pile], ?_, ?_⟩
      · simpa using reached
      · intro k inside
        exact absurd inside (Nat.not_lt_zero k)

theorem hardSum_append (front back : List Card) : hardSum (front ++ back) = hardSum front + hardSum back := by
  simp [hardSum]

/-- Every card counts at least 1, also with the aces as 1. -/
theorem length_le_hardSum (cards : List Card) : cards.length ≤ hardSum cards := by
  induction cards with
  | nil => exact Nat.le_refl 0
  | cons card cards ih =>
    rw [List.length_cons, hardSum_cons]
    by_cases ace : card.value = .ace
    · rw [if_pos ace]
      omega
    · have two := two_le_plainValue ace
      rw [if_neg ace]
      omega

/-- The sum with the aces as 1 goes up with every card that the dealer draws. -/
theorem stand_ok (conserved : w.inst.Conserved) (fuelled : 17 ≤ fuel + hardSum w.inst.dealer) :
    ∃ w', stand (fuel + 1) w = .ok w' := by
  induction fuel generalizing w with
  | zero =>
    have enough : ¬ (getValues w.inst.dealer).2 < 17 := by
      have least := hardSum_le w.inst.dealer
      omega
    rw [stand]
    simp only [enough, if_false]
    exact ⟨_, rfl⟩
  | succ fuel ih =>
    rw [stand]
    dsimp only
    split
    · obtain ⟨dealt, first, kept⟩ := @drawDealer_ok { w with inst := { w.inst with reveal := true } } conserved
      obtain ⟨card, _, _, _, same⟩ := drawDealer_cases first
      have more : hardSum dealt.inst.dealer = hardSum w.inst.dealer + hardSum [card] := by
        rw [same]
        exact hardSum_append _ _
      have one := length_le_hardSum [card]
      rw [List.length_singleton] at one
      obtain ⟨w', later⟩ := ih kept (by omega)
      refine ⟨w', ?_⟩
      rw [first]
      exact later
    · exact ⟨_, rfl⟩

theorem stand_fuel {more : Nat} (run : stand fuel w = .ok w') (enough : fuel ≤ more) : stand more w = .ok w' := by
  induction fuel generalizing w more with
  | zero => cases run
  | succ fuel ih =>
    cases more with
    | zero => exact absurd enough (Nat.not_succ_le_zero fuel)
    | succ more =>
      rw [stand] at run ⊢
      dsimp only at run ⊢
      split at run
      next below =>
        obtain ⟨dealt, first, later⟩ := bind_ok run
        rw [if_pos below, first]
        exact ih later (Nat.le_of_succ_le_succ enough)
      next reached =>
        rw [if_neg reached]
        exact run

/-- With all the cards in hand and stash, `stand` returns after at most 17 draws. -/
theorem dealer_turn_ends (conserved : w.inst.Conserved) : ∃ w' drawn, (∀ fuel, 17 < fuel → stand fuel w = .ok w') ∧
    Draws w.inst.pile drawn w'.inst.pile ∧ drawn.length ≤ 17 ∧ w'.inst.dealer = w.inst.dealer ++ drawn ∧
    w'.inst.reveal ∧ 17 ≤ (getValues w'.inst.dealer).2 ∧ w'.inst.player = w.inst.player := by
  obtain ⟨w', run⟩ := @stand_ok w 17 conserved (Nat.le_add_right _ _)
  obtain ⟨drawn, pile, random, draws, rfl, enough, before⟩ := stand_cases run
  refine ⟨_, drawn, fun fuel more => stand_fuel run more, draws, ?_, rfl, rfl, enough, rfl⟩
  -- before the last card the sum was below 17, so there were fewer than 17 cards
  by_contra many
  have below := before 17 (by omega)
  have least := hardSum_le (w.inst.dealer ++ drawn.take 17)
  have counted := length_le_hardSum (w.inst.dealer ++ drawn.take 17)
  rw [List.length_append, List.length_take] at counted
  omega

/-- A dealer without a card, before the deck in its order. -/
theorem dealer_turn_ends_empty : ∃ w' drawn, stand 18 ⟨newInstance generateDeck, 0, fun _ => 0⟩ = .ok w' ∧
    drawn.length ≤ 17 ∧ w'.inst.dealer = drawn ∧ 17 ≤ (getValues drawn).2 := by
  have conserved : (newInstance generateDeck).Conserved := by
    rw [BlackjackInstance.Conserved, newInstance, List.append_nil]
  obtain ⟨w', drawn, run, _, few, dealer, _, enough, _⟩ :=
    @dealer_turn_ends ⟨newInstance generateDeck, 0, fun _ => 0⟩ conserved
  have all : w'.inst.dealer = drawn := dealer
  rw [all] at enough
  exact ⟨w', drawn, run 18 (by decide), few, all, enough⟩

end UmkaOs.Blackjack
