import UmkaOs.Blackjack.Dealer

namespace UmkaOs.Blackjack

open Lib

variable {w w' : World} {input : Input} {drawn : List Card}

/-- Cards from the pile for dealer and player, and the flags that go with them. -/
def Deals (w : World) (drawn : List Card) (w' : World) : Prop :=
  ∃ forDealer forPlayer pile firsthit reveal random, Draws w.inst.pile drawn pile ∧
    (forDealer ++ forPlayer).Perm drawn ∧
    w' = { w with inst := { w.inst.withCards (w.inst.dealer ++ forDealer) (w.inst.player ++ forPlayer) pile with
                            firsthit, reveal }, random }

/-- The cards of the dealer's turn: as many as it takes to come to 17. -/
structure Turn (dealer drawn : List Card) : Prop where
  enough : 17 ≤ (getValues (dealer ++ drawn)).2
  before : ∀ k, k < drawn.length → (getValues (dealer ++ drawn.take k)).2 < 17

theorem hit_deals (run : hit w = .ok w') : ∃ card, Deals w [card] w' ∧ w'.inst.dealer = w.inst.dealer ∧
    (isGameOver w'.inst ↔ isGameOver (withPlayer w.inst card)) := by
  obtain ⟨card, pile, random, top, rfl⟩ := drawPlayer_cases run
  refine ⟨card, ⟨[], [card], pile, w.inst.firsthit, w.inst.reveal, random, .single top, .refl _, ?_⟩, rfl, Iff.rfl⟩
  rw [List.append_nil]
  rfl

theorem stand_deals {fuel : Nat} (run : stand fuel w = .ok w') :
    ∃ drawn, Deals w drawn w' ∧ Turn w.inst.dealer drawn := by
  obtain ⟨drawn, pile, random, draws, rfl, enough, before⟩ := stand_cases run
  refine ⟨drawn, ⟨drawn, [], pile, w.inst.firsthit, true, random, draws, by simp, ?_⟩, enough, before⟩
  rw [List.append_nil]
  rfl

/-- Clearing the flag of the first hit before dealing. -/
theorem Deals.of_afterFirst (deals : Deals (afterFirst w) drawn w') : Deals w drawn w' := by
  obtain ⟨forDealer, forPlayer, pile, firsthit, reveal, random, draws, perm, rfl⟩ := deals
  exact ⟨forDealer, forPlayer, pile, firsthit, reveal, random, draws, perm, rfl⟩

theorem Deals.trans {u v : World} {more : List Card} (first : Deals w drawn u) (second : Deals u more v) :
    Deals w (drawn ++ more) v := by
  obtain ⟨forDealer, forPlayer, pile, _, _, _, draws, perm, rfl⟩ := first
  obtain ⟨forDealer', forPlayer', pile', firsthit, reveal, random, draws', perm', rfl⟩ := second
  refine ⟨forDealer ++ forDealer', forPlayer ++ forPlayer', pile', firsthit, reveal, random, draws.trans draws', ?_, ?_⟩
  · have parts := perm.append perm'
    rw [List.append_assoc] at parts ⊢
    exact ((List.perm_append_comm_assoc forDealer' forPlayer forPlayer').append_left forDealer).trans parts
  · simp only [BlackjackInstance.withCards, List.append_assoc]

theorem Deals.of_doubleBet (deals : Deals (doubleBet w) drawn w') : ∃ u, Deals w drawn u ∧ w' = doubleBet u := by
  obtain ⟨forDealer, forPlayer, pile, firsthit, reveal, random, draws, perm, rfl⟩ := deals
  exact ⟨_, ⟨forDealer, forPlayer, pile, firsthit, reveal, random, draws, perm, rfl⟩, rfl⟩

theorem hitOrStand_cases (run : hitOrStand input w = .ok w') :
    (w' = w ∧ (isGameOver w.inst ∨ (input.press ≠ some .hit ∧ input.press ≠ some .stand))) ∨
      (¬ isGameOver w.inst ∧ input.press = some .hit ∧ ∃ card, Deals w [card] w') ∨
      (¬ isGameOver w.inst ∧ input.press = some .stand ∧ ∃ drawn, Deals w drawn w' ∧ Turn w.inst.dealer drawn) := by
  rw [hitOrStand] at run
  split at run
  next ended =>
    cases run
    exact .inl ⟨rfl, .inl ended⟩
  next playing =>
    obtain ⟨struck, first, second⟩ := bind_ok run
    rw [hitButton] at first
    rw [standButton] at second
    split at first
    next pressed =>
      rw [if_neg (by simp [pressed])] at second
      cases second
      obtain ⟨card, deals, _⟩ := hit_deals first
      exact .inr (.inl ⟨playing, pressed, card, deals.of_afterFirst⟩)
    next other =>
      cases first
      split at second
      next pressed =>
        obtain ⟨drawn, deals, turn⟩ := stand_deals second
        exact .inr (.inr ⟨playing, pressed, drawn, deals.of_afterFirst, turn⟩)
      next another =>
        cases second
        exact .inl ⟨rfl, .inr ⟨other, another⟩⟩

/-- `Double` deals a card to the player and, if that does not end the round, the
dealer's turn. -/
theorem double_cases (run : double input w = .ok w') :
    (w' = w ∧ ¬ (¬ isGameOver w.inst ∧ w.inst.firsthit ∧ input.press = some .double)) ∨
      ((¬ isGameOver w.inst ∧ w.inst.firsthit ∧ input.press = some .double) ∧
        ∃ u card drawn, Deals w (card :: drawn) u ∧ w' = doubleBet u ∧
          ((isGameOver (withPlayer w.inst card) ∧ drawn = []) ∨
            (¬ isGameOver (withPlayer w.inst card) ∧ Turn w.inst.dealer drawn))) := by
  rw [double] at run
  split at run
  next pressed =>
    obtain ⟨dealt, first, second⟩ := bind_ok run
    obtain ⟨card, deals, dealer, same⟩ := hit_deals first
    dsimp only at second
    split at second
    next ended =>
      cases second
      exact .inr ⟨pressed, dealt, card, [], deals, rfl, .inl ⟨same.mp ended, rfl⟩⟩
    next playing =>
      have kept : (doubleBet dealt).inst.dealer = w.inst.dealer := dealer
      obtain ⟨drawn, turns, turn⟩ := stand_deals second
      obtain ⟨u, deals', rfl⟩ := turns.of_doubleBet
      rw [kept] at turn
      exact .inr ⟨pressed, u, card, drawn, deals.trans deals', rfl, .inr ⟨fun ended => playing (same.mpr ended), turn⟩⟩
  next other =>
    cases run
    exact .inl ⟨rfl, other⟩

theorem insurance_cases (run : insurance input w = .ok w') :
    w' = w ∨ (¬ isGameOver w.inst ∧ w' = buyInsurance w) := by
  rw [insurance] at run
  split at run
  · cases run
  · split at run
    next pressed =>
      cases run
      exact .inr ⟨pressed.2.1, rfl⟩
    next =>
      cases run
      exact .inl rfl

/-- The buttons of a round leave it started. -/
theorem Deals.started (deals : Deals w drawn w') : w'.inst.started = w.inst.started := by
  obtain ⟨_, _, _, _, _, _, _, _, rfl⟩ := deals
  rfl

theorem hitOrStand_started (run : hitOrStand input w = .ok w') : w'.inst.started = w.inst.started := by
  rcases hitOrStand_cases run with ⟨rfl, _⟩ | ⟨_, _, _, deals⟩ | ⟨_, _, _, deals, _⟩
  · rfl
  · exact deals.started
  · exact deals.started

theorem double_started (run : double input w = .ok w') : w'.inst.started = w.inst.started := by
  rcases double_cases run with ⟨rfl, _⟩ | ⟨_, u, _, _, deals, rfl, _⟩
  · rfl
  · exact deals.started

/-- The world in which `New round` deals. -/
def opened (w : World) : World :=
  let inst := if w.balance < 0 ∧ w.inst.bet > 5 then { w.inst with bet := 5 } else w.inst
  { w with inst := clearRound { inst with rules := false, started := true }, balance := w.balance - inst.bet }

theorem opened_pile (w : World) : (opened w).inst.pile = w.inst.pile := by
  unfold opened
  dsimp only
  split <;> rfl

theorem startRound_cases (run : startRound w = .ok w') :
    ∃ drawn, drawn.length = 4 ∧ Deals (opened w) drawn w' ∧ w'.inst.dealer ≠ [] := by
  obtain ⟨c1, c2, c3, c4, pile, random, draws, rfl⟩ := drawRound_cases run
  refine ⟨[c1, c2, c3, c4], rfl, ⟨[c1, c3], [c2, c4], pile, true, false, random, draws, ?_, rfl⟩, List.cons_ne_nil _ _⟩
  exact (List.Perm.swap c2 c3 [c4]).cons c1

/-- What a frame does after the buttons of a round. -/
def finish (input : Input) (w : World) : World :=
  let w := chooseBet input (forfeit input w)
  if w.inst.started then settle { w with inst := shouldHideDealersCard w.inst } else w

theorem frame_cases (run : frame input w = .ok w') : ∃ dealt, newRound input w = .ok dealt ∧
    (((checkbox input dealt).inst.rules ∧ w' = checkbox input dealt) ∨
      (¬ (checkbox input dealt).inst.rules ∧
        ∃ bought, buttons input (checkbox input dealt) = .ok bought ∧ w' = finish input bought)) := by
  obtain ⟨dealt, first, run⟩ := bind_ok run
  refine ⟨dealt, first, ?_⟩
  dsimp only at run
  split at run
  next rules =>
    cases run
    exact .inl ⟨rules, rfl⟩
  next playing =>
    obtain ⟨bought, second, run⟩ := bind_ok run
    refine .inr ⟨playing, bought, second, ?_⟩
    dsimp only [finish]
    split at run
    next idle =>
      cases run
      rw [if_neg idle]
    next started =>
      cases run
      rw [if_pos (not_not.mp started)]

theorem frame_of_buttons {dealt bought : World} (first : newRound input w = .ok dealt)
    (playing : ¬ (checkbox input dealt).inst.rules) (second : buttons input (checkbox input dealt) = .ok bought) :
    frame input w = .ok (finish input bought) := by
  rw [frame, first]
  dsimp only [bind, Except.bind]
  rw [if_neg playing, second]
  dsimp only [finish]
  by_cases started : (chooseBet input (forfeit input bought)).inst.started
  · rw [if_neg (not_not.mpr started), if_pos started]
    rfl
  · rw [if_pos started, if_neg started]
    rfl

/-- The cards are the same, and so is whether there are any on the table. -/
structure SameCards (inst inst' : BlackjackInstance) : Prop where
  dealer : inst'.dealer = inst.dealer
  player : inst'.player = inst.player
  hand : inst'.hand = inst.hand
  stash : inst'.stash = inst.stash
  started : inst'.started = inst.started

namespace SameCards

variable {a b c : BlackjackInstance}

theorem refl (a : BlackjackInstance) : SameCards a a := ⟨rfl, rfl, rfl, rfl, rfl⟩

theorem trans (first : SameCards a b) (second : SameCards b c) : SameCards a c :=
  ⟨second.dealer.trans first.dealer, second.player.trans first.player, second.hand.trans first.hand,
    second.stash.trans first.stash, second.started.trans first.started⟩

end SameCards

theorem checkbox_same (input : Input) (w : World) : SameCards w.inst (checkbox input w).inst := by
  unfold checkbox
  split <;> exact ⟨rfl, rfl, rfl, rfl, rfl⟩

theorem buyInsurance_same (w : World) : SameCards w.inst (buyInsurance w).inst := by
  unfold buyInsurance
  dsimp only
  split <;> exact ⟨rfl, rfl, rfl, rfl, rfl⟩

theorem forfeit_same (input : Input) (w : World) : SameCards w.inst (forfeit input w).inst := by
  unfold forfeit
  split <;> exact ⟨rfl, rfl, rfl, rfl, rfl⟩

theorem slider_same (input : Input) (high : ℚ) (inst : BlackjackInstance) :
    SameCards inst (slider input high inst) := by
  unfold slider
  split <;> exact ⟨rfl, rfl, rfl, rfl, rfl⟩

theorem takeBet_same (inst : BlackjackInstance) : SameCards inst (takeBet inst) := by
  unfold takeBet
  split <;> exact ⟨rfl, rfl, rfl, rfl, rfl⟩

theorem chooseBet_same (input : Input) (w : World) : SameCards w.inst (chooseBet input w).inst := by
  unfold chooseBet
  split
  · exact (slider_same input _ w.inst).trans (takeBet_same _)
  · exact .refl _

theorem shouldHide_same (inst : BlackjackInstance) : SameCards inst (shouldHideDealersCard inst) := by
  unfold shouldHideDealersCard
  dsimp only
  split <;> exact ⟨rfl, rfl, rfl, rfl, rfl⟩

theorem settle_same (w : World) : SameCards w.inst (settle w).inst := by
  unfold settle
  split <;> exact ⟨rfl, rfl, rfl, rfl, rfl⟩

theorem finish_same (input : Input) (w : World) : SameCards w.inst (finish input w).inst := by
  have chosen := (forfeit_same input w).trans (chooseBet_same input _)
  unfold finish
  dsimp only
  split
  · have shown := chosen.trans (shouldHide_same _)
    exact shown.trans (settle_same ⟨shouldHideDealersCard _, _, _⟩)
  · exact chosen

end UmkaOs.Blackjack
