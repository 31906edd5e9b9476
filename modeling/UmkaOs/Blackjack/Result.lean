import UmkaOs.Blackjack.Model

namespace UmkaOs.Blackjack

def playerWins : List String := ["Player win", "Player blackjack", "Dealer bust"]

def playerLoses : List String := ["Dealer win", "Dealer blackjack", "Player bust", "Player forfeited"]

/-- Every text of a finished round with what `whoWon` returns beside it. -/
def results : List (String × Int) :=
  playerWins.map (·, 1) ++ playerLoses.map (·, -1) ++ [("Draw", 0)]

/-- A finished round has one of the texts, and the result that belongs to it. -/
theorem result_listed (inst : BlackjackInstance) (ended : isGameOver inst) (shown : inst.reveal ∨ inst.forfeited) :
    (determineStatus inst, whoWon inst) ∈ results := by
  by_cases forfeited : inst.forfeited
  · simp [determineStatus, whoWon, forfeited, results, playerLoses]
  have reveal : inst.reveal := shown.resolve_right forfeited
  simp only [determineStatus, whoWon, forfeited, reveal, ended, if_false, not_true_eq_false, true_and,
    Bool.false_eq_true]
  -- the sums in the order of `determineStatus`; from here on they differ
  by_cases draw : (getValues inst.player).2 = (getValues inst.dealer).2
  · simp [draw, results]
  by_cases bust : (getValues inst.player).2 > 21
  · simp [draw, bust, results, playerLoses]
  by_cases dealerBust : (getValues inst.dealer).2 > 21
  · simp [draw, bust, dealerBust, results, playerWins]
  simp only [draw, bust, dealerBust, if_false]
  rcases Nat.lt_or_gt_of_ne draw with less | more
  · have below : (getValues inst.player).2 ≠ 21 := by omega
    have behind : ¬ (getValues inst.player).2 > (getValues inst.dealer).2 := by omega
    simp only [below, behind, less, false_and, if_false, if_true, ite_self]
    by_cases two : (getValues inst.dealer).2 = 21 ∧ inst.dealer.length = 2
    · simp [two, results, playerLoses]
    · simp [two, results, playerLoses]
  · have below : (getValues inst.dealer).2 ≠ 21 := by omega
    simp only [below, more, false_and, if_false, if_true, ite_self]
    by_cases two : (getValues inst.player).2 = 21 ∧ inst.player.length = 2
    · simp [two, results, playerWins]
    · simp [two, results, playerWins]

/-- The text says that the player wins, loses or draws exactly when this is what is paid. -/
theorem status_agrees (inst : BlackjackInstance) (ended : isGameOver inst) (shown : inst.reveal ∨ inst.forfeited) :
    (determineStatus inst ∈ playerWins ↔ whoWon inst = 1) ∧
      (determineStatus inst ∈ playerLoses ↔ whoWon inst = -1) ∧
      (determineStatus inst = "Draw" ↔ whoWon inst = 0) ∧ determineStatus inst ≠ "Awaiting action" := by
  have agree : ∀ result ∈ results, (result.1 ∈ playerWins ↔ result.2 = 1) ∧
      (result.1 ∈ playerLoses ↔ result.2 = -1) ∧ (result.1 = "Draw" ↔ result.2 = 0) ∧
      result.1 ≠ "Awaiting action" := by decide
  exact agree _ (result_listed inst ended shown)

theorem status_agrees_twenty : ∃ inst, inst.reveal ∧ inst.player = [⟨.hearts, .king⟩, ⟨.clubs, .queen⟩] ∧
    inst.dealer = [⟨.spades, .ten⟩, ⟨.hearts, .nine⟩] ∧ determineStatus inst = "Player win" ∧ whoWon inst = 1 := by
  let inst := { newInstance generateDeck with
    reveal := true
    dealer := [⟨.spades, .ten⟩, ⟨.hearts, .nine⟩]
    player := [⟨.hearts, .king⟩, ⟨.clubs, .queen⟩] }
  have text : determineStatus inst = "Player win" := by decide
  have agrees := (status_agrees inst (by decide) (.inl rfl)).1
  exact ⟨inst, rfl, rfl, rfl, text, agrees.mp (by rw [text]; decide)⟩

end UmkaOs.Blackjack
