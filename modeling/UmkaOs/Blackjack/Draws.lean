import UmkaOs.Blackjack.Model
import UmkaOs.Lib.Pile
import UmkaOs.Machine

namespace UmkaOs.Blackjack

open Lib

namespace BlackjackInstance

def pile (inst : BlackjackInstance) : List Card × List Card := (inst.hand, inst.stash)

/-- The cards on the table. -/
def laid (inst : BlackjackInstance) : List Card := inst.dealer ++ inst.player

/-- The instance with other cards. -/
def withCards (inst : BlackjackInstance) (dealer player : List Card) (pile : List Card × List Card) :
    BlackjackInstance :=
  { inst with dealer, player, hand := pile.1, stash := pile.2 }

/-- Hand and stash together are the generated cards. -/
def Conserved (inst : BlackjackInstance) : Prop := (inst.hand ++ inst.stash).Perm generateDeck

end BlackjackInstance

variable {w w' : World} {card : Card}

theorem swap_perm {deck : List Card} {i j : Nat} (inside : i < deck.length) (inside' : j < deck.length) :
    ∃ deck', swap deck i j = .ok deck' ∧ deck'.Perm deck := by
  refine ⟨(deck.set i deck[j]).set j deck[i], ?_, List.set_set_perm inside inside'⟩
  rw [swap, List.getElem?_eq_getElem inside, List.getElem?_eq_getElem inside']

theorem shuffleFrom_perm {turns i : Nat} {deck : List Card} (random : Random) (inside : i + turns = deck.length) :
    ∃ deck' random', shuffleFrom turns i deck random = .ok (deck', random') ∧ deck'.Perm deck := by
  induction turns generalizing i deck random with
  | zero => exact ⟨deck, random, rfl, .refl deck⟩
  | succ turns ih =>
    have some : 0 < deck.length := by omega
    obtain ⟨swapped, done, same⟩ := @swap_perm deck i ((rand random).1.toNat % deck.length) (by omega)
      (Nat.mod_lt _ some)
    obtain ⟨deck', random', later, perm⟩ := @ih (i + 1) swapped (rand random).2 (by
      rw [same.length_eq]
      omega)
    refine ⟨deck', random', ?_, perm.trans same⟩
    simp only [shuffleFrom, done, later, bind, Except.bind]

theorem shuffleDeck_perm (deck : List Card) (random : Random) :
    ∃ deck' random', shuffleDeck deck random = .ok (deck', random') ∧ deck'.Perm deck :=
  shuffleFrom_perm random (Nat.zero_add _)

/-- `drawCard` draws from the pile; the index 0 is outside the hand only if there is
no card at all. -/
theorem drawCard_spec (w : World) : (w.inst.hand ++ w.inst.stash = [] ∧ drawCard w = .error .index) ∨
    ∃ card pile random, Drawn w.inst.pile card pile ∧
      drawCard w = .ok (card, { w with inst := w.inst.withCards w.inst.dealer w.inst.player pile, random }) := by
  cases hand : w.inst.hand with
  | nil =>
    obtain ⟨shuffled, random, done, perm⟩ := shuffleDeck_perm w.inst.stash w.random
    have first : refill w = .ok { w with inst := { w.inst with hand := shuffled, stash := [] }, random } := by
      simp only [refill, hand, List.length_nil, if_true, done, bind, Except.bind, pure, Except.pure]
    cases shuffled with
    | nil =>
      refine .inl ⟨perm.symm.eq_nil, ?_⟩
      rw [drawCard, first]
      rfl
    | cons card rest =>
      refine .inr ⟨card, (rest, [card]), random, ?_, ?_⟩
      · rw [BlackjackInstance.pile, hand]
        exact .refilled perm
      · rw [drawCard, first]
        rfl
  | cons card rest =>
    have first : refill w = .ok w := by
      rw [refill, hand]
      rfl
    refine .inr ⟨card, (rest, w.inst.stash ++ [card]), w.random, ?_, ?_⟩
    · rw [BlackjackInstance.pile, hand]
      exact .top card rest w.inst.stash
    · simp only [drawCard, first, hand, bind, Except.bind]
      rfl

theorem drawCard_cases (run : drawCard w = .ok (card, w')) :
    ∃ pile random, Drawn w.inst.pile card pile ∧
      w' = { w with inst := w.inst.withCards w.inst.dealer w.inst.player pile, random } := by
  rcases drawCard_spec w with ⟨_, outside⟩ | ⟨card', pile, random, drawn, run'⟩
  · cases outside.symm.trans run
  · cases run'.symm.trans run
    exact ⟨pile, random, drawn, rfl⟩

theorem drawCard_ok (left : w.inst.hand ++ w.inst.stash ≠ []) : ∃ card w', drawCard w = .ok (card, w') := by
  rcases drawCard_spec w with ⟨empty, _⟩ | ⟨card, _, _, _, run⟩
  · exact absurd empty left
  · exact ⟨card, _, run⟩

theorem drawFor_cases {give : BlackjackInstance → Card → BlackjackInstance} (run : drawFor give w = .ok w') :
    ∃ card pile random, Drawn w.inst.pile card pile ∧
      w' = { w with inst := give (w.inst.withCards w.inst.dealer w.inst.player pile) card, random } := by
  obtain ⟨⟨card, drawn⟩, first, second⟩ := bind_ok run
  obtain ⟨pile, random, top, rfl⟩ := drawCard_cases first
  cases second
  exact ⟨card, pile, random, top, rfl⟩

theorem drawDealer_cases (run : drawDealer w = .ok w') : ∃ card pile random, Drawn w.inst.pile card pile ∧
    w' = { w with inst := w.inst.withCards (w.inst.dealer ++ [card]) w.inst.player pile, random } := drawFor_cases run

theorem drawPlayer_cases (run : drawPlayer w = .ok w') : ∃ card pile random, Drawn w.inst.pile card pile ∧
    w' = { w with inst := w.inst.withCards w.inst.dealer (w.inst.player ++ [card]) pile, random } := drawFor_cases run

namespace BlackjackInstance

variable {inst : BlackjackInstance} {pile : List Card × List Card} {cards : List Card}

theorem Conserved.left (conserved : inst.Conserved) : inst.hand ++ inst.stash ≠ [] := by
  intro empty
  have length := conserved.length_eq
  rw [empty] at length
  exact absurd length (by decide)

theorem Conserved.draws (conserved : inst.Conserved) (draws : Draws inst.pile cards pile)
    (dealer player : List Card) : (inst.withCards dealer player pile).Conserved :=
  draws.perm.trans conserved

end BlackjackInstance

theorem drawFor_ok (give : BlackjackInstance → Card → BlackjackInstance) (conserved : w.inst.Conserved) :
    ∃ w', drawFor give w = .ok w' := by
  obtain ⟨card, drawn, run⟩ := drawCard_ok conserved.left
  refine ⟨{ drawn with inst := give drawn.inst card }, ?_⟩
  rw [drawFor, run]
  rfl

theorem drawDealer_ok (conserved : w.inst.Conserved) : ∃ w', drawDealer w = .ok w' ∧ w'.inst.Conserved := by
  obtain ⟨w', run⟩ := drawFor_ok withDealer conserved
  obtain ⟨card, pile, random, top, rfl⟩ := drawDealer_cases run
  exact ⟨_, run, conserved.draws (.single top) _ _⟩

theorem drawPlayer_ok (conserved : w.inst.Conserved) : ∃ w', drawPlayer w = .ok w' ∧ w'.inst.Conserved := by
  obtain ⟨w', run⟩ := drawFor_ok withPlayer conserved
  obtain ⟨card, pile, random, top, rfl⟩ := drawPlayer_cases run
  exact ⟨_, run, conserved.draws (.single top) _ _⟩

theorem drawRound_cases (run : drawRound w = .ok w') : ∃ c1 c2 c3 c4 pile random,
    Draws w.inst.pile [c1, c2, c3, c4] pile ∧
    w' = { w with inst := (clearRound w.inst).withCards [c1, c3] [c2, c4] pile, random } := by
  obtain ⟨w1, first, run⟩ := bind_ok run
  obtain ⟨c1, p1, r1, d1, rfl⟩ := drawDealer_cases first
  obtain ⟨w2, second, run⟩ := bind_ok run
  obtain ⟨c2, p2, r2, d2, rfl⟩ := drawPlayer_cases second
  obtain ⟨w3, third, run⟩ := bind_ok run
  obtain ⟨c3, p3, r3, d3, rfl⟩ := drawDealer_cases third
  obtain ⟨c4, p4, r4, d4, rfl⟩ := drawPlayer_cases run
  exact ⟨c1, c2, c3, c4, p4, r4, .next d1 (.next d2 (.next d3 (.single d4))), rfl⟩

theorem drawRound_ok (conserved : w.inst.Conserved) : ∃ w', drawRound w = .ok w' := by
  obtain ⟨w1, first, kept1⟩ := @drawDealer_ok { w with inst := clearRound w.inst } conserved
  obtain ⟨w2, second, kept2⟩ := drawPlayer_ok kept1
  obtain ⟨w3, third, kept3⟩ := drawDealer_ok kept2
  obtain ⟨w4, fourth, _⟩ := drawPlayer_ok kept3
  refine ⟨w4, ?_⟩
  simp only [drawRound, first, second, third, fourth, bind, Except.bind]

end UmkaOs.Blackjack
