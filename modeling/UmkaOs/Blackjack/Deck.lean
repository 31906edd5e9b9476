import UmkaOs.Blackjack.Frame
import UmkaOs.Lib.Run

namespace UmkaOs.Blackjack

open Lib

/-- Between frames: the cards are all there, and the dealer has some of them once a
round was started. -/
structure Sound (inst : BlackjackInstance) : Prop where
  conserved : inst.Conserved
  dealt : inst.started → inst.dealer ≠ []

variable {w w' : World} {input : Input} {inst inst' : BlackjackInstance} {drawn : List Card}

theorem nodup_generateDeck : generateDeck.Nodup := by decide +kernel

theorem length_generateDeck : generateDeck.length = 52 := rfl

theorem mem_generateDeck (card : Card) : card ∈ generateDeck := by
  obtain ⟨suit, value⟩ := card
  cases suit <;> cases value <;> decide

theorem BlackjackInstance.Conserved.nodup (conserved : inst.Conserved) : (inst.hand ++ inst.stash).Nodup :=
  conserved.nodup_iff.mpr nodup_generateDeck

theorem BlackjackInstance.Conserved.mem (conserved : inst.Conserved) (card : Card) : card ∈ inst.hand ++ inst.stash :=
  conserved.mem_iff.mpr (mem_generateDeck card)

theorem newInstance_conserved {hand : List Card} (perm : hand.Perm generateDeck) : (newInstance hand).Conserved := by
  rw [BlackjackInstance.Conserved, newInstance, List.append_nil]
  exact perm

theorem SameCards.sound (same : SameCards inst inst') (sound : Sound inst) : Sound inst' := by
  constructor
  · rw [BlackjackInstance.Conserved, same.hand, same.stash]
    exact sound.conserved
  · rw [same.started, same.dealer]
    exact sound.dealt

theorem Deals.conserved (deals : Deals w drawn w') (conserved : w.inst.Conserved) : w'.inst.Conserved := by
  obtain ⟨forDealer, forPlayer, pile, _, _, _, draws, _, rfl⟩ := deals
  exact conserved.draws draws (w.inst.dealer ++ forDealer) (w.inst.player ++ forPlayer)

theorem Deals.sound (deals : Deals w drawn w') (sound : Sound w.inst) : Sound w'.inst := by
  refine ⟨deals.conserved sound.conserved, ?_⟩
  obtain ⟨forDealer, forPlayer, pile, _, _, _, draws, _, rfl⟩ := deals
  intro started empty
  exact sound.dealt started (List.append_eq_nil_iff.mp empty).1

theorem opened_conserved (conserved : w.inst.Conserved) : (opened w).inst.Conserved := by
  obtain ⟨hand, stash⟩ := Prod.mk.inj (opened_pile w)
  rw [BlackjackInstance.Conserved, hand, stash]
  exact conserved

theorem startRound_ok (conserved : w.inst.Conserved) : ∃ w', startRound w = .ok w' ∧ Sound w'.inst := by
  have conserved' := opened_conserved conserved
  obtain ⟨w', run⟩ := @drawRound_ok (opened w) conserved'
  have starts : startRound w = .ok w' := run
  obtain ⟨drawn, _, deals, dealer⟩ := startRound_cases starts
  exact ⟨w', starts, deals.conserved conserved', fun _ => dealer⟩

theorem newRound_ok (input : Input) (sound : Sound w.inst) : ∃ w', newRound input w = .ok w' ∧ Sound w'.inst := by
  unfold newRound
  split
  · exact startRound_ok sound.conserved
  · exact ⟨w, rfl, sound⟩

theorem stand_sound (sound : Sound w.inst) : ∃ w', stand standFuel w = .ok w' ∧ Sound w'.inst := by
  obtain ⟨w', run⟩ := @stand_ok w 17 sound.conserved (Nat.le_add_right _ _)
  obtain ⟨drawn, deals, _⟩ := stand_deals run
  exact ⟨w', run, deals.sound sound⟩

theorem hit_sound (sound : Sound w.inst) : ∃ w', hit w = .ok w' ∧ Sound w'.inst := by
  obtain ⟨w', run, _⟩ := drawPlayer_ok sound.conserved
  obtain ⟨card, deals, _⟩ := hit_deals run
  exact ⟨w', run, deals.sound sound⟩

theorem hitOrStand_ok (input : Input) (sound : Sound w.inst) :
    ∃ w', hitOrStand input w = .ok w' ∧ Sound w'.inst := by
  have hits {u : World} (sound : Sound u.inst) : ∃ w', hitButton input u = .ok w' ∧ Sound w'.inst := by
    unfold hitButton
    split
    · exact @hit_sound (afterFirst u) ⟨sound.conserved, sound.dealt⟩
    · exact ⟨u, rfl, sound⟩
  have stands {u : World} (sound : Sound u.inst) : ∃ w', standButton input u = .ok w' ∧ Sound w'.inst := by
    unfold standButton
    split
    · exact @stand_sound (afterFirst u) ⟨sound.conserved, sound.dealt⟩
    · exact ⟨u, rfl, sound⟩
  unfold hitOrStand
  split
  · exact ⟨w, rfl, sound⟩
  · obtain ⟨struck, first, struckSound⟩ := hits sound
    obtain ⟨w', second, sound'⟩ := stands struckSound
    refine ⟨w', ?_, sound'⟩
    rw [first]
    exact second

theorem double_ok (input : Input) (sound : Sound w.inst) : ∃ w', double input w = .ok w' ∧ Sound w'.inst := by
  unfold double
  split
  · obtain ⟨dealt, first, dealtSound⟩ := hit_sound sound
    have doubled : Sound (doubleBet dealt).inst := ⟨dealtSound.conserved, dealtSound.dealt⟩
    rw [first]
    dsimp only [bind, Except.bind]
    split
    · exact ⟨_, rfl, doubled⟩
    · exact stand_sound doubled
  · exact ⟨w, rfl, sound⟩

theorem insurance_ok (input : Input) (sound : Sound w.inst) (started : w.inst.started) :
    ∃ w', insurance input w = .ok w' ∧ Sound w'.inst := by
  unfold insurance
  split
  next none => exact absurd none (sound.dealt started)
  · split
    · exact ⟨_, rfl, (buyInsurance_same w).sound sound⟩
    · exact ⟨w, rfl, sound⟩

theorem buttons_ok (input : Input) (sound : Sound w.inst) : ∃ w', buttons input w = .ok w' ∧ Sound w'.inst := by
  unfold buttons
  split
  next started =>
    obtain ⟨played, first, playedSound⟩ := hitOrStand_ok input sound
    obtain ⟨doubled, second, doubledSound⟩ := double_ok input playedSound
    have still : doubled.inst.started := by
      rw [double_started second, hitOrStand_started first]
      exact started
    obtain ⟨insured, third, insuredSound⟩ := insurance_ok input doubledSound still
    refine ⟨insured, ?_, insuredSound⟩
    simp only [first, second, third, bind, Except.bind]
  · exact ⟨w, rfl, sound⟩

theorem frame_ok (input : Input) (sound : Sound w.inst) : ∃ w', frame input w = .ok w' ∧ Sound w'.inst := by
  obtain ⟨dealt, first, dealtSound⟩ := newRound_ok input sound
  have checked := (checkbox_same input dealt).sound dealtSound
  by_cases rules : (checkbox input dealt).inst.rules
  · refine ⟨checkbox input dealt, ?_, checked⟩
    simp only [frame, first, rules, if_true, bind, Except.bind, pure, Except.pure]
  · obtain ⟨bought, second, boughtSound⟩ := buttons_ok input checked
    exact ⟨finish input bought, frame_of_buttons first rules second, (finish_same input bought).sound boughtSound⟩

/-- A frame: what is clicked, and the globals as the frame finds them. Other tasks use
them in between. -/
structure Frame where
  input : Input
  balance : Int64
  random : Random

/-- The instance of the task from frame to frame. -/
def Step (data : Option BlackjackInstance) (f : Frame) (data' : Option BlackjackInstance) : Prop :=
  ∃ w, register f.input data f.balance f.random = .ok w ∧ data' = some w.inst

variable {data last : Option BlackjackInstance} {f : Frame}

/-- A task either has its instance or gets a new one with the whole deck. -/
theorem instanceOf_cases (data : Option BlackjackInstance) (random : Random) : ∃ inst random',
    instanceOf data random = .ok (inst, random') ∧
      (data = some inst ∨ (data = none ∧ ∃ hand, hand.Perm generateDeck ∧ inst = newInstance hand)) := by
  cases data with
  | some inst => exact ⟨inst, random, rfl, .inl rfl⟩
  | none =>
    obtain ⟨hand, random', shuffled, perm⟩ := shuffleDeck_perm generateDeck random
    refine ⟨newInstance hand, random', ?_, .inr ⟨rfl, hand, perm, rfl⟩⟩
    simp only [instanceOf, create, shuffled, bind, Except.bind, pure, Except.pure]

theorem newInstance_sound {hand : List Card} (perm : hand.Perm generateDeck) : Sound (newInstance hand) :=
  ⟨newInstance_conserved perm, fun started => absurd started Bool.false_ne_true⟩

theorem register_ok (input : Input) (balance : Int64) (random : Random) (sound : ∀ inst ∈ data, Sound inst) :
    ∃ w, register input data balance random = .ok w ∧ Sound w.inst := by
  obtain ⟨inst, random', found, cases⟩ := instanceOf_cases data random
  have before : Sound inst := by
    rcases cases with rfl | ⟨_, hand, perm, rfl⟩
    · exact sound inst rfl
    · exact newInstance_sound perm
  obtain ⟨w, run, after⟩ := @frame_ok { inst, balance, random := random' } input before
  refine ⟨w, ?_, after⟩
  rw [register, found]
  exact run

theorem Step.sound (step : Step data f last) (sound : ∀ inst ∈ data, Sound inst) : ∀ inst ∈ last, Sound inst := by
  obtain ⟨w, run, rfl⟩ := step
  obtain ⟨w', run', after⟩ := register_ok f.input f.balance f.random sound
  cases run'.symm.trans run
  intro inst member
  cases member
  exact after

theorem run_sound {steps : List (Option BlackjackInstance × Frame)} (run : Run Step none steps data) :
    ∀ inst ∈ data, Sound inst :=
  run.invariant (fun sound step => Step.sound step sound) fun inst member => absurd member (Option.not_mem_none inst)

/-- Hand and stash are at all times the 52 different cards, shuffling permutes, and so
no frame draws from nothing. -/
theorem deck_conserved : generateDeck.Nodup ∧ generateDeck.length = 52 ∧
    (∀ deck random, ∃ deck' random', shuffleDeck deck random = .ok (deck', random') ∧ deck'.Perm deck) ∧
    (∀ w, w.inst.Conserved → ∃ card w', drawCard w = .ok (card, w') ∧ w'.inst.Conserved) ∧
    ∀ steps data, Run Step none steps data → (∀ inst ∈ data, (inst.hand ++ inst.stash).Perm generateDeck) ∧
      ∀ input balance random, ∃ w, register input data balance random = .ok w := by
  refine ⟨nodup_generateDeck, length_generateDeck, shuffleDeck_perm, ?_, ?_⟩
  · intro w conserved
    obtain ⟨card, w', run⟩ := drawCard_ok conserved.left
    obtain ⟨pile, random, drawn, rfl⟩ := drawCard_cases run
    exact ⟨card, _, run, conserved.draws (.single drawn) _ _⟩
  · intro steps data run
    have sound := run_sound run
    refine ⟨fun inst member => (sound inst member).conserved, fun input balance random => ?_⟩
    obtain ⟨w, done, _⟩ := register_ok input balance random sound
    exact ⟨w, done⟩

theorem deck_conserved_first : ∃ inst, Step none ⟨⟨none, none⟩, startBalance, Tasks.numbers Tasks.seed⟩ (some inst) ∧
    (inst.hand ++ inst.stash).Perm generateDeck := by
  obtain ⟨_, _, _, _, runs⟩ := deck_conserved
  obtain ⟨w, run⟩ := (runs [] none (.stop none)).2 ⟨none, none⟩ startBalance (Tasks.numbers Tasks.seed)
  have step : Step none ⟨⟨none, none⟩, startBalance, Tasks.numbers Tasks.seed⟩ (some w.inst) := ⟨w, run, rfl⟩
  exact ⟨w.inst, step, (runs _ _ (.single step)).1 w.inst rfl⟩

end UmkaOs.Blackjack
