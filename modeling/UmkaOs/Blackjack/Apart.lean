import UmkaOs.Blackjack.Deck

/-! Cards in two places. What is drawn goes to the stash while it is still on the table:
when the hand runs out during a round, the cards of the table are shuffled in with the
others. -/

namespace UmkaOs.Blackjack

open Lib

/-- No card of the table and the hand is in two places. -/
def Apart (inst : BlackjackInstance) : Prop := (inst.dealer ++ inst.player ++ inst.hand).Nodup

instance : DecidablePred Apart := fun inst =>
  inferInstanceAs (Decidable (inst.dealer ++ inst.player ++ inst.hand).Nodup)

/-- The dealer comes to 17 with cards of the hand. -/
def DealerEnds (dealer hand : List Card) : Prop :=
  ∃ k, k ≤ hand.length ∧ 17 ≤ (getValues (dealer ++ hand.take k)).2

/-- The hand lasts for the button of the round that is clicked. -/
structure ButtonsLast (input : Input) (inst : BlackjackInstance) : Prop where
  hit : input.press = some .hit → ¬ isGameOver inst → inst.hand ≠ []
  stand : input.press = some .stand → ¬ isGameOver inst → DealerEnds inst.dealer inst.hand
  double : input.press = some .double → ¬ isGameOver inst → inst.firsthit → ∃ card rest, inst.hand = card :: rest ∧
    (isGameOver (withPlayer inst card) ∨ DealerEnds inst.dealer rest)

/-- The hand lasts for what the frame draws. A new round may also begin with a new hand. -/
structure Lasts (input : Input) (inst : BlackjackInstance) : Prop where
  newRound : input.press = some .newRound → inst.hand = [] ∨ 4 ≤ inst.hand.length
  buttons : ¬ inst.rules → inst.started → ButtonsLast input inst

variable {w w' : World} {input : Input} {inst inst' : BlackjackInstance} {drawn : List Card}

theorem SameCards.apart_iff (same : SameCards inst inst') : Apart inst' ↔ Apart inst := by
  rw [Apart, Apart, same.dealer, same.player, same.hand]

theorem Deals.apart (deals : Deals w drawn w') : ∃ pile, Draws w.inst.pile drawn pile ∧
    (Apart w'.inst ↔ (w.inst.laid ++ drawn ++ pile.1).Nodup) := by
  obtain ⟨forDealer, forPlayer, pile, _, _, _, draws, perm, rfl⟩ := deals
  refine ⟨pile, draws, List.Perm.nodup_iff (List.Perm.append_right pile.1 ?_)⟩
  have sorted := List.perm_append_comm_assoc forDealer w.inst.player forPlayer
  have laid := (sorted.trans (perm.append_left w.inst.player)).append_left w.inst.dealer
  simpa only [BlackjackInstance.withCards, BlackjackInstance.laid, List.append_assoc] using laid

/-- With cards on the table, the hand has to last. -/
theorem Deals.apart_iff (deals : Deals w drawn w') (conserved : w.inst.Conserved) (laid : w.inst.laid ≠ []) :
    Apart w'.inst ↔ Apart w.inst ∧ drawn.length ≤ w.inst.hand.length := by
  obtain ⟨pile, draws, apart⟩ := deals.apart
  rw [apart]
  exact draws.apart_iff conserved.nodup (fun card _ => conserved.mem card) laid

/-- For a new round, the hand has to last or to be empty. -/
theorem Deals.apart_empty_iff (deals : Deals w drawn w') (conserved : w.inst.Conserved) (empty : w.inst.laid = [])
    (some : drawn ≠ []) :
    Apart w'.inst ↔ drawn.length ≤ (if w.inst.hand = [] then w.inst.stash else w.inst.hand).length := by
  obtain ⟨pile, draws, apart⟩ := deals.apart
  rw [apart, empty, List.nil_append]
  exact draws.apart_empty_iff conserved.nodup some

/-- The turn takes no more cards than the hand has exactly when they bring the dealer to 17. -/
theorem Turn.length_le_iff {dealer : List Card} {p q : List Card × List Card} (turn : Turn dealer drawn)
    (draws : Draws p drawn q) : drawn.length ≤ p.1.length ↔ DealerEnds dealer p.1 := by
  constructor
  · intro lasts
    refine ⟨drawn.length, lasts, ?_⟩
    rw [← draws.take (Nat.le_refl _) lasts, List.take_length]
    exact turn.enough
  · rintro ⟨k, inside, enough⟩
    by_contra short
    have below := turn.before k (by omega)
    rw [draws.take (by omega) inside] at below
    omega

theorem Sound.laid (sound : Sound inst) (started : inst.started) : inst.laid ≠ [] := by
  intro empty
  exact sound.dealt started (List.append_eq_nil_iff.mp empty).1

theorem hitOrStand_apart_iff (sound : Sound w.inst) (started : w.inst.started) (run : hitOrStand input w = .ok w') :
    Apart w'.inst ↔ Apart w.inst ∧ (input.press = some .hit → ¬ isGameOver w.inst → w.inst.hand ≠ []) ∧
      (input.press = some .stand → ¬ isGameOver w.inst → DealerEnds w.inst.dealer w.inst.hand) := by
  have laid := sound.laid started
  rcases hitOrStand_cases run with
    ⟨rfl, idle⟩ | ⟨playing, pressed, card, deals⟩ | ⟨playing, pressed, drawn, deals, turn⟩
  · refine ⟨fun apart => ⟨apart, fun pressed playing => ?_, fun pressed playing => ?_⟩, And.left⟩
    · rcases idle with ended | ⟨other, _⟩
      · exact absurd ended playing
      · exact absurd pressed other
    · rcases idle with ended | ⟨_, other⟩
      · exact absurd ended playing
      · exact absurd pressed other
  · rw [deals.apart_iff sound.conserved laid]
    simp [pressed, playing, Nat.one_le_iff_ne_zero]
  · obtain ⟨pile, draws, _⟩ := deals.apart
    have length : drawn.length ≤ w.inst.hand.length ↔ DealerEnds w.inst.dealer w.inst.hand := turn.length_le_iff draws
    rw [deals.apart_iff sound.conserved laid, length]
    simp [pressed, playing]

theorem double_apart_iff (sound : Sound w.inst) (started : w.inst.started) (run : double input w = .ok w') :
    Apart w'.inst ↔ Apart w.inst ∧ (input.press = some .double → ¬ isGameOver w.inst → w.inst.firsthit →
      ∃ card rest, w.inst.hand = card :: rest ∧
        (isGameOver (withPlayer w.inst card) ∨ DealerEnds w.inst.dealer rest)) := by
  rcases double_cases run with ⟨rfl, other⟩ | ⟨pressed, u, card, drawn, deals, rfl, ends⟩
  · exact ⟨fun apart => ⟨apart, fun press playing first => absurd ⟨playing, first, press⟩ other⟩, And.left⟩
  have same : Apart (doubleBet u).inst ↔ Apart u.inst := Iff.rfl
  rw [same, deals.apart_iff sound.conserved (sound.laid started), List.length_cons]
  apply and_congr_right
  intro _
  obtain ⟨pile, draws, _⟩ := deals.apart
  simp only [pressed.1, pressed.2.1, pressed.2.2, true_implies, not_false_eq_true]
  cases hand : w.inst.hand with
  | nil => simp
  | cons top rest =>
    rw [BlackjackInstance.pile, hand] at draws
    cases draws with
    | next first later =>
      cases first with
      | top =>
        -- with the first card drawn, the others are for the dealer
        have others : drawn.length ≤ rest.length ↔
            isGameOver (withPlayer w.inst card) ∨ DealerEnds w.inst.dealer rest := by
          rcases ends with ⟨ended, rfl⟩ | ⟨playing, turn⟩
          · exact iff_of_true (Nat.zero_le _) (.inl ended)
          · rw [or_iff_right playing]
            exact turn.length_le_iff later
        rw [List.length_cons, Nat.succ_le_succ_iff, others]
        constructor
        · intro lasts
          exact ⟨card, rest, rfl, lasts⟩
        · rintro ⟨_, _, same, lasts⟩
          cases same
          exact lasts

theorem insurance_apart_iff (run : insurance input w = .ok w') : Apart w'.inst ↔ Apart w.inst := by
  rcases insurance_cases run with rfl | ⟨_, rfl⟩
  · exact Iff.rfl
  · exact (buyInsurance_same w).apart_iff

theorem buttons_apart_iff (sound : Sound w.inst) (run : buttons input w = .ok w') :
    Apart w'.inst ↔ Apart w.inst ∧ (w.inst.started → ButtonsLast input w.inst) := by
  unfold buttons at run
  split at run
  next started =>
    obtain ⟨played, first, run⟩ := bind_ok run
    obtain ⟨doubled, second, third⟩ := bind_ok run
    obtain ⟨_, first', playedSound⟩ := hitOrStand_ok input sound
    cases first'.symm.trans first
    have still : played.inst.started := (hitOrStand_started first).trans started
    rw [insurance_apart_iff third, double_apart_iff playedSound still second]
    by_cases pressed : input.press = some .double
    · -- the other two buttons were not clicked
      have same : played = w := by
        rcases hitOrStand_cases first with ⟨same, _⟩ | ⟨_, other, _⟩ | ⟨_, other, _⟩
        · exact same
        · cases pressed.symm.trans other
        · cases pressed.symm.trans other
      subst same
      apply and_congr_right
      intro _
      refine ⟨fun lasts _ => ⟨?_, ?_, lasts⟩, fun last => (last started).double⟩
      · intro other
        cases pressed.symm.trans other
      · intro other
        cases pressed.symm.trans other
    · rw [hitOrStand_apart_iff sound started first, and_assoc]
      apply and_congr_right
      intro _
      constructor
      · rintro ⟨⟨hit, stand⟩, _⟩ _
        exact ⟨hit, stand, fun press => absurd press pressed⟩
      · intro last
        exact ⟨⟨(last started).hit, (last started).stand⟩, fun press => absurd press pressed⟩
  next idle =>
    cases run
    exact ⟨fun apart => ⟨apart, fun started => absurd started idle⟩, And.left⟩

theorem startRound_apart_iff (sound : Sound w.inst) (run : startRound w = .ok w') :
    Apart w'.inst ↔ w.inst.hand = [] ∨ 4 ≤ w.inst.hand.length := by
  obtain ⟨drawn, four, deals, _⟩ := startRound_cases run
  have some : drawn ≠ [] := by
    intro none
    simp [none] at four
  obtain ⟨hand, stash⟩ := Prod.mk.inj (opened_pile w)
  rw [deals.apart_empty_iff (opened_conserved sound.conserved) rfl some, hand, stash, four]
  by_cases empty : w.inst.hand = []
  · have whole := sound.conserved.length_eq
    rw [empty, List.nil_append, length_generateDeck] at whole
    rw [if_pos empty, whole]
    exact iff_of_true (by decide) (.inl empty)
  · rw [if_neg empty, or_iff_right empty]

/-- With another control clicked, there is nothing to draw. -/
theorem ButtonsLast.of_other {press : Press} (pressed : input.press = some press) (hit : press ≠ .hit)
    (stand : press ≠ .stand) (double : press ≠ .double) (inst : BlackjackInstance) : ButtonsLast input inst where
  hit := fun same => absurd (Option.some.inj (pressed.symm.trans same)) hit
  stand := fun same => absurd (Option.some.inj (pressed.symm.trans same)) stand
  double := fun same => absurd (Option.some.inj (pressed.symm.trans same)) double

/-- A frame that begins with the cards apart ends so exactly when the hand lasts. -/
theorem frame_apart_iff (sound : Sound w.inst) (apart : Apart w.inst) (run : frame input w = .ok w') :
    Apart w'.inst ↔ Lasts input w.inst := by
  obtain ⟨dealt, first, rest⟩ := frame_cases run
  obtain ⟨_, first', dealtSound⟩ := newRound_ok input sound
  cases first'.symm.trans first
  have checked := checkbox_same input dealt
  have after : Apart w'.inst ↔ Apart dealt.inst ∧ (¬ (checkbox input dealt).inst.rules →
      (checkbox input dealt).inst.started → ButtonsLast input (checkbox input dealt).inst) := by
    rcases rest with ⟨rules, rfl⟩ | ⟨playing, bought, second, rfl⟩
    · rw [checked.apart_iff]
      exact ⟨fun apart => ⟨apart, fun playing => absurd rules playing⟩, And.left⟩
    · rw [(finish_same input bought).apart_iff, buttons_apart_iff (checked.sound dealtSound) second, checked.apart_iff]
      exact and_congr_right fun _ => ⟨fun last _ => last, fun last => last playing⟩
  rw [after]
  unfold newRound at first
  split at first
  next pressed =>
    have nothing := ButtonsLast.of_other pressed (by decide) (by decide) (by decide)
    rw [startRound_apart_iff sound first]
    constructor
    · rintro ⟨lasts, _⟩
      exact ⟨fun _ => lasts, fun _ _ => nothing _⟩
    · intro lasts
      exact ⟨lasts.newRound pressed, fun _ _ => nothing _⟩
  next other =>
    cases first
    rw [and_iff_right apart]
    by_cases pressed : input.press = some .rules
    · have nothing := ButtonsLast.of_other pressed (by decide) (by decide) (by decide)
      exact iff_of_true (fun _ _ => nothing _) ⟨fun press => absurd press other, fun _ _ => nothing _⟩
    · have same : checkbox input w = w := by
        unfold checkbox
        rw [if_neg pressed]
      rw [same]
      exact ⟨fun lasts => ⟨fun press => absurd press other, lasts⟩, Lasts.buttons⟩

variable {data last : Option BlackjackInstance} {f : Frame}

theorem newInstance_apart {hand : List Card} (perm : hand.Perm generateDeck) : Apart (newInstance hand) :=
  perm.nodup_iff.mpr nodup_generateDeck

theorem newInstance_lasts {hand : List Card} (perm : hand.Perm generateDeck) (input : Input) :
    Lasts input (newInstance hand) where
  newRound := fun _ => .inr (by
    rw [newInstance, perm.length_eq]
    decide)
  buttons := fun _ started => absurd started Bool.false_ne_true

theorem Step.apart_iff (step : Step data f last) (sound : ∀ inst ∈ data, Sound inst)
    (apart : ∀ inst ∈ data, Apart inst) :
    (∀ inst ∈ last, Apart inst) ↔ ∀ inst ∈ data, Lasts f.input inst := by
  obtain ⟨w, run, rfl⟩ := step
  obtain ⟨inst, random, found, cases⟩ := instanceOf_cases data f.random
  rw [register, found] at run
  have before : Sound inst ∧ Apart inst ∧ ((∀ inst ∈ data, Lasts f.input inst) ↔ Lasts f.input inst) := by
    rcases cases with rfl | ⟨rfl, hand, perm, rfl⟩
    · exact ⟨sound inst rfl, apart inst rfl, by simp⟩
    · exact ⟨newInstance_sound perm, newInstance_apart perm, by simpa using newInstance_lasts perm f.input⟩
  rw [before.2.2, ← @frame_apart_iff { inst, balance := f.balance, random } w f.input before.1 before.2.1 run]
  simp

theorem run_apart_iff {steps : List (Option BlackjackInstance × Frame)} (run : Run Step data steps last)
    (sound : ∀ inst ∈ data, Sound inst) (apart : ∀ inst ∈ data, Apart inst) :
    ((∀ step ∈ steps, ∀ inst ∈ step.1, Apart inst) ∧ ∀ inst ∈ last, Apart inst) ↔
      ∀ step ∈ steps, ∀ inst ∈ step.1, Lasts step.2.input inst := by
  induction run with
  | stop data => exact iff_of_true ⟨List.forall_mem_nil _, apart⟩ (List.forall_mem_nil _)
  | @next data middle last f rest first later ih =>
    have after := first.apart_iff sound apart
    rw [List.forall_mem_cons, List.forall_mem_cons]
    constructor
    · rintro ⟨⟨_, restApart⟩, lastApart⟩
      -- the middle is where the rest begins, or it is the last
      have middleApart : ∀ inst ∈ middle, Apart inst := by
        cases later with
        | stop => exact lastApart
        | next => exact restApart _ List.mem_cons_self
      exact ⟨after.mp middleApart, (ih (first.sound sound) middleApart).mp ⟨restApart, lastApart⟩⟩
    · rintro ⟨lasts, restLasts⟩
      obtain ⟨restApart, lastApart⟩ := (ih (first.sound sound) (after.mpr lasts)).mpr restLasts
      exact ⟨⟨apart, restApart⟩, lastApart⟩

/-- In a run from the start, no card is ever in two places exactly when for every frame
the hand lasts. -/
theorem cards_apart_iff {steps : List (Option BlackjackInstance × Frame)} (run : Run Step none steps last) :
    ((∀ step ∈ steps, ∀ inst ∈ step.1, Apart inst) ∧ ∀ inst ∈ last, Apart inst) ↔
      ∀ step ∈ steps, ∀ inst ∈ step.1, Lasts step.2.input inst :=
  run_apart_iff run (fun inst member => absurd member (Option.not_mem_none inst))
    fun inst member => absurd member (Option.not_mem_none inst)

/-- The frames of a task that has the globals for itself. -/
def play (data : Option BlackjackInstance) (balance : Int64) (random : Random) :
    List Input → Except Fault (Option BlackjackInstance)
  | [] => .ok data
  | input :: inputs => do
    let w ← register input data balance random
    play (some w.inst) w.balance w.random inputs

theorem run_of_play {balance : Int64} {random : Random} {inputs : List Input}
    (played : play data balance random inputs = .ok last) :
    ∃ steps, Run Step data steps last ∧ steps.map (fun step => step.2.input) = inputs := by
  induction inputs generalizing data balance random with
  | nil =>
    cases played
    exact ⟨[], .stop last, rfl⟩
  | cons input inputs ih =>
    obtain ⟨w, first, later⟩ := bind_ok played
    obtain ⟨steps, run, rfl⟩ := ih later
    exact ⟨(data, ⟨input, balance, random⟩) :: steps, .next ⟨w, first, rfl⟩ run, rfl⟩

/-- `New round` in the first frame and twelve more times, then `Hit`, with the random
numbers of a system that was just started: the hand runs out with four cards on the table. -/
theorem dealt_twice : ∃ steps inst, Run Step none steps (some inst) ∧
    steps.map (fun step => step.2.input) = List.replicate 13 ⟨some .newRound, none⟩ ++ [⟨some .hit, none⟩] ∧
    play none startBalance (Tasks.numbers Tasks.seed) (steps.map fun step => step.2.input) = .ok (some inst) ∧
    ¬ Apart inst := by
  have dealt : (play none startBalance (Tasks.numbers Tasks.seed)
      (List.replicate 13 ⟨some .newRound, none⟩ ++ [⟨some .hit, none⟩])).toOption.join.any
        (fun inst => decide (¬ Apart inst)) = true := by decide +kernel
  cases played : play none startBalance (Tasks.numbers Tasks.seed)
      (List.replicate 13 ⟨some .newRound, none⟩ ++ [⟨some .hit, none⟩]) with
  | error fault =>
    rw [played] at dealt
    cases dealt
  | ok last =>
    rw [played] at dealt
    obtain ⟨inst, rfl, twice⟩ := (Option.any_eq_true _ _).mp dealt
    obtain ⟨steps, run, inputs⟩ := run_of_play played
    refine ⟨steps, inst, run, inputs, ?_, of_decide_eq_true twice⟩
    rw [inputs]
    exact played

theorem cards_apart_iff_round : ∃ steps inst, Run Step none steps (some inst) ∧
    steps.map (fun step => step.2.input) = [⟨some .newRound, none⟩, ⟨some .hit, none⟩] ∧
    (∀ step ∈ steps, ∀ inst ∈ step.1, Lasts step.2.input inst) ∧ inst.player.length = 3 ∧ Apart inst := by
  obtain ⟨w, first, sound⟩ := @register_ok none ⟨some .newRound, none⟩ startBalance (Tasks.numbers Tasks.seed)
    fun inst member => absurd member (Option.not_mem_none inst)
  obtain ⟨w', second, _⟩ := @register_ok (some w.inst) ⟨some .hit, none⟩ w.balance w.random
    fun inst member => Option.mem_some.mp member ▸ sound
  have dealt : (do
      let w ← register ⟨some .newRound, none⟩ none startBalance (Tasks.numbers Tasks.seed)
      let w' ← register ⟨some .hit, none⟩ (some w.inst) w.balance w.random
      return (w.inst.hand.length, w'.inst.player.length) : Except Fault (Nat × Nat)) = .ok (48, 3) := by
    decide +kernel
  rw [first] at dealt
  simp only [second, bind, Except.bind, pure, Except.pure, Except.ok.injEq, Prod.mk.injEq] at dealt
  have run : Run Step none [(none, ⟨⟨some .newRound, none⟩, startBalance, Tasks.numbers Tasks.seed⟩),
      (some w.inst, ⟨⟨some .hit, none⟩, w.balance, w.random⟩)] (some w'.inst) :=
    .next ⟨w, first, rfl⟩ (.single ⟨w', second, rfl⟩)
  have hand : w.inst.hand ≠ [] := fun none => by simp [none] at dealt
  have lasts : ∀ step ∈ [((none : Option BlackjackInstance),
        (⟨⟨some .newRound, none⟩, startBalance, Tasks.numbers Tasks.seed⟩ : Frame)),
      (some w.inst, ⟨⟨some .hit, none⟩, w.balance, w.random⟩)], ∀ inst ∈ step.1, Lasts step.2.input inst := by
    intro step member inst here
    rcases List.mem_cons.mp member with rfl | member
    · cases here
    · cases List.mem_singleton.mp member
      cases here
      exact ⟨nofun, fun _ _ => ⟨fun _ _ => hand, nofun, nofun⟩⟩
  exact ⟨_, _, run, rfl, lasts, dealt.2, ((cards_apart_iff run).mpr lasts).2 _ rfl⟩

end UmkaOs.Blackjack
