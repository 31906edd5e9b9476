import UmkaOs.Blackjack.Frame
import UmkaOs.Lib.Run

namespace UmkaOs.Blackjack

open Lib

/-- The worlds between the blocks of a frame. Blocks that are not reached leave the
world as it is; `shown` is the world of the settlement block, if the frame comes to it. -/
structure Passage where
  dealt : World
  played : World
  doubled : World
  insured : World
  shown : Option World
  last : World

/-- The frame after the button `New round`. -/
def passageFrom (input : Input) (dealt : World) : Except Fault Passage :=
  let ruled := checkbox input dealt
  if ruled.inst.rules then .ok ⟨dealt, ruled, ruled, ruled, none, ruled⟩
  else if ruled.inst.started then do
    let played ← hitOrStand input ruled
    let doubled ← double input played
    let insured ← insurance input doubled
    let chosen := chooseBet input (forfeit input insured)
    let shown := { chosen with inst := shouldHideDealersCard chosen.inst }
    return ⟨dealt, played, doubled, insured, some shown, settle shown⟩
  else .ok ⟨dealt, ruled, ruled, ruled, none, chooseBet input (forfeit input ruled)⟩

def passage (input : Input) (w : World) : Except Fault Passage := do
  let dealt ← newRound input w
  passageFrom input dealt

variable {w w' dealt last : World} {input : Input} {p : Passage} {drawn : List Card}

theorem insurance_started (run : insurance input w = .ok w') : w'.inst.started = w.inst.started := by
  rcases insurance_cases run with rfl | ⟨_, rfl⟩
  · rfl
  · exact (buyInsurance_same w).started

theorem finish_of_started (started : w.inst.started) : finish input w =
    settle { chooseBet input (forfeit input w) with
      inst := shouldHideDealersCard (chooseBet input (forfeit input w)).inst } := by
  have still : (chooseBet input (forfeit input w)).inst.started = true := by
    rw [((forfeit_same input w).trans (chooseBet_same input _)).started]
    exact started
  unfold finish
  dsimp only
  rw [if_pos still]

theorem frame_of_passage (run : passage input w = .ok p) : frame input w = .ok p.last := by
  obtain ⟨dealt, first, run⟩ := bind_ok run
  unfold passageFrom at run
  dsimp only at run
  split at run
  next rules =>
    cases run
    rw [frame, first]
    dsimp only [bind, Except.bind]
    rw [if_pos rules]
    rfl
  next playing =>
    split at run
    next started =>
      obtain ⟨played, hits, run⟩ := bind_ok run
      obtain ⟨doubled, doubles, run⟩ := bind_ok run
      obtain ⟨insured, insures, run⟩ := bind_ok run
      cases run
      have second : buttons input (checkbox input dealt) = .ok insured := by
        unfold buttons
        rw [if_pos started]
        simp only [hits, doubles, insures, bind, Except.bind]
      have still : insured.inst.started := by
        rw [insurance_started insures, double_started doubles, hitOrStand_started hits]
        exact started
      rw [frame_of_buttons first playing second, finish_of_started still]
    next idle =>
      cases run
      have second : buttons input (checkbox input dealt) = .ok (checkbox input dealt) := by
        unfold buttons
        rw [if_neg idle]
      have still : ¬ (chooseBet input (forfeit input (checkbox input dealt))).inst.started = true := by
        rw [((forfeit_same input _).trans (chooseBet_same input _)).started]
        exact idle
      rw [frame_of_buttons first playing second]
      unfold finish
      dsimp only
      rw [if_neg still]

theorem passage_of_frame (run : frame input w = .ok w') : ∃ p, passage input w = .ok p ∧ p.last = w' := by
  obtain ⟨dealt, first, rest⟩ := frame_cases run
  have whole : ∃ p, passageFrom input dealt = .ok p := by
    unfold passageFrom
    dsimp only
    split
    · exact ⟨_, rfl⟩
    next playing =>
      split
      next started =>
        rcases rest with ⟨rules, _⟩ | ⟨_, bought, second, _⟩
        · exact absurd rules playing
        · unfold buttons at second
          rw [if_pos started] at second
          obtain ⟨played, hits, second⟩ := bind_ok second
          obtain ⟨doubled, doubles, insures⟩ := bind_ok second
          simp only [hits, doubles, insures, bind, Except.bind]
          exact ⟨_, rfl⟩
      · exact ⟨_, rfl⟩
  obtain ⟨p, passes⟩ := whole
  have run' : passage input w = .ok p := by
    rw [passage, first]
    exact passes
  refine ⟨p, run', ?_⟩
  cases (frame_of_passage run').symm.trans run
  rfl

/-- What `New round` and `Double` take in a frame. -/
def staked (step : World × (Input × Passage)) : Int64 :=
  (step.1.balance - step.2.2.dealt.balance) + (step.2.2.played.balance - step.2.2.doubled.balance)

/-- What `Insurance` adds to the balance in a frame, below 0 when it is lost. -/
def insuranceOf (step : World × (Input × Passage)) : Int64 := step.2.2.insured.balance - step.2.2.doubled.balance

/-- What `whoWon` returned, and what was added to the balance. -/
structure Settlement where
  won : Int
  paid : Int64
  deriving DecidableEq

/-- The settlement of a frame, if its block is run. -/
def settlement (step : World × (Input × Passage)) : Option Settlement :=
  step.2.2.shown.bind fun shown =>
    if isGameOver shown.inst ∧ ¬ shown.inst.over then
      some ⟨whoWon shown.inst, step.2.2.last.balance - shown.balance⟩
    else none

def stake (steps : List (World × (Input × Passage))) : Int64 := steps.foldl (fun sum step => sum + staked step) 0

def insured (steps : List (World × (Input × Passage))) : Int64 :=
  steps.foldl (fun sum step => sum + insuranceOf step) 0

def settlements (steps : List (World × (Input × Passage))) : List Settlement := steps.filterMap settlement

/-- A frame of the task. Other tasks may draw random numbers until the next one. -/
def Passes (w : World) (label : Input × Passage) (w' : World) : Prop :=
  passage label.1 w = .ok label.2 ∧ w'.inst = label.2.last.inst ∧ w'.balance = label.2.last.balance

/-- What the settlement of a stake adds. -/
def payout (won : Int) (stake : Int64) : Int64 := if won = 1 then stake * 2 else if won = 0 then stake else 0

@[simp] theorem payout_win (stake : Int64) : payout 1 stake = stake * 2 := rfl

@[simp] theorem payout_draw (stake : Int64) : payout 0 stake = stake := rfl

@[simp] theorem payout_loss (stake : Int64) : payout (-1) stake = 0 := rfl

theorem passes_iff_frame : (∃ p, Passes w (input, p) w') ↔
    ∃ u, frame input w = .ok u ∧ w'.inst = u.inst ∧ w'.balance = u.balance := by
  constructor
  · rintro ⟨p, run, inst, balance⟩
    exact ⟨p.last, frame_of_passage run, inst, balance⟩
  · rintro ⟨u, run, inst, balance⟩
    obtain ⟨p, passes, rfl⟩ := passage_of_frame run
    exact ⟨p, passes, inst, balance⟩

structure SameBet (w w' : World) : Prop where
  balance : w'.balance = w.balance
  bet : w'.inst.bet = w.inst.bet
  «over» : w'.inst.over = w.inst.over

theorem SameBet.refl (w : World) : SameBet w w := ⟨rfl, rfl, rfl⟩

theorem checkbox_bet (input : Input) (w : World) : SameBet w (checkbox input w) := by
  unfold checkbox
  split <;> exact ⟨rfl, rfl, rfl⟩

theorem Deals.bet (deals : Deals w drawn w') : SameBet w w' := by
  obtain ⟨_, _, _, _, _, _, _, _, rfl⟩ := deals
  exact ⟨rfl, rfl, rfl⟩

theorem hitOrStand_bet (run : hitOrStand input w = .ok w') : SameBet w w' := by
  rcases hitOrStand_cases run with ⟨rfl, _⟩ | ⟨_, _, _, deals⟩ | ⟨_, _, _, deals, _⟩
  · exact .refl _
  · exact deals.bet
  · exact deals.bet

/-- `Double` adds to the bet what it takes from the balance. -/
theorem double_bet (run : double input w = .ok w') :
    w'.inst.bet = w.inst.bet + (w.balance - w'.balance) ∧ w'.inst.over = w.inst.over := by
  rcases double_cases run with ⟨rfl, _⟩ | ⟨_, u, _, _, deals, rfl, _⟩
  · exact ⟨by grind, rfl⟩
  · have same := deals.bet
    refine ⟨?_, same.over⟩
    simp only [doubleBet, same.balance, same.bet]
    grind

theorem insurance_bet (run : insurance input w = .ok w') :
    w'.inst.bet = w.inst.bet ∧ w'.inst.over = w.inst.over := by
  rcases insurance_cases run with rfl | ⟨_, rfl⟩
  · exact ⟨rfl, rfl⟩
  · unfold buyInsurance
    dsimp only
    split <;> exact ⟨rfl, rfl⟩

theorem forfeit_bet (input : Input) (w : World) : SameBet w (forfeit input w) := by
  unfold forfeit
  split <;> exact ⟨rfl, rfl, rfl⟩

theorem slider_over (input : Input) (high : ℚ) (inst : BlackjackInstance) :
    (slider input high inst).over = inst.over ∧ (slider input high inst).bet = inst.bet := by
  unfold slider
  split <;> exact ⟨rfl, rfl⟩

/-- While a round is on, the slider does not change its bet. -/
theorem chooseBet_bet (input : Input) (on : ¬ w.inst.over) : SameBet w (chooseBet input w) := by
  unfold chooseBet
  split
  · obtain ⟨same, bet⟩ := slider_over input (highBet w.balance) w.inst
    have kept : takeBet (slider input (highBet w.balance) w.inst) = slider input (highBet w.balance) w.inst := by
      unfold takeBet
      rw [if_neg (by rwa [same])]
    exact ⟨rfl, by rw [kept, bet], by rw [kept, same]⟩
  · exact .refl w

theorem shouldHide_bet (w : World) : SameBet w { w with inst := shouldHideDealersCard w.inst } := by
  unfold shouldHideDealersCard
  dsimp only
  split <;> exact ⟨rfl, rfl, rfl⟩

theorem whoWon_cases (inst : BlackjackInstance) : whoWon inst = 1 ∨ whoWon inst = 0 ∨ whoWon inst = -1 := by
  unfold whoWon
  dsimp only
  split_ifs <;> simp

/-- The settlement block pays for the bet, once. -/
theorem settle_cases (w : World) :
    (¬ (isGameOver w.inst ∧ ¬ w.inst.over) ∧ settle w = w) ∨
      ((isGameOver w.inst ∧ ¬ w.inst.over) ∧ (settle w).inst.over ∧ isGameOver (settle w).inst ∧
        (settle w).balance = w.balance + payout (whoWon w.inst) w.inst.bet) := by
  by_cases ends : isGameOver w.inst ∧ ¬ w.inst.over
  · refine .inr ⟨ends, ?_⟩
    unfold settle payout
    rw [if_pos ends]
    refine ⟨rfl, ends.1, ?_⟩
    dsimp only
    rcases whoWon_cases w.inst with won | won | won
    · simp [won]
    · simp [won]
    · simp [won]
  · refine .inl ⟨ends, ?_⟩
    unfold settle
    rw [if_neg ends]

/-- The round is still open, with its bet. -/
structure Open (w : World) (bet balance : Int64) : Prop where
  on : ¬ w.inst.over
  bet : w.inst.bet = bet
  balance : w.balance = balance

/-- The round is settled, and stays over. -/
structure Done (w : World) : Prop where
  «over» : w.inst.over
  ended : isGameOver w.inst

theorem SameBet.isOpen {bet balance : Int64} (same : SameBet w w') (before : Open w bet balance) :
    Open w' bet balance :=
  ⟨by rw [same.over]; exact before.on, same.bet.trans before.bet, same.balance.trans before.balance⟩

/-- Blocks that are not reached take nothing. -/
theorem Open.idle {bet balance : Int64} (before : Open w bet balance) (x : Int64) :
    Open w (bet + (x - x)) (balance - (x - x) + (x - x)) := by
  have nothing : bet + (x - x) = bet ∧ balance - (x - x) + (x - x) = balance := by grind
  rw [nothing.1, nothing.2]
  exact before

/-- The buttons `Double` and `Insurance` of an open round. -/
theorem Open.bought {bet balance : Int64} {played doubled insured : World} (before : Open played bet balance)
    (doubles : double input played = .ok doubled) (insures : insurance input doubled = .ok insured) :
    Open insured (bet + (played.balance - doubled.balance))
      (balance - (played.balance - doubled.balance) + (insured.balance - doubled.balance)) := by
  obtain ⟨doubledBet, doubledOver⟩ := double_bet doubles
  obtain ⟨insuredBet, insuredOver⟩ := insurance_bet insures
  refine ⟨?_, ?_, ?_⟩
  · rw [insuredOver, doubledOver]
    exact before.on
  · rw [insuredBet, doubledBet, before.bet]
  · rw [before.balance]
    grind

theorem Open.shown {bet balance : Int64} (before : Open w bet balance) (input : Input) :
    Open { chooseBet input (forfeit input w) with
      inst := shouldHideDealersCard (chooseBet input (forfeit input w)).inst } bet balance := by
  have forfeited := (forfeit_bet input w).isOpen before
  have chosen := (chooseBet_bet input forfeited.on).isOpen forfeited
  exact (shouldHide_bet _).isOpen chosen

/-- What a frame does to an open round: it takes for `Double` what it adds to the bet,
and it settles the round or leaves it open. -/
theorem passageFrom_open {bet balance : Int64} (run : passageFrom input dealt = .ok p)
    (before : Open dealt bet balance) :
    p.dealt = dealt ∧
      ((settlement (w, (input, p)) = none ∧
          Open p.last (bet + (p.played.balance - p.doubled.balance))
            (balance - (p.played.balance - p.doubled.balance) + (p.insured.balance - p.doubled.balance))) ∨
        ∃ s, settlement (w, (input, p)) = some s ∧ Done p.last ∧
          s.paid = payout s.won (bet + (p.played.balance - p.doubled.balance)) ∧
          (s.won = 1 ∨ s.won = 0 ∨ s.won = -1) ∧
          p.last.balance = balance - (p.played.balance - p.doubled.balance) +
            (p.insured.balance - p.doubled.balance) + s.paid) := by
  have ruled := (checkbox_bet input dealt).isOpen before
  unfold passageFrom at run
  dsimp only at run
  split at run
  · cases run
    exact ⟨rfl, .inl ⟨rfl, ruled.idle _⟩⟩
  · split at run
    · obtain ⟨played, hits, run⟩ := bind_ok run
      obtain ⟨doubled, doubles, run⟩ := bind_ok run
      obtain ⟨insured, insures, run⟩ := bind_ok run
      cases run
      refine ⟨rfl, ?_⟩
      have shown := (((hitOrStand_bet hits).isOpen ruled).bought doubles insures).shown input
      rcases settle_cases { chooseBet input (forfeit input insured) with
        inst := shouldHideDealersCard (chooseBet input (forfeit input insured)).inst } with
          ⟨goesOn, same⟩ | ⟨ends, done, ended, paid⟩
      · refine .inl ⟨if_neg goesOn, ?_⟩
        rw [same]
        exact shown
      · refine .inr ⟨_, if_pos ends, ⟨done, ended⟩, ?_, whoWon_cases _, ?_⟩
        · rw [paid, ← shown.bet]
          grind
        · rw [paid, shown.balance]
          grind
    · cases run
      have forfeited := (forfeit_bet input _).isOpen ruled
      have chosen := (chooseBet_bet input forfeited.on).isOpen forfeited
      exact ⟨rfl, .inl ⟨rfl, chosen.idle _⟩⟩

theorem checkbox_done (input : Input) (done : Done w) : Done (checkbox input w) := by
  unfold checkbox
  split
  · exact ⟨done.over, done.ended⟩
  · exact done

theorem hitOrStand_ended (ended : isGameOver w.inst) : hitOrStand input w = .ok w := if_pos ended

theorem double_ended (ended : isGameOver w.inst) : double input w = .ok w := if_neg fun playing => playing.1 ended

theorem insurance_ended (ended : isGameOver w.inst) (run : insurance input w = .ok w') : w' = w := by
  rcases insurance_cases run with same | ⟨playing, _⟩
  · exact same
  · exact absurd ended playing

theorem forfeit_ended (input : Input) (ended : isGameOver w.inst) : forfeit input w = w :=
  if_neg fun playing => playing.2 ended

theorem takeBet_done {inst : BlackjackInstance} (done : inst.over ∧ isGameOver inst) :
    (takeBet inst).over ∧ isGameOver (takeBet inst) := by
  unfold takeBet
  split <;> exact done

/-- A new bet may be chosen, for the next round. -/
theorem chooseBet_done (input : Input) (done : Done w) :
    Done (chooseBet input w) ∧ (chooseBet input w).balance = w.balance := by
  unfold chooseBet
  split
  · have slid : (slider input (highBet w.balance) w.inst).over ∧
        isGameOver (slider input (highBet w.balance) w.inst) := by
      unfold slider
      split <;> exact ⟨done.over, done.ended⟩
    obtain ⟨finished, ended⟩ := takeBet_done slid
    exact ⟨⟨finished, ended⟩, rfl⟩
  · exact ⟨done, rfl⟩

theorem shouldHide_done (done : Done w) : Done { w with inst := shouldHideDealersCard w.inst } := by
  unfold shouldHideDealersCard
  dsimp only
  split
  · exact ⟨done.over, done.ended.imp_right (Or.imp_right (Or.imp_right fun dealer => ⟨rfl, dealer.2⟩))⟩
  · exact done

/-- Without a new round, nothing more is taken and nothing is paid. -/
theorem passageFrom_done (run : passageFrom input dealt = .ok p) (done : Done dealt) :
    p.dealt = dealt ∧ settlement (w, (input, p)) = none ∧ Done p.last ∧ p.last.balance = dealt.balance ∧
      p.played.balance = p.doubled.balance ∧ p.insured.balance = p.doubled.balance := by
  have ruled := checkbox_done input done
  have balance := (checkbox_bet input dealt).balance
  unfold passageFrom at run
  dsimp only at run
  split at run
  · cases run
    exact ⟨rfl, rfl, ruled, balance, rfl, rfl⟩
  · split at run
    · rw [hitOrStand_ended ruled.ended] at run
      dsimp only [bind, Except.bind] at run
      rw [double_ended ruled.ended] at run
      obtain ⟨insured, insures, run⟩ := bind_ok run
      cases insurance_ended ruled.ended insures
      rw [forfeit_ended input ruled.ended] at run
      cases run
      obtain ⟨chosen, same⟩ := chooseBet_done input ruled
      have shown := shouldHide_done chosen
      have unpaid : ¬ (isGameOver (shouldHideDealersCard (chooseBet input (checkbox input dealt)).inst) ∧
          ¬ (shouldHideDealersCard (chooseBet input (checkbox input dealt)).inst).over) :=
        fun ends => ends.2 shown.over
      have kept : settle { chooseBet input (checkbox input dealt) with
          inst := shouldHideDealersCard (chooseBet input (checkbox input dealt)).inst } =
          { chooseBet input (checkbox input dealt) with
            inst := shouldHideDealersCard (chooseBet input (checkbox input dealt)).inst } := if_neg unpaid
      dsimp only
      rw [kept]
      exact ⟨rfl, if_neg unpaid, shown, same.trans balance, rfl, rfl⟩
    · cases run
      rw [forfeit_ended input ruled.ended]
      obtain ⟨chosen, same⟩ := chooseBet_done input ruled
      exact ⟨rfl, rfl, chosen, same.trans balance, rfl, rfl⟩

variable {steps past : List (World × (Input × Passage))} {opening : Input × Passage} {w0 : World}

theorem stake_concat (past : List (World × (Input × Passage))) (step : World × (Input × Passage)) :
    stake (past ++ [step]) = stake past + staked step := by
  rw [stake, List.foldl_concat]
  rfl

theorem insured_concat (past : List (World × (Input × Passage))) (step : World × (Input × Passage)) :
    insured (past ++ [step]) = insured past + insuranceOf step := by
  rw [insured, List.foldl_concat]
  rfl

theorem settlements_concat (past : List (World × (Input × Passage))) (step : World × (Input × Passage)) :
    settlements (past ++ [step]) = settlements past ++ (settlement step).toList := by
  rw [settlements, List.filterMap_append]
  cases found : settlement step <;> simp [found, settlements]

/-- A round as far as it has gone: open with its stake as the bet, or settled for it. -/
inductive Round (w0 : World) (past : List (World × (Input × Passage))) (w : World) : Prop
  | isOpen (before : Open w (stake past) (w0.balance - stake past + insured past)) (none : settlements past = [])
  | settled (s : Settlement) (done : Done w) (once : settlements past = [s]) (paid : s.paid = payout s.won (stake past))
      (won : s.won = 1 ∨ s.won = 0 ∨ s.won = -1) (balance : w.balance = w0.balance - stake past + insured past + s.paid)

theorem Round.congr (round : Round w0 past w) (inst : w'.inst = w.inst) (balance : w'.balance = w.balance) :
    Round w0 past w' := by
  cases round with
  | isOpen before none =>
    refine .isOpen ⟨?_, ?_, balance.trans before.balance⟩ none
    · rw [inst]
      exact before.on
    · rw [inst]
      exact before.bet
  | settled s done once paid won total =>
    refine .settled s ⟨?_, ?_⟩ once paid won (balance.trans total)
    · rw [inst]
      exact done.over
    · rw [inst]
      exact done.ended

/-- A frame of an open round, after whatever the button `New round` took. -/
theorem Round.next {input : Input} {total balance : Int64} (before : Open dealt total balance)
    (run : passageFrom input dealt = .ok p) (none : settlements past = [])
    (taken : total = stake past + (w.balance - dealt.balance))
    (left : balance = w0.balance - total + insured past) : Round w0 (past ++ [(w, (input, p))]) p.last := by
  obtain ⟨same, cases⟩ := @passageFrom_open w dealt input p total balance run before
  have staked' : stake (past ++ [(w, (input, p))]) = total + (p.played.balance - p.doubled.balance) := by
    rw [stake_concat, staked, same, taken]
    grind
  have insured' : insured (past ++ [(w, (input, p))]) = insured past + (p.insured.balance - p.doubled.balance) := by
    rw [insured_concat, insuranceOf]
  rcases cases with ⟨unpaid, after⟩ | ⟨s, settled, done, paid, won, after⟩
  · refine .isOpen ⟨after.on, ?_, ?_⟩ ?_
    · rw [after.bet, staked']
    · rw [after.balance, staked', insured', left]
      grind
    · rw [settlements_concat, none, unpaid]
      rfl
  · refine .settled s done ?_ ?_ won ?_
    · rw [settlements_concat, none, settled]
      rfl
    · rw [paid, staked']
    · rw [after, staked', insured', left]
      grind

/-- A frame without a new round keeps the account of the round. -/
theorem Round.step {label : Input × Passage} (round : Round w0 past w) (same : label.1.press ≠ some .newRound)
    (step : Passes w label w') : Round w0 (past ++ [(w, label)]) w' := by
  obtain ⟨run, inst, balance⟩ := step
  obtain ⟨dealt, first, run⟩ := bind_ok run
  rw [newRound, if_neg same] at first
  cases first
  apply Round.congr _ inst balance
  cases round with
  | isOpen before none => exact .next before run none (by grind) rfl
  | settled s done once paid won total =>
    obtain ⟨dealt, unpaid, after, kept, undoubled, uninsured⟩ := @passageFrom_done w w label.1 label.2 run done
    have nothing : settlement (w, label) = none := unpaid
    have staked' : stake (past ++ [(w, label)]) = stake past := by
      rw [stake_concat, staked, dealt, undoubled]
      grind
    have insured' : insured (past ++ [(w, label)]) = insured past := by
      rw [insured_concat, insuranceOf, uninsured]
      grind
    refine .settled s after ?_ ?_ won ?_
    · rw [settlements_concat, once, nothing]
      rfl
    · rw [staked']
      exact paid
    · rw [kept, staked', insured']
      exact total

theorem Round.start (pressed : opening.1.press = some .newRound) (step : Passes w opening w') :
    Round w [(w, opening)] w' := by
  obtain ⟨run, inst, balance⟩ := step
  obtain ⟨dealt, first, run⟩ := bind_ok run
  rw [newRound, if_pos pressed] at first
  obtain ⟨drawn, _, deals, _⟩ := startRound_cases first
  have opened' : Open (opened w) (opened w).inst.bet (w.balance - (opened w).inst.bet) :=
    ⟨Bool.false_ne_true, rfl, rfl⟩
  have before := deals.bet.isOpen opened'
  apply Round.congr _ inst balance
  refine @Round.next _ _ _ [] w opening.1 _ _ before run rfl ?_ ?_
  · rw [before.balance, stake, List.foldl_nil]
    grind
  · rw [insured, List.foldl_nil]
    grind

theorem Round.of_run (run : Run Passes w ((w, opening) :: steps) last) (pressed : opening.1.press = some .newRound)
    (same : ∀ step ∈ steps, step.2.1.press ≠ some .newRound) : Round w ((w, opening) :: steps) last := by
  cases run with
  | next first later =>
    exact @Run.history_of _ _ _ _ _ _ (fun u past => Round w past u) (fun step => step.2.1.press ≠ some .newRound)
      (fun round other step => round.step other step) later same [(w, opening)] (Round.start pressed first)

/-- Between two new rounds at most one settlement is paid, and when it is, then for the
stake of the round: the balance has changed by plus the stake, 0 or minus the stake,
apart from the insurance. -/
theorem round_settled_once (run : Run Passes w ((w, opening) :: steps) last)
    (pressed : opening.1.press = some .newRound)
    (same : ∀ step ∈ steps, step.2.1.press ≠ some .newRound) :
    (settlements ((w, opening) :: steps)).length ≤ 1 ∧ ∀ s ∈ settlements ((w, opening) :: steps),
      (s.won = 1 ∧ s.paid = 2 * stake ((w, opening) :: steps) ∧
          last.balance - insured ((w, opening) :: steps) = w.balance + stake ((w, opening) :: steps)) ∨
        (s.won = 0 ∧ s.paid = stake ((w, opening) :: steps) ∧
          last.balance - insured ((w, opening) :: steps) = w.balance) ∨
        (s.won = -1 ∧ s.paid = 0 ∧
          last.balance - insured ((w, opening) :: steps) = w.balance - stake ((w, opening) :: steps)) := by
  have round := Round.of_run run pressed same
  generalize (w, opening) :: steps = frames at round ⊢
  cases round with
  | isOpen _ none =>
    rw [none]
    exact ⟨Nat.zero_le 1, List.forall_mem_nil _⟩
  | settled s _ once paid won balance =>
    rw [once, List.length_singleton]
    refine ⟨Nat.le_refl 1, fun s' member => ?_⟩
    cases List.mem_singleton.mp member
    rw [balance, paid]
    rcases won with won | won | won
    · refine .inl ⟨won, ?_, ?_⟩
      · rw [won, payout_win]
        grind
      · rw [won, payout_win]
        grind
    · refine .inr (.inl ⟨won, ?_, ?_⟩)
      · rw [won, payout_draw]
      · rw [won, payout_draw]
        grind
    · refine .inr (.inr ⟨won, ?_, ?_⟩)
      · rw [won, payout_loss]
      · rw [won, payout_loss]
        grind

/-- A bet of 5 that is doubled, and lost. -/
theorem round_settled_once_doubled : ∃ w steps last, Run Passes w steps last ∧ w.balance = 1000 ∧
    (settlements steps).map Settlement.won = [-1] ∧ stake steps = 10 ∧ last.balance = 990 := by
  let w : World := ⟨{ newInstance generateDeck with bet := 5 }, 1000, fun _ => 0⟩
  let first : Input := ⟨some .newRound, none⟩
  let second : Input := ⟨some .double, none⟩
  have computed : ((passage first w).bind fun p => (passage second p.last).bind fun q =>
      .ok (decide ((settlements [(w, (first, p)), (p.last, (second, q))]).map Settlement.won = [-1] ∧
        stake [(w, (first, p)), (p.last, (second, q))] = 10 ∧
        insured [(w, (first, p)), (p.last, (second, q))] = 0))) = .ok true := by decide +kernel
  obtain ⟨p, opens, computed⟩ := bind_ok computed
  obtain ⟨q, doubles, computed⟩ := bind_ok computed
  obtain ⟨lost, ten, uninsured⟩ := of_decide_eq_true (Except.ok.inj computed)
  have run : Run Passes w [(w, (first, p)), (p.last, (second, q))] q.last :=
    .next ⟨opens, rfl, rfl⟩ (.single ⟨doubles, rfl, rfl⟩)
  have other : second.press ≠ some .newRound := by decide
  obtain ⟨_, settled⟩ := round_settled_once run rfl (List.forall_mem_singleton.mpr other)
  refine ⟨w, _, q.last, run, rfl, lost, ten, ?_⟩
  have listed : -1 ∈ (settlements [(w, (first, p)), (p.last, (second, q))]).map Settlement.won := by
    rw [lost]
    exact List.mem_singleton_self _
  obtain ⟨s, member, won⟩ := List.mem_map.mp listed
  rcases settled s member with ⟨other, _⟩ | ⟨other, _⟩ | ⟨_, _, balance⟩
  · cases won.symm.trans other
  · cases won.symm.trans other
  · rw [ten, uninsured] at balance
    grind

end UmkaOs.Blackjack
