import UmkaOs.Tasks.Random
import Mathlib.Data.Rat.Floor

/-! The Blackjack task of `user/blackjack.um`: the cards, the values of a hand,
a round and the frame that `register` installs. The hands hold pointers into the
deck of the instance, which is not written after its creation; they are the cards
themselves here. -/

namespace UmkaOs.Blackjack

inductive Suit
  | hearts
  | diamonds
  | clubs
  | spades
  deriving DecidableEq

inductive Value
  | ace
  | two
  | three
  | four
  | five
  | six
  | seven
  | eight
  | nine
  | ten
  | jack
  | queen
  | king
  deriving DecidableEq

structure Card where
  suit : Suit
  value : Value
  deriving DecidableEq

structure BlackjackInstance where
  firsthit : Bool
  insured : Bool
  «over» : Bool
  forfeited : Bool
  betReal : ℚ
  bet : Int64
  rules : Bool
  reveal : Bool
  started : Bool
  deck : List Card
  dealer : List Card
  player : List Card
  hand : List Card
  stash : List Card

/-- The numbers that `tasks::rand` is going to return. -/
abbrev Random := Nat → UInt64

/-- `tasks::rand`, and the numbers after it. -/
def rand (random : Random) : UInt64 × Random := (random 0, fun n => random (n + 1))

/-- The numbers of `tasks.um` are such a sequence. -/
theorem rand_numbers (seed : UInt64) :
    rand (Tasks.numbers seed) = ((Tasks.rand seed).1, Tasks.numbers (Tasks.rand seed).2) := by
  have seeds (n : Nat) : Tasks.seedAfter seed (n + 1) = Tasks.seedAfter (Tasks.rand seed).2 n := by
    induction n with
    | zero => rfl
    | succ n ih => rw [Tasks.seedAfter, ih, Tasks.seedAfter]
  simp only [rand, Tasks.numbers, seeds]
  rfl

/-- The instance of a task with the globals that its frames use. -/
structure World where
  inst : BlackjackInstance
  balance : Int64
  random : Random

inductive Fault
  /-- An index that is not inside its array. -/
  | index
  /-- A call that did not return within its fuel. -/
  | diverges
  deriving DecidableEq

def suits : List Suit := [.hearts, .diamonds, .clubs, .spades]

def values : List Value :=
  [.ace, .two, .three, .four, .five, .six, .seven, .eight, .nine, .ten, .jack, .queen, .king]

def generateDeck : List Card := suits.flatMap fun suit => values.map fun value => ⟨suit, value⟩

/-- `deck[i], deck[j] = deck[j], deck[i]` -/
def swap (deck : List Card) (i j : Nat) : Except Fault (List Card) :=
  match deck[i]?, deck[j]? with
  | some a, some b => .ok ((deck.set i b).set j a)
  | _, _ => .error .index

/-- The loop of `shuffleDeck` from index `i` on, with `turns` to go. -/
def shuffleFrom : Nat → Nat → List Card → Random → Except Fault (List Card × Random)
  | 0, _, deck, random => .ok (deck, random)
  | turns + 1, i, deck, random => do
    let (number, random) := rand random
    let deck ← swap deck i (number.toNat % deck.length)
    shuffleFrom turns (i + 1) deck random

def shuffleDeck (deck : List Card) (random : Random) : Except Fault (List Card × Random) :=
  shuffleFrom deck.length 0 deck random

/-- What the first loop of `getValues` adds for a card. -/
def plainValue : Value → Nat
  | .ace => 0
  | .two => 2
  | .three => 3
  | .four => 4
  | .five => 5
  | .six => 6
  | .seven => 7
  | .eight => 8
  | .nine => 9
  | .ten => 10
  | .jack => 10
  | .queen => 10
  | .king => 10

/-- The first loop of `getValues`. -/
def plainValues : List Card → List Nat → Nat → List Nat × Nat
  | [], values, sum => (values, sum)
  | card :: cards, values, sum =>
    let start := sum
    let sum := sum + plainValue card.value
    plainValues cards (values ++ [sum - start]) sum

/-- What the second loop of `getValues` makes of an ace. -/
def aceValue (sum : Nat) : Nat :=
  if sum = 10 then 11 else if sum + 10 ≤ 21 then 10 else 1

/-- The second loop of `getValues` from index `i` on. The first loop has made a value
for every card, so the index is inside. -/
def aceValues : List Card → Nat → List Nat → Nat → List Nat × Nat
  | [], _, values, sum => (values, sum)
  | card :: cards, i, values, sum =>
    if card.value = .ace then aceValues cards (i + 1) (values.set i (aceValue sum)) (sum + aceValue sum)
    else aceValues cards (i + 1) values sum

def getValues (cards : List Card) : List Nat × Nat :=
  let (values, sum) := plainValues cards [] 0
  aceValues cards 0 values sum

/-- What `drawCard` does when the hand is empty. -/
def refill (w : World) : Except Fault World :=
  if w.inst.hand.length = 0 then do
    let (hand, random) ← shuffleDeck w.inst.stash w.random
    return { w with inst := { w.inst with hand, stash := [] }, random }
  else .ok w

def drawCard (w : World) : Except Fault (Card × World) := do
  let w ← refill w
  match w.inst.hand with
  | [] => .error .index
  | card :: hand => .ok (card, { w with inst := { w.inst with hand, stash := w.inst.stash ++ [card] } })

/-- `drawCard`, with the card given to someone. -/
def drawFor (give : BlackjackInstance → Card → BlackjackInstance) (w : World) : Except Fault World := do
  let (card, w) ← drawCard w
  return { w with inst := give w.inst card }

def withDealer (inst : BlackjackInstance) (card : Card) : BlackjackInstance :=
  { inst with dealer := inst.dealer ++ [card] }

def withPlayer (inst : BlackjackInstance) (card : Card) : BlackjackInstance :=
  { inst with player := inst.player ++ [card] }

/-- `inst.dealer = append(inst.dealer, drawCard(inst))` -/
def drawDealer (w : World) : Except Fault World := drawFor withDealer w

/-- `inst.player = append(inst.player, drawCard(inst))` -/
def drawPlayer (w : World) : Except Fault World := drawFor withPlayer w

/-- The instance that `drawRound` deals to. -/
def clearRound (inst : BlackjackInstance) : BlackjackInstance :=
  { inst with firsthit := true, insured := false, «over» := false, reveal := false, forfeited := false,
              dealer := [], player := [] }

def drawRound (w : World) : Except Fault World := do
  let w := { w with inst := clearRound w.inst }
  let w ← drawDealer w
  let w ← drawPlayer w
  let w ← drawDealer w
  drawPlayer w

/-- The instance after `shouldHideDealersCard`. -/
def shouldHideDealersCard (inst : BlackjackInstance) : BlackjackInstance :=
  let dealerSum := (getValues inst.dealer).2
  let playerSum := (getValues inst.player).2
  if dealerSum > 21 ∨ playerSum ≥ 21 ∨ inst.forfeited then { inst with reveal := true } else inst

def isGameOver (inst : BlackjackInstance) : Prop :=
  inst.forfeited ∨ (getValues inst.player).2 ≥ 21 ∨ (getValues inst.dealer).2 > 21 ∨
    (inst.reveal ∧ (getValues inst.dealer).2 ≥ 17)

instance : DecidablePred isGameOver := fun inst =>
  inferInstanceAs (Decidable (inst.forfeited ∨ (getValues inst.player).2 ≥ 21 ∨ (getValues inst.dealer).2 > 21 ∨
    (inst.reveal ∧ (getValues inst.dealer).2 ≥ 17)))

def determineStatus (inst : BlackjackInstance) : String :=
  let dealerSum := (getValues inst.dealer).2
  let playerSum := (getValues inst.player).2
  if inst.forfeited then "Player forfeited"
  else if ¬ inst.reveal then "Awaiting action"
  else if playerSum = dealerSum then "Draw"
  else if playerSum > 21 then "Player bust"
  else if dealerSum > 21 then "Dealer bust"
  else if playerSum = 21 ∧ inst.player.length = 2 then "Player blackjack"
  else if dealerSum = 21 ∧ inst.dealer.length = 2 then "Dealer blackjack"
  else if isGameOver inst ∧ playerSum > dealerSum then "Player win"
  else if isGameOver inst ∧ dealerSum > playerSum then "Dealer win"
  else "Awaiting action"

/-- `stand`, with fuel for the calls that are nested in each other. -/
def stand : Nat → World → Except Fault World
  | 0, _ => .error .diverges
  | fuel + 1, w =>
    let w := { w with inst := { w.inst with reveal := true } }
    if (getValues w.inst.dealer).2 < 17 then do
      let w ← drawDealer w
      stand fuel w
    else .ok w

def hit (w : World) : Except Fault World := drawPlayer w

def whoWon (inst : BlackjackInstance) : Int :=
  let dealerSum := (getValues inst.dealer).2
  let playerSum := (getValues inst.player).2
  if inst.forfeited then -1
  else if playerSum = dealerSum then 0
  else if playerSum > 21 then -1
  else if dealerSum > 21 then 1
  else if playerSum = 21 then 1
  else if dealerSum = 21 then -1
  else if playerSum > dealerSum then 1
  else if dealerSum > playerSum then -1
  else 0

/-- What can be clicked. -/
inductive Press
  | newRound
  | rules
  | hit
  | stand
  | double
  | insurance
  | forfeit
  deriving DecidableEq

/-- The clicked control of a frame, and the value that the slider has before it is
clamped: none while its number is edited as a text. -/
structure Input where
  press : Option Press
  slide : Option ℚ
  deriving DecidableEq

/-- Fuel that is enough for `stand`. -/
def standFuel : Nat := 18

/-- `BlackjackInstance{deck: generateDeck(), over: true}`, with its hand. -/
def newInstance (hand : List Card) : BlackjackInstance where
  firsthit := false
  insured := false
  «over» := true
  forfeited := false
  betReal := 0
  bet := 0
  rules := false
  reveal := false
  started := false
  deck := generateDeck
  dealer := []
  player := []
  hand := hand
  stash := []

/-- The instance that the first frame makes. -/
def create (random : Random) : Except Fault (BlackjackInstance × Random) := do
  let (hand, random) ← shuffleDeck generateDeck random
  return (newInstance hand, random)

def startRound (w : World) : Except Fault World :=
  let inst := if w.balance < 0 ∧ w.inst.bet > 5 then { w.inst with bet := 5 } else w.inst
  let inst := { inst with rules := false, started := true }
  drawRound { w with inst, balance := w.balance - inst.bet }

/-- The button `New round`. -/
def newRound (input : Input) (w : World) : Except Fault World :=
  if input.press = some .newRound then startRound w else .ok w

/-- The checkbox `Rules`. -/
def checkbox (input : Input) (w : World) : World :=
  if input.press = some .rules then { w with inst := { w.inst with rules := !w.inst.rules } } else w

/-- `inst.firsthit = false` -/
def afterFirst (w : World) : World := { w with inst := { w.inst with firsthit := false } }

def hitButton (input : Input) (w : World) : Except Fault World :=
  if input.press = some .hit then hit (afterFirst w) else .ok w

def standButton (input : Input) (w : World) : Except Fault World :=
  if input.press = some .stand then stand standFuel (afterFirst w) else .ok w

/-- The buttons `Hit` and `Stand`. -/
def hitOrStand (input : Input) (w : World) : Except Fault World :=
  if isGameOver w.inst then .ok w
  else do
    let w ← hitButton input w
    standButton input w

def doubleBet (w : World) : World :=
  { w with balance := w.balance - w.inst.bet, inst := { w.inst with bet := w.inst.bet * 2 } }

/-- The button `Double`. -/
def double (input : Input) (w : World) : Except Fault World :=
  if ¬ isGameOver w.inst ∧ w.inst.firsthit ∧ input.press = some .double then do
    let w ← hit w
    let w := doubleBet w
    if isGameOver w.inst then .ok w else stand standFuel w
  else .ok w

def buyInsurance (w : World) : World :=
  let w := { w with balance := w.balance - w.inst.bet / 2 }
  let w := if (getValues w.inst.dealer).2 = 21 then
      { w with inst := { w.inst with reveal := true }, balance := w.balance + w.inst.bet }
    else w
  { w with inst := { w.inst with insured := true } }

/-- The button `Insurance`. -/
def insurance (input : Input) (w : World) : Except Fault World :=
  match w.inst.dealer with
  | [] => .error .index
  | first :: _ =>
    if first.value = .ace ∧ ¬ isGameOver w.inst ∧ ¬ w.inst.insured ∧ input.press = some .insurance then
      .ok (buyInsurance w)
    else .ok w

/-- The button `Forfeit`. -/
def forfeit (input : Input) (w : World) : World :=
  if input.press = some .forfeit ∧ ¬ isGameOver w.inst then { w with inst := { w.inst with forfeited := true } } else w

def clamp (x a b : ℚ) : ℚ := if x < a then a else if x > b then b else x

def trunc (x : ℚ) : Int64 := Int64.ofInt (if x < 0 then ⌈x⌉ else ⌊x⌋)

/-- The slider of the bet, from 5 to `high`. -/
def slider (input : Input) (high : ℚ) (inst : BlackjackInstance) : BlackjackInstance :=
  match input.slide with
  | none => inst
  | some v => { inst with betReal := clamp v 5 high }

/-- The end of the slider. -/
def highBet (balance : Int64) : ℚ := if balance < 10 then 10 else balance.toInt

/-- The bet is the number of the slider, unless a round is on. -/
def takeBet (inst : BlackjackInstance) : BlackjackInstance :=
  if inst.over then { inst with bet := trunc inst.betReal } else inst

def chooseBet (input : Input) (w : World) : World :=
  if ¬ w.inst.started ∨ isGameOver w.inst then
    { w with inst := takeBet (slider input (highBet w.balance) w.inst) }
  else w

def settle (w : World) : World :=
  if isGameOver w.inst ∧ ¬ w.inst.over then
    let balance := if whoWon w.inst = 1 then w.balance + w.inst.bet * 2
      else if whoWon w.inst = -1 then w.balance
      else if whoWon w.inst = 0 then w.balance + w.inst.bet
      else w.balance
    { w with balance, inst := { w.inst with «over» := true } }
  else w

/-- The buttons of a round. -/
def buttons (input : Input) (w : World) : Except Fault World :=
  if w.inst.started then do
    let w ← hitOrStand input w
    let w ← double input w
    insurance input w
  else .ok w

/-- A frame of a task that has its instance. What is drawn is left out: once the first
card of the dealer is there, its indices are inside their arrays. -/
def frame (input : Input) (w : World) : Except Fault World := do
  let w ← newRound input w
  let w := checkbox input w
  if w.inst.rules then return w
  let w ← buttons input w
  let w := chooseBet input (forfeit input w)
  if ¬ w.inst.started then return w
  return settle { w with inst := shouldHideDealersCard w.inst }

/-- The instance of the task. -/
def instanceOf (data : Option BlackjackInstance) (random : Random) : Except Fault (BlackjackInstance × Random) :=
  match data with
  | none => create random
  | some inst => .ok (inst, random)

/-- A frame of the task: the first one makes the instance. -/
def register (input : Input) (data : Option BlackjackInstance) (balance : Int64) (random : Random) :
    Except Fault World := do
  let (inst, random) ← instanceOf data random
  frame input { inst, balance, random }

/-- `balance := 1000` -/
def startBalance : Int64 := 1000

end UmkaOs.Blackjack
