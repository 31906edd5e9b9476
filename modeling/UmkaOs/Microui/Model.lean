import UmkaOs.Input.Model
import UmkaOs.Lib.Quicksort
import UmkaOs.Machine
import Mathlib.Data.List.FinRange

/-! The windows of `user/microui.um`: the pool in which containers are retained, the
command list with its jumps, and a frame from `begin` to `end`. An `int` that counts
pixels is a number, and a pointer to a container is its index. -/

namespace UmkaOs.Microui

open Input

abbrev Id := UInt64

structure Rect where
  x : Int
  y : Int
  w : Int
  h : Int
  deriving DecidableEq

def Rect.overlaps (r : Rect) (p : Vec2) : Prop := p.x ≥ r.x ∧ p.x < r.x + r.w ∧ p.y ≥ r.y ∧ p.y < r.y + r.h

instance (r : Rect) (p : Vec2) : Decidable (r.overlaps p) :=
  inferInstanceAs (Decidable (p.x ≥ r.x ∧ p.x < r.x + r.w ∧ p.y ≥ r.y ∧ p.y < r.y + r.h))

structure Color where
  r : UInt8
  g : UInt8
  b : UInt8
  a : UInt8
  deriving DecidableEq

inductive Icon where
  | none | close | check | collapsed | expanded | max
  deriving DecidableEq

inductive Cursor where
  | none | arrow | hand | size | iBeam
  deriving DecidableEq

deriving instance DecidableEq for Vec2

/-- The commands that `nextCommand` returns. The font is always null. -/
inductive Draw where
  | clip (rect : Rect)
  | rect (rect : Rect) (color : Color)
  | text (pos : Vec2) (color : Color) (text : List UInt8)
  | icon (rect : Rect) (id : Icon) (color : Color)
  | cursor (id : Cursor)
  deriving DecidableEq

inductive Command where
  | jump (dst : Nat)
  | draw (d : Draw)

/-- The callbacks of `user.um` for the width and the height of a text. -/
def textWidth (text : List UInt8) : Int := text.length * 8

def textHeight : Int := 8

/-- `-1` as the destination of a jump. -/
def unset : Nat := 2 ^ 64 - 1

/-- A set of bits of `Option`. -/
abbrev Options := BitVec 64

def Options.closed : Options := 1 <<< 11

def Options.has (o opt : Options) : Bool := o &&& opt ≠ 0

/-- What the client of a container may change. -/
structure Shape where
  rect : Rect
  body : Rect
  contentSize : Vec2
  scroll : Vec2
  isOpen : Bool

structure Container extends Shape where
  head : Nat
  tail : Nat
  zindex : Int

structure PoolItem where
  id : Id
  lastUpdate : Nat

/-- `RETAINEDPOOL_SIZE` -/
abbrev poolSize : Nat := 48

/-- A pointer into `containers`. -/
abbrev Ref := Fin poolSize

abbrev Pool := Ref → PoolItem

/-- `ROOTLIST_SIZE` and `CONTAINERSTACK_SIZE` -/
def stackSize : Nat := 32

structure Context extends Input.Context where
  frame : Nat
  lastZIndex : Int
  hoverRoot : Option Ref
  nextHoverRoot : Option Ref
  commandList : List Command
  rootList : List Ref
  /-- The top is the first element. -/
  containerStack : List Ref
  containerPool : Pool
  containers : Ref → Container

/-- The loop over the items; none is `-1`. -/
def poolGet (items : Pool) (id : Id) : Option Ref := (List.finRange poolSize).find? fun i => (items i).id = id

def poolUpdate (frame : Nat) (items : Pool) (idx : Ref) : Pool :=
  Function.update items idx { items idx with lastUpdate := frame }

/-- One turn of the loop of `poolInit`: the least `lastUpdate` so far, and its index. -/
def older (items : Pool) (s : Nat × Option Ref) (i : Ref) : Nat × Option Ref :=
  if (items i).lastUpdate < s.1 then ((items i).lastUpdate, some i) else s

/-- The item that is taken, if any is older than this frame. -/
def oldest (frame : Nat) (items : Pool) : Option Ref := ((List.finRange poolSize).foldl (older items) (frame, none)).2

def poolInit (frame : Nat) (items : Pool) (id : Id) : Except Fault (Ref × Pool) :=
  match oldest frame items with
  | none => .error .panic
  | some n => .ok (n, poolUpdate frame (Function.update items n { items n with id := id }) n)

namespace Context

def setContainer (ctx : Context) (cnt : Ref) (c : Container) : Context :=
  { ctx with containers := Function.update ctx.containers cnt c }

def bringToFront (ctx : Context) (cnt : Ref) : Context :=
  let ctx := { ctx with lastZIndex := ctx.lastZIndex + 1 }
  ctx.setContainer cnt { ctx.containers cnt with zindex := ctx.lastZIndex }

/-- A container as `getContainer_` sets it up. -/
def fresh : Container where
  rect := ⟨0, 0, 0, 0⟩
  body := ⟨0, 0, 0, 0⟩
  contentSize := ⟨0, 0⟩
  scroll := ⟨0, 0⟩
  isOpen := true
  head := 0
  tail := 0
  zindex := 0

/-- `getContainer_` for an id that is not in the pool. -/
def newContainer (ctx : Context) (id : Id) (opt : Options) : Except Fault (Option Ref × Context) :=
  if opt.has .closed then .ok (none, ctx)
  else do
    let (idx, pool) ← poolInit ctx.frame ctx.containerPool id
    let ctx := { ctx with containerPool := pool }.setContainer idx fresh
    .ok (some idx, ctx.bringToFront idx)

def getContainer (ctx : Context) (id : Id) (opt : Options) : Except Fault (Option Ref × Context) :=
  match poolGet ctx.containerPool id with
  | some idx =>
    if (ctx.containers idx).isOpen ∨ ¬ opt.has .closed then
      .ok (some idx, { ctx with containerPool := poolUpdate ctx.frame ctx.containerPool idx })
    else .ok (some idx, ctx)
  | none => ctx.newContainer id opt

def getCurrentContainer (ctx : Context) : Except Fault Ref :=
  match ctx.containerStack with
  | [] => .error .panic
  | cnt :: _ => .ok cnt

def pushCommand (ctx : Context) (command : Command) : Context :=
  { ctx with commandList := ctx.commandList ++ [command] }

/-- `FixedStack.push` on the two stacks of containers. -/
def pushRoot (ctx : Context) (cnt : Ref) : Except Fault Context :=
  if ctx.containerStack.length < stackSize ∧ ctx.rootList.length < stackSize then
    .ok { ctx with containerStack := cnt :: ctx.containerStack, rootList := ctx.rootList ++ [cnt] }
  else .error .panic

/-- Whether the mouse is in the container and no container above it was under the mouse. -/
def hovered (ctx : Context) (cnt : Ref) : Prop :=
  (ctx.containers cnt).rect.overlaps ctx.mousePos ∧
    ∀ top ∈ ctx.nextHoverRoot, (ctx.containers cnt).zindex > (ctx.containers top).zindex

instance (ctx : Context) (cnt : Ref) : Decidable (ctx.hovered cnt) :=
  inferInstanceAs (Decidable (_ ∧ ∀ top ∈ ctx.nextHoverRoot, _))

def beginRootContainer (ctx : Context) (cnt : Ref) : Except Fault Context := do
  let ctx ← ctx.pushRoot cnt
  let ctx := ctx.setContainer cnt { ctx.containers cnt with head := ctx.commandList.length }
  let ctx := ctx.pushCommand (.jump unset)
  .ok (if ctx.hovered cnt then { ctx with nextHoverRoot := some cnt } else ctx)

/-- `j := ^JumpCommand(ctx.commandList[i])`, an assertion, and `j.dst = dst`. -/
def patch (commands : List Command) (i dst : Nat) : Except Fault (List Command) :=
  match commands[i]? with
  | some (.jump _) => .ok (commands.set i (.jump dst))
  | _ => .error .panic

def endRootContainer (ctx : Context) : Except Fault Context := do
  let cnt ← ctx.getCurrentContainer
  let ctx := ctx.setContainer cnt { ctx.containers cnt with tail := ctx.commandList.length }
  let ctx := ctx.pushCommand (.jump unset)
  let commands ← patch ctx.commandList (ctx.containers cnt).head ctx.commandList.length
  .ok { ctx with commandList := commands, containerStack := ctx.containerStack.tail }

/-- `beginWindow` up to the root container. Its title bar, its frame and its resizing
draw and change the shape, as the client does. -/
def beginWindow (ctx : Context) (id : Id) (rect : Rect) (opt : Options) : Except Fault (Option Ref × Context) := do
  let (cnt, ctx) ← ctx.getContainer id opt
  match cnt with
  | none => .ok (none, ctx)
  | some cnt =>
    if (ctx.containers cnt).isOpen then do
      let c := ctx.containers cnt
      let ctx := ctx.setContainer cnt (if c.rect.w = 0 then { c with rect := rect } else c)
      let ctx ← ctx.beginRootContainer cnt
      .ok (some cnt, ctx)
    else .ok (none, ctx)

def setShape (ctx : Context) (shape : Shape) : Except Fault Context := do
  let cnt ← ctx.getCurrentContainer
  .ok (ctx.setContainer cnt { ctx.containers cnt with toShape := shape })

def begin (ctx : Context) : Context :=
  { ctx with
    commandList := []
    rootList := []
    hoverRoot := ctx.nextHoverRoot
    nextHoverRoot := none
    frame := ctx.frame + 1 }

/-- The click on a container that is not at the front. -/
def clicked (ctx : Context) : Context :=
  match ctx.nextHoverRoot with
  | none => ctx
  | some cnt =>
    if ctx.mousePressed ≠ 0 ∧ (ctx.containers cnt).zindex < ctx.lastZIndex ∧ (ctx.containers cnt).zindex ≥ 0 then
      ctx.bringToFront cnt
    else ctx

/-- `qsort(ctx.rootList, 0, n-1)` -/
def sortRoots (ctx : Context) : Context :=
  let n := ctx.rootList.length
  let items := Lib.quicksort (fun cnt => (ctx.containers cnt).zindex) (fun i => ctx.rootList.getD i 0) 0 (n - 1)
  { ctx with rootList := (List.range n).map items }

/-- The loop over the sorted containers; `last` is the tail of the one before. -/
def linkFrom (containers : Ref → Container) (last : Nat) : List Ref → List Command → Except Fault (List Command)
  | [], commands => patch commands last commands.length
  | cnt :: rest, commands => do
    let commands ← patch commands last ((containers cnt).head + 1)
    linkFrom containers (containers cnt).tail rest commands

def link (containers : Ref → Container) : List Ref → List Command → Except Fault (List Command)
  | [], commands => .ok commands
  | roots, commands => linkFrom containers 0 roots commands

/-- `end`, less the focus and the scrolling. -/
def endFrame (ctx : Context) : Except Fault Context :=
  if ctx.containerStack ≠ [] then .error .panic
  else do
    let ctx := ctx.clicked
    let ctx := { ctx with toContext := ctx.toContext.endFrame }
    let ctx := ctx.sortRoots
    let commands ← link ctx.containers ctx.rootList ctx.commandList
    .ok { ctx with commandList := commands }

end Context

/-- What a client does in a window: it draws, it changes the shape of the window, and it
begins and ends further windows. A window that is closed has no body. -/
inductive Client where
  | done
  | draw (d : Draw) (rest : Client)
  | reshape (shape : Shape) (rest : Client)
  | window (id : Id) (rect : Rect) (opt : Options) (body rest : Client)

namespace Client

/-- What is drawn, less what nested windows draw. -/
def own : Client → List Draw
  | done => []
  | draw d rest => d :: own rest
  | reshape _ rest => own rest
  | window _ _ _ _ rest => own rest

/-- The windows that are asked for, whether they open or not. -/
def ids : Client → List Id
  | done => []
  | draw _ rest => ids rest
  | reshape _ rest => ids rest
  | window id _ _ body rest => id :: (ids body ++ ids rest)

end Client

/-- A window that was begun, with its rectangle at the time. -/
structure Root where
  id : Id
  cnt : Ref
  rect : Rect
  draws : List Draw

/-- The windows that a client begins, in order, and the state it leaves. -/
def Client.run : Client → Context → Except Fault (List Root × Context)
  | done, ctx => .ok ([], ctx)
  | draw d rest, ctx => rest.run (ctx.pushCommand (.draw d))
  | reshape shape rest, ctx => do
    let ctx ← ctx.setShape shape
    rest.run ctx
  | window id rect opt body rest, ctx => do
    let (cnt, ctx) ← ctx.beginWindow id rect opt
    match cnt with
    | none => rest.run ctx
    | some cnt => do
      let root := ⟨id, cnt, (ctx.containers cnt).rect, body.own⟩
      let (inner, ctx) ← body.run ctx
      let ctx ← ctx.endRootContainer
      let (later, ctx) ← rest.run ctx
      .ok (root :: (inner ++ later), ctx)

/-- A frame of windows that follow each other. -/
inductive Client.Windows : Client → Prop
  | done : Windows .done
  | window {id : Id} {rect : Rect} {opt : Options} {body rest : Client} (later : Windows rest) :
    Windows (.window id rect opt body rest)

def Context.schedule (ctx : Context) (client : Client) : Except Fault (List Root × Context) := do
  let (roots, ctx) ← client.run ctx.begin
  let ctx ← ctx.endFrame
  .ok (roots, ctx)

/-- `init`: the fields of a new context are zero. -/
def Context.init (input : Input.Context) : Context where
  toContext := input
  frame := 0
  lastZIndex := 0
  hoverRoot := none
  nextHoverRoot := none
  commandList := []
  rootList := []
  containerStack := []
  containerPool := fun _ => ⟨0, 0⟩
  containers := fun _ => { fresh with isOpen := false }

/-- The handlers of the input write these fields between frames. -/
def Context.withInput (ctx : Context) (input : Input.Context) : Context := { ctx with toContext := input }

/-- The contexts between frames. Before a frame the input may be anything. -/
inductive Context.Reachable : Context → Prop
  | init (input : Input.Context) : Reachable (init input)
  | input {ctx : Context} (before : Reachable ctx) (input : Input.Context) : Reachable (ctx.withInput input)
  | frame {ctx ctx' : Context} {client : Client} {roots : List Root} (before : Reachable ctx)
    (run : ctx.schedule client = .ok (roots, ctx')) : Reachable ctx'

/-- The loop of `nextCommand`: a command and the index behind it, or the end of the list.
None says that the fuel does not suffice. -/
def nextCommand (commands : List Command) : Nat → Nat → Option (Option Draw × Nat)
  | 0, _ => none
  | fuel + 1, idx =>
    match commands[idx]? with
    | none => some (none, idx)
    | some (.draw d) => some (some d, idx + 1)
    | some (.jump dst) => nextCommand commands fuel dst

/-- The loop of `schedule` over the commands, from an index on. -/
def drain (commands : List Command) : Nat → Nat → Option (List Draw)
  | 0, _ => none
  | fuel + 1, idx =>
    match nextCommand commands (fuel + 1) idx with
    | none => none
    | some (none, _) => some []
    | some (some d, idx) => (drain commands fuel idx).map (d :: ·)

end UmkaOs.Microui
