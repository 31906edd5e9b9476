import UmkaOs.Input.Model
import Mathlib.Data.List.Chain

namespace UmkaOs.Input

open MouseButton

variable {u : User} {v : MousePacket} {inputs : List UserEvent} {last : Bool}

theorem MouseButton.has_set {b : MouseButton} (some : b ≠ 0) (m : MouseButton) : (m.set b).has b = true := by
  have whole : (m ||| b) &&& b = b := by
    ext i
    simp
    grind
  simpa [MouseButton.has, MouseButton.set, whole] using some

theorem MouseButton.has_unset (m b : MouseButton) : (m.unset b).has b = false := by
  have none : m &&& ~~~b &&& b = 0 := by
    ext i
    simp
  simp [MouseButton.has, MouseButton.unset, none]

/-- What moves the state of `user.um`. -/
inductive UserEvent where
  /-- A packet for the callback, on a screen of `w` by `h`. -/
  | packet (w h : Int) (v : MousePacket)
  /-- The `end` of a call of `schedule`. -/
  | frame

/-- The state of the left button in the packets. -/
def flags : List UserEvent → List Bool
  | [] => []
  | .packet _ _ v :: rest => v.lmb :: flags rest
  | .frame :: rest => flags rest

/-- Left is down after the packet as the packet says, and newly pressed by it
exactly if it was up in the packet before. -/
structure Mirrors (last : Bool) (v : MousePacket) (u u' : User) : Prop where
  down : u'.ctx.mouseDown.has left = v.lmb
  pressed : (u.ctx.mousePressed.has left = false ∧ u'.ctx.mousePressed.has left = true) ↔
    (last = false ∧ v.lmb = true)

/-- Every packet of these inputs is mirrored, `last` being the flag before them. -/
def Follows (last : Bool) (u : User) : List UserEvent → Prop
  | [] => True
  | .packet w h v :: rest => Mirrors last v u (u.onPacket w h v) ∧ Follows v.lmb (u.onPacket w h v) rest
  | .frame :: rest => Follows last { u with ctx := u.ctx.endFrame } rest

/-- The callback and microui agree on the last flag. -/
structure InStep (last : Bool) (u : User) : Prop where
  was : u.wasLmb = last
  down : u.ctx.mouseDown.has left = last
  pressed : u.ctx.mousePressed.has left = true → last = true

theorem InStep.frame (agree : InStep last u) : InStep last { u with ctx := u.ctx.endFrame } where
  was := agree.was
  down := agree.down
  pressed := by
    intro some
    simp [Context.endFrame, MouseButton.has, MouseButton.none] at some

theorem InStep.packet (agree : InStep last u) (w h : Int) (v : MousePacket) (rises : last ≤ v.lmb) :
    Mirrors last v u (u.onPacket w h v) ∧ InStep v.lmb (u.onPacket w h v) := by
  obtain ⟨was, down, pressed⟩ := agree
  have some : left ≠ 0 := by decide
  cases last with
  | true =>
    have held : v.lmb = true := rises rfl
    have moved : (u.onPacket w h v).ctx.mouseDown = u.ctx.mouseDown ∧
        (u.onPacket w h v).ctx.mousePressed = u.ctx.mousePressed := by
      simp [User.onPacket, held, was, Context.inputMouseMove]
    refine ⟨⟨?_, ?_⟩, ⟨rfl, ?_, fun _ => held⟩⟩
    · rw [moved.1, down, held]
    · simp [moved.2]
    · rw [moved.1, down, held]
  | false =>
    have quiet : u.ctx.mousePressed.has left = false := by
      by_contra noisy
      exact absurd (pressed (by simpa using noisy)) (by simp)
    cases lmb : v.lmb with
    | true =>
      have set : (u.onPacket w h v).ctx.mouseDown = u.ctx.mouseDown.set left ∧
          (u.onPacket w h v).ctx.mousePressed = u.ctx.mousePressed.set left := by
        simp [User.onPacket, lmb, was, Context.inputMouseDown, Context.inputMouseMove]
      refine ⟨⟨?_, ?_⟩, ⟨lmb, ?_, fun _ => rfl⟩⟩
      · rw [set.1, has_set some, lmb]
      · simp [set.2, has_set some, quiet, lmb]
      · rw [set.1, has_set some]
    | false =>
      have cleared : (u.onPacket w h v).ctx.mouseDown = u.ctx.mouseDown.unset left ∧
          (u.onPacket w h v).ctx.mousePressed = u.ctx.mousePressed := by
        simp [User.onPacket, lmb, was, Context.inputMouseUp, Context.inputMouseMove]
      refine ⟨⟨?_, ?_⟩, ⟨lmb, ?_, ?_⟩⟩
      · rw [cleared.1, has_unset, lmb]
      · simp [cleared.2, lmb]
      · rw [cleared.1, has_unset]
      · simp [cleared.2, quiet]

/-- The callback moves the mouse for a release and leaves the button down. -/
theorem InStep.release (agree : InStep last u) (w h : Int) (v : MousePacket) (falls : ¬ last ≤ v.lmb) :
    ¬ Mirrors last v u (u.onPacket w h v) := by
  obtain ⟨was, down, _⟩ := agree
  have both : last = true ∧ v.lmb = false := by
    revert falls
    cases last <;> cases v.lmb <;> decide
  intro mirrors
  have stays : (u.onPacket w h v).ctx.mouseDown = u.ctx.mouseDown := by
    simp [User.onPacket, was, both, Context.inputMouseMove]
  have same := mirrors.down
  rw [stays, down] at same
  simp [both] at same

theorem follows_from (agree : InStep last u) (inputs : List UserEvent) :
    Follows last u inputs ↔ (last :: flags inputs).IsChain (· ≤ ·) := by
  induction inputs generalizing last u with
  | nil => exact iff_of_true trivial (.singleton last)
  | cons input rest ih =>
    cases input with
    | frame => exact ih agree.frame
    | packet w h v =>
      rw [Follows, flags, List.isChain_cons_cons]
      by_cases rises : last ≤ v.lmb
      · obtain ⟨mirrors, next⟩ := agree.packet w h v rises
        rw [ih next]
        exact and_congr_left fun _ => iff_of_true mirrors rises
      · exact iff_of_false (fun both => agree.release w h v rises both.1) (fun both => rises both.1)

/-- With no button held at first, the button follows the device over a whole
run exactly if it is never released in it. -/
theorem follows_iff (u : User) (up : u.wasLmb = false) (free : u.ctx.mouseDown.has left = false)
    (quiet : u.ctx.mousePressed.has left = false) (inputs : List UserEvent) :
    Follows false u inputs ↔ (flags inputs).IsChain (· ≤ ·) := by
  have agree : InStep false u := ⟨up, free, fun pressed => by simp [quiet] at pressed⟩
  rw [follows_from agree, List.isChain_cons]
  refine and_iff_right fun flag _ => ?_
  exact Bool.false_le flag

/-- `user.um` as it starts. -/
def freshUser : User := ⟨⟨⟨0, 0⟩, ⟨0, 0⟩, MouseButton.none, MouseButton.none⟩, 0, 0, false⟩

def packetOf (lmb : Bool) : UserEvent := .packet 640 480 ⟨1, 1, lmb, false, false⟩

theorem follows_iff_press : Follows false freshUser [packetOf false, packetOf true, .frame, packetOf true] ↔
    (flags [packetOf false, packetOf true, .frame, packetOf true]).IsChain (· ≤ ·) :=
  follows_iff freshUser rfl (by decide) (by decide) _

/-- After press and release the button is still down. -/
theorem release_missed : ¬ Follows false freshUser [packetOf true, packetOf false] := by
  rintro ⟨_, ⟨down, _⟩, _⟩
  revert down
  decide

end UmkaOs.Input
