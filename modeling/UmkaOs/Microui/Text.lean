import UmkaOs.Microui.Layout
import Mathlib.Data.List.TakeWhile

namespace UmkaOs.Microui

open Input

def space : UInt8 := 0x20

def newline : UInt8 := 0x0a

/-- The characters from an index up to another. -/
def part (text : List UInt8) (first last : Nat) : List UInt8 := (text.take last).drop first

/-- `slice`, which fails outside of the string. -/
def slice (text : List UInt8) (first last : Nat) : Except Fault (List UInt8) :=
  if first ≤ last ∧ last ≤ text.length then .ok (part text first last) else .error .overrun

/-- A character of a word. -/
def inWord (c : UInt8) : Bool := c ≠ space ∧ c ≠ newline

/-- The end of the word at an index. -/
def wordEnd (text : List UInt8) (p : Nat) : Nat :=
  if inside : p < text.length then
    if inWord text[p] then wordEnd text (p + 1) else p
  else p
termination_by text.length - p

theorem le_wordEnd (text : List UInt8) (p : Nat) : p ≤ wordEnd text p := by
  fun_induction wordEnd text p <;> omega

/-- The inner loop of `text`: the end of the line that begins at an index. -/
def lineEnd (text : List UInt8) (width : Int) (start stop p : Nat) (w : Int) : Except Fault Nat :=
  let last := wordEnd text p
  match slice text p last with
  | .error e => .error e
  | .ok word =>
    let w := w + textWidth word
    if w > width ∧ stop ≠ start then .ok stop
    else if inside : last < text.length then
      if text[last] = newline then .ok last else lineEnd text width start last (last + 1) (w + textWidth [text[last]])
    else .ok last
termination_by text.length - p
decreasing_by
  have later := le_wordEnd text p
  omega

theorem le_lineEnd (text : List UInt8) (width : Int) (start stop p : Nat) (w : Int) {reached : Nat}
    (found : lineEnd text width start stop p w = .ok reached) (first : start ≤ stop) (second : start ≤ p) :
    start ≤ reached := by
  fun_induction lineEnd text width start stop p w with
  | case1 => cases found
  | case2 =>
    cases found
    exact first
  | case3 _ p =>
    rw [← Except.ok.inj found]
    exact Nat.le_trans second (le_wordEnd text p)
  | case4 _ p _ _ _ _ _ _ _ _ ih =>
    have later := le_wordEnd text p
    exact ih found (by omega) (by omega)
  | case5 _ p =>
    rw [← Except.ok.inj found]
    exact Nat.le_trans second (le_wordEnd text p)

/-- The outer loop: the lines from an index on, and where they are drawn. -/
def textLines (style : Style) (text : List UInt8) (p : Nat) (layouts : List Layout) :
    Except Fault (List (List UInt8 × Vec2) × List Layout) := do
  let (r, layouts) ← layoutNext style layouts
  match _ : lineEnd text r.w p p p 0 with
  | .error e => .error e
  | .ok stop =>
    let line ← slice text p stop
    if stop ≥ text.length then .ok ([(line, ⟨r.x, r.y⟩)], layouts)
    else do
      let (later, layouts) ← textLines style text (stop + 1) layouts
      .ok ((line, ⟨r.x, r.y⟩) :: later, layouts)
termination_by text.length - p
decreasing_by
  have later := le_lineEnd text r.w p p p 0 ‹_› (Nat.le_refl p) (Nat.le_refl p)
  omega

/-- The lines that `text` draws. -/
def text (style : Style) (text : List UInt8) (layouts : List Layout) :
    Except Fault (List (List UInt8 × Vec2) × List Layout) := do
  let (_, layouts) ← layoutBeginColumn style layouts
  let layouts ← layoutRow [-1] textHeight layouts
  let (lines, layouts) ← textLines style text 0 layouts
  let layouts ← layoutEndColumn layouts
  .ok (lines, layouts)

end UmkaOs.Microui
