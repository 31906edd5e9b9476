import UmkaOs.Microui.Text

namespace UmkaOs.Microui

open Input

variable {text line rest : List UInt8} {lines : List (List UInt8)} {width w : Int}
  {start stop p i j k : Nat} {style : Style} {layout : Layout} {layouts : List Layout}

theorem slice_ok (order : i ≤ j) (inside : j ≤ text.length) : slice text i j = .ok (part text i j) := if_pos ⟨order, inside⟩

theorem drop_part (text : List UInt8) (order : i ≤ j) : text.drop i = part text i j ++ text.drop j := by
  have split := (List.take_append_drop (j - i) (text.drop i)).symm
  rwa [List.take_drop, List.drop_drop, Nat.add_sub_cancel' order] at split

theorem part_append (text : List UInt8) (first : i ≤ j) (second : j ≤ k) :
    part text i j ++ part text j k = part text i k := by
  apply (List.append_left_inj (text.drop k)).mp
  rw [List.append_assoc, ← drop_part text second, ← drop_part text first,
    ← drop_part text (Nat.le_trans first second)]

theorem part_self (text : List UInt8) (i : Nat) : part text i i = [] :=
  List.append_cancel_right (drop_part text (Nat.le_refl i)).symm

theorem part_succ (inside : i < text.length) : part text i (i + 1) = [text[i]] := by
  apply (List.append_left_inj (text.drop (i + 1))).mp
  rw [← drop_part text (Nat.le_succ i), List.drop_eq_getElem_cons inside]
  rfl

/-- A word is what stands before the next space or the end of the paragraph. -/
def word (rest : List UInt8) : List UInt8 := rest.takeWhile inWord

theorem part_wordEnd (text : List UInt8) (p : Nat) : part text p (wordEnd text p) = word (text.drop p) := by
  fun_induction wordEnd text p with
  | case1 p inside letter ih =>
    rw [← part_append text (Nat.le_succ p) (le_wordEnd text (p + 1)), part_succ inside, ih, word, word,
      List.drop_eq_getElem_cons inside, List.takeWhile_cons, if_pos letter]
    rfl
  | case2 p inside letter =>
    rw [part_self, word, List.drop_eq_getElem_cons inside, List.takeWhile_cons, if_neg letter]
  | case3 p outside =>
    rw [part_self, word, List.drop_eq_nil_of_le (Nat.le_of_not_lt outside)]
    rfl

theorem wordEnd_le (within : p ≤ text.length) : wordEnd text p ≤ text.length := by
  fun_induction wordEnd text p with
  | case1 p inside _ ih => exact ih inside
  | case2 => exact within
  | case3 => exact within

theorem at_wordEnd (inside : wordEnd text p < text.length) :
    text[wordEnd text p] = space ∨ text[wordEnd text p] = newline := by
  fun_induction wordEnd text p with
  | case1 p _ letter ih => exact ih inside
  | case2 p _ letter =>
    rw [inWord, decide_eq_true_eq, not_and_or, not_not, not_not] at letter
    exact letter
  | case3 p outside => exact absurd inside outside

theorem word_plain (rest : List UInt8) : newline ∉ word rest ∧ space ∉ word rest := by
  constructor <;> intro member <;> have letter := List.mem_takeWhile_imp member <;> simp [inWord] at letter

theorem textWidth_append (a b : List UInt8) : textWidth (a ++ b) = textWidth a + textWidth b := by
  rw [textWidth, List.length_append]
  simp only [textWidth]
  omega

/-- A line that is too wide has no space in it where it could have been broken. -/
def Fits (width : Int) (line : List UInt8) : Prop := textWidth line ≤ width ∨ space ∉ line.tail

/-- The lines of a text: a newline ends a line, and so does a space if the word behind it
does not fit. -/
inductive Wrapped (width : Int) : List UInt8 → List (List UInt8) → Prop
  | last {line : List UInt8} (plain : newline ∉ line) (fits : Fits width line) : Wrapped width line [line]
  | paragraph {line rest : List UInt8} {lines : List (List UInt8)} (plain : newline ∉ line) (fits : Fits width line)
    (later : Wrapped width rest lines) : Wrapped width (line ++ newline :: rest) (line :: lines)
  | wrap {line rest : List UInt8} {lines : List (List UInt8)} (plain : newline ∉ line) (fits : Fits width line)
    (some : line ≠ []) (full : width < textWidth (line ++ space :: word rest)) (later : Wrapped width rest lines) :
    Wrapped width (line ++ space :: rest) (line :: lines)

/-- Where a line ends that begins at an index. -/
structure LineEnds (text : List UInt8) (width : Int) (start stop : Nat) : Prop where
  order : start ≤ stop
  plain : newline ∉ part text start stop
  fits : Fits width (part text start stop)
  ending : stop = text.length ∨ text[stop]? = some newline ∨ (text[stop]? = some space ∧ part text start stop ≠ [] ∧
    width < textWidth (part text start stop ++ space :: word (text.drop (stop + 1))))

/-- The scan at a word, after the words and spaces of the line so far. -/
structure Scans (text : List UInt8) (start stop p : Nat) (w : Int) : Prop where
  order : start ≤ stop
  reach : stop ≤ p
  within : p ≤ text.length
  width : w = textWidth (part text start p)
  plain : newline ∉ part text start p
  place : stop = start ∧ p = start ∨ p = stop + 1 ∧ text[stop]? = some space

namespace Scans

theorem word (scans : Scans text start stop p w) :
    part text start (wordEnd text p) = part text start p ++ Microui.word (text.drop p) := by
  rw [← part_wordEnd, part_append text (Nat.le_trans scans.order scans.reach) (le_wordEnd text p)]

theorem wordWidth (scans : Scans text start stop p w) :
    w + textWidth (part text p (wordEnd text p)) = textWidth (part text start (wordEnd text p)) := by
  rw [scans.width, part_wordEnd, scans.word, textWidth_append]

theorem wordPlain (scans : Scans text start stop p w) : newline ∉ part text start (wordEnd text p) := by
  rw [scans.word, List.mem_append, not_or]
  exact ⟨scans.plain, (word_plain _).1⟩

theorem behind (scans : Scans text start stop p w) (other : stop ≠ start) : text[stop]? = some space ∧
    part text start (wordEnd text p) = part text start stop ++ space :: Microui.word (text.drop (stop + 1)) := by
  obtain ⟨rfl, here⟩ := scans.place.resolve_left fun first => other first.1
  obtain ⟨inside, char⟩ := List.getElem?_eq_some_iff.mp here
  refine ⟨here, ?_⟩
  rw [scans.word, ← part_append text scans.order (Nat.le_succ stop), part_succ inside, char, List.append_assoc]
  rfl

/-- A word that is accepted leaves a line that fits. -/
theorem accepted (scans : Scans text start stop p w)
    (room : ¬ (w + textWidth (part text p (wordEnd text p)) > width ∧ stop ≠ start)) :
    Fits width (part text start (wordEnd text p)) := by
  rw [scans.wordWidth] at room
  by_cases narrow : textWidth (part text start (wordEnd text p)) ≤ width
  · exact .inl narrow
  · have first : stop = start := by
      by_contra other
      exact room ⟨Int.not_le.mp narrow, other⟩
    rw [scans.word]
    rcases scans.place with ⟨_, rfl⟩ | ⟨rfl, here⟩
    · rw [part_self, List.nil_append]
      exact .inr fun member => (word_plain _).2 (List.mem_of_mem_tail member)
    · obtain ⟨inside, char⟩ := List.getElem?_eq_some_iff.mp here
      rw [first] at inside ⊢
      rw [part_succ inside]
      exact .inr (word_plain _).2

theorem next (scans : Scans text start stop p w) (inside : wordEnd text p < text.length)
    (char : text[wordEnd text p] ≠ newline) : Scans text start (wordEnd text p) (wordEnd text p + 1)
      (w + textWidth (part text p (wordEnd text p)) + textWidth [text[wordEnd text p]]) := by
  have later := le_wordEnd text p
  have begun := Nat.le_trans scans.order (Nat.le_trans scans.reach later)
  have blank := (at_wordEnd inside).resolve_right char
  have longer := part_append text begun (Nat.le_succ (wordEnd text p))
  rw [Nat.succ_eq_add_one, part_succ inside] at longer
  refine ⟨begun, Nat.le_succ _, inside, ?_, ?_, .inr ⟨rfl, by rw [List.getElem?_eq_getElem inside, blank]⟩⟩
  · rw [scans.wordWidth, ← longer, textWidth_append]
  · rw [← longer, List.mem_append, List.mem_singleton, not_or]
    exact ⟨scans.wordPlain, char.symm⟩

end Scans

theorem Scans.slice (scans : Scans text start stop p w) :
    slice text p (wordEnd text p) = .ok (part text p (wordEnd text p)) :=
  slice_ok (le_wordEnd text p) (wordEnd_le scans.within)

theorem lineEnd_spec (scans : Scans text start stop p w) (fits : Fits width (part text start stop)) :
    ∃ last, lineEnd text width start stop p w = .ok last ∧ last ≤ text.length ∧ LineEnds text width start last := by
  fun_induction lineEnd text width start stop p w with
  | case1 stop p w last e failed => cases scans.slice.symm.trans failed
  | case2 stop p w last word cut wide full =>
    cases scans.slice.symm.trans cut
    obtain ⟨here, longer⟩ := scans.behind full.2
    obtain ⟨inside, _⟩ := List.getElem?_eq_some_iff.mp here
    have some : part text start stop ≠ [] := by
      intro none
      have count := congrArg List.length (drop_part text scans.order)
      rw [none, List.nil_append, List.length_drop, List.length_drop] at count
      have order := scans.order
      omega
    refine ⟨stop, rfl, Nat.le_of_lt inside, scans.order, ?_, fits, .inr (.inr ⟨here, some, ?_⟩)⟩
    · intro member
      apply scans.plain
      rw [← part_append text scans.order scans.reach]
      exact List.mem_append_left _ member
    · rw [← longer, ← scans.wordWidth]
      exact full.1
  | case3 stop p w last word cut wide room inside char =>
    cases scans.slice.symm.trans cut
    refine ⟨last, rfl, Nat.le_of_lt inside, Nat.le_trans scans.order (Nat.le_trans scans.reach (le_wordEnd text p)),
      scans.wordPlain, scans.accepted room, .inr (.inl ?_)⟩
    rw [List.getElem?_eq_getElem inside, char]
  | case4 stop p w last word cut wide room inside char ih =>
    cases scans.slice.symm.trans cut
    exact ih (scans.next inside char) (scans.accepted room)
  | case5 stop p w last word cut wide room outside =>
    cases scans.slice.symm.trans cut
    exact ⟨last, rfl, wordEnd_le scans.within, Nat.le_trans scans.order (Nat.le_trans scans.reach (le_wordEnd text p)),
      scans.wordPlain, scans.accepted room, .inl (Nat.le_antisymm (wordEnd_le scans.within) (Nat.le_of_not_lt outside))⟩

theorem lineEnds (text : List UInt8) (width : Int) (inside : p ≤ text.length) :
    ∃ last, lineEnd text width p p p 0 = .ok last ∧ last ≤ text.length ∧ LineEnds text width p last := by
  apply lineEnd_spec ⟨Nat.le_refl p, Nat.le_refl p, inside, ?_, ?_, .inl ⟨rfl, rfl⟩⟩
  · rw [part_self]
    exact .inr List.not_mem_nil
  · rw [part_self]
    rfl
  · rw [part_self]
    exact List.not_mem_nil

/-- A layout with one cell a row that is as wide as the body. -/
structure Ruled (x width : Int) (layout : Layout) : Prop where
  plain : layout.nextType = .none
  widths : layout.widths = [-1]
  height : layout.size.y = textHeight
  left : layout.body.x + layout.indent = x
  room : layout.body.w - layout.indent = width
  first : layout.itemIndex = 0 ∧ layout.position = ⟨layout.indent, layout.nextRow⟩ ∨ layout.itemIndex = 1

theorem Layout.extent_ruled (style : Style) (widths : layout.widths = [-1]) (height : layout.size.y = textHeight)
    (index : layout.itemIndex = 0) (left : layout.position.x = layout.indent) :
    layout.extent style = ⟨layout.body.w - layout.indent, textHeight⟩ := by
  simp [Layout.extent, widths, height, index, left, textHeight]

theorem Ruled.cell {x : Int} (ruled : Ruled x width layout) (style : Style) : (layout.cell style).1.x = x ∧
    (layout.cell style).1.w = width ∧ (layout.cell style).1.y = layout.body.y + layout.nextRow ∧
    layout.body.y + layout.nextRow + textHeight + style.spacing ≤
      (layout.cell style).2.body.y + (layout.cell style).2.nextRow ∧ Ruled x width (layout.cell style).2 := by
  obtain ⟨plain, widths, height, left, room, first⟩ := ruled
  rw [Layout.cell, plain]
  dsimp only
  generalize begun : (if layout.itemIndex = layout.widths.length then _ else layout) = current
  have same : current.nextType = .none ∧ current.widths = [-1] ∧ current.size.y = textHeight ∧
      current.body = layout.body ∧ current.indent = layout.indent ∧ current.nextRow = layout.nextRow ∧
      current.itemIndex = 0 ∧ current.position = ⟨layout.indent, layout.nextRow⟩ := by
    subst begun
    rcases first with ⟨index, position⟩ | index
    · rw [if_neg (by rw [index, widths]; decide)]
      exact ⟨plain, widths, height, rfl, rfl, rfl, index, position⟩
    · rw [if_pos (by rw [index, widths]; rfl)]
      exact ⟨plain, widths, height, rfl, rfl, rfl, rfl, rfl⟩
  obtain ⟨plain', widths', height', body, indent, nextRow, index, position⟩ := same
  have size := Layout.extent_ruled style widths' height' index (by rw [position, indent])
  rw [size, Layout.place]
  dsimp only
  rw [position, body, indent, nextRow]
  refine ⟨?_, room, ?_, ?_, ⟨plain', widths', height', ?_, ?_, .inr ?_⟩⟩
  · dsimp only
    omega
  · dsimp only
    omega
  · dsimp only
    omega
  · exact left
  · exact room
  · dsimp only
    omega

theorem textLines_cons (style : Style) (layout : Layout) (rest : List Layout)
    (found : lineEnd text (layout.cell style).1.w p p p 0 = .ok stop) (order : p ≤ stop) (inside : stop ≤ text.length) :
    textLines style text p (layout :: rest) =
      let r := (layout.cell style).1
      let line := (part text p stop, (⟨r.x, r.y⟩ : Vec2))
      if stop ≥ text.length then .ok ([line], (layout.cell style).2 :: rest)
      else textLines style text (stop + 1) ((layout.cell style).2 :: rest) >>= fun r => .ok (line :: r.1, r.2) := by
  rw [textLines]
  simp only [layoutNext, bind, Except.bind]
  split
  · rename_i e failed
    cases found.symm.trans failed
  · rename_i last same
    cases found.symm.trans same
    rw [slice_ok order inside]

theorem textLines_spec {x : Int} (style : Style) (rest : List Layout) (ruled : Ruled x width layout)
    (inside : p ≤ text.length) : ∃ line lines layout',
      textLines style text p (layout :: rest) = .ok (line :: lines, layout' :: rest) ∧
      Wrapped width (text.drop p) (line.1 :: lines.map Prod.fst) ∧ line.2.y = layout.body.y + layout.nextRow ∧
      (∀ l ∈ line :: lines, l.2.x = x) ∧
      (line :: lines).IsChain fun a b => a.2.y + textHeight + style.spacing ≤ b.2.y := by
  induction left : text.length - p using Nat.strong_induction_on generalizing p layout with
  | _ n ih =>
    obtain ⟨first, room, top, lower, next⟩ := ruled.cell style
    obtain ⟨stop, found, within, ends⟩ := lineEnds text width inside
    have split := drop_part text ends.order
    rw [textLines_cons style layout rest (by rw [room, found]) ends.order within]
    dsimp only
    by_cases final : stop ≥ text.length
    · have whole : part text p stop = text.drop p := by
        rw [split, List.drop_eq_nil_of_le final, List.append_nil]
      refine ⟨_, [], _, if_pos final, ?_, top, ?_, .singleton _⟩
      · rw [List.map_nil, whole]
        exact .last (whole ▸ ends.plain) (whole ▸ ends.fits)
      · rw [List.forall_mem_singleton]
        exact first
    · have more := Nat.lt_of_not_le final
      obtain ⟨line, lines, last, run, wrapped, start, column, chain⟩ :=
        ih (text.length - (stop + 1)) (by have order := ends.order; omega) next more rfl
      refine ⟨(part text p stop, ⟨(layout.cell style).1.x, (layout.cell style).1.y⟩), line :: lines, last, ?_, ?_, top,
        ?_, ?_⟩
      · rw [if_neg final, run]
        rfl
      · rw [split, List.drop_eq_getElem_cons more]
        rcases ends.ending with length | char | ⟨char, some, full⟩
        · exact absurd (Nat.le_of_eq length.symm) final
        · rw [(List.getElem?_eq_some_iff.mp char).2]
          exact .paragraph ends.plain ends.fits wrapped
        · rw [(List.getElem?_eq_some_iff.mp char).2]
          exact .wrap ends.plain ends.fits some full wrapped
      · rw [List.forall_mem_cons]
        exact ⟨first, column⟩
      · rw [List.isChain_cons_cons]
        refine ⟨?_, chain⟩
        dsimp only
        rw [top, start]
        exact lower

theorem Layout.cell_plain (style : Style) (layout : Layout) : (layout.cell style).2.nextType = .none ∧
    (layout.cell style).2.body = layout.body ∧ (layout.cell style).2.indent = layout.indent := by
  rw [Layout.cell]
  cases kind : layout.nextType with
  | none =>
    dsimp only
    split <;> exact ⟨kind, rfl, rfl⟩
  | absolute => exact ⟨rfl, rfl, rfl⟩
  | relative => exact ⟨rfl, rfl, rfl⟩

/-- A column is pushed behind the layout, which goes on with a row of its own. -/
theorem layoutBeginColumn_cons (style : Style) (layout : Layout) (rest : List Layout) : ∃ column : Layout,
    layoutBeginColumn style (layout :: rest) =
      .ok ((layout.cell style).1, (layout.cell style).2.row [0] 0 :: (rest ++ [column])) :=
  ⟨_, rfl⟩

theorem layoutEndColumn_concat (layout column : Layout) (rest : List Layout) :
    layoutEndColumn (layout :: (rest ++ [column])) = .ok (layout :: rest) := by
  rw [layoutEndColumn, ← List.cons_append, List.dropLast_concat]
  simp [getLayout, bind, Except.bind]

/-- The lines with a character behind each but the last. -/
def rejoin : List (List UInt8) → List UInt8 → List UInt8
  | line :: lines, c :: skipped => line ++ c :: rejoin lines skipped
  | lines, _ => lines.flatten

theorem Wrapped.rejoin (wrapped : Wrapped width text lines) : ∃ skipped : List UInt8,
    skipped.length + 1 = lines.length ∧ (∀ c ∈ skipped, c = space ∨ c = newline) ∧
      Microui.rejoin lines skipped = text := by
  induction wrapped with
  | last => exact ⟨[], rfl, List.forall_mem_nil _, List.flatten_singleton⟩
  | paragraph _ _ _ ih =>
    obtain ⟨skipped, length, blank, whole⟩ := ih
    refine ⟨newline :: skipped, by simp [length], ?_, by rw [Microui.rejoin, whole]⟩
    rw [List.forall_mem_cons]
    exact ⟨.inr rfl, blank⟩
  | wrap _ _ _ _ _ ih =>
    obtain ⟨skipped, length, blank, whole⟩ := ih
    refine ⟨space :: skipped, by simp [length], ?_, by rw [Microui.rejoin, whole]⟩
    rw [List.forall_mem_cons]
    exact ⟨.inl rfl, blank⟩

/-- Every text is drawn, in any layout. Its lines are those of greedy wrapping to the body
of the layout without its indent; only spaces and newlines are skipped between them; and
they stand in one column below each other. -/
theorem text_wraps (style : Style) (string : List UInt8) (layout : Layout) (rest : List Layout) :
    ∃ lines layouts, Microui.text style string (layout :: rest) = .ok (lines, layouts) ∧
      Wrapped (layout.body.w - layout.indent) string (lines.map Prod.fst) ∧
      (∃ skipped : List UInt8, skipped.length + 1 = lines.length ∧ (∀ c ∈ skipped, c = space ∨ c = newline) ∧
        rejoin (lines.map Prod.fst) skipped = string) ∧
      (∀ line ∈ lines, line.2.x = layout.body.x + layout.indent) ∧
      lines.IsChain fun a b => a.2.y + textHeight + style.spacing ≤ b.2.y := by
  obtain ⟨plain, body, indent⟩ := layout.cell_plain style
  have ruled : Ruled (layout.body.x + layout.indent) (layout.body.w - layout.indent)
      (((layout.cell style).2.row [0] 0).row [-1] textHeight) := by
    rw [← body, ← indent]
    exact ⟨plain, rfl, rfl, rfl, rfl, .inl ⟨rfl, rfl⟩⟩
  obtain ⟨column, begun⟩ := layoutBeginColumn_cons style layout rest
  obtain ⟨line, lines, last, run, wrapped, _, left, chain⟩ := textLines_spec style (rest ++ [column]) ruled
    (Nat.zero_le string.length)
  obtain ⟨skipped, length, blank, whole⟩ := wrapped.rejoin
  refine ⟨line :: lines, last :: rest, ?_, wrapped, ⟨skipped, ?_, blank, whole⟩, left, chain⟩
  · rw [text, begun]
    show (textLines style string 0 _ >>= _) = _
    rw [run]
    show (layoutEndColumn _ >>= _) = _
    rw [layoutEndColumn_concat]
    rfl
  · rw [length]
    simp

end UmkaOs.Microui
