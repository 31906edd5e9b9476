import UmkaOs.Microui.Layout

namespace UmkaOs.Microui

open Input

variable {style : Style} {s : Int} {cells : List Rect} {layout : Layout} {layouts layouts' : List Layout}
  {op : LayoutOp} {ops : List LayoutOp} {c : Rect}

/-- A cell is followed by another at a distance, in its row or in a later row. -/
def Before (s : Int) (a b : Rect) : Prop := a.x + a.w + s ≤ b.x ∨ a.y + a.h + s ≤ b.y

/-- The cells handed out so far, and where the layout stands. -/
structure Filled (s : Int) (cells : List Rect) (layout : Layout) : Prop where
  plain : layout.nextType = .none
  some : layout.widths ≠ []
  index : layout.itemIndex ≤ layout.widths.length
  apart : cells.Pairwise (Before s)
  below : ∀ c ∈ cells, c.y + c.h + s ≤ layout.body.y + layout.nextRow
  row : ∀ c ∈ cells, c.x + c.w + s ≤ layout.body.x + layout.position.x ∨
    c.y + c.h + s ≤ layout.body.y + layout.position.y
  cover : ∀ c ∈ cells, c.x + c.w ≤ layout.max.x ∧ c.y + c.h ≤ layout.max.y

theorem Filled.start (layout : Layout) (plain : layout.nextType = .none) : Filled s [] (layout.row [0] 0) :=
  ⟨plain, List.cons_ne_nil _ _, Nat.zero_le _, .nil, List.forall_mem_nil _, List.forall_mem_nil _,
    List.forall_mem_nil _⟩

/-- A new row is below all cells. -/
theorem Filled.newRow (filled : Filled s cells layout) (widths : List Int) (height : Int) :
    Filled s cells (layout.row widths height) := by
  refine ⟨filled.plain, ?_, Nat.zero_le _, filled.apart, filled.below, fun c member => .inr (filled.below c member),
    filled.cover⟩
  rw [Layout.row]
  dsimp only
  split
  · assumption
  · exact filled.some

theorem Filled.place (filled : Filled style.spacing cells layout) {w h : Int}
    (index : layout.itemIndex < layout.widths.length) (wide : 0 ≤ w + style.spacing) {placed : Rect × Layout}
    (run : { layout with itemIndex := layout.itemIndex + 1 }.place style ⟨layout.position.x, layout.position.y, w, h⟩ =
      placed) : Filled style.spacing (cells ++ [placed.1]) placed.2 := by
  subst run
  rw [Layout.place]
  dsimp only
  refine ⟨filled.plain, filled.some, index, ?_, ?_, ?_, ?_⟩
  · rw [List.pairwise_append]
    refine ⟨filled.apart, List.pairwise_singleton _ _, ?_⟩
    intro a member b last
    rw [List.mem_singleton.mp last, Before]
    dsimp only
    have row := filled.row a member
    omega
  · simp only [List.forall_mem_append, List.forall_mem_singleton]
    refine ⟨fun a member => ?_, ?_⟩
    · have below := filled.below a member
      omega
    · omega
  · simp only [List.forall_mem_append, List.forall_mem_singleton]
    refine ⟨fun a member => ?_, ?_⟩
    · have row := filled.row a member
      omega
    · omega
  · simp only [List.forall_mem_append, List.forall_mem_singleton]
    refine ⟨fun a member => ?_, ?_⟩
    · have cover := filled.cover a member
      omega
    · omega

theorem Filled.cell (filled : Filled style.spacing cells layout) (wide : 0 ≤ (layout.cell style).1.w + style.spacing) :
    Filled style.spacing (cells ++ [(layout.cell style).1]) (layout.cell style).2 := by
  rw [Layout.cell, filled.plain] at wide ⊢
  dsimp only at wide ⊢
  split at wide
  · rename_i full
    rw [if_pos full] at ⊢
    have fresh := filled.newRow [] layout.size.y
    have index : (layout.row [] layout.size.y).itemIndex < (layout.row [] layout.size.y).widths.length :=
      List.length_pos_iff.mpr fresh.some
    exact fresh.place index wide rfl
  · rename_i room
    rw [if_neg room] at ⊢
    exact filled.place (Nat.lt_of_le_of_ne filled.index room) wide rfl

/-- A column that ends leaves the bottom of the stack as it is. -/
theorem layoutEndColumn_cases {rest : List Layout} (run : layoutEndColumn (layout :: rest) = .ok layouts) :
    ∃ rest', layouts = layout :: rest' := by
  obtain ⟨b, got, next⟩ := bind_ok run
  cases got
  cases rest with
  | nil => cases next
  | cons second others =>
    cases next
    simp

theorem LayoutOp.filled {rest : List Layout} {new : List Rect}
    (run : op.run style (layout :: rest) = .ok (new, layouts)) (wide : ∀ c ∈ new, 0 ≤ c.w + style.spacing)
    (filled : Filled style.spacing cells layout) :
    ∃ layout' rest', layouts = layout' :: rest' ∧ Filled style.spacing (cells ++ new) layout' := by
  cases op with
  | row widths h =>
    cases run
    rw [List.append_nil]
    exact ⟨_, _, rfl, filled.newRow widths h⟩
  | next =>
    cases run
    exact ⟨_, _, rfl, filled.cell (wide _ List.mem_cons_self)⟩
  | width w =>
    cases run
    rw [List.append_nil]
    exact ⟨_, _, rfl, filled.plain, filled.some, filled.index, filled.apart, filled.below, filled.row, filled.cover⟩
  | height h =>
    cases run
    rw [List.append_nil]
    exact ⟨_, _, rfl, filled.plain, filled.some, filled.index, filled.apart, filled.below, filled.row, filled.cover⟩
  | indent amount =>
    cases run
    rw [List.append_nil]
    exact ⟨_, _, rfl, filled.plain, filled.some, filled.index, filled.apart, filled.below, filled.row, filled.cover⟩
  | beginColumn =>
    cases run
    exact ⟨_, _, rfl, (filled.cell (wide _ List.mem_cons_self)).newRow [0] 0⟩
  | endColumn =>
    obtain ⟨after, ended, result⟩ := bind_ok run
    cases result
    obtain ⟨rest', rfl⟩ := layoutEndColumn_cases ended
    rw [List.append_nil]
    exact ⟨_, _, rfl, filled⟩

theorem runLayout_filled {rest : List Layout} {more : List Rect}
    (run : runLayout style ops (layout :: rest) = .ok (more, layouts)) (wide : ∀ c ∈ more, 0 ≤ c.w + style.spacing)
    (filled : Filled style.spacing cells layout) :
    ∃ layout' rest', layouts = layout' :: rest' ∧ Filled style.spacing (cells ++ more) layout' := by
  induction ops generalizing cells layout rest more with
  | nil =>
    cases run
    rw [List.append_nil]
    exact ⟨_, _, rfl, filled⟩
  | cons op ops ih =>
    obtain ⟨⟨new, middle⟩, first, next⟩ := bind_ok run
    obtain ⟨⟨later, last⟩, second, result⟩ := bind_ok next
    cases result
    rw [List.forall_mem_append] at wide
    obtain ⟨layout', rest', rfl, filled'⟩ := op.filled first wide.1 filled
    rw [← List.append_assoc]
    exact ih second wide.2 filled'

/-- Whatever rows, columns, sizes and indents a window asks for, its cells keep the spacing
of the style from each other, and the content that is measured for its scroll bars covers
all of them. -/
theorem cells_apart (body : Rect) (scroll : Vec2)
    (run : (pushLayout body scroll [] >>= runLayout style ops) = .ok (cells, layouts))
    (wide : ∀ c ∈ cells, 0 ≤ c.w + style.spacing) : cells.Pairwise (Before style.spacing) ∧
      ∃ layout rest, layouts = layout :: rest ∧ layout.itemIndex ≤ layout.widths.length ∧
        ∀ c ∈ cells, c.x + c.w ≤ layout.max.x ∧ c.y + c.h ≤ layout.max.y := by
  obtain ⟨start, pushed, second⟩ := bind_ok run
  cases pushed
  obtain ⟨layout, rest, rfl, filled⟩ := runLayout_filled second wide (.start _ rfl)
  exact ⟨filled.apart, layout, rest, rfl, filled.index, filled.cover⟩

theorem cells_apart_rows : [(⟨0, 0, 120, 20⟩ : Rect), ⟨124, 0, 276, 20⟩, ⟨0, 24, 120, 20⟩].Pairwise (Before 4) := by
  have run : (pushLayout ⟨0, 0, 400, 200⟩ ⟨0, 0⟩ [] >>=
      runLayout defaultStyle [.row [120, -1] 20, .next, .next, .next]) =
      .ok ([⟨0, 0, 120, 20⟩, ⟨124, 0, 276, 20⟩, ⟨0, 24, 120, 20⟩], _) := rfl
  exact (cells_apart ⟨0, 0, 400, 200⟩ ⟨0, 0⟩ run (by decide)).1

end UmkaOs.Microui
