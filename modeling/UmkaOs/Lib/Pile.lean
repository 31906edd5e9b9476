import Mathlib.Data.List.Nodup

/-! A pile that is drawn from at its top. What is drawn goes to a stash, and when the
pile is empty, the shuffled stash becomes the pile. -/

namespace UmkaOs.Lib

universe u

variable {α : Type u} {p q r : List α × List α} {card : α} {cards table : List α}

/-- Drawing a card, from a pile with its stash to what they are afterwards. -/
inductive Drawn : List α × List α → α → List α × List α → Prop
  | top (card : α) (pile stash : List α) : Drawn (card :: pile, stash) card (pile, stash ++ [card])
  | refilled {card : α} {pile stash : List α} (shuffled : (card :: pile).Perm stash) :
      Drawn ([], stash) card (pile, [card])

/-- Drawing one card after the other. -/
inductive Draws : List α × List α → List α → List α × List α → Prop
  | none (p : List α × List α) : Draws p [] p
  | next {p q r : List α × List α} {card : α} {cards : List α} (drawn : Drawn p card q) (later : Draws q cards r) :
      Draws p (card :: cards) r

namespace Drawn

theorem perm (drawn : Drawn p card q) : (q.1 ++ q.2).Perm (p.1 ++ p.2) := by
  cases drawn with
  | top card pile stash =>
    rw [← List.append_assoc]
    exact List.perm_append_singleton card (pile ++ stash)
  | refilled shuffled => exact (List.perm_append_singleton _ _).trans shuffled

theorem mem (drawn : Drawn p card q) : card ∈ q.1 ++ q.2 := by
  cases drawn <;> simp

theorem pile_eq (drawn : Drawn p card q) (lasts : p.1 ≠ []) : p.1 = card :: q.1 := by
  cases drawn with
  | top => rfl
  | refilled => exact absurd rfl lasts

theorem length_succ (drawn : Drawn p card q) : q.1.length + 1 = (if p.1 = [] then p.2 else p.1).length := by
  cases drawn with
  | top => rfl
  | refilled shuffled => exact shuffled.length_eq

/-- The cards on the table, the one that is drawn and those left in the pile are apart
when they were before, unless the pile is refilled while cards are on the table. -/
theorem apart_iff (drawn : Drawn p card q) (distinct : (p.1 ++ p.2).Nodup) (owned : ∀ c ∈ table, c ∈ p.1 ++ p.2) :
    (table ++ card :: q.1).Nodup ↔ (table ++ p.1).Nodup ∧ (p.1 = [] → table = []) := by
  cases drawn with
  | top => exact ⟨fun apart => ⟨apart, fun empty => absurd empty (List.cons_ne_nil _ _)⟩, And.left⟩
  | @refilled _ pile stash shuffled =>
    have fresh : (card :: pile).Nodup := shuffled.nodup_iff.mpr (by simpa using distinct)
    constructor
    · intro apart
      have empty : table = [] := by
        apply List.eq_nil_iff_forall_not_mem.mpr
        intro c laid
        have again : c ∈ card :: pile := shuffled.mem_iff.mpr (by simpa using owned c laid)
        exact List.disjoint_of_nodup_append apart laid again
      exact ⟨by simp [empty], fun _ => empty⟩
    · rintro ⟨-, empty⟩
      rw [empty rfl]
      exact fresh

end Drawn

namespace Draws

theorem trans {more : List α} (front : Draws p cards q) (back : Draws q more r) : Draws p (cards ++ more) r := by
  induction front with
  | none => exact back
  | next drawn _ ih => exact .next drawn (ih back)

theorem single (drawn : Drawn p card q) : Draws p [card] q := .next drawn (.none q)

theorem perm (draws : Draws p cards q) : (q.1 ++ q.2).Perm (p.1 ++ p.2) := by
  induction draws with
  | none => exact .refl _
  | next drawn _ ih => exact ih.trans drawn.perm

theorem take (draws : Draws p cards q) {k : Nat} (drawn : k ≤ cards.length) (lasts : k ≤ p.1.length) :
    cards.take k = p.1.take k := by
  induction draws generalizing k with
  | none => simp_all
  | next first _ ih =>
    cases k with
    | zero => simp
    | succ k =>
      have top := first.pile_eq (by
        intro empty
        simp [empty] at lasts)
      rw [top, List.take_succ_cons, List.take_succ_cons]
      rw [top, List.length_cons] at lasts
      rw [List.length_cons] at drawn
      rw [ih (by omega) (by omega)]

/-- With cards on the table, the cards stay apart exactly while the pile lasts. -/
theorem apart_iff (draws : Draws p cards q) (distinct : (p.1 ++ p.2).Nodup) (owned : ∀ c ∈ table, c ∈ p.1 ++ p.2)
    (laid : table ≠ []) : (table ++ cards ++ q.1).Nodup ↔ (table ++ p.1).Nodup ∧ cards.length ≤ p.1.length := by
  induction draws generalizing table with
  | none => simp
  | @next p q r card cards drawn later ih =>
    have owned' : ∀ c ∈ table ++ [card], c ∈ q.1 ++ q.2 := by
      intro c member
      rcases List.mem_append.mp member with before | now
      · exact drawn.perm.mem_iff.mpr (owned c before)
      · rw [List.mem_singleton.mp now]
        exact drawn.mem
    have rest := ih (drawn.perm.nodup_iff.mpr distinct) owned' (by simp)
    have first := drawn.apart_iff distinct owned
    rw [List.append_assoc table [card] q.1, List.singleton_append, first] at rest
    rw [List.append_cons, rest]
    constructor
    · rintro ⟨⟨apart, empty⟩, length⟩
      have lasts : p.1 ≠ [] := fun none => laid (empty none)
      refine ⟨apart, ?_⟩
      rw [drawn.pile_eq lasts, List.length_cons, List.length_cons]
      omega
    · rintro ⟨apart, length⟩
      have lasts : p.1 ≠ [] := by
        intro none
        simp [none] at length
      rw [drawn.pile_eq lasts, List.length_cons, List.length_cons] at length
      exact ⟨⟨apart, fun none => absurd none lasts⟩, by omega⟩

/-- Onto an empty table the cards of one pile are drawn apart, also those of a fresh one. -/
theorem apart_empty_iff (draws : Draws p cards q) (distinct : (p.1 ++ p.2).Nodup) (some : cards ≠ []) :
    (cards ++ q.1).Nodup ↔ cards.length ≤ (if p.1 = [] then p.2 else p.1).length := by
  cases draws with
  | none => exact absurd rfl some
  | @next p q r card cards drawn later =>
    have distinct' := drawn.perm.nodup_iff.mpr distinct
    have owned : ∀ c ∈ [card], c ∈ q.1 ++ q.2 := by
      intro c member
      rw [List.mem_singleton.mp member]
      exact drawn.mem
    have first : ([] ++ card :: q.1).Nodup :=
      (drawn.apart_iff distinct (List.forall_mem_nil _)).mpr ⟨distinct.of_append_left, fun _ => rfl⟩
    have rest := later.apart_iff distinct' owned (List.cons_ne_nil _ _)
    rw [List.singleton_append, List.singleton_append] at rest
    rw [rest, ← drawn.length_succ, List.length_cons]
    constructor
    · rintro ⟨-, length⟩
      omega
    · intro length
      exact ⟨first, by omega⟩

end Draws

end UmkaOs.Lib
