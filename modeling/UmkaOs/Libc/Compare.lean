import UmkaOs.Libc.Model
import UmkaOs.Lib.Agree

namespace UmkaOs.Libc

open Lib

variable {a b : CString} {n i t left : Nat} {s1 s2 : List UInt8} {x y c : UInt8}

theorem charOf_eq (c : UInt8) : charOf c = if c.toNat < 128 then (c.toNat : Int) else c.toNat - 256 := by
  have byte := c.toNat_lt
  have small : c.toNat % 256 = c.toNat := Nat.mod_eq_of_lt byte
  simp [charOf, signed, small]

theorem charOf_inj : charOf x = charOf y ↔ x = y := by
  constructor
  · intro same
    have byteX := x.toNat_lt
    have byteY := y.toNat_lt
    rw [charOf_eq, charOf_eq] at same
    apply UInt8.toNat_inj.mp
    split at same <;> split at same <;> omega
  · rintro rfl
    rfl

theorem getD_zero (a : CString) : a.headD 0 = a.getD 0 0 := by cases a <;> rfl

theorem strcmp_eq (plainA : 0 ∉ a) (plainB : 0 ∉ b) :
    strcmp a b = charOf (a.getD (agree a b) 0) - charOf (b.getD (agree a b) 0) := by
  induction a generalizing b with
  | nil =>
    rw [strcmp, agree_nil_left, getD_zero]
    rfl
  | cons x a ih =>
    rw [strcmp]
    cases b with
    | nil =>
      rw [if_neg (fun all => all.2.1 rfl)]
      rfl
    | cons y b =>
      have someX : x ≠ 0 := fun none => plainA (none ▸ List.mem_cons_self)
      have someY : y ≠ 0 := fun none => plainB (none ▸ List.mem_cons_self)
      have later := @ih b (fun member => plainA (List.mem_cons_of_mem _ member))
        (fun member => plainB (List.mem_cons_of_mem _ member))
      by_cases same : x = y
      · rw [if_pos ⟨someX, someY, same⟩, agree_cons, if_pos same]
        exact later
      · rw [if_neg (fun all => same all.2.2), agree_cons, if_neg same]
        rfl

theorem strcmp_eq_zero (plainA : 0 ∉ a) (plainB : 0 ∉ b) : strcmp a b = 0 ↔ a = b := by
  rw [strcmp_eq plainA plainB, Int.sub_eq_zero, charOf_inj]
  constructor
  · intro same
    by_contra differ
    exact getD_agree_ne plainA plainB differ same
  · rintro rfl
    rfl

theorem strncmpEnd_eq (size : n < 2 ^ 32) (x y : UInt8) :
    strncmpEnd x y (wrap32 (n + (2 ^ 32 - 1))) = if n = 1 then 0 else charOf x - charOf y := by
  rw [strncmpEnd, wrap32]
  by_cases one : n = 1
  · rw [if_pos one, if_neg (by omega)]
  · rw [if_neg one, if_pos (by omega)]

theorem strncmp_stop (size : n < 2 ^ 32) (ends : n = 0 ∨ agree a b = 0) (plainA : 0 ∉ a) (plainB : 0 ∉ b) :
    strncmp a b n = if n = 1 then 0 else charOf (a.getD 0 0) - charOf (b.getD 0 0) := by
  cases a with
  | nil =>
    rw [strncmp, strncmpEnd_eq size, getD_zero]
    rfl
  | cons x a =>
    have stops : ¬ (n ≠ 0 ∧ x ≠ 0 ∧ b.headD 0 ≠ 0 ∧ x = b.headD 0) := by
      rintro ⟨some, _, more, same⟩
      cases b with
      | nil => exact more rfl
      | cons y b =>
        have alike : x = y := same
        rcases ends with none | none
        · exact some none
        · rw [agree_cons, if_pos alike] at none
          cases none
    rw [strncmp, if_neg stops, strncmpEnd_eq size, getD_zero]
    rfl

theorem strncmp_step (some : x ≠ 0) (size : n + 1 < 2 ^ 32) : strncmp (x :: a) (x :: b) (n + 1) = strncmp a b n := by
  have less : wrap32 (n + 1 + (2 ^ 32 - 1)) = n := by
    rw [wrap32]
    omega
  rw [strncmp, if_pos ⟨Nat.succ_ne_zero n, some, some, rfl⟩, less]
  rfl

/-- The counter decides up to the place where the strings part and one byte
behind it. -/
theorem strncmp_eq (plainA : 0 ∉ a) (plainB : 0 ∉ b) (size : n < 2 ^ 32) : strncmp a b n =
    if n = agree a b + 1 then 0
    else charOf (a.getD (min n (agree a b)) 0) - charOf (b.getD (min n (agree a b)) 0) := by
  induction n generalizing a b with
  | zero =>
    rw [strncmp_stop size (.inl rfl) plainA plainB, if_neg (by omega), if_neg (by omega), Nat.zero_min]
  | succ n ih =>
    by_cases part : agree a b = 0
    · rw [strncmp_stop size (.inr part) plainA plainB, part, Nat.min_zero]
    · obtain ⟨x, a, b, rfl, rfl⟩ : ∃ x a' b', a = x :: a' ∧ b = x :: b' := by
        cases a with
        | nil => exact absurd rfl part
        | cons x a =>
          cases b with
          | nil => exact absurd rfl part
          | cons y b =>
            by_cases same : x = y
            · exact ⟨x, a, b, rfl, by rw [same]⟩
            · exact absurd (if_neg same) part
      have someX : x ≠ 0 := fun none => plainA (none ▸ List.mem_cons_self)
      have next : min (n + 1) (agree a b + 1) = min n (agree a b) + 1 := by omega
      rw [strncmp_step someX size, ih (fun member => plainA (List.mem_cons_of_mem _ member))
        (fun member => plainB (List.mem_cons_of_mem _ member)) (by omega), agree_cons, if_pos rfl, next,
        List.getD_cons_succ, List.getD_cons_succ]
      simp only [Nat.add_right_cancel_iff]

/-- What `strncmp` promises: the sign of `strcmp` on the cut strings, zero for
those that are the same. -/
structure BoundedLaw (a b : CString) (n : Nat) : Prop where
  sign : (strncmp a b n).sign = (strcmp (a.take n) (b.take n)).sign
  zero : strncmp a b n = 0 ↔ a.take n = b.take n

theorem plain_take (plain : 0 ∉ a) (n : Nat) : 0 ∉ a.take n := fun member => plain (List.mem_of_mem_take member)

/-- Away from the first difference the cut strings are compared as they should be. -/
theorem strncmp_cut (plainA : 0 ∉ a) (plainB : 0 ∉ b) (size : n < 2 ^ 32)
    (away : a = b ∨ n ≠ agree a b ∧ n ≠ agree a b + 1) : strncmp a b n = strcmp (a.take n) (b.take n) := by
  rw [strncmp_eq plainA plainB size]
  rcases away with same | ⟨notThere, notBehind⟩
  · subst same
    rw [(strcmp_eq_zero (plain_take plainA n) (plain_take plainA n)).mpr rfl, Int.sub_self, ite_self]
  · rw [if_neg notBehind]
    rcases Nat.lt_or_gt_of_ne notThere with before | behind
    · have cut := take_eq_take_iff.mpr (.inr (Nat.le_of_lt before) : a = b ∨ n ≤ agree a b)
      rw [(strcmp_eq_zero (plain_take plainA n) (plain_take plainB n)).mpr cut, Nat.min_eq_left (Nat.le_of_lt before),
        getD_agree 0 before, Int.sub_self]
    · have kept : ∀ c : CString, (c.take n).getD (agree a b) 0 = c.getD (agree a b) 0 := by
        intro c
        simp only [List.getD_eq_getElem?_getD, List.getElem?_take, behind, if_true]
      rw [strcmp_eq (plain_take plainA n) (plain_take plainB n), agree_take, Nat.min_eq_right (Nat.le_of_lt behind),
        kept, kept]

/-- `strncmp` keeps its promise exactly when the count does not run out at the
first difference: in front of it or right behind it. -/
theorem strncmp_bounded (plainA : 0 ∉ a) (plainB : 0 ∉ b) (size : n < 2 ^ 32) :
    BoundedLaw a b n ↔ a = b ∨ n ≠ agree a b ∧ n ≠ agree a b + 1 := by
  constructor
  · intro law
    by_contra fails
    have differ : a ≠ b := fun same => fails (.inl same)
    have zero := law.zero
    rw [strncmp_eq plainA plainB size, take_eq_take_iff] at zero
    by_cases behind : n = agree a b + 1
    · rw [if_pos behind] at zero
      rcases zero.mp rfl with same | reach
      · exact differ same
      · omega
    · have there : n = agree a b := by
        by_contra away
        exact fails (.inr ⟨away, behind⟩)
      rw [if_neg behind, there, Nat.min_self, Int.sub_eq_zero, charOf_inj] at zero
      exact getD_agree_ne plainA plainB differ (zero.mpr (.inr (Nat.le_refl _)))
  · intro away
    have cut := strncmp_cut plainA plainB size away
    exact ⟨by rw [cut], by rw [cut, strcmp_eq_zero (plain_take plainA n) (plain_take plainB n)]⟩

theorem strncmp_bounded_letters : BoundedLaw [97, 98, 99] [97, 98, 100] 5 :=
  (strncmp_bounded (by decide) (by decide) (by decide)).mpr (.inr (by decide))

/-- `strncmp("abc", "abd", 3)` is 0, and `strncmp("a", "b", 0)` is not. -/
theorem strncmp_last_byte : strncmp [97, 98, 99] [97, 98, 100] 3 = 0 ∧ strcmp [97, 98, 99] [97, 98, 100] = -1 ∧
    strncmp [97] [98] 0 = -1 ∧ ¬ BoundedLaw [97, 98, 99] [97, 98, 100] 3 := by
  refine ⟨by decide, by decide, by decide, fun law => ?_⟩
  have sign := law.sign
  revert sign
  decide

/-- Bytes that are alike up to here make the loop go on, as long as an `int` can count them. -/
theorem memcmpLoop_same (low : i < 2 ^ 31)
    (same : ∀ k, i ≤ k → k < i + t → ∃ c, s1[k]? = some c ∧ s2[k]? = some c) (left : Nat) :
    memcmpLoop s1 s2 (t + left) i = if i + t < 2 ^ 31 then memcmpLoop s1 s2 left (i + t) else .error .undefined := by
  induction t generalizing i with
  | zero => rw [Nat.zero_add, Nat.add_zero, if_pos low]
  | succ t ih =>
    obtain ⟨c, one, two⟩ := same i (Nat.le_refl i) (by omega)
    have more : t + 1 + left = t + left + 1 := by omega
    rw [more, memcmpLoop, one, two]
    simp only [ne_eq, not_true, if_false]
    by_cases last : i + 1 = 2 ^ 31
    · rw [if_pos last, if_neg (by omega)]
    · have next : i + 1 + t = i + (t + 1) := by omega
      rw [if_neg last, ih (by omega) (fun k first before => same k (by omega) (by omega)), next]

/-- How many bytes are compared without a difference, the terminators included. -/
def compared (a b : CString) : Nat := if a = b then a.length + 1 else agree a b

theorem getElem?_terminated (inside : i ≤ a.length) : (a ++ [0])[i]? = some (a.getD i 0) := by
  rcases Nat.lt_or_eq_of_le inside with before | rfl
  · rw [List.getElem?_append_left before, List.getD_eq_getElem?_getD, List.getElem?_eq_getElem before]
    rfl
  · rw [List.getElem?_append_right (Nat.le_refl _), Nat.sub_self, List.getD_eq_getElem?_getD,
      List.getElem?_eq_none (Nat.le_refl _)]
    rfl

theorem memcmp_eq (plainA : 0 ∉ a) (plainB : 0 ∉ b) :
    memcmp (a ++ [0]) (b ++ [0]) (min a.length b.length + 1) = if compared a b < 2 ^ 31 then
      .ok (((a.getD (agree a b) 0).toNat : Int) - (b.getD (agree a b) 0).toNat) else .error .undefined := by
  have insideA := agree_le a b
  have insideB : agree a b ≤ b.length := agree_comm a b ▸ agree_le b a
  have alike : ∀ k, 0 ≤ k → k < 0 + agree a b → ∃ c, (a ++ [0])[k]? = some c ∧ (b ++ [0])[k]? = some c := by
    intro k _ before
    rw [Nat.zero_add] at before
    refine ⟨_, getElem?_terminated (by omega), ?_⟩
    rw [getElem?_terminated (by omega), getD_agree 0 before]
  obtain ⟨left, turns⟩ : ∃ left, min a.length b.length + 1 = agree a b + (left + 1) :=
    ⟨min a.length b.length - agree a b, by omega⟩
  rw [memcmp, turns, memcmpLoop_same (by decide) alike, Nat.zero_add, memcmpLoop, getElem?_terminated insideA,
    getElem?_terminated insideB, compared]
  by_cases same : a = b
  · subst same
    have none : left = 0 := by
      rw [agree_self] at turns
      omega
    subst none
    simp only [ne_eq, not_true, if_false, if_true, memcmpLoop, Int.sub_self, agree_self]
    by_cases small : a.length + 1 < 2 ^ 31
    · rw [if_pos (by omega), if_neg (by omega), if_pos small]
    · rw [if_neg small]
      split
      · rw [if_pos (by omega)]
      · rfl
  · have differ := getD_agree_ne plainA plainB same
    simp only [ne_eq, differ, not_false_eq_true, if_true, same, if_false]

/-- `strcmp` and `memcmp` agree, and the order is that of unsigned bytes. -/
structure OneOrder (a b : CString) : Prop where
  agrees : ∃ r, memcmp (a ++ [0]) (b ++ [0]) (min a.length b.length + 1) = .ok r ∧ (strcmp a b).sign = r.sign
  less : strcmp a b < 0 ↔ a < b
  same : strcmp a b = 0 ↔ a = b
  greater : 0 < strcmp a b ↔ b < a

/-- Both bytes are ASCII, or neither is. -/
def SameSide (x y : UInt8) : Prop := x.toNat < 128 ↔ y.toNat < 128

instance : Decidable (SameSide x y) := inferInstanceAs (Decidable (_ ↔ _))

theorem sub_sign (x y : Int) : (x - y < 0 ↔ x < y) ∧ (0 < x - y ↔ y < x) := by omega

/-- Signed and unsigned bytes are ordered alike on either side of 128. -/
theorem charOf_lt_iff (side : SameSide x y) : charOf x < charOf y ↔ x < y := by
  have byteX := x.toNat_lt
  have byteY := y.toNat_lt
  rw [SameSide] at side
  rw [charOf_eq, charOf_eq, UInt8.lt_iff_toNat_lt]
  split <;> split <;> omega

theorem sameSide_of_lt (alike : charOf x < charOf y ↔ x < y) (differ : x ≠ y) : SameSide x y := by
  have byteX := x.toNat_lt
  have byteY := y.toNat_lt
  have numbers : x.toNat ≠ y.toNat := fun same => differ (UInt8.toNat_inj.mp same)
  rw [charOf_eq, charOf_eq, UInt8.lt_iff_toNat_lt] at alike
  rw [SameSide]
  split at alike <;> split at alike <;> omega

theorem sign_eq_of_lt {v w : Int} (low : v < 0 ↔ w < 0) (high : 0 < v ↔ 0 < w) : v.sign = w.sign := by
  rcases Int.lt_trichotomy v 0 with negative | none | positive
  · rw [Int.sign_eq_neg_one_of_neg negative, Int.sign_eq_neg_one_of_neg (low.mp negative)]
  · have zero : w = 0 := by omega
    rw [none, zero]
  · rw [Int.sign_eq_one_of_pos positive, Int.sign_eq_one_of_pos (high.mp positive)]

/-- The terminator is the least byte, so strings are ordered by their first difference. -/
theorem lt_iff_first (plainA : 0 ∉ a) (plainB : 0 ∉ b) :
    a < b ↔ a.getD (agree a b) 0 < b.getD (agree a b) 0 := by
  have nonzero : ∀ {c : CString}, 0 ∉ c → ∀ x ∈ c, (0 : UInt8) < x := by
    intro c plain x member
    have some : x ≠ 0 := fun none => plain (none ▸ member)
    exact UInt8.pos_iff_ne_zero.mpr some
  exact lt_iff_agree (fun x y => UInt8.lt_asymm) (nonzero plainA) (nonzero plainB)

theorem strcmp_signs (plainA : 0 ∉ a) (plainB : 0 ∉ b) :
    (strcmp a b < 0 ↔ charOf (a.getD (agree a b) 0) < charOf (b.getD (agree a b) 0)) ∧
      (0 < strcmp a b ↔ charOf (b.getD (agree a b) 0) < charOf (a.getD (agree a b) 0)) := by
  rw [strcmp_eq plainA plainB]
  exact sub_sign _ _

/-- The strings compare as unsigned bytes exactly if their first difference lies on
one side of 128; `memcmp` can tell as long as its `int` index gets there. -/
theorem one_order (plainA : 0 ∉ a) (plainB : 0 ∉ b) : OneOrder a b ↔
    (a = b ∨ SameSide (a.getD (agree a b) 0) (b.getD (agree a b) 0)) ∧ compared a b < 2 ^ 31 := by
  have less := lt_iff_first plainA plainB
  have greater := lt_iff_first plainB plainA
  rw [agree_comm b a] at greater
  have signs := strcmp_signs plainA plainB
  constructor
  · intro law
    refine ⟨?_, ?_⟩
    · by_cases same : a = b
      · exact .inl same
      · refine .inr (sameSide_of_lt ?_ (getD_agree_ne plainA plainB same))
        rw [← signs.1, law.less, less]
    · obtain ⟨r, run, _⟩ := law.agrees
      rw [memcmp_eq plainA plainB] at run
      split at run
      · assumption
      · cases run
  · rintro ⟨side, small⟩
    have side : SameSide (a.getD (agree a b) 0) (b.getD (agree a b) 0) := by
      rcases side with same | side
      · rw [same]
        exact Iff.rfl
      · exact side
    have below : strcmp a b < 0 ↔ a < b := by rw [signs.1, charOf_lt_iff side, less]
    have above : 0 < strcmp a b ↔ b < a := by rw [signs.2, charOf_lt_iff side.symm, greater]
    have run := memcmp_eq plainA plainB
    rw [if_pos small] at run
    refine ⟨⟨_, run, sign_eq_of_lt ?_ ?_⟩, below, strcmp_eq_zero plainA plainB, above⟩
    · rw [below, less, (sub_sign _ _).1, Int.ofNat_lt, UInt8.lt_iff_toNat_lt]
    · rw [above, greater, (sub_sign _ _).2, Int.ofNat_lt, UInt8.lt_iff_toNat_lt]

theorem one_order_prefix : OneOrder [97] [97, 98] :=
  (one_order (by decide) (by decide)).mpr ⟨.inr (by decide), by decide⟩

/-- Byte 128 comes in front of byte 1 for `strcmp`, and behind it for `memcmp`. -/
theorem high_byte_first : strcmp [128] [1] = -129 ∧ memcmp [128, 0] [1, 0] 2 = .ok 127 ∧ ¬ OneOrder [128] [1] := by
  have less : strcmp [128] [1] = -129 := by decide
  refine ⟨less, by decide, fun law => ?_⟩
  have order := law.less
  rw [less] at order
  exact absurd (order.mp (by decide)) (by decide)

end UmkaOs.Libc
