import Mathlib.Logic.Equiv.Basic
import Mathlib.Order.Lattice
import Mathlib.Order.Interval.Set.Defs
import Mathlib.Data.List.Nodup

/-! Quicksort of a part of an array, with the last element as the pivot. An array is a
function on its indices, and both bounds of a part belong to it. -/

namespace UmkaOs.Lib

universe u v

variable {α : Type u} {κ : Type v} [LinearOrder κ] (key : α → κ)

def swap (a : Nat → α) (i j : Nat) : Nat → α := a ∘ Equiv.swap i j

/-- The loop over the next `left` elements from `j` on; what is below the pivot is moved
to `k`. -/
def partitionLoop (key : α → κ) (pivot : κ) : Nat → (Nat → α) → Nat → Nat → (Nat → α) × Nat
  | 0, a, k, _ => (a, k)
  | left + 1, a, k, j =>
    if key (a j) < pivot then partitionLoop key pivot left (swap a k j) (k + 1) (j + 1)
    else partitionLoop key pivot left a k (j + 1)

def partition (key : α → κ) (a : Nat → α) (lo hi : Nat) : (Nat → α) × Nat :=
  let r := partitionLoop key (key (a hi)) (hi - lo) a lo lo
  (swap r.1 r.2 hi, r.2)

theorem partitionLoop_index (pivot : κ) (left : Nat) (a : Nat → α) (k j : Nat) :
    k ≤ (partitionLoop key pivot left a k j).2 ∧ (partitionLoop key pivot left a k j).2 ≤ k + left := by
  induction left generalizing a k j with
  | zero => exact ⟨Nat.le_refl k, Nat.le_refl k⟩
  | succ left ih =>
    rw [partitionLoop]
    split
    · obtain ⟨low, high⟩ := ih (swap a k j) (k + 1) (j + 1)
      omega
    · obtain ⟨low, high⟩ := ih a k (j + 1)
      omega

theorem partition_index (a : Nat → α) {lo hi : Nat} (some : lo < hi) :
    lo ≤ (partition key a lo hi).2 ∧ (partition key a lo hi).2 ≤ hi := by
  obtain ⟨low, high⟩ := partitionLoop_index key (key (a hi)) (hi - lo) a lo lo
  exact ⟨low, by rw [partition]; omega⟩

def quicksort (key : α → κ) (a : Nat → α) (lo hi : Nat) : Nat → α :=
  if some : lo < hi then
    let r := partition key a lo hi
    have index := partition_index key a some
    quicksort key (quicksort key r.1 lo (r.2 - 1)) (r.2 + 1) hi
  else a
termination_by hi - lo

/-- The same elements in another order between the bounds, and nothing else changed. -/
def Rearranged (lo hi : Nat) (a b : Nat → α) : Prop :=
  ∃ σ : Equiv.Perm Nat, (∀ i, i < lo ∨ hi < i → σ i = i) ∧ b = a ∘ σ

namespace Rearranged

variable {a b c : Nat → α} {lo hi lo' hi' i j : Nat}

theorem refl (a : Nat → α) : Rearranged lo hi a a := ⟨Equiv.refl Nat, fun _ _ => rfl, rfl⟩

theorem trans (first : Rearranged lo hi a b) (second : Rearranged lo hi b c) : Rearranged lo hi a c := by
  obtain ⟨σ, fixed, rfl⟩ := first
  obtain ⟨τ, fixed', rfl⟩ := second
  refine ⟨τ.trans σ, ?_, rfl⟩
  intro i outside
  rw [Equiv.trans_apply, fixed' i outside, fixed i outside]

theorem widen (part : Rearranged lo hi a b) (low : lo' ≤ lo) (high : hi ≤ hi') : Rearranged lo' hi' a b := by
  obtain ⟨σ, fixed, same⟩ := part
  exact ⟨σ, fun i outside => fixed i (by omega), same⟩

theorem swap (first : lo ≤ i) (last : i ≤ hi) (first' : lo ≤ j) (last' : j ≤ hi) :
    Rearranged lo hi a (Lib.swap a i j) :=
  ⟨Equiv.swap i j, fun _ outside => Equiv.swap_apply_of_ne_of_ne (by omega) (by omega), rfl⟩

theorem outside (part : Rearranged lo hi a b) (away : i < lo ∨ hi < i) : b i = a i := by
  obtain ⟨σ, fixed, rfl⟩ := part
  rw [Function.comp_apply, fixed i away]

/-- What stands between the bounds stood between them before. -/
theorem origin (part : Rearranged lo hi a b) (low : lo ≤ i) (high : i ≤ hi) : ∃ j, lo ≤ j ∧ j ≤ hi ∧ b i = a j := by
  obtain ⟨σ, fixed, rfl⟩ := part
  refine ⟨σ i, ?_, ?_, rfl⟩
  · by_contra below
    have moved := fixed (σ i) (by omega)
    have same := σ.injective moved
    omega
  · by_contra above
    have moved := fixed (σ i) (by omega)
    have same := σ.injective moved
    omega

theorem next (part : Rearranged lo (i - 1) a b) : b i = a i := by
  cases i with
  | zero =>
    by_cases first : lo = 0
    · obtain ⟨j, _, high, same⟩ := part.origin (Nat.le_of_eq first) (Nat.zero_le _)
      rw [same, show j = 0 by omega]
    · exact part.outside (by omega)
  | succ i => exact part.outside (by omega)

end Rearranged

def SortedOn (key : α → κ) (lo hi : Nat) (a : Nat → α) : Prop :=
  ∀ i j, lo ≤ i → i ≤ j → j ≤ hi → key (a i) ≤ key (a j)

/-- The part up to `k` is below the pivot, the part from there to `j` is not. -/
theorem partitionLoop_spec (pivot : κ) {left : Nat} {a : Nat → α} {lo k j hi : Nat} (rest : j + left = hi)
    (start : lo ≤ k) (order : k ≤ j) (below : ∀ i, lo ≤ i → i < k → key (a i) < pivot)
    (above : ∀ i, k ≤ i → i < j → pivot ≤ key (a i)) :
    Rearranged lo (hi - 1) a (partitionLoop key pivot left a k j).1 ∧
      (∀ i, lo ≤ i → i < (partitionLoop key pivot left a k j).2 →
        key ((partitionLoop key pivot left a k j).1 i) < pivot) ∧
      ∀ i, (partitionLoop key pivot left a k j).2 ≤ i → i < hi →
        pivot ≤ key ((partitionLoop key pivot left a k j).1 i) := by
  induction left generalizing a k j with
  | zero => exact ⟨.refl a, below, by rw [← rest]; exact above⟩
  | succ left ih =>
    rw [partitionLoop]
    split
    · rename_i small
      have at_k : swap a k j k = a j := congrArg a (Equiv.swap_apply_left k j)
      have elsewhere : ∀ i, i ≠ k → i ≠ j → swap a k j i = a i := fun i other other' =>
        congrArg a (Equiv.swap_apply_of_ne_of_ne other other')
      have below' : ∀ i, lo ≤ i → i < k + 1 → key (swap a k j i) < pivot := by
        intro i low high
        by_cases last : i = k
        · rw [last, at_k]
          exact small
        · rw [elsewhere i last (by omega)]
          exact below i low (by omega)
      have above' : ∀ i, k + 1 ≤ i → i < j + 1 → pivot ≤ key (swap a k j i) := by
        intro i low high
        by_cases last : i = j
        · have at_j : swap a k j j = a k := congrArg a (Equiv.swap_apply_right k j)
          rw [last, at_j]
          exact above k (Nat.le_refl k) (by omega)
        · rw [elsewhere i (by omega) last]
          exact above i (by omega) (by omega)
      obtain ⟨moved, low, high⟩ := ih (by omega) (by omega) (by omega) below' above'
      exact ⟨(Rearranged.swap start (by omega) (by omega) (by omega)).trans moved, low, high⟩
    · rename_i large
      apply ih (by omega) start (by omega) below
      intro i low high
      by_cases last : i = j
      · rw [last]
        exact le_of_not_gt large
      · exact above i low (by omega)

/-- The pivot stands between what is below it and what is not. -/
theorem partition_spec (a : Nat → α) {lo hi : Nat} (some : lo < hi) :
    Rearranged lo hi a (partition key a lo hi).1 ∧
      (∀ i, lo ≤ i → i < (partition key a lo hi).2 →
        key ((partition key a lo hi).1 i) < key ((partition key a lo hi).1 (partition key a lo hi).2)) ∧
      ∀ i, (partition key a lo hi).2 ≤ i → i ≤ hi →
        key ((partition key a lo hi).1 (partition key a lo hi).2) ≤ key ((partition key a lo hi).1 i) := by
  have index := partition_index key a some
  obtain ⟨moved, below, above⟩ := partitionLoop_spec key (key (a hi)) (a := a) (show lo + (hi - lo) = hi by omega)
    (Nat.le_refl lo) (Nat.le_refl lo) (fun i low high => absurd high (by omega))
    (fun i low high => absurd high (by omega))
  rw [partition] at index ⊢
  generalize partitionLoop key (key (a hi)) (hi - lo) a lo lo = r at *
  dsimp only at index ⊢
  have last : r.1 hi = a hi := moved.outside (by omega)
  have pivot : swap r.1 r.2 hi r.2 = a hi := (congrArg r.1 (Equiv.swap_apply_left r.2 hi)).trans last
  have elsewhere : ∀ i, i ≠ r.2 → i ≠ hi → swap r.1 r.2 hi i = r.1 i := fun i other other' =>
    congrArg r.1 (Equiv.swap_apply_of_ne_of_ne other other')
  refine ⟨(moved.widen (Nat.le_refl lo) (by omega)).trans (.swap index.1 index.2 (by omega) (Nat.le_refl hi)), ?_, ?_⟩
  · intro i low high
    rw [pivot, elsewhere i (by omega) (by omega)]
    exact below i low high
  · intro i low high
    rw [pivot]
    by_cases first : i = r.2
    · rw [first, pivot]
    · by_cases final : i = hi
      · have at_hi : swap r.1 r.2 hi hi = r.1 r.2 := congrArg r.1 (Equiv.swap_apply_right r.2 hi)
        rw [final, at_hi]
        exact above r.2 (Nat.le_refl r.2) (by omega)
      · rw [elsewhere i first final]
        exact above i low (by omega)

theorem sortedOn_parts {a b c : Nat → α} {lo p hi : Nat}
    (below : ∀ i, lo ≤ i → i < p → key (a i) < key (a p)) (above : ∀ i, p ≤ i → i ≤ hi → key (a p) ≤ key (a i))
    (left : Rearranged lo (p - 1) a b) (sortedLeft : SortedOn key lo (p - 1) b)
    (right : Rearranged (p + 1) hi b c) (sortedRight : SortedOn key (p + 1) hi c) : SortedOn key lo hi c := by
  have pivot : c p = a p := (right.outside (by omega)).trans left.next
  have before : ∀ i, lo ≤ i → i < p → c i = b i ∧ key (c i) ≤ key (a p) := by
    intro i first last
    have same : c i = b i := right.outside (by omega)
    obtain ⟨j, first', last', origin⟩ := left.origin first (by omega)
    rw [same, origin]
    exact ⟨rfl, le_of_lt (below j first' (by omega))⟩
  have after : ∀ i, p < i → i ≤ hi → key (a p) ≤ key (c i) := by
    intro i first last
    obtain ⟨j, first', last', origin⟩ := right.origin first last
    rw [origin, left.outside (by omega)]
    exact above j (by omega) last'
  intro i j first order last
  rcases Nat.lt_trichotomy j p with earlier | same | later
  · rw [(before i first (by omega)).1, (before j (by omega) earlier).1]
    exact sortedLeft i j first order (by omega)
  · rw [same, pivot]
    rcases Nat.lt_or_eq_of_le order with earlier | equal
    · exact (before i first (by omega)).2
    · rw [equal, same, pivot]
  · rcases Nat.lt_trichotomy i p with earlier | same | later'
    · exact le_trans (before i first earlier).2 (after j later last)
    · rw [same, pivot]
      exact after j later last
    · exact sortedRight i j later' order last

/-- Quicksort rearranges the part between the bounds and sorts it. -/
theorem quicksort_spec (key : α → κ) (a : Nat → α) (lo hi : Nat) :
    Rearranged lo hi a (quicksort key a lo hi) ∧ SortedOn key lo hi (quicksort key a lo hi) := by
  induction a, lo, hi using quicksort.induct key with
  | case1 a lo hi some r index left _ right =>
    rw [quicksort, dif_pos some]
    obtain ⟨moved, below, above⟩ := partition_spec key a some
    refine ⟨(moved.trans (left.1.widen (Nat.le_refl lo) ?_)).trans (right.1.widen ?_ (Nat.le_refl hi)), ?_⟩
    · exact Nat.le_trans (Nat.sub_le _ _) index.2
    · exact Nat.le_succ_of_le index.1
    · exact sortedOn_parts key below above left.1 left.2 right.1 right.2
  | case2 a lo hi none =>
    rw [quicksort, dif_neg none]
    refine ⟨.refl a, ?_⟩
    intro i j low order high
    rw [show i = j by omega]

/-- Read out as a list, a rearranged array has the same elements. -/
theorem Rearranged.perm {a b : Nat → α} {n : Nat} (part : Rearranged 0 (n - 1) a b) :
    ((List.range n).map b).Perm ((List.range n).map a) := by
  obtain ⟨σ, fixed, rfl⟩ := part
  have inside : ∀ i, i < n → σ i < n := by
    intro i low
    by_contra high
    have same := σ.injective (fixed (σ i) (by omega))
    omega
  have inside' : ∀ i, i < n → σ.symm i < n := by
    intro i low
    by_contra high
    have same := fixed (σ.symm i) (by omega)
    rw [Equiv.apply_symm_apply] at same
    omega
  rw [← List.map_map]
  apply List.Perm.map
  rw [List.perm_ext_iff_of_nodup (List.Nodup.map σ.injective List.nodup_range) List.nodup_range]
  intro i
  rw [List.mem_map, List.mem_range]
  constructor
  · rintro ⟨k, low, rfl⟩
    exact inside k (List.mem_range.mp low)
  · intro low
    exact ⟨σ.symm i, List.mem_range.mpr (inside' i low), σ.apply_symm_apply i⟩

/-- A list is sorted by sorting the array of its elements. -/
theorem quicksort_list (key : α → κ) (l : List α) (default : α) :
    let sorted := (List.range l.length).map (quicksort key (fun i => l.getD i default) 0 (l.length - 1))
    sorted.Perm l ∧ sorted.Pairwise fun x y => key x ≤ key y := by
  obtain ⟨moved, sorted⟩ := quicksort_spec key (fun i => l.getD i default) 0 (l.length - 1)
  have whole : (List.range l.length).map (fun i => l.getD i default) = l := by
    apply List.ext_getElem
    · simp
    · intro i _ inside
      simp [inside]
  constructor
  · exact moved.perm.trans (.of_eq whole)
  · rw [List.pairwise_map]
    apply List.Pairwise.imp_of_mem _ List.pairwise_lt_range
    intro i j first second order
    exact sorted i j (Nat.zero_le i) (Nat.le_of_lt order) (by have last := List.mem_range.mp second; omega)

end UmkaOs.Lib
