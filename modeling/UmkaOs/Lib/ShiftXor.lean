import Mathlib.Dynamics.PeriodicPts.Lemmas

namespace UmkaOs.Lib

universe u

variable {w : Nat}

/-- Xor with an image of the word itself loses nothing when the image is taken by an
xor-linear map that is nilpotent: the kernel consists of the fixed points. -/
theorem xor_image_injective {image : BitVec w → BitVec w} (linear : ∀ x y, image (x ^^^ y) = image x ^^^ image y)
    {n : Nat} (nilpotent : ∀ x, image^[n] x = 0#w) : Function.Injective fun x => x ^^^ image x := by
  intro x y same
  dsimp only at same
  have kernel : (x ^^^ y) ^^^ image (x ^^^ y) = 0#w := by
    have sorted : x ^^^ y ^^^ (image x ^^^ image y) = x ^^^ image x ^^^ (y ^^^ image y) := by ac_rfl
    rw [linear, sorted, same]
    exact BitVec.xor_self
  have fixed : image (x ^^^ y) = x ^^^ y := (BitVec.xor_eq_zero_iff.mp kernel).symm
  rw [← BitVec.xor_eq_zero_iff, ← Function.iterate_fixed fixed n]
  exact nilpotent _

theorem iterate_shiftLeft (x : BitVec w) (shift n : Nat) :
    (fun y : BitVec w => y <<< shift)^[n] x = x <<< (shift * n) := by
  induction n with
  | zero => simp
  | succ n ih => rw [Function.iterate_succ_apply', ih, Nat.mul_succ, BitVec.shiftLeft_add]

theorem iterate_ushiftRight (x : BitVec w) (shift n : Nat) :
    (fun y : BitVec w => y >>> shift)^[n] x = x >>> (shift * n) := by
  induction n with
  | zero => simp
  | succ n ih => rw [Function.iterate_succ_apply', ih, Nat.mul_succ, BitVec.shiftRight_add]

/-- After as many positive shifts as the word has bits, nothing is left. -/
theorem xor_shiftLeft_injective {shift : Nat} (positive : 0 < shift) :
    Function.Injective fun x : BitVec w => x ^^^ x <<< shift :=
  xor_image_injective (fun x y => BitVec.shiftLeft_xor_distrib x y shift) (n := w) fun x => by
    rw [iterate_shiftLeft]
    exact BitVec.shiftLeft_eq_zero (Nat.le_mul_of_pos_left w positive)

theorem xor_ushiftRight_injective {shift : Nat} (positive : 0 < shift) :
    Function.Injective fun x : BitVec w => x ^^^ x >>> shift :=
  xor_image_injective (fun x y => BitVec.ushiftRight_xor_distrib x y shift) (n := w) fun x => by
    rw [iterate_ushiftRight]
    exact BitVec.ushiftRight_eq_zero (Nat.le_mul_of_pos_left w positive)

section Orbits

variable {α : Type u} {next : α → α} {start : α} {i n : Nat}

/-- The first state of an orbit that repeats an earlier one repeats the start. -/
theorem first_repeat (injective : Function.Injective next) (earlier : i < n) (repeats : next^[n] start = next^[i] start)
    (first : ∀ m, m < n → ∀ k, k < m → next^[m] start ≠ next^[k] start) : i = 0 := by
  by_contra later
  have returned : next^[n - i] start = next^[0] start := Function.iterate_cancel injective repeats
  exact first (n - i) (by omega) 0 (by omega) returned

/-- An injective function on a finite type comes back to every start. -/
theorem returns [Finite α] (injective : Function.Injective next) (start : α) : ∃ n, 0 < n ∧ next^[n] start = start :=
  Function.mem_periodicPts.mp (injective.mem_periodicPts start)

end Orbits

end UmkaOs.Lib
