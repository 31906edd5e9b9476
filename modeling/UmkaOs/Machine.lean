import Mathlib.Algebra.Group.Int.Defs
import Mathlib.Algebra.Group.Nat.Defs
import Mathlib.Logic.Function.Basic

/-! The 32-bit target: word arithmetic and the ways a run of the C code can
go wrong. Everything else is built on these. -/

namespace UmkaOs

/-- `size_t`, `uint32_t` and pointer arithmetic. -/
def wrap32 (n : Nat) : Nat := n % 2 ^ 32

/-- A 32-bit pattern read as a signed `int`. -/
def signed32 (n : Nat) : Int :=
  if wrap32 n < 2 ^ 31 then wrap32 n else (wrap32 n : Int) - 2 ^ 32

/-- Conversion of a mathematical integer to `int` (two's complement). -/
def toInt32 (i : Int) : Int := signed32 (i % 2 ^ 32).toNat

/-- Conversion to a 32-bit or 64-bit unsigned type. -/
def toUInt32 (i : Int) : Nat := (i % 2 ^ 32).toNat

def toUInt64 (i : Int) : Nat := (i % 2 ^ 64).toNat

def wrap64 (n : Nat) : Nat := n % 2 ^ 64

/-- A pattern of `bits` bits read as a signed integer. -/
def signed (bits n : Nat) : Int :=
  if n % 2 ^ bits < 2 ^ (bits - 1) then (n % 2 ^ bits : Nat) else ((n % 2 ^ bits : Nat) : Int) - 2 ^ bits

@[simp] theorem wrap32_of_lt (small : n < 2 ^ 32) : wrap32 n = n := Nat.mod_eq_of_lt small

theorem wrap32_lt (n : Nat) : wrap32 n < 2 ^ 32 := Nat.mod_lt _ (by omega)

theorem toInt32_of_range (low : -2 ^ 31 ≤ i) (high : i < 2 ^ 31) : toInt32 i = i := by
  unfold toInt32 signed32 wrap32
  by_cases nonneg : 0 ≤ i
  · rw [if_pos (by omega)]; omega
  · rw [if_neg (by omega)]; omega

theorem toInt32_range (i : Int) : -2 ^ 31 ≤ toInt32 i ∧ toInt32 i < 2 ^ 31 := by
  unfold toInt32 signed32 wrap32
  by_cases low : (i % 2 ^ 32).toNat % 2 ^ 32 < 2 ^ 31
  · rw [if_pos low]; omega
  · rw [if_neg low]; omega

theorem toInt32_emod (i : Int) : toInt32 i % 2 ^ 32 = i % 2 ^ 32 := by
  unfold toInt32 signed32 wrap32
  by_cases low : (i % 2 ^ 32).toNat % 2 ^ 32 < 2 ^ 31
  · rw [if_pos low]; omega
  · rw [if_neg low]; omega

theorem toInt32_congr (same : a % 2 ^ 32 = b % 2 ^ 32) : toInt32 a = toInt32 b := by rw [toInt32, toInt32, same]

/-- A difference that is added back, even if it wraps around. -/
theorem toInt32_add_sub (low : -2 ^ 31 ≤ b) (high : b < 2 ^ 31) : toInt32 (a + toInt32 (b - a)) = b := by
  have wraps := toInt32_emod (b - a)
  rw [toInt32_congr (b := b) (by omega), toInt32_of_range low high]

/-- Why a run stops without returning. `panic` halts the machine, the others
are undefined behaviour of the C code. -/
inductive Fault where
  /-- An `assert` or an explicit `panic`. -/
  | panic
  /-- A loop that never ends. -/
  | diverges
  /-- A null or freed pointer is dereferenced or freed. -/
  | dangling
  /-- An access past the end of a buffer. -/
  | overrun
  /-- An unset variable is read, or an argument that is missing or of another type. -/
  | undefined
  deriving DecidableEq, Repr

/-- A sequence returns if both parts do. -/
theorem bind_ok {ε α β : Type} {x : Except ε α} {f : α → Except ε β} {b : β} (run : (x >>= f) = .ok b) :
    ∃ a, x = .ok a ∧ f a = .ok b := by
  cases x with
  | error e => cases run
  | ok a => exact ⟨a, rfl, run⟩

end UmkaOs
