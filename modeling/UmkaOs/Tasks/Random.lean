import UmkaOs.Lib.ShiftXor

namespace UmkaOs.Tasks

def xorshift64 (seed : UInt64) : UInt64 :=
  let seed := seed ^^^ seed <<< 13
  let seed := seed ^^^ seed >>> 7
  seed ^^^ seed <<< 17

/-- `var seed` before the first call. -/
def seed : UInt64 := 0x5794FA12

/-- The number that `rand` returns, and the seed it leaves. -/
def rand (seed : UInt64) : UInt64 × UInt64 :=
  let seed := xorshift64 seed
  (seed, seed)

/-- The seed after a number of calls. -/
def seedAfter (start : UInt64) : Nat → UInt64
  | 0 => start
  | n + 1 => (rand (seedAfter start n)).2

/-- The numbers that the calls return, in order. -/
def numbers (start : UInt64) (n : Nat) : UInt64 := (rand (seedAfter start n)).1

theorem seedAfter_eq_iterate (start : UInt64) (n : Nat) : seedAfter start n = xorshift64^[n] start := by
  induction n with
  | zero => rfl
  | succ n ih => rw [Function.iterate_succ_apply', ← ih]; rfl

theorem toBitVec_xorshift64 (s : UInt64) : (xorshift64 s).toBitVec =
    ((fun x : BitVec 64 => x ^^^ x <<< 17) ∘ (fun x : BitVec 64 => x ^^^ x >>> 7) ∘
      fun x : BitVec 64 => x ^^^ x <<< 13) s.toBitVec := rfl

theorem xorshift64_injective : Function.Injective xorshift64 := by
  intro s t same
  have words := congrArg UInt64.toBitVec same
  rw [toBitVec_xorshift64, toBitVec_xorshift64] at words
  have first := @Lib.xor_shiftLeft_injective 64 13 (by decide)
  have second := @Lib.xor_ushiftRight_injective 64 7 (by decide)
  have third := @Lib.xor_shiftLeft_injective 64 17 (by decide)
  exact UInt64.toBitVec_inj.mp (third.comp (second.comp first) words)

theorem xorshift64_zero : xorshift64 0 = 0 := by decide

theorem xorshift64_ne_zero {s : UInt64} (nonzero : s ≠ 0) : xorshift64 s ≠ 0 := by
  intro zero
  exact nonzero (xorshift64_injective (zero.trans xorshift64_zero.symm))

theorem seedAfter_ne_zero {start : UInt64} (nonzero : start ≠ 0) (n : Nat) : seedAfter start n ≠ 0 := by
  induction n with
  | zero => exact nonzero
  | succ n ih => exact xorshift64_ne_zero ih

/-- Every sequence of calls comes back to the seed it started from. -/
theorem seedAfter_returns (start : UInt64) : ∃ n, 0 < n ∧ seedAfter start n = start := by
  have finite : Finite UInt64 := Finite.of_injective UInt64.toFin fun _ _ => UInt64.toFin_inj.mp
  simp only [seedAfter_eq_iterate]
  exact Lib.returns xorshift64_injective start

/-- No two seeds have one successor, the seed is never zero, and the first seed that
repeats is the one that a run of calls started from. -/
theorem random_never_degenerates : Function.Injective xorshift64 ∧ (∀ s, s ≠ 0 → xorshift64 s ≠ 0) ∧
    (∀ n, seedAfter seed n ≠ 0) ∧
    ∀ start n i, i < n → seedAfter start n = seedAfter start i →
      (∀ m, m < n → ∀ k, k < m → seedAfter start m ≠ seedAfter start k) → seedAfter start n = start ∧ i = 0 := by
  refine ⟨xorshift64_injective, fun s => xorshift64_ne_zero, seedAfter_ne_zero (by decide), ?_⟩
  intro start n i earlier repeats first
  have zero : i = 0 := by
    simp only [seedAfter_eq_iterate] at repeats first
    exact Lib.first_repeat xorshift64_injective earlier repeats first
  subst zero
  exact ⟨repeats, rfl⟩

/-- Zero is a fixed point, so a run from it repeats its start at once. -/
theorem random_never_degenerates_zero : xorshift64 seed ≠ 0 ∧ seedAfter 0 1 = 0 := by
  obtain ⟨_, nonzero, _, repeated⟩ := random_never_degenerates
  exact ⟨nonzero seed (by decide), (repeated 0 1 0 (by decide) (by decide) (by omega)).1⟩

end UmkaOs.Tasks
