import Mathlib.Algebra.Group.Nat.Defs
import Mathlib.Logic.Function.Basic
import Mathlib.Data.List.Basic

/-! A flat byte memory with little-endian 32-bit words and the two byte loops
every C runtime has: a forward copy and a fill. -/

namespace UmkaOs.Lib

/-- One byte at every address. -/
abbrev Mem := Nat → UInt8

namespace Mem

/-- The `n` bytes from `a` on. -/
def bytes (m : Mem) (a : Nat) : Nat → List UInt8
  | 0 => []
  | n + 1 => m a :: bytes m (a + 1) n

def load32 (m : Mem) (a : Nat) : Nat :=
  (m a).toNat + 256 * (m (a + 1)).toNat + 65536 * (m (a + 2)).toNat + 16777216 * (m (a + 3)).toNat

/-- Byte `k` of a little-endian word. -/
def byteOf (v k : Nat) : UInt8 := UInt8.ofNat (v / 256 ^ k)

def store32 (m : Mem) (a v : Nat) : Mem := fun x =>
  if x = a then byteOf v 0
  else if x = a + 1 then byteOf v 1
  else if x = a + 2 then byteOf v 2
  else if x = a + 3 then byteOf v 3
  else m x

/-- `for (i = 0; i < n; i++) m[a + i] = b;` -/
def fill (m : Mem) (a : Nat) (b : UInt8) : Nat → Mem
  | 0 => m
  | n + 1 => Function.update (fill m a b n) (a + n) b

/-- `for (i = 0; i < n; i++) m[dst + i] = m[src + i];` -/
def copy (m : Mem) (dst src : Nat) : Nat → Mem
  | 0 => m
  | n + 1 => Function.update (copy m dst src n) (dst + n) (copy m dst src n (src + n))

variable {m m' : Mem} {a b v n x : Nat}

@[simp] theorem length_bytes : (bytes m a n).length = n := by
  induction n generalizing a with
  | zero => rfl
  | succ n ih => simp [bytes, ih]

theorem getElem_bytes {k : Nat} (inside : k < (bytes m a n).length) :
    (bytes m a n)[k] = m (a + k) := by
  induction n generalizing a k with
  | zero => simp at inside
  | succ n ih =>
    cases k with
    | zero => rfl
    | succ k =>
      simp only [bytes, List.getElem_cons_succ, ih]
      congr 1
      omega

theorem bytes_congr (agree : ∀ k < n, m' (b + k) = m (a + k)) : bytes m' b n = bytes m a n := by
  apply List.ext_getElem
  · simp
  · intro k left right
    rw [getElem_bytes, getElem_bytes]
    exact agree k (by simpa using left)

theorem take_bytes {k : Nat} : (bytes m a n).take k = bytes m a (min k n) := by
  apply List.ext_getElem
  · simp
  · intro i left right
    simp [getElem_bytes]

theorem bytes_update {k : Nat} {c : UInt8} :
    bytes (Function.update m (a + k) c) a n = (bytes m a n).set k c := by
  apply List.ext_getElem
  · simp
  · intro i left right
    rw [getElem_bytes, List.getElem_set, getElem_bytes]
    by_cases same : k = i
    · subst same; simp
    · rw [Function.update_of_ne (by omega), if_neg same]

theorem load32_lt : load32 m a < 2 ^ 32 := by
  have b0 := (m a).toNat_lt
  have b1 := (m (a + 1)).toNat_lt
  have b2 := (m (a + 2)).toNat_lt
  have b3 := (m (a + 3)).toNat_lt
  simp only [load32]
  omega

theorem load32_congr (agree : ∀ k < 4, m' (a + k) = m (a + k)) : load32 m' a = load32 m a := by
  have e0 := agree 0 (by omega)
  have e1 := agree 1 (by omega)
  have e2 := agree 2 (by omega)
  have e3 := agree 3 (by omega)
  simp only [Nat.add_zero] at e0
  simp only [load32, e0, e1, e2, e3]

theorem load32_store32 (small : v < 2 ^ 32) : load32 (store32 m a v) a = v := by
  simp [load32, store32, byteOf]
  omega

theorem store32_outside (apart : x < a ∨ a + 4 ≤ x) : store32 m a v x = m x := by
  have h0 : x ≠ a := by omega
  have h1 : x ≠ a + 1 := by omega
  have h2 : x ≠ a + 2 := by omega
  have h3 : x ≠ a + 3 := by omega
  simp [store32, h0, h1, h2, h3]

theorem load32_store32_of_disjoint (apart : b + 4 ≤ a ∨ a + 4 ≤ b) :
    load32 (store32 m a v) b = load32 m b :=
  load32_congr (fun k small => store32_outside (by omega))

theorem fill_outside {c : UInt8} (apart : x < a ∨ a + n ≤ x) : fill m a c n x = m x := by
  induction n with
  | zero => rfl
  | succ n ih =>
    rw [fill, Function.update_of_ne (by omega)]
    exact ih (by omega)

theorem fill_inside {c : UInt8} (low : a ≤ x) (high : x < a + n) : fill m a c n x = c := by
  induction n with
  | zero => omega
  | succ n ih =>
    by_cases last : x = a + n
    · subst last; simp [fill]
    · rw [fill, Function.update_of_ne last]
      exact ih (by omega)

theorem bytes_fill {c : UInt8} : bytes (fill m a c n) a n = List.replicate n c := by
  apply List.ext_getElem
  · simp
  · intro k left right
    rw [getElem_bytes, List.getElem_replicate]
    exact fill_inside (by omega) (by simpa using left)

theorem load32_fill_zero (low : a ≤ b) (high : b + 4 ≤ a + n) : load32 (fill m a 0 n) b = 0 := by
  simp only [load32]
  rw [fill_inside low (by omega), fill_inside (by omega) (by omega),
    fill_inside (by omega) (by omega), fill_inside (by omega) (by omega)]
  rfl

theorem copy_outside {src : Nat} (apart : x < a ∨ a + n ≤ x) : copy m a src n x = m x := by
  induction n with
  | zero => rfl
  | succ n ih =>
    rw [copy, Function.update_of_ne (by omega)]
    exact ih (by omega)

/-- A forward copy that does not run into bytes it has written delivers the source bytes. -/
theorem copy_inside {src k : Nat} (ahead : src + n ≤ a ∨ a ≤ src) (small : k < n) :
    copy m a src n (a + k) = m (src + k) := by
  induction n with
  | zero => omega
  | succ n ih =>
    by_cases last : k = n
    · subst last
      rw [copy, Function.update_self]
      exact copy_outside (by omega)
    · rw [copy, Function.update_of_ne (by omega)]
      exact ih (by omega) (by omega)

theorem copy_cons {src : Nat} : copy m a src (n + 1) = copy (Function.update m a (m src)) (a + 1) (src + 1) n := by
  induction n with
  | zero => rfl
  | succ n ih =>
    have there : a + 1 + n = a + (n + 1) := by omega
    have from_ : src + 1 + n = src + (n + 1) := by omega
    rw [copy, ih, copy, there, from_]

/-- What a forward copy behind its source is about to read, once it has repeated the
bytes in between. -/
theorem copy_next_of {src : Nat} (behind : src < a)
    (repeats : ∀ k < n, copy m a src n (a + k) = m (src + k % (a - src))) :
    copy m a src n (src + n) = m (src + n % (a - src)) := by
  by_cases before : n < a - src
  · rw [copy_outside (by omega), Nat.mod_eq_of_lt before]
  · have written : src + n = a + (n - (a - src)) := by omega
    rw [written, repeats _ (by omega), ← Nat.mod_eq_sub_mod (by omega)]

theorem copy_repeats {src k : Nat} (behind : src < a) (small : k < n) :
    copy m a src n (a + k) = m (src + k % (a - src)) := by
  induction n generalizing k with
  | zero => omega
  | succ n ih =>
    by_cases last : k = n
    · subst last
      rw [copy, Function.update_self, copy_next_of behind fun k small => ih small]
    · rw [copy, Function.update_of_ne (by omega)]
      exact ih (by omega)

theorem copy_next {src : Nat} (behind : src < a) (n : Nat) : copy m a src n (src + n) = m (src + n % (a - src)) :=
  copy_next_of behind fun _ small => copy_repeats behind small

/-- `for (i = n; i-- > 0;) m[dst + i] = m[src + i];` -/
def copyBack (m : Mem) (dst src : Nat) : Nat → Mem
  | 0 => m
  | n + 1 => copyBack (Function.update m (dst + n) (m (src + n))) dst src n

theorem copyBack_outside {src : Nat} (apart : x < a ∨ a + n ≤ x) : copyBack m a src n x = m x := by
  induction n generalizing m with
  | zero => rfl
  | succ n ih =>
    rw [copyBack, ih (by omega), Function.update_of_ne (by omega)]

/-- A backward copy, likewise. -/
theorem copyBack_inside {src k : Nat} (ahead : src ≤ a ∨ a + n ≤ src) (small : k < n) :
    copyBack m a src n (a + k) = m (src + k) := by
  induction n generalizing m with
  | zero => omega
  | succ n ih =>
    rw [copyBack]
    by_cases last : k = n
    · subst last
      rw [copyBack_outside (by omega), Function.update_self]
    · rw [ih (by omega) (by omega), Function.update_of_ne (by omega)]

end Mem

end UmkaOs.Lib
