import UmkaOs.Libc.Model

namespace UmkaOs.Libc

open Lib

variable {m m' : Mem} {d s n i j k w left length : Nat}

theorem memcpy_eq (m : Mem) (d s n : Nat) : memcpy m d s n = m.copy d s n := by
  induction n generalizing m d s with
  | zero => rfl
  | succ n ih => rw [memcpy, ih, Mem.copy_cons]

theorem copyDown_eq (m : Mem) (d s n : Nat) : copyDown m (d + n) (s + n) n = m.copyBack d s n := by
  induction n generalizing m with
  | zero => rfl
  | succ n ih =>
    rw [copyDown, Mem.copyBack]
    exact ih _

/-- The bytes at `dest` are those that stood at `src`, and no others have changed. -/
structure Moved (m m' : Mem) (dest src n : Nat) : Prop where
  inside : ∀ k < n, m' (dest + k) = m (src + k)
  outside : ∀ x, x < dest ∨ dest + n ≤ x → m' x = m x

theorem moved_copy (ahead : s + n ≤ d ∨ d ≤ s) : Moved m (m.copy d s n) d s n :=
  ⟨fun _ => Mem.copy_inside ahead, fun _ => Mem.copy_outside⟩

theorem moved_copyBack (ahead : s ≤ d ∨ d + n ≤ s) : Moved m (m.copyBack d s n) d s n :=
  ⟨fun _ => Mem.copyBack_inside ahead, fun _ => Mem.copyBack_outside⟩

theorem moved_memmove (m : Mem) (dest src n : Nat) : Moved m (memmove m dest src n) dest src n := by
  rw [memmove]
  split
  · rename_i below
    rw [memcpy_eq]
    exact moved_copy (.inr (Nat.le_of_lt below))
  · rename_i above
    rw [copyDown_eq]
    exact moved_copyBack (.inl (Nat.le_of_not_lt above))

/-- There is one such memory. -/
theorem Moved.unique {m'' : Mem} (one : Moved m m' d s n) (two : Moved m m'' d s n) : m' = m'' := by
  funext x
  by_cases within : d ≤ x ∧ x < d + n
  · obtain ⟨k, rfl⟩ := Nat.exists_eq_add_of_le within.1
    rw [one.inside k (by omega), two.inside k (by omega)]
  · rw [one.outside x (by omega), two.outside x (by omega)]

/-- `memmove` is right for all overlaps, and `memcpy` where the destination does
not start inside the source. -/
theorem memmove_exact (m : Mem) (dest src n : Nat) : Moved m (memmove m dest src n) dest src n ∧
    (¬ (src < dest ∧ dest < src + n) → memcpy m dest src n = memmove m dest src n) := by
  refine ⟨moved_memmove m dest src n, fun apart => ?_⟩
  rw [memcpy_eq]
  exact (moved_copy (by omega)).unique (moved_memmove m dest src n)

theorem memmove_exact_down : Moved UInt8.ofNat (memmove UInt8.ofNat 0 2 4) 0 2 4 ∧
    memcpy UInt8.ofNat 0 2 4 = memmove UInt8.ofNat 0 2 4 :=
  ⟨(memmove_exact UInt8.ofNat 0 2 4).1, (memmove_exact UInt8.ofNat 0 2 4).2 (by decide)⟩

/-- A string of `length` bytes at `a`. -/
structure StringAt (m : Mem) (a length : Nat) : Prop where
  chars : ∀ i < length, m (a + i) ≠ 0
  ends : m (a + length) = 0

/-- A copy to `w` of at most `n` bytes comes to bytes it has written before it sees
the terminator. -/
def CatchesUp (w s length n : Nat) : Prop := s < w ∧ w - s ≤ length ∧ w - s < n

instance : Decidable (CatchesUp w s length n) := inferInstanceAs (Decidable (_ ∧ _ ∧ _))

/-- The first `n` bytes at `s` repeat with a period. -/
def Repeats (m : Mem) (s period n : Nat) : Prop := ∀ i < n, m (s + i % period) = m (s + i)

/-- The loop is a forward copy up to the first NUL it reads. -/
theorem copyChars_eq (within : k ≤ left) (goes : ∀ t < k, m.copy (d + i) (s + j) t (s + j + t) ≠ 0)
    (stops : k = left ∨ m.copy (d + i) (s + j) k (s + j + k) = 0) :
    copyChars d s left i j m = (m.copy (d + i) (s + j) k, i + k) := by
  induction left generalizing i j m k with
  | zero =>
    obtain rfl : k = 0 := by omega
    rfl
  | succ left ih =>
    rw [copyChars]
    cases k with
    | zero =>
      rcases stops with none | none
      · cases none
      · rw [if_neg (fun some => some none)]
        rfl
    | succ k =>
      have first : m (s + j) ≠ 0 := goes 0 (Nat.succ_pos k)
      have shift : ∀ t, Mem.copy (Function.update m (d + i) (m (s + j))) (d + (i + 1)) (s + (j + 1)) t =
          m.copy (d + i) (s + j) (t + 1) := fun t => Mem.copy_cons.symm
      have next : ∀ t, s + (j + 1) + t = s + j + (t + 1) := fun t => by omega
      rw [if_pos first, ih (Nat.le_of_succ_le_succ within) (fun t before => ?_) ?_, shift]
      · have place : i + 1 + k = i + (k + 1) := by omega
        rw [place]
      · rw [shift, next]
        exact stops.imp Nat.succ.inj id
      · rw [shift, next]
        exact goes (t + 1) (Nat.succ_lt_succ before)

/-- How many bytes the loop copies from a string. -/
def copied (w s length n : Nat) : Nat := if CatchesUp w s length n then n else min n length

/-- A copy that does not catch up reads the string as it was. -/
theorem read_free (free : ¬ CatchesUp w s length n) (before : k ≤ length) (inside : k < n) :
    m.copy w s k (s + k) = m (s + k) := by
  rw [CatchesUp] at free
  exact Mem.copy_outside (by omega)

theorem copyChars_string (string : StringAt m s length) (i n : Nat) :
    copyChars d s n i 0 m = (m.copy (d + i) s (copied (d + i) s length n), i + copied (d + i) s length n) := by
  rw [copied]
  split
  · rename_i caught
    refine @copyChars_eq m d s i 0 n n (Nat.le_refl n) (fun t _ => ?_) (.inl rfl)
    have reach : t % (d + i - s) < d + i - s := Nat.mod_lt _ (Nat.sub_pos_of_lt caught.1)
    rw [Nat.add_zero, Mem.copy_next caught.1]
    exact string.chars _ (Nat.lt_of_lt_of_le reach caught.2.1)
  · rename_i free
    refine @copyChars_eq m d s i 0 (min n length) n (Nat.min_le_left _ _) (fun t before => ?_) ?_
    · rw [Nat.add_zero, read_free free (by omega) (by omega)]
      exact string.chars t (by omega)
    · rcases Nat.lt_or_ge length n with short | long
      · rw [Nat.min_eq_right (Nat.le_of_lt short), Nat.add_zero, read_free free (Nat.le_refl _) short]
        exact .inr string.ends
      · exact .inl (Nat.min_eq_left long)

theorem copied_free (free : ¬ CatchesUp w s length n) (inside : k < min n length) :
    m.copy w s (min n length) (w + k) = m (s + k) := by
  rw [CatchesUp] at free
  by_cases behind : s < w
  · have before : k % (w - s) = k := Nat.mod_eq_of_lt (by omega)
    rw [Mem.copy_repeats behind inside, before]
  · exact Mem.copy_inside (.inr (Nat.le_of_not_lt behind)) inside

/-- Nothing at `n` or beyond has changed, and the first bytes are those of the source. -/
structure StrncpyLaw (m m' : Mem) (d s length n : Nat) : Prop where
  frame : ∀ i, n ≤ i → m' (d + i) = m (d + i)
  front : ∀ i < min n length, m' (d + i) = m (s + i)

theorem strncpy_eq (string : StringAt m s length) (d n : Nat) :
    strncpy m d s n = Function.update (m.copy d s (copied d s length n)) (d + copied d s length n) 0 := by
  have loop := @copyChars_string m d s length string 0 n
  rw [strncpy, loop, Nat.add_zero, Nat.zero_add]

theorem strncpy_law (string : StringAt m s length) (d n : Nat) :
    StrncpyLaw m (strncpy m d s n) d s length n ↔
      (¬ CatchesUp d s length n ∧ length < n ∨ m (d + n) = 0) ∧
        (CatchesUp d s length n → Repeats m s (d - s) (min n length)) := by
  rw [strncpy_eq string, copied]
  by_cases caught : CatchesUp d s length n
  · simp only [caught, if_true, not_true, false_and, false_or, true_implies]
    constructor
    · intro law
      refine ⟨?_, fun i before => ?_⟩
      · have last := law.frame n (Nat.le_refl n)
        rw [Function.update_self] at last
        exact last.symm
      · have byte := law.front i before
        rwa [Function.update_of_ne (by omega), Mem.copy_repeats caught.1 (by omega)] at byte
    · rintro ⟨ends, repeats⟩
      refine ⟨fun i beyond => ?_, fun i before => ?_⟩
      · by_cases last : i = n
        · rw [last, Function.update_self, ends]
        · rw [Function.update_of_ne (by omega), Mem.copy_outside (by omega)]
      · rw [Function.update_of_ne (by omega), Mem.copy_repeats caught.1 (by omega)]
        exact repeats i before
  · simp only [caught, if_false, not_false_eq_true, true_and, false_implies, and_true]
    have front : ∀ i < min n length, Function.update (m.copy d s (min n length)) (d + min n length) 0 (d + i) =
        m (s + i) := by
      intro i before
      rw [Function.update_of_ne (by omega), copied_free caught before]
    constructor
    · intro law
      by_cases short : length < n
      · exact .inl short
      · have last := law.frame n (Nat.le_refl n)
        rw [Nat.min_eq_left (Nat.le_of_not_lt short), Function.update_self] at last
        exact .inr last.symm
    · intro ends
      refine ⟨fun i beyond => ?_, front⟩
      by_cases last : i = min n length
      · have zero : m (d + n) = 0 := by
          rcases ends with short | zero
          · omega
          · exact zero
        have there : i = n := by omega
        rw [← last, Function.update_self, there, zero]
      · rw [Function.update_of_ne (by omega), Mem.copy_outside (by omega)]

variable {old fuel : Nat}

theorem strEnd_eq (string : StringAt m d length) (ahead : i ≤ length) (enough : length - i < fuel) :
    strEnd m d fuel i = .ok length := by
  induction fuel generalizing i with
  | zero => omega
  | succ fuel ih =>
    rw [strEnd]
    rcases Nat.lt_or_eq_of_le ahead with before | rfl
    · rw [if_pos (string.chars i before)]
      exact ih before (by omega)
    · rw [if_neg (fun some => some string.ends)]

/-- The old string, the bytes of the source and a NUL, and nothing else has changed
behind them. -/
structure StrncatLaw (m m' : Mem) (d old s length n : Nat) : Prop where
  kept : ∀ i < old, m' (d + i) = m (d + i)
  added : ∀ i < min n length, m' (d + old + i) = m (s + i)
  ends : m' (d + old + min n length) = 0
  frame : ∀ i, min n length < i → m' (d + old + i) = m (d + old + i)

theorem strncat_eq (source : StringAt m s length) (dest : StringAt m d old) (word : old < 2 ^ 32) (n : Nat) :
    strncat m d s n = .ok (Function.update (m.copy (d + old) s (copied (d + old) s length n))
      (d + old + copied (d + old) s length n) 0) := by
  rw [strncat, strEnd_eq dest (Nat.zero_le _) (by omega)]
  simp only [bind, Except.bind, copyChars_string source, pure, Except.pure, Nat.add_assoc]

theorem strncat_law (source : StringAt m s length) (dest : StringAt m d old) (word : old < 2 ^ 32) (n : Nat) :
    (∃ m', strncat m d s n = .ok m' ∧ StrncatLaw m m' d old s length n) ↔
      ¬ CatchesUp (d + old) s length n ∨ n ≤ length ∧ Repeats m s (d + old - s) n := by
  rw [strncat_eq source dest word]
  simp only [Except.ok.injEq, exists_eq_left', copied]
  by_cases caught : CatchesUp (d + old) s length n
  · simp only [caught, if_true, not_true, false_or]
    have filled : ∀ i < n, Function.update (m.copy (d + old) s n) (d + old + n) 0 (d + old + i) =
        m (s + i % (d + old - s)) := by
      intro i before
      rw [Function.update_of_ne (by omega), Mem.copy_repeats caught.1 before]
    constructor
    · intro law
      have whole : n ≤ length := by
        by_contra longer
        have reach : min n length % (d + old - s) < d + old - s := Nat.mod_lt _ (Nat.sub_pos_of_lt caught.1)
        have ends := law.ends
        rw [filled _ (by omega)] at ends
        exact source.chars _ (Nat.lt_of_lt_of_le reach caught.2.1) ends
      refine ⟨whole, fun i before => ?_⟩
      rw [← filled i before]
      exact law.added i (by omega)
    · rintro ⟨whole, repeats⟩
      have all : min n length = n := Nat.min_eq_left whole
      refine ⟨fun i before => ?_, fun i before => ?_, ?_, fun i beyond => ?_⟩
      · rw [Function.update_of_ne (by omega), Mem.copy_outside (by omega)]
      · rw [filled i (by omega)]
        exact repeats i (by omega)
      · rw [all, Function.update_self]
      · rw [Function.update_of_ne (by omega), Mem.copy_outside (by omega)]
  · simp only [caught, if_false, not_false_eq_true, true_or, iff_true]
    refine ⟨fun i before => ?_, fun i before => ?_, Function.update_self .., fun i beyond => ?_⟩
    · rw [Function.update_of_ne (by omega), Mem.copy_outside (by omega)]
    · rw [Function.update_of_ne (by omega), copied_free caught before]
    · rw [Function.update_of_ne (by omega), Mem.copy_outside (by omega)]

/-- `strncpy` keeps to its bound exactly if the string ends before it or a NUL
stands there already, `strncat` always; a copy that runs into its own output has
to repeat the bytes that stood there. -/
theorem bounded_copies (source : StringAt m s length) (n : Nat) :
    (∀ d, StrncpyLaw m (strncpy m d s n) d s length n ↔
      (¬ CatchesUp d s length n ∧ length < n ∨ m (d + n) = 0) ∧
        (CatchesUp d s length n → Repeats m s (d - s) (min n length))) ∧
    ∀ d old, StringAt m d old → old < 2 ^ 32 →
      ((∃ m', strncat m d s n = .ok m' ∧ StrncatLaw m m' d old s length n) ↔
        ¬ CatchesUp (d + old) s length n ∨ n ≤ length ∧ Repeats m s (d + old - s) n) :=
  ⟨fun d => strncpy_law source d n, fun _ _ dest word => strncat_law source dest word n⟩

theorem bounded_copies_letters :
    StrncpyLaw (fun a => [97, 98].getD a 0) (strncpy (fun a => [97, 98].getD a 0) 16 0 4) 16 0 2 4 ∧
    ∃ m', strncat (fun a => [97, 98].getD a 0) 16 0 4 = .ok m' ∧
      StrncatLaw (fun a => [97, 98].getD a 0) m' 16 0 0 2 4 := by
  have both := @bounded_copies (fun a => [97, 98].getD a 0) 0 2 ⟨by decide, rfl⟩ 4
  exact ⟨(both.1 16).mpr ⟨.inl (by decide), fun caught => absurd caught (by decide)⟩,
    (both.2 16 0 ⟨by decide, rfl⟩ (by decide)).mpr (.inl (by decide))⟩

/-- `strncpy(d, "ab", 2)` puts a NUL at `d[2]`. -/
theorem third_byte_cleared : StringAt (fun a => [97, 98, 0].getD a 1) 0 2 ∧
    strncpy (fun a => [97, 98, 0].getD a 1) 16 0 2 18 = 0 ∧
    ¬ StrncpyLaw (fun a => [97, 98, 0].getD a 1) (strncpy (fun a => [97, 98, 0].getD a 1) 16 0 2) 16 0 2 2 := by
  have cleared : strncpy (fun a => [97, 98, 0].getD a 1) 16 0 2 18 = 0 := by decide
  refine ⟨⟨by decide, rfl⟩, cleared, fun law => ?_⟩
  have kept := law.frame 2 (Nat.le_refl 2)
  exact absurd (cleared.symm.trans kept) (by decide)

end UmkaOs.Libc
