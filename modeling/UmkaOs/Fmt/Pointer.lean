import UmkaOs.Fmt.Padding

namespace UmkaOs.Fmt

open Lib

/-- One `%p` gives the pointer and leaves nothing but blanks. -/
def PointerRead (stop : Nat) (s : RWStream) (bits : UInt32) : Prop :=
  ∃ s' r, fmtvscanf s (formatText [.spec (bare .p)]) [.ptr] = .ok (s', 1, [.ptr bits.toNat]) ∧ Faces stop s' r ∧
    ∀ c ∈ r.text, isSpace c = true

variable {stop room num : Nat} {s s' : RWStream} {f : Flags} {width precision : Int}
  {numbuf more blanks out : List UInt8} {values : List Value} {sp : Spec} {widthArgs precisionArgs : List Arg}
  {bits : UInt32}

/-- Nothing but blanks stands before the prefix, whatever the flags are. -/
theorem numWrites_prefix (n : Nat) : ∃ before more,
    (numWrites f width precision (.ull n) 16 true numbuf).flatten =
      List.replicate before space ++ zero :: chr 'x' :: more := by
  have mark : basePrefix 16 = [[zero, chr 'x']] := rfl
  have behind : ∀ (count : Int) (tail : List (List UInt8)), (pad space count ++ ([[zero, chr 'x']] ++ tail)).flatten =
      List.replicate count.toNat space ++ zero :: chr 'x' :: tail.flatten := by simp [pad]
  simp only [numWrites, Bool.not_false, and_true, if_true, mark]
  split
  · cases f.leftjustify with
    | true => exact ⟨0, _, rfl⟩
    | false =>
      cases f.padzero with
      | true => exact ⟨0, _, rfl⟩
      | false =>
        simp only [Bool.false_eq_true, if_false, List.nil_append, List.append_assoc]
        exact ⟨_, _, behind _ _⟩
  · exact ⟨0, _, rfl⟩

/-- The base-16 parser takes the zero of the prefix for the number. -/
theorem Rest.unsigned_prefix : (⟨zero :: chr 'x' :: more, room⟩ : Rest).unsigned 16 =
    .ok (((⟨zero :: chr 'x' :: more, room⟩ : Rest).read 1).1, 0) := by
  have digits : ∀ d ∈ [zero], isDigitOf 16 d = true := by
    intro d member
    rw [List.mem_singleton.mp member]
    decide
  have stops : StopsDigits 16 (chr 'x' :: more) := show isDigitOf 16 (chr 'x') = false by decide
  have ascii : ((chr 'x' :: more).headD 0).toNat < 128 := show (chr 'x').toNat < 128 by decide
  have readable := (readable_run (by decide) digits stops).mpr ⟨by decide, ascii⟩
  obtain ⟨detect, taken, ends⟩ := digitRun_run (by decide) digits stops
  rw [List.singleton_append] at detect taken ends readable
  have noBlank : (⟨zero :: chr 'x' :: more, room⟩ : Rest).skip isSpace = .ok (_, []) :=
    Rest.skip_stop (by rintro c ⟨⟩; rfl)
  have noPlus := @Rest.accept_other (chr '+') ⟨zero :: chr 'x' :: more, room⟩
    (show some zero ≠ some (chr '+') by decide)
  simp only [Rest.unsigned, noBlank, noPlus, bind, Except.bind, Rest.number, if_pos readable, detect, taken, ends]
  rfl

/-- Scanning assigns a null pointer and does not get past the prefix. -/
theorem pointer_scanned (faces : Faces stop s ⟨blanks ++ zero :: chr 'x' :: more, room⟩)
    (blank : ∀ c ∈ blanks, c = space)
    (run : fmtvscanf s (formatText [.spec (bare .p)]) [.ptr] = .ok (s', num, values)) :
    values = [.ptr 0] ∧ ∃ r, Faces stop s' r ∧ chr 'x' ∈ r.text := by
  have white : ∀ c ∈ blanks, isWhitespace c = true := fun c member => blank c member ▸ rfl
  have ends : ∀ c ∈ (zero :: chr 'x' :: more).head?, isWhitespace c = false := by rintro c ⟨⟩; rfl
  have format : formatText [.spec (bare .p)] = [chr '%', chr 'p'] := rfl
  rw [format, fmtvscanf] at run
  obtain ⟨start, _, run⟩ := bind_ok run
  rw [scanLoop] at run
  obtain ⟨s1, skipped, run⟩ := bind_ok run
  rw [if_pos rfl] at run
  obtain ⟨point, _, run⟩ := bind_ok run
  obtain ⟨⟨s2, num2, found, recvs⟩, directive, run⟩ := bind_ok run
  obtain ⟨position, _, run⟩ := bind_ok run
  have parse : fmtParseULL s1 16 >>= (fun x => .ok (x.1, 0, [Value.ptr (wrap32 x.2)], [])) =
      .ok (s2, num2, found, recvs) := directive
  obtain ⟨⟨s3, n⟩, parsed, done⟩ := bind_ok parse
  cases done
  -- the blanks lie within the room, or the scan would not have come here
  obtain ⟨left, faces1⟩ : ∃ left, Faces stop s1 ⟨zero :: chr 'x' :: more, left⟩ := by
    have step := @Faces.skipWhile _ _ _ isWhitespace faces
    by_cases fits : blanks.length ≤ room
    · rw [Rest.skip_run white ends fits] at step
      obtain ⟨x, same, behind⟩ := step.ok_left skipped
      cases same
      exact ⟨_, behind⟩
    · have far : ¬ ((blanks ++ zero :: chr 'x' :: more).takeWhile isWhitespace).length ≤ room := by
        rw [List.takeWhile_append_of_pos white, List.length_append]
        omega
      rw [Rest.skip, if_neg far] at step
      cases (step.error_right rfl).symm.trans skipped
  have step := faces1.fmtParseULL 16
  rw [Rest.unsigned_prefix] at step
  obtain ⟨x, same, behind, value⟩ := step.ok_left parsed
  cases same
  cases value
  have member : chr 'x' ∈ ((⟨zero :: chr 'x' :: more, left⟩ : Rest).read 1).1.text := by
    cases left with
    | zero => simp
    | succ left => simp [Rest.read_cons]
  split at run
  · cases run
    exact ⟨rfl, _, behind, member⟩
  · cases run
    exact ⟨rfl, _, behind, member⟩

/-- No pointer is read back from its text, in whatever width and with whatever flags. -/
theorem pointer_unreadable (pointer : sp.conversion = .p) (takesWidth : sp.width.Takes widthArgs width)
    (takesPrecision : sp.precision.Takes precisionArgs precision)
    (prints : Prints (formatText [.spec sp]) (widthArgs ++ (precisionArgs ++ [.word bits])) out)
    (faces : Faces stop s ⟨out, room⟩) : ¬ PointerRead stop s bits := by
  rintro ⟨s', r, run, behind, blank⟩
  have takes : sp.conversion.Takes sp.length [.word bits] := by
    rw [pointer]
    exact ⟨bits, rfl⟩
  have field := prints.unique (prints_field (by rw [pointer]; rfl) takesWidth takesPrecision takes)
  obtain ⟨before, more, text⟩ : ∃ before more, out = List.replicate before space ++ zero :: chr 'x' :: more := by
    rw [field, Spec.field, Spec.decorated, pointer, decide_eq_true rfl, Bool.or_true]
    exact numWrites_prefix bits.toNat
  subst text
  obtain ⟨_, r', behind', left⟩ := pointer_scanned faces (fun c => List.eq_of_mem_replicate) run
  rw [← behind.text_eq behind'] at left
  exact absurd (blank _ left) (by decide)

theorem pointer_unreadable_padded :
    ¬ PointerRead 6 (.mkStr (stringOf [zero, chr 'x', chr 'f', chr 'f', space, space])) 255 :=
  @pointer_unreadable 6 (2 ^ 31) _ 6 (-1) _ ⟨[.minus], .literal 6 (by decide) [], .absent, .none, .p⟩ [] [] 255 rfl
    ⟨rfl, by decide⟩ ⟨rfl, rfl⟩
    (@prints_field [] [] ⟨[.minus], .literal 6 (by decide) [], .absent, .none, .p⟩ 6 (-1) (.word 255) rfl
      ⟨rfl, by decide⟩ ⟨rfl, rfl⟩ ⟨255, rfl⟩)
    (faces_mkStr (spells_stringOf (by decide +kernel)))

/-- `%p` of 4096 is `0x1000`, of which `%p` reads the first zero. -/
theorem pointer_read_null :
    Prints (formatText [.spec (bare .p)]) [.word 4096] [zero, chr 'x', chr '1', zero, zero, zero] ∧
    fmtvscanf (.mkStr (stringOf [zero, chr 'x', chr '1', zero, zero, zero])) (formatText [.spec (bare .p)]) [.ptr] =
      .ok (skip (.mkStr (stringOf [zero, chr 'x', chr '1', zero, zero, zero])) 1, 1, [.ptr 0]) ∧
    ¬ PointerRead 6 (.mkStr (stringOf [zero, chr 'x', chr '1', zero, zero, zero])) 4096 := by
  have scanned : fmtvscanf (.mkStr (stringOf [zero, chr 'x', chr '1', zero, zero, zero]))
      (formatText [.spec (bare .p)]) [.ptr] =
        .ok (skip (.mkStr (stringOf [zero, chr 'x', chr '1', zero, zero, zero])) 1, 1, [.ptr 0]) := rfl
  refine ⟨@prints_field [] [] (bare .p) 0 (-1) (.word 4096) rfl ⟨rfl, rfl⟩ ⟨rfl, rfl⟩ ⟨4096, rfl⟩, scanned, ?_⟩
  rintro ⟨s', r, run, _⟩
  rw [scanned] at run
  simp at run

end UmkaOs.Fmt
