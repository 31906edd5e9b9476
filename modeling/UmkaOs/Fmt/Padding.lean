import UmkaOs.Fmt.Fields
import UmkaOs.Fmt.Grammar

namespace UmkaOs.Fmt

open Lib

variable {stop room base : Nat} {s : RWStream} {r r' : Rest} {text rest run blanks sign : List UInt8} {c : UInt8}

theorem spells_unique {mem : Mem} {offs : Nat} {text' : List UInt8} (spells : Spells mem offs text)
    (spells' : Spells mem offs text') (length : text.length = text'.length) : text = text' := by
  apply List.ext_getElem length
  intro k inside inside'
  exact (spells.2 k inside).1.symm.trans (spells'.2 k inside').1

theorem Faces.text_eq (faces : Faces stop s r) (faces' : Faces stop s r') : r.text = r'.text := by
  have length := faces.length_eq faces'
  obtain ⟨_, faces⟩ := faces
  obtain ⟨_, faces'⟩ := faces'
  split at faces
  · rename_i mem target
    simp only [target] at faces'
    exact spells_unique faces.2.1 faces'.2.1 length
  · rename_i v p target
    simp only [target] at faces'
    obtain ⟨_, position, _, ahead⟩ := faces
    obtain ⟨_, position', _, ahead'⟩ := faces'
    obtain ⟨st, n, opened, found, _, _, stands, _, content⟩ := ahead.reading
    obtain ⟨st', n', opened', found', _, _, stands', _, content'⟩ := ahead'.reading
    cases opened.symm.trans opened'
    cases found.symm.trans found'
    rw [← content, ← content', ← stands, ← stands']

/-- The number is read as `v`, and only blanks are left. -/
def ReadsValue (stop : Nat) (s : RWStream) (v : Int) : Prop :=
  ∃ s' left, fmtParseLL s 10 = .ok (s', v) ∧ Faces stop s' left ∧ ∀ c ∈ left.text, isSpace c = true

theorem Faces.readsValue_iff (faces : Faces stop s r) (v : Int) :
    ReadsValue stop s v ↔ ∃ left, r.signed 10 = .ok (left, v) ∧ ∀ c ∈ left.text, isSpace c = true := by
  have step := faces.fmtParseLL 10
  constructor
  · rintro ⟨s', left, run, behind, blank⟩
    rw [run] at step
    generalize r.signed 10 = parsed at step
    cases step with
    | returns _ x shows =>
      obtain ⟨x, value⟩ := x
      obtain ⟨behind', same⟩ := shows
      cases same
      refine ⟨x, rfl, ?_⟩
      rw [← behind.text_eq behind']
      exact blank
  · rintro ⟨left, run, blank⟩
    obtain ⟨⟨s', _⟩, done, behind, rfl⟩ := step.ok_right run
    exact ⟨s', left, done, behind, blank⟩

namespace Rest

theorem numeric_suffix {minus : Bool} {x : Rest × Nat} (run : (⟨text, room⟩ : Rest).numeric minus base = .ok x) :
    x.1.text <:+ text := by
  have taken : ∀ (u : List UInt8) (room : Nat), (⟨u, room⟩ : Rest).number base = .ok x → x.1.text <:+ u := by
    intro u room run
    rw [number] at run
    split at run
    · cases run
      exact List.drop_suffix _ _
    · cases run
  have behind : behindBlanks text <:+ text := List.dropWhile_suffix _
  rw [numeric_eq] at run
  split at run
  · exact ((taken _ _ run).trans (List.drop_suffix _ _)).trans behind
  · split at run
    · exact (taken _ _ run).trans behind
    · cases run

theorem signed_suffix {x : Rest × Int} (run : (⟨text, room⟩ : Rest).signed base = .ok x) : x.1.text <:+ text := by
  obtain ⟨negative, same⟩ := @signed_numeric base ⟨text, room⟩
  rw [same] at run
  obtain ⟨y, parsed, value⟩ := bind_ok run
  cases value
  exact numeric_suffix parsed

/-- Blanks, a sign and a run of digits in base 10: how far the parser gets. -/
theorem signed_run_iff (blank : ∀ c ∈ blanks, isSpace c = true)
    (signs : sign = [] ∨ ∃ c, isSign true c = true ∧ sign = [c]) (some : run ≠ [])
    (digits : ∀ d ∈ run, isDigitOf 10 d = true) (stops : StopsDigits 10 rest) :
    (∀ x, (⟨blanks ++ (sign ++ (run ++ rest)), room⟩ : Rest).signed 10 = .ok x → rest.length ≤ x.1.text.length) ∧
    ((∃ x, (⟨blanks ++ (sign ++ (run ++ rest)), room⟩ : Rest).signed 10 = .ok x ∧ x.1.text.length = rest.length) →
      blanks.length + sign.length + run.length ≤ room ∧ run.length < 64) := by
  obtain ⟨negative, same⟩ := @signed_numeric 10 ⟨blanks ++ (sign ++ (run ++ rest)), room⟩
  have results : ∀ x, (⟨blanks ++ (sign ++ (run ++ rest)), room⟩ : Rest).signed 10 = .ok x →
      ∃ y, (⟨blanks ++ (sign ++ (run ++ rest)), room⟩ : Rest).numeric true 10 = .ok y ∧ x.1 = y.1 := by
    intro x done
    rw [same] at done
    obtain ⟨y, parsed, value⟩ := bind_ok done
    cases value
    exact ⟨y, parsed, rfl⟩
  obtain ⟨c, tail, rfl⟩ := List.exists_cons_of_ne_nil some
  have digit : digitValue c ≠ none := by
    intro none
    have here := digits c (by simp)
    rw [isDigitOf, none] at here
    cases here
  obtain ⟨front, signLength, behind⟩ := @behind_parts true (tail ++ rest) c blanks sign blank signs digit
  obtain ⟨_, _, ends⟩ := digitRun_run (by decide) digits stops
  have body : bodyEnd (c :: tail ++ rest) 10 = (c :: tail).length := by
    rw [← ends]
    exact (numberEnd_eq (by simp) (by simp)).symm
  have whole : blanks ++ (sign ++ (c :: tail ++ rest)) = blanks ++ (sign ++ c :: (tail ++ rest)) := rfl
  rw [whole] at results ⊢
  have lead : leadLength true (blanks ++ (sign ++ c :: (tail ++ rest))) = blanks.length + sign.length := by
    rw [leadLength, front, signLength]
  obtain ⟨length, length'⟩ := length_parts true (blanks ++ (sign ++ c :: (tail ++ rest)))
  rw [behind] at length
  constructor
  · intro x done
    obtain ⟨y, parsed, left⟩ := results x done
    rw [numeric_eq, behind] at parsed
    rw [left]
    split at parsed
    · have taken := (number_ok _ _ _ parsed).2
      rw [show numberEnd (c :: (tail ++ rest)) 10 = (c :: tail).length from ends] at taken
      simp only [List.length_cons, List.length_append] at taken
      omega
    · split at parsed
      · have taken := (number_ok _ _ _ parsed).2
        simp only [List.length_cons, List.length_append] at taken length length'
        omega
      · cases parsed
  · rintro ⟨x, done, position⟩
    obtain ⟨y, parsed, left⟩ := results x done
    have some' : bodyEnd (behindSign true (blanks ++ (sign ++ c :: (tail ++ rest)))) 10 ≠ 0 := by
      rw [behind]
      exact body ▸ Nat.succ_ne_zero _
    have total : blanks.length + sign.length + (c :: tail).length =
        leadLength true (blanks ++ (sign ++ c :: (tail ++ rest))) +
          bodyEnd (behindSign true (blanks ++ (sign ++ c :: (tail ++ rest)))) 10 := by
      rw [behind, lead]
      exact congrArg (blanks.length + sign.length + ·) body.symm
    obtain ⟨fits, readable, _⟩ := (numeric_number some' total).mp ⟨y, parsed, by
      rw [← left, position]
      simp only [List.length_append, List.length_cons]
      omega⟩
    rw [behind] at readable
    exact ⟨fits, ((readable_run (by decide) digits stops).mp readable).1⟩

end Rest

variable {f : Flags} {width precision : Int} {num : Num} {numbuf : List UInt8} {numlen : Nat}

/-- How many bytes the width puts in front of a number. -/
def frontPadding (f : Flags) (width precision : Int) (numlen : Nat) : Nat :=
  if numlen < width ∧ f.leftjustify = false then
    (width - numlen - if 0 < precision then precision - numlen else 0).toNat
  else 0

def frontBlanks (f : Flags) (width precision : Int) (numlen : Nat) : Nat :=
  if f.padzero then 0 else frontPadding f width precision numlen

/-- The zeros of the flag and those of the precision. -/
def frontZeros (f : Flags) (width precision : Int) (numlen : Nat) : Nat :=
  (if f.padzero then frontPadding f width precision numlen else 0) + (zerosLength precision numlen).toNat

theorem numWrites_parts (plain : ∀ d, num ≠ .double d) : ∃ behind,
    (numWrites f width precision num base false numbuf).flatten =
      List.replicate (frontBlanks f width precision numbuf.length) space ++
        (List.replicate (frontZeros f width precision numbuf.length) zero ++
          (numbuf ++ List.replicate behind space)) := by
  have flat : ∀ c count, (pad c count).flatten = List.replicate count.toNat c := by simp [pad]
  have zeros : (if precision > 0 then pad zero (precision - numbuf.length) else []).flatten =
      List.replicate (zerosLength precision numbuf.length).toNat zero := by
    rw [zerosLength]
    by_cases some : 0 < precision
    · rw [if_pos some, if_pos some, flat]
      congr 1
      omega
    · rw [if_neg some, if_neg some]
      rfl
  simp only [numWrites, Bool.not_false, and_true, Bool.false_eq_true, if_false, List.nil_append, ite_self,
    List.append_nil, Int.sub_zero]
  generalize (if precision > 0 then pad zero (precision - numbuf.length) else []) = row at zeros
  by_cases narrow : (numbuf.length : Int) < width
  · rw [if_pos narrow]
    cases left : f.leftjustify with
    | true =>
      refine ⟨(width - numbuf.length - row.length).toNat, ?_⟩
      have none : frontPadding f width precision numbuf.length = 0 := by simp [frontPadding, left]
      simp only [if_true, List.flatten_append, List.flatten_singleton, zeros, flat, frontBlanks, frontZeros, none,
        ite_self, Nat.zero_add, List.replicate_zero, List.nil_append, List.append_assoc]
    | false =>
      refine ⟨0, ?_⟩
      have padding : frontPadding f width precision numbuf.length =
          (width - numbuf.length - if 0 < precision then precision - numbuf.length else 0).toNat :=
        if_pos ⟨narrow, left⟩
      cases pads : f.padzero <;>
        simp only [if_true, if_false, Bool.false_eq_true, List.flatten_append, List.flatten_singleton, zeros, flat,
          frontBlanks, frontZeros, padding, pads, List.replicate_add, List.replicate_zero, List.nil_append,
          List.append_nil, List.append_assoc, Nat.zero_add, gt_iff_lt]
  · rw [if_neg narrow]
    refine ⟨0, ?_⟩
    have none : frontPadding f width precision numbuf.length = 0 := by simp [frontPadding, narrow]
    simp only [List.flatten_append, List.flatten_singleton, zeros, frontBlanks, frontZeros, none, ite_self,
      Nat.zero_add, List.replicate_zero, List.nil_append, List.append_nil]

variable {front left digits : List UInt8} {n : Nat} {v : Int} {upper : Bool}

/-- Blanks at the end of a text lie behind its last digit. -/
theorem blank_suffix {behind : Nat} (some : run ≠ []) (plain : ∀ c ∈ run, isSpace c = false)
    (suffix : left <:+ front ++ (run ++ List.replicate behind space)) (blank : ∀ c ∈ left, isSpace c = true) :
    left.length ≤ behind := by
  obtain ⟨init, c, rfl⟩ : ∃ init c, run = init ++ [c] := ⟨_, _, (List.dropLast_append_getLast some).symm⟩
  have other := plain c (by simp)
  have whole : front ++ (init ++ [c] ++ List.replicate behind space) =
      (front ++ init) ++ c :: List.replicate behind space := by simp
  rw [whole, List.suffix_iff_eq_drop] at suffix
  by_contra longer
  have inside : ((front ++ init) ++ c :: List.replicate behind space).length - left.length ≤
      (front ++ init).length := by
    simp only [List.length_append, List.length_cons, List.length_replicate]
    omega
  rw [List.drop_append_of_le_length inside] at suffix
  have member : c ∈ left := by
    rw [suffix]
    simp
  rw [blank c member] at other
  cases other

theorem stops_blanks (behind : Nat) :
    StopsDigits base (List.replicate behind space) ∧ ((List.replicate behind space).headD 0).toNat < 128 := by
  apply Boundary.stops
  cases behind with
  | zero => exact .inl rfl
  | succ behind => exact .inr (by rfl)

theorem numeral_plain : ∀ c ∈ numeralOf 10 upper n, isSpace c = false := by
  intro c member
  have digit := numeralOf_digits (by decide) (by decide) c member
  refine (@digit_plain true c fun none => ?_).1
  rw [isDigitOf, none] at digit
  cases digit

theorem valueOf_zeros (zeros : ∀ d ∈ front, d = zero) : valueOf base (front ++ digits) = valueOf base digits := by
  rw [valueOf, List.foldl_append]
  have nothing : front.foldl (fun n c => n * base + (digitValue c).getD 0) 0 = 0 := by
    induction front with
    | nil => rfl
    | cons d front ih =>
      have here : d = zero := zeros d (by simp)
      have none : 0 * base + (digitValue zero).getD 0 = 0 := by
        rw [Nat.zero_mul]
        rfl
      rw [List.foldl_cons, here, none]
      exact ih fun d member => zeros d (by simp [member])
  rw [nothing]
  rfl

theorem reads_run {behind : Nat} (blank : ∀ c ∈ blanks, isSpace c = true)
    (signs : sign = [chr '-'] ∨ sign = [chr '+'] ∨ sign = []) (digits : ∀ d ∈ front, d = zero)
    (value : signed 64 (if sign = [chr '-'] then wrap64 (2 ^ 64 - wrap64 n) else wrap64 n) = v) :
    (∃ left, (⟨blanks ++ (sign ++ (front ++ numeralOf 10 upper n ++ List.replicate behind space)), room⟩ :
      Rest).signed 10 = .ok (left, v) ∧ ∀ c ∈ left.text, isSpace c = true) ↔
      blanks.length + sign.length + (front ++ numeralOf 10 upper n).length ≤ room ∧
        (front ++ numeralOf 10 upper n).length < 64 := by
  have digit : ∀ d ∈ front ++ numeralOf 10 upper n, isDigitOf 10 d = true := by
    intro d member
    rcases List.mem_append.mp member with inFront | inNumeral
    · rw [digits d inFront]
      decide
    · exact numeralOf_digits (by decide) (by decide) d inNumeral
  have some : front ++ numeralOf 10 upper n ≠ [] :=
    List.append_ne_nil_of_right_ne_nil _ (List.ne_nil_of_length_pos numeralOf_length_pos)
  obtain ⟨stops, ascii⟩ := @stops_blanks 10 behind
  have signs' : sign = [] ∨ ∃ c, isSign true c = true ∧ sign = [c] := by
    rcases signs with rfl | rfl | rfl
    · exact .inr ⟨chr '-', by decide, rfl⟩
    · exact .inr ⟨chr '+', by decide, rfl⟩
    · exact .inl rfl
  obtain ⟨lower, reach⟩ := @Rest.signed_run_iff room _ _ blanks sign blank signs' some digit stops
  constructor
  · rintro ⟨left, done, blank'⟩
    have ends := lower _ done
    have suffix := Rest.signed_suffix done
    have whole : blanks ++ (sign ++ (front ++ numeralOf 10 upper n ++ List.replicate behind space)) =
        (blanks ++ (sign ++ front)) ++ (numeralOf 10 upper n ++ List.replicate behind space) := by simp
    rw [whole] at suffix
    have short := blank_suffix (List.ne_nil_of_length_pos numeralOf_length_pos) numeral_plain suffix blank'
    rw [List.length_replicate] at ends
    exact reach ⟨_, done, by rw [List.length_replicate]; omega⟩
  · rintro ⟨fits, short⟩
    have done := @Rest.signed_run room 10 _ _ blanks sign blank signs (by decide) some digit stops short ascii fits
    rw [valueOf_zeros digits, valueOf_numeralOf (by decide) (by decide), value] at done
    refine ⟨_, done, fun c member => ?_⟩
    rw [List.eq_of_mem_replicate member]
    rfl

/-- Zeros in front of a blank or a sign are read as the whole number. -/
theorem reads_zeros {before zeros behind : Nat} {lead : List UInt8} (some : zeros ≠ 0) (nonempty : lead ≠ [])
    (other : ∀ c ∈ lead, digitValue c = none) :
    ¬ ∃ left, (⟨List.replicate before space ++ (List.replicate zeros zero ++
        (lead ++ (numeralOf 10 upper n ++ List.replicate behind space))), room⟩ : Rest).signed 10 = .ok (left, v) ∧
      ∀ c ∈ left.text, isSpace c = true := by
  rintro ⟨left, done, blank⟩
  have blanks : ∀ c ∈ List.replicate before space, isSpace c = true := by
    intro c member
    rw [List.eq_of_mem_replicate member]
    rfl
  have digit : ∀ d ∈ List.replicate zeros zero, isDigitOf 10 d = true := by
    intro d member
    rw [List.eq_of_mem_replicate member]
    decide
  have run : List.replicate zeros zero ≠ [] := by simpa using some
  have stops : StopsDigits 10 (lead ++ (numeralOf 10 upper n ++ List.replicate behind space)) := by
    cases lead with
    | nil => exact absurd rfl nonempty
    | cons c lead =>
      have none := other c (by simp)
      rw [StopsDigits, isDigitOf, List.cons_append, List.headD_cons, none]
      rfl
  have lower : (lead ++ (numeralOf 10 upper n ++ List.replicate behind space)).length ≤ left.text.length :=
    (@Rest.signed_run_iff room _ _ _ [] blanks (.inl rfl) run digit stops).1 _ done
  have suffix : left.text <:+ _ := Rest.signed_suffix done
  have whole : List.replicate before space ++ (List.replicate zeros zero ++
      (lead ++ (numeralOf 10 upper n ++ List.replicate behind space))) =
      (List.replicate before space ++ (List.replicate zeros zero ++ lead)) ++
        (numeralOf 10 upper n ++ List.replicate behind space) := by simp
  rw [whole] at suffix
  have short := blank_suffix (List.ne_nil_of_length_pos numeralOf_length_pos) numeral_plain suffix blank
  have digits := @numeralOf_length_pos 10 n upper
  simp only [List.length_append, List.length_replicate] at lower
  omega

theorem lead_plain (blank : ∀ c ∈ blanks, isSpace c = true) (signs : sign = [chr '-'] ∨ sign = [chr '+'] ∨ sign = []) :
    ∀ c ∈ blanks ++ sign, digitValue c = none := by
  intro c member
  rcases List.mem_append.mp member with inBlanks | inSign
  · have same : c = chr ' ' := of_decide_eq_true (blank c inBlanks)
    rw [same]
    rfl
  · rcases signs with rfl | rfl | rfl
    · rw [List.mem_singleton.mp inSign]
      rfl
    · rw [List.mem_singleton.mp inSign]
      rfl
    · cases inSign

/-- A field is read as its number if it fits, and either no zeros are in front or
nothing stands between them and the digits. -/
theorem reads_field {before zeros behind : Nat} (blank : ∀ c ∈ blanks, isSpace c = true)
    (signs : sign = [chr '-'] ∨ sign = [chr '+'] ∨ sign = []) (small : (numeralOf 10 upper n).length < 64)
    (value : signed 64 (if sign = [chr '-'] then wrap64 (2 ^ 64 - wrap64 n) else wrap64 n) = v) :
    (∃ left, (⟨List.replicate before space ++ (List.replicate zeros zero ++
        (blanks ++ (sign ++ numeralOf 10 upper n) ++ List.replicate behind space)), room⟩ : Rest).signed 10 =
          .ok (left, v) ∧ ∀ c ∈ left.text, isSpace c = true) ↔
      before + zeros + (blanks ++ (sign ++ numeralOf 10 upper n)).length ≤ room ∧
        (zeros = 0 ∨ blanks ++ sign = [] ∧ zeros + (blanks ++ (sign ++ numeralOf 10 upper n)).length < 64) := by
  have blanksIn : ∀ c ∈ List.replicate before space ++ blanks, isSpace c = true := by
    intro c member
    rcases List.mem_append.mp member with inFront | inBlanks
    · rw [List.eq_of_mem_replicate inFront]
      rfl
    · exact blank c inBlanks
  by_cases empty : zeros = 0
  · have whole : List.replicate before space ++ (List.replicate zeros zero ++
        (blanks ++ (sign ++ numeralOf 10 upper n) ++ List.replicate behind space)) =
        (List.replicate before space ++ blanks) ++
          (sign ++ ([] ++ numeralOf 10 upper n ++ List.replicate behind space)) := by simp [empty]
    rw [whole, reads_run blanksIn signs (by simp) value]
    simp only [List.length_append, List.length_replicate, List.nil_append, empty, true_or, and_true]
    omega
  · by_cases nothing : blanks ++ sign = []
    · obtain ⟨rfl, rfl⟩ := List.append_eq_nil_iff.mp nothing
      have whole : List.replicate before space ++ (List.replicate zeros zero ++
          ([] ++ ([] ++ numeralOf 10 upper n) ++ List.replicate behind space)) =
          (List.replicate before space ++ []) ++
            ([] ++ (List.replicate zeros zero ++ numeralOf 10 upper n ++ List.replicate behind space)) := by simp
      rw [whole, reads_run blanksIn signs (fun d => List.eq_of_mem_replicate) value]
      simp only [List.length_append, List.length_replicate, List.length_nil, List.append_nil, empty, false_or, true_and]
      omega
    · have whole : List.replicate before space ++ (List.replicate zeros zero ++
          (blanks ++ (sign ++ numeralOf 10 upper n) ++ List.replicate behind space)) =
          List.replicate before space ++ (List.replicate zeros zero ++
            ((blanks ++ sign) ++ (numeralOf 10 upper n ++ List.replicate behind space))) := by simp
      rw [whole, iff_false_left (reads_zeros empty nothing (lead_plain blank signs))]
      simp only [empty, nothing, false_or, false_and, and_false, not_false_eq_true]

/-- The field up to its last digit fits into the room of the stream, and no zeros
stand in front of a sign or a blank. All digits have to fit into the look-ahead. -/
def SignLeads (f : Flags) (width precision v : Int) (room : Nat) : Prop :=
  let numlen := (signedWrites f 10 false v).flatten.length
  frontBlanks f width precision numlen + frontZeros f width precision numlen + numlen ≤ room ∧
    (frontZeros f width precision numlen = 0 ∨
      (0 ≤ v ∧ f.forcesign = false ∧ f.padsign = false) ∧ frontZeros f width precision numlen + numlen < 64)

variable {flags : List FlagChar} {w : Width} {p : Precision} {widthArgs precisionArgs : List Arg} {out : List UInt8}

theorem flagsOf_decorated (noHash : .hash ∉ flags) : (flagsOf flags).decorated = false := by
  have kept : ∀ (flags : List FlagChar) (f : Flags), .hash ∉ flags →
      (flags.foldl FlagChar.set f).decorated = f.decorated := by
    intro flags
    induction flags with
    | nil => exact fun _ _ => rfl
    | cons flag flags ih =>
      intro f noHash
      rw [List.foldl_cons, ih _ fun member => noHash (by simp [member])]
      cases flag with
      | hash => exact absurd List.mem_cons_self noHash
      | minus | plus | space | zero => rfl
  exact kept flags noFlags noHash

/-- The sign and the blank of a number are missing exactly if no flag asks for them. -/
theorem signWrites_nil (v : Int) (f : Flags) :
    (signWrites (v < 0) f.forcesign f.padsign).flatten = [] ↔ 0 ≤ v ∧ f.forcesign = false ∧ f.padsign = false := by
  by_cases negative : v < 0
  · have positive : ¬ 0 ≤ v := by omega
    simp [signWrites, negative, positive]
  · have positive : 0 ≤ v := by omega
    cases f.forcesign <;> cases f.padsign <;> simp [signWrites, negative, positive]

/-- A printed `long long` is read back exactly when its sign leads its zeros. -/
theorem padded_readable (noHash : .hash ∉ flags) (takesWidth : w.Takes widthArgs width)
    (takesPrecision : p.Takes precisionArgs precision) (bits : UInt64)
    (prints : Prints (formatText [.spec (longLong flags w p)]) (widthArgs ++ (precisionArgs ++ [.quad bits])) out)
    (faces : Faces stop s ⟨out, room⟩) :
    ReadsValue stop s (signed 64 bits.toNat) ↔
      SignLeads (flagsOf flags) width precision (signed 64 bits.toNat) room := by
  have field := @prints_field widthArgs precisionArgs (longLong flags w p) width precision (.quad bits) rfl takesWidth
    takesPrecision ⟨bits, rfl⟩
  have same := prints.unique field
  have plain : (longLong flags w p).decorated = false := by
    simp [Spec.decorated, longLong, flagsOf_decorated noHash]
  have low : -2 ^ 63 ≤ signed 64 bits.toNat ∧ signed 64 bits.toNat < 2 ^ 63 := signedValue_range .ll (.quad bits)
  have flat : out = (numWrites (flagsOf flags) width precision (.ll (signed 64 bits.toNat)) 10 false
      (signedWrites (flagsOf flags) 10 false (signed 64 bits.toNat)).flatten).flatten := by
    rw [same, Spec.field, plain]
    rfl
  generalize signed 64 bits.toNat = v at low flat
  generalize flagsOf flags = f at flat
  obtain ⟨behind, parts⟩ := @numWrites_parts 10 f width precision (.ll v) (signedWrites f 10 false v).flatten (by simp)
  obtain ⟨blanks, sign, text, blank, signs, negative, short⟩ := signedWrites_parts f 10 false low.1 low.2
  have leads : (signWrites (v < 0) f.forcesign f.padsign).flatten = blanks ++ sign := by
    have size : toUInt64 (if v < 0 then -v else v) = v.natAbs := by
      rw [toUInt64]
      split <;> omega
    rw [signedWrites, size, List.flatten_append, List.flatten_singleton, ← List.append_assoc] at text
    exact List.append_cancel_right text
  have value := signed_value low.1 low.2 negative
  have small : (numeralOf 10 false v.natAbs).length ≤ 22 := numeralOf_length (by decide) (by omega)
  have small : (numeralOf 10 false v.natAbs).length < 64 := by omega
  rw [parts] at flat
  rw [faces.readsValue_iff, flat, SignLeads, ← signWrites_nil, leads, text]
  exact reads_field blank signs small value

theorem padded_readable_zeros :
    ReadsValue 8 (.mkStr (stringOf [zero, zero, zero, zero, zero, zero, chr '4', chr '2'])) 42 := by
  have spells := @spells_stringOf [zero, zero, zero, zero, zero, zero, chr '4', chr '2'] (by decide +kernel)
  have prints : Prints (formatText [.spec eightWide]) [.quad 42]
      [zero, zero, zero, zero, zero, zero, chr '4', chr '2'] :=
    @prints_field [] [] eightWide 8 (-1) (.quad 42) rfl ⟨rfl, by decide⟩ ⟨rfl, rfl⟩ ⟨42, rfl⟩
  refine (@padded_readable _ _ _ 8 (-1) [.zero] (.literal 8 (by decide) []) .absent [] [] _ (by decide) ⟨rfl, by decide⟩
    ⟨rfl, rfl⟩ 42 prints (faces_mkStr spells)).mpr ?_
  exact ⟨by decide +kernel, .inr ⟨by decide, by decide +kernel⟩⟩

/-- `%05lld` of -42 is `00-42`, which is read as 0. -/
theorem padding_before_sign :
    Prints (formatText [.spec fiveWide]) [.quad (-42)] [zero, zero, chr '-', chr '4', chr '2'] ∧
    fmtParseLL (.mkStr (stringOf [zero, zero, chr '-', chr '4', chr '2'])) 10 =
      .ok (skip (.mkStr (stringOf [zero, zero, chr '-', chr '4', chr '2'])) 2, 0) :=
  ⟨@prints_field [] [] fiveWide 5 (-1) (.quad (-42)) rfl ⟨rfl, by decide⟩ ⟨rfl, rfl⟩ ⟨-42, rfl⟩, rfl⟩

end UmkaOs.Fmt
