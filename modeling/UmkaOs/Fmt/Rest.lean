import UmkaOs.Fmt.Text
import UmkaOs.Lib.Lockstep
import UmkaOs.Vfs.Chunks
import Mathlib.Data.List.TakeWhile

/-! The scanner on the text that is left of its input, a string or a file alike.
Reads go as far as there is room; looking ahead is not limited. -/

namespace UmkaOs.Fmt

open Lib

/-- The value of a digit in the bases up to 16. -/
def digitValue (c : UInt8) : Option Nat :=
  if 48 ≤ c.toNat ∧ c.toNat ≤ 57 then some (c.toNat - 48)
  else if 65 ≤ c.toNat ∧ c.toNat ≤ 70 then some (c.toNat - 55)
  else if 97 ≤ c.toNat ∧ c.toNat ≤ 102 then some (c.toNat - 87)
  else none

def isDigitOf (base : Nat) (c : UInt8) : Bool := (digitValue c).any (· < base)

/-- The number that digits stand for. -/
def valueOf (base : Nat) (digits : List UInt8) : Nat := digits.foldl (fun n c => n * base + (digitValue c).getD 0) 0

/-- The digits that `fmtParseNum` finds behind their prefix. -/
def digitRun (text : List UInt8) (asked : Nat) : List UInt8 :=
  (text.drop (detectBase text asked).2).takeWhile (isDigitOf (detectBase text asked).1)

/-- Where the digits end, counted with their prefix. -/
def numberEnd (text : List UInt8) (asked : Nat) : Nat := (detectBase text asked).2 + (digitRun text asked).length

/-- The digits end within the look-ahead, before an ASCII character. -/
def Readable (text : List UInt8) (asked : Nat) : Prop :=
  numberEnd text asked < 64 ∧ (text.getD (numberEnd text asked) 0).toNat < 128

instance {text : List UInt8} {asked : Nat} : Decidable (Readable text asked) := inferInstanceAs (Decidable (_ ∧ _))

/-- What is left of an input, and how many bytes reads can still reach. -/
structure Rest where
  text : List UInt8
  room : Nat

namespace Rest

def read (r : Rest) (k : Nat) : Rest × List UInt8 :=
  let bytes := r.text.take (min k r.room)
  (⟨r.text.drop bytes.length, r.room - bytes.length⟩, bytes)

/-- The loops that read on while they see what they look for. Without room they stand still. -/
def skip (wanted : UInt8 → Bool) (r : Rest) : Except Fault (Rest × List UInt8) :=
  let run := r.text.takeWhile wanted
  if run.length ≤ r.room then .ok (r.read run.length) else .error .diverges

def accept (r : Rest) (c : UInt8) : Rest × Bool :=
  if r.text.head? = some c then ((r.read 1).1, true) else (r, false)

def number (r : Rest) (asked : Nat) : Except Fault (Rest × Nat) :=
  if Readable r.text asked then
    .ok ((r.read (numberEnd r.text asked)).1, wrap64 (valueOf (detectBase r.text asked).1 (digitRun r.text asked)))
  else .error .overrun

/-- `fmtParseULL` -/
def unsigned (r : Rest) (base : Nat) : Except Fault (Rest × Nat) := do
  let (r, _) ← r.skip isSpace
  (r.accept (chr '+')).1.number base

/-- `fmtParseLL` -/
def signed (r : Rest) (base : Nat) : Except Fault (Rest × Int) := do
  let (r, _) ← r.skip isSpace
  if (r.accept (chr '-')).2 then
    let (r, n) ← (r.accept (chr '-')).1.number base
    return (r, UmkaOs.signed 64 (wrap64 (2 ^ 64 - n)))
  else
    let (r, n) ← (r.accept (chr '+')).1.number base
    return (r, UmkaOs.signed 64 n)

variable {r : Rest} {c : UInt8} {text rest : List UInt8} {wanted : UInt8 → Bool} {k room : Nat}

@[simp] theorem read_zero : r.read 0 = (r, []) := by simp [read]

@[simp] theorem read_stuck : (⟨text, 0⟩ : Rest).read k = (⟨text, 0⟩, []) := by simp [read]

theorem read_cons : (⟨c :: rest, room + 1⟩ : Rest).read (k + 1) =
    (((⟨rest, room⟩ : Rest).read k).1, c :: ((⟨rest, room⟩ : Rest).read k).2) := by
  have reach : min (k + 1) (room + 1) = min k room + 1 := by omega
  simp [read, reach]

theorem read_eq (inside : k ≤ text.length) (enough : k ≤ room) :
    (⟨text, room⟩ : Rest).read k = (⟨text.drop k, room - k⟩, text.take k) := by
  simp [read, Nat.min_eq_left enough, Nat.min_eq_left inside]

theorem skip_stop (stop : ∀ c ∈ r.text.head?, wanted c = false) : r.skip wanted = .ok (r, []) := by
  have none : r.text.takeWhile wanted = [] := by
    cases shape : r.text with
    | nil => rfl
    | cons c rest =>
      have other := stop c (by rw [shape]; rfl)
      simp [other]
  simp [skip, none]

theorem accept_false (other : (r.accept c).2 = false) : (r.accept c).1 = r := by
  rw [accept] at other ⊢
  split at other
  · cases other
  · rename_i head
    rw [if_neg head]

theorem skip_step (here : wanted c = true) : (⟨c :: rest, room⟩ : Rest).skip wanted =
    (((⟨c :: rest, room⟩ : Rest).read 1).1.skip wanted >>= fun x =>
      .ok (x.1, ((⟨c :: rest, room⟩ : Rest).read 1).2 ++ x.2)) := by
  cases room with
  | zero => simp [skip, here, bind, Except.bind]
  | succ room =>
    rw [read_cons, read_zero]
    by_cases fits : (rest.takeWhile wanted).length ≤ room
    · simp [skip, here, fits, read_cons, bind, Except.bind]
    · simp [skip, here, fits, bind, Except.bind]

theorem skip_fuel {fuel : Nat} (here : wanted c = true)
    (enough : ((c :: rest).takeWhile wanted).length ≤ room → ((c :: rest).takeWhile wanted).length < fuel + 1) :
    (((⟨c :: rest, room⟩ : Rest).read 1).1.text.takeWhile wanted).length ≤ ((⟨c :: rest, room⟩ : Rest).read 1).1.room →
      (((⟨c :: rest, room⟩ : Rest).read 1).1.text.takeWhile wanted).length < fuel := by
  cases room with
  | zero => simp [here]
  | succ room =>
    rw [read_cons, read_zero]
    simp only [List.takeWhile_cons, here, if_true, List.length_cons] at enough ⊢
    omega

end Rest

/-- The stream `p` stands at `position` in its file, which has `text` left. -/
structure FileAhead (v : Vfs) (p : Ptr) (position : Nat) (text : List UInt8) : Prop where
  reading : ∃ st n, v.streams p = some st ∧ v.nodes st.node = some n ∧ n.datasize < 2 ^ 32 ∧
    n.datasize ≤ (v.dataOf n).length ∧ st.i = position ∧ position ≤ n.datasize ∧ (v.contentOf n).drop position = text

/-- The stream stands before `r`; `tell` gives `stop` once the text is used up. -/
def Faces (stop : Nat) (s : RWStream) (r : Rest) : Prop :=
  r.room < turns ∧ match s.target with
  | .str mem => s.offs + r.text.length = stop ∧ Spells mem s.offs r.text ∧ s.offs + r.room = s.size
  | .file v p => r.text.length ≤ r.room ∧ ∃ position, position + r.text.length = stop ∧ FileAhead v p position r.text

variable {v : Vfs} {p : Ptr} {position stop k : Nat} {text : List UInt8} {s : RWStream} {r : Rest}

theorem FileAhead.tell (ahead : FileAhead v p position text) : v.vfsTell p = .ok position := by
  obtain ⟨st, n, opened, _, _, _, same, _⟩ := ahead.reading
  simp only [Vfs.vfsTell, Vfs.stream, opened, bind, Except.bind, pure, Except.pure, same]

/-- A read gives what is left, and a seek back undoes it. -/
theorem FileAhead.read (ahead : FileAhead v p position text) (k : Nat) :
    ∃ v', v.vfsRead p k = .ok (v', text.take k) ∧ v'.vfsSeek p position 0 = .ok v ∧
      FileAhead v' p (position + (text.take k).length) (text.drop k) := by
  obtain ⟨st, n, opened, found, small, stored, rfl, inside, rfl⟩ := ahead.reading
  have length : (v.contentOf n).length = n.datasize := by
    rw [Vfs.contentOf, List.length_take, Nat.min_eq_left stored]
  have moved : min (st.i + k) n.datasize = st.i + (((v.contentOf n).drop st.i).take k).length := by
    rw [List.length_take, List.length_drop, length]
    omega
  refine ⟨_, Vfs.vfsRead_inside opened found small stored inside k, ?_, ⟨_, n, Function.update_self .., found, small,
    stored, moved, ?_, ?_⟩⟩
  · have back : wrap32 st.i = st.i := wrap32_of_lt (by omega)
    simp only [Vfs.vfsSeek, Vfs.stream, Vfs.setStream, Function.update_self, bind, Except.bind, pure, Except.pure,
      if_pos, back, Function.update_idem, ← opened, Function.update_eq_self]
  · rw [← moved]
    exact Nat.min_le_right _ _
  · rw [← moved, List.drop_drop, ← length]
    exact Vfs.drop_min _

theorem strRead_room {mem : Mem} {offs room : Nat} (spells : Spells mem offs text) :
    RWStream.strRead mem (offs + room) offs k = text.take (min k room) := by
  induction k generalizing offs text room with
  | zero => simp [RWStream.strRead]
  | succ k ih =>
    rw [RWStream.strRead]
    cases room with
    | zero => simp
    | succ room =>
      cases text with
      | nil =>
        have ends : mem offs = 0 := spells.1
        simp [ends]
      | cons c text =>
        obtain ⟨here, nonzero, later⟩ := spells.tail
        have further := @ih text (offs + 1) room later
        have reach : min (k + 1) (room + 1) = min k room + 1 := by omega
        rw [here, if_pos ⟨by omega, nonzero⟩, reach, List.take_succ_cons, ← further, Nat.add_assoc, Nat.add_comm 1]

theorem take_drop_length (m : Nat) : text.take m ++ text.drop (text.take m).length = text := by
  have left : text.drop (text.take m).length = text.drop m := by
    rw [List.length_take]
    rcases Nat.le_total m text.length with inside | beyond
    · rw [Nat.min_eq_left inside]
    · rw [Nat.min_eq_right beyond, List.drop_length, List.drop_eq_nil_of_le beyond]
  rw [left, List.take_append_drop]

theorem Faces.read (faces : Faces stop s r) (k : Nat) :
    ∃ s', s.read k = .ok (s', (r.read k).2) ∧ Faces stop s' (r.read k).1 := by
  obtain ⟨turning, faces⟩ := faces
  have turning' : r.room - (r.text.take (min k r.room)).length < turns := by omega
  have inside : (r.text.take (min k r.room)).length ≤ r.text.length := by simp
  split at faces
  · rename_i mem target
    obtain ⟨ends, spells, room⟩ := faces
    have taken := @strRead_room k r.text mem s.offs r.room spells
    rw [room] at taken
    have below : (r.text.take (min k r.room)).length ≤ r.room := by
      rw [List.length_take]
      omega
    refine ⟨_, by simp only [RWStream.read, target, taken]; rfl, turning', ?_⟩
    rw [← @take_drop_length r.text (min k r.room)] at spells
    simp only [Rest.read, List.length_drop]
    exact ⟨by omega, spells.drop, by omega⟩
  · rename_i v p target
    obtain ⟨fits, position, ends, ahead⟩ := faces
    obtain ⟨v', run, _, next⟩ := ahead.read k
    have same : r.text.take (min k r.room) = r.text.take k := by
      rcases Nat.le_total k r.room with below | above
      · rw [Nat.min_eq_left below]
      · rw [Nat.min_eq_right above, List.take_of_length_le fits, List.take_of_length_le (by omega)]
    have left : r.text.drop (r.text.take k).length = r.text.drop k :=
      List.append_cancel_left ((take_drop_length k).trans (List.take_append_drop k r.text).symm)
    refine ⟨{ s with target := .file v' p }, ?_, ?_⟩
    · simp only [RWStream.read, target, run, Rest.read, same, bind, Except.bind, pure, Except.pure]
    · rw [same] at turning' inside
      refine ⟨by simpa only [Rest.read, same] using turning', ?_⟩
      simp only [Rest.read, same, List.length_drop]
      refine ⟨by omega, position + (r.text.take k).length, by omega, ?_⟩
      rw [left]
      exact next

theorem Faces.peek (faces : Faces stop s r) (k : Nat) : s.peek k = .ok (s, r.text.take k) := by
  obtain ⟨_, faces⟩ := faces
  split at faces
  · rename_i mem target
    simp only [RWStream.peek, target, strPeek_eq faces.2.1]
  · rename_i v p target
    obtain ⟨_, position, _, ahead⟩ := faces
    obtain ⟨v', run, back, _⟩ := ahead.read k
    simp only [RWStream.peek, target, ahead.tell, run, back, bind, Except.bind, pure, Except.pure]
    rw [← target]

theorem Faces.tell (faces : Faces stop s r) : ∃ position, s.tell = .ok position ∧ position + r.text.length = stop := by
  obtain ⟨_, faces⟩ := faces
  split at faces
  · rename_i mem target
    exact ⟨s.offs, RWStream.tell_str target, faces.1⟩
  · rename_i v p target
    obtain ⟨_, position, ends, ahead⟩ := faces
    exact ⟨position, by simp only [RWStream.tell, target, ahead.tell], ends⟩

theorem faces_mkStr {mem : Mem} (spells : Spells mem 0 text) : Faces text.length (.mkStr mem) ⟨text, 2 ^ 31⟩ :=
  ⟨(by decide : 2 ^ 31 < turns), Nat.zero_add _, spells, Nat.zero_add _⟩

/-- Any fault. -/
def Anyhow (_ : Fault) : Prop := True

/-- A stream before the rest, and the same value. -/
def Shows {α : Type} (stop : Nat) (x : RWStream × α) (y : Rest × α) : Prop := Faces stop x.1 y.1 ∧ x.2 = y.2

variable {fuel : Nat} {wanted : UInt8 → Bool}

theorem Faces.skipWhile_fuel (faces : Faces stop s r)
    (enough : (r.text.takeWhile wanted).length ≤ r.room → (r.text.takeWhile wanted).length < fuel) :
    Lockstep Anyhow (fun s x => Faces stop s x.1) (Fmt.skipWhile wanted fuel s) (r.skip wanted) := by
  induction fuel generalizing s r with
  | zero =>
    have far : ¬ (r.text.takeWhile wanted).length ≤ r.room := fun near => absurd (enough near) (Nat.not_lt_zero _)
    rw [Fmt.skipWhile, Rest.skip, if_neg far]
    exact .fails _ trivial
  | succ fuel ih =>
    obtain ⟨text, room⟩ := r
    rw [Fmt.skipWhile, faces.peek]
    cases text with
    | nil =>
      rw [Rest.skip_stop (by simp)]
      exact .returns _ _ faces
    | cons c rest =>
      by_cases here : wanted c = true
      · obtain ⟨s', moved, next⟩ := faces.read 1
        have later := ih next (Rest.skip_fuel here enough)
        rw [Rest.skip_step here]
        simp only [List.take_succ_cons, bind, Except.bind, here, if_true, moved]
        exact later.then_right _ (fun _ _ same => same)
      · rw [Rest.skip_stop (by simpa using here)]
        simp only [List.take_succ_cons, bind, Except.bind, here, pure, Except.pure]
        exact .returns _ _ faces

theorem Faces.skipWhile (faces : Faces stop s r) :
    Lockstep Anyhow (fun s x => Faces stop s x.1) (Fmt.skipWhile wanted turns s) (r.skip wanted) :=
  faces.skipWhile_fuel fun near => Nat.lt_of_le_of_lt near faces.1

theorem Faces.readWord_fuel (faces : Faces stop s r) (enough : (r.text.takeWhile (!isWhitespace ·)).length ≤ r.room →
      (r.text.takeWhile (!isWhitespace ·)).length < fuel) :
    Lockstep Anyhow (Shows stop) (Fmt.readWord fuel s) (r.skip (!isWhitespace ·)) := by
  induction fuel generalizing s r with
  | zero =>
    have far : ¬ (r.text.takeWhile (!isWhitespace ·)).length ≤ r.room :=
      fun near => absurd (enough near) (Nat.not_lt_zero _)
    rw [Fmt.readWord, Rest.skip, if_neg far]
    exact .fails _ trivial
  | succ fuel ih =>
    obtain ⟨text, room⟩ := r
    rw [Fmt.readWord, faces.peek]
    cases text with
    | nil =>
      rw [Rest.skip_stop (by simp)]
      exact .returns _ _ ⟨faces, rfl⟩
    | cons c rest =>
      by_cases white : isWhitespace c = true
      · rw [Rest.skip_stop (by simpa using white)]
        simp only [List.take_succ_cons, bind, Except.bind, white, if_true, pure, Except.pure]
        exact .returns _ _ ⟨faces, rfl⟩
      · have here : (!isWhitespace c) = true := by simpa using white
        obtain ⟨s', moved, next⟩ := faces.read 1
        have later := ih next (Rest.skip_fuel here enough)
        rw [Rest.skip_step here]
        simp only [List.take_succ_cons, bind, Except.bind, white, moved]
        exact later.bind fun a b same => .returns _ _ ⟨same.1, congrArg _ same.2⟩

theorem Faces.readWord (faces : Faces stop s r) :
    Lockstep Anyhow (Shows stop) (Fmt.readWord turns s) (r.skip (!isWhitespace ·)) :=
  faces.readWord_fuel fun near => Nat.lt_of_le_of_lt near faces.1

theorem Faces.acceptChar (faces : Faces stop s r) (c : UInt8) :
    ∃ s', Fmt.acceptChar s c = .ok (s', (r.accept c).2) ∧ Faces stop s' (r.accept c).1 := by
  have head : (r.text.take 1).head? = r.text.head? := by
    cases r.text <;> rfl
  rw [Fmt.acceptChar, faces.peek, Rest.accept]
  simp only [bind, Except.bind, head]
  by_cases here : r.text.head? = some c
  · obtain ⟨s', moved, next⟩ := faces.read 1
    simp only [here, if_true, moved]
    exact ⟨s', rfl, next⟩
  · simp only [here, if_false]
    exact ⟨s, rfl, faces⟩

variable {base asked m count : Nat} {c : UInt8} {run rest : List UInt8}

theorem basetbl_eq (c : UInt8) : basetbl c = (digitValue c).getD 0 := by
  simp only [basetbl, digitValue, isDigit, Bool.and_eq_true, decide_eq_true_eq]
  split
  · rfl
  · split
    · rfl
    · split <;> rfl

theorem isDigitOf_iff (positive : 0 < base) (c : UInt8) :
    isDigitOf base c = true ↔ c = zero ∨ basetbl c ≠ 0 ∧ basetbl c < base := by
  have isZero : c = zero ↔ c.toNat = 48 := ⟨fun same => same ▸ rfl, fun same => UInt8.toNat_inj.mp same⟩
  rw [isZero, basetbl_eq]
  simp only [isDigitOf, digitValue]
  split
  · simp
    omega
  · split
    · simp
      omega
    · split
      · simp
        omega
      · simp
        omega

theorem digit_ascii (digit : isDigitOf base c = true) : c ≠ 0 ∧ c.toNat < 128 := by
  have some : digitValue c ≠ none := by
    intro none
    simp [isDigitOf, none] at digit
  have range : 48 ≤ c.toNat ∧ c.toNat < 128 := by
    rw [digitValue] at some
    split at some
    · omega
    · split at some
      · omega
      · split at some
        · omega
        · exact absurd rfl some
  refine ⟨fun null => ?_, range.2⟩
  rw [null] at range
  exact absurd range.1 (by decide)

theorem parseDigits_step (positive : 0 < base) (digit : isDigitOf base c = true) :
    parseDigits base (c :: rest) m count =
      parseDigits base rest (wrap64 (m * base + (digitValue c).getD 0)) (count + 1) := by
  obtain ⟨notNull, ascii⟩ := digit_ascii digit
  rw [parseDigits, if_neg notNull]
  by_cases none : c = zero
  · subst none
    rw [if_pos rfl]
    rfl
  · have table := (isDigitOf_iff positive c).mp digit
    rw [if_neg none, if_neg (Nat.not_le.mpr ascii), if_pos (table.resolve_left none), basetbl_eq]

theorem parseDigits_run (positive : 0 < base) (digits : ∀ d ∈ run, isDigitOf base d = true)
    (other : isDigitOf base c = false) :
    parseDigits base (run ++ c :: rest) m count = if c.toNat < 128 then
      .ok (run.foldl (fun n d => wrap64 (n * base + (digitValue d).getD 0)) m, count + run.length)
      else .error .overrun := by
  induction run generalizing m count with
  | nil =>
    have table : ¬ (c = zero ∨ basetbl c ≠ 0 ∧ basetbl c < base) := by
      rw [← isDigitOf_iff positive, other]
      exact Bool.false_ne_true
    rw [List.nil_append, parseDigits]
    by_cases null : c = 0
    · subst null
      rfl
    · rw [if_neg null, if_neg (fun same => table (.inl same)), if_neg (fun both => table (.inr both))]
      by_cases ascii : c.toNat < 128
      · rw [if_neg (Nat.not_le.mpr ascii), if_pos ascii]
        rfl
      · rw [if_pos (Nat.le_of_not_lt ascii), if_neg ascii]
  | cons d run ih =>
    rw [List.cons_append, parseDigits_step positive (digits d (by simp)),
      ih (fun e member => digits e (by simp [member])), List.foldl_cons, List.length_cons, Nat.add_assoc,
      Nat.add_comm 1]

/-- Nothing but digits: the loop runs off the buffer. -/
theorem parseDigits_all (positive : 0 < base) (digits : ∀ d ∈ run, isDigitOf base d = true) :
    parseDigits base run m count = .error .overrun := by
  induction run generalizing m count with
  | nil => rfl
  | cons d run ih =>
    rw [parseDigits_step positive (digits d (by simp))]
    exact ih fun e member => digits e (by simp [member])

theorem detectBase_pos : 0 < (detectBase text asked).1 := by
  rw [detectBase]
  split
  · split
    · split <;> exact Nat.succ_pos _
    · exact Nat.succ_pos _
  · omega

theorem detectBase_length : (detectBase text asked).2 ≤ text.length := by
  rw [detectBase]
  split
  · split
    · rename_i first
      cases text with
      | nil => exact absurd first (by decide)
      | cons c rest =>
        split
        · rename_i second
          cases rest with
          | nil => rcases second with bad | bad <;> exact absurd (show (0 : UInt8) = _ from bad) (by decide)
          | cons d rest => simp
        · simp
    · exact Nat.zero_le _
  · exact Nat.zero_le _

theorem numberEnd_le : numberEnd text asked ≤ text.length := by
  have inside := @detectBase_length text asked
  have run : (digitRun text asked).length ≤ (text.drop (detectBase text asked).2).length :=
    (List.takeWhile_sublist _).length_le
  rw [List.length_drop] at run
  rw [numberEnd]
  omega

theorem foldl_valueOf :
    run.foldl (fun n d => wrap64 (n * base + (digitValue d).getD 0)) 0 = wrap64 (valueOf base run) := by
  have wrapped := @foldl_wrap base (run.map fun d => (digitValue d).getD 0) 0
  rw [List.foldl_map, List.foldl_map] at wrapped
  exact wrapped

/-- The look-ahead shows the base as the text does. -/
theorem detectBase_buf {more : List UInt8} (head : more.headD 0 = text.headD 0) (next : more.getD 1 0 = text.getD 1 0) :
    detectBase more asked = detectBase text asked := by
  simp only [detectBase, head, next]

/-- The text in three parts: the prefix, the digits and what stands behind them. -/
theorem number_split (text : List UInt8) (asked : Nat) : ∃ front behind,
    text = front ++ digitRun text asked ++ behind ∧ front.length = (detectBase text asked).2 ∧
      text.getD (numberEnd text asked) 0 = behind.headD 0 ∧
      isDigitOf (detectBase text asked).1 (behind.headD 0) = false := by
  have whole : text = text.take (detectBase text asked).2 ++ digitRun text asked ++
      (text.drop (detectBase text asked).2).dropWhile (isDigitOf (detectBase text asked).1) := by
    rw [List.append_assoc, digitRun, List.takeWhile_append_dropWhile, List.take_append_drop]
  have start : (text.take (detectBase text asked).2).length = (detectBase text asked).2 := by
    rw [List.length_take, Nat.min_eq_left detectBase_length]
  have length : (text.take (detectBase text asked).2 ++ digitRun text asked).length = numberEnd text asked := by
    rw [List.length_append, start, numberEnd]
  refine ⟨_, _, whole, start, ?_, ?_⟩
  · have here : text.getD (numberEnd text asked) 0 = _ :=
      congrArg (fun t : List UInt8 => t.getD (numberEnd text asked) 0) whole
    rw [here, List.getD_append_right _ _ _ _ (Nat.le_of_eq length), length, Nat.sub_self]
    cases (text.drop (detectBase text asked).2).dropWhile (isDigitOf (detectBase text asked).1) <;> rfl
  · have stop := List.head?_dropWhile_not (isDigitOf (detectBase text asked).1) (text.drop (detectBase text asked).2)
    cases rest : (text.drop (detectBase text asked).2).dropWhile (isDigitOf (detectBase text asked).1) with
    | nil => rfl
    | cons c rest =>
      rw [rest] at stop
      exact stop

/-- The buffer from the digits on, when they end in it. -/
theorem buffer_run (inside : numberEnd text asked < 64) : ∃ more,
    (text.take 64 ++ List.replicate (64 - (text.take 64).length) 0).drop (detectBase text asked).2 =
      digitRun text asked ++ text.getD (numberEnd text asked) 0 :: more ∧
    isDigitOf (detectBase text asked).1 (text.getD (numberEnd text asked) 0) = false := by
  obtain ⟨front, behind, whole, start, next, other⟩ := number_split text asked
  have short : (front ++ digitRun text asked).length < 64 := by
    rw [List.length_append, start]
    exact inside
  obtain ⟨c, more, buf, head⟩ := @lookAhead (front ++ digitRun text asked) behind short
  rw [← whole] at buf
  subst head
  rw [next]
  refine ⟨more, ?_, other⟩
  rw [buf, List.append_assoc, ← start, List.drop_left]

/-- The buffer from the digits on, when it holds nothing else. -/
theorem buffer_all (beyond : ¬ numberEnd text asked < 64) :
    ∀ d ∈ (text.take 64 ++ List.replicate (64 - (text.take 64).length) 0).drop (detectBase text asked).2,
      isDigitOf (detectBase text asked).1 d = true := by
  have long := @numberEnd_le text asked
  have full : (text.take 64).length = 64 := by
    rw [List.length_take]
    omega
  intro d member
  rw [full, Nat.sub_self, List.replicate_zero, List.append_nil, List.drop_take] at member
  have run : (text.drop (detectBase text asked).2).take (64 - (detectBase text asked).2) <+: digitRun text asked := by
    refine List.prefix_of_prefix_length_le (List.take_prefix _ _) (List.takeWhile_prefix _) ?_
    have count : 64 ≤ (detectBase text asked).2 + (digitRun text asked).length := Nat.le_of_not_lt beyond
    rw [List.length_take]
    omega
  exact List.mem_takeWhile_imp (run.subset member)

theorem Faces.fmtParseNum (faces : Faces stop s r) (asked : Nat) :
    Lockstep Anyhow (Shows stop) (Fmt.fmtParseNum s asked) (r.number asked) := by
  have detect : detectBase (r.text.take 64 ++ List.replicate (64 - (r.text.take 64).length) 0) asked =
      detectBase r.text asked := by
    apply detectBase_buf
    · cases r.text with
      | nil => rfl
      | cons c rest => rfl
    · rcases r.text with _ | ⟨c, _ | ⟨d, rest⟩⟩ <;> rfl
  rw [Fmt.fmtParseNum, faces.peek, Rest.number]
  simp only [bind, Except.bind, detect]
  by_cases inside : numberEnd r.text asked < 64
  · obtain ⟨more, split, other⟩ := @buffer_run r.text asked inside
    have digits : ∀ d ∈ digitRun r.text asked, isDigitOf (detectBase r.text asked).1 d = true :=
      fun d member => List.mem_takeWhile_imp member
    have count : (detectBase r.text asked).2 + (digitRun r.text asked).length = numberEnd r.text asked := rfl
    rw [split, parseDigits_run detectBase_pos digits other, foldl_valueOf, count]
    by_cases ascii : (r.text.getD (numberEnd r.text asked) 0).toNat < 128
    · obtain ⟨s', moved, next⟩ := faces.read (numberEnd r.text asked)
      rw [if_pos ascii, if_pos ⟨inside, ascii⟩]
      simp only [moved]
      exact .returns _ _ ⟨next, rfl⟩
    · rw [if_neg ascii, if_neg (fun both => ascii both.2)]
      exact .fails _ trivial
  · rw [parseDigits_all detectBase_pos (buffer_all inside), if_neg (fun both => inside both.1)]
    exact .fails _ trivial

theorem Faces.fmtParseULL (faces : Faces stop s r) (base : Nat) :
    Lockstep Anyhow (Shows stop) (Fmt.fmtParseULL s base) (r.unsigned base) := by
  refine faces.skipWhile.bind ?_
  rintro s ⟨r, blanks⟩ faces
  obtain ⟨s', plus, faces⟩ := faces.acceptChar (chr '+')
  simp only [plus, bind, Except.bind]
  exact faces.fmtParseNum base

theorem Faces.fmtParseLL (faces : Faces stop s r) (base : Nat) :
    Lockstep Anyhow (Shows stop) (Fmt.fmtParseLL s base) (r.signed base) := by
  refine faces.skipWhile.bind ?_
  rintro s ⟨r, blanks⟩ faces
  obtain ⟨s', minus, behind⟩ := faces.acceptChar (chr '-')
  cases negative : (r.accept (chr '-')).2 with
  | true =>
    rw [negative] at minus
    simp only [minus, negative, if_true, bind, Except.bind]
    refine (behind.fmtParseNum base).bind ?_
    rintro ⟨s, n⟩ ⟨r, _⟩ ⟨faces, rfl⟩
    exact .returns _ _ ⟨faces, rfl⟩
  | false =>
    rw [negative] at minus
    rw [Rest.accept_false negative] at behind
    obtain ⟨s'', plus, faces⟩ := behind.acceptChar (chr '+')
    simp only [minus, negative, plus, Bool.false_eq_true, if_false, bind, Except.bind]
    refine (faces.fmtParseNum base).bind ?_
    rintro ⟨s, n⟩ ⟨r, _⟩ ⟨faces, rfl⟩
    exact .returns _ _ ⟨faces, rfl⟩

end UmkaOs.Fmt
