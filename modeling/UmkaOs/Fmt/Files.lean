import UmkaOs.Fmt.RoundTrip
import UmkaOs.Fmt.Rest

namespace UmkaOs.Fmt

open Lib

/-- The stream has given `used` bytes and has `text` before it; `tell` counts
from `base`. -/
def Stands (base : Nat) (s : RWStream) (used : Nat) (text : List UInt8) : Prop :=
  match s.target with
  | .str _ => s.offs = base + used ∧ Ahead s text
  | .file v p => FileAhead v p (base + used) text

variable {base left right used fuel position : Nat} {s f : RWStream} {text : List UInt8} {v : Vfs} {p : Ptr}

theorem Stands.read (stands : Stands base s used text) (k : Nat) : ∃ s', s.read k = .ok (s', text.take k) ∧
    Stands base s' (used + (text.take k).length) (text.drop k) := by
  rw [Stands] at stands
  split at stands
  · rename_i mem target
    obtain ⟨offs, ahead⟩ := stands
    obtain ⟨_, same, spells⟩ := ahead.reading
    refine ⟨skip s (text.take k).length, ?_, ?_⟩
    · simp only [RWStream.read, same, strRead_eq spells ahead.room, skip]
    · rw [← List.take_append_drop k text] at ahead
      have target : (skip s (text.take k).length).target = .str mem := target
      simp only [Stands, target]
      exact ⟨by rw [skip, offs, Nat.add_assoc], ahead.skip⟩
  · rename_i v p target
    obtain ⟨v', run, _, next⟩ := stands.read k
    refine ⟨{ s with target := .file v' p }, ?_, ?_⟩
    · simp only [RWStream.read, target, run, bind, Except.bind, pure, Except.pure]
    · rw [Stands, ← Nat.add_assoc]
      exact next

theorem Stands.peek (stands : Stands base s used text) (k : Nat) : s.peek k = .ok (s, text.take k) := by
  rw [Stands] at stands
  split at stands
  · exact stands.2.peek k
  · rename_i v p target
    obtain ⟨v', run, back, _⟩ := stands.read k
    simp only [RWStream.peek, target, stands.tell, run, back, bind, Except.bind, pure, Except.pure]
    rw [← target]

theorem Stands.tell (stands : Stands base s used text) : s.tell = .ok (base + used) := by
  rw [Stands] at stands
  split at stands
  · rw [stands.2.tell, stands.1]
  · rename_i v p target
    simp only [RWStream.tell, target, stands.tell]

/-- Two streams before the same text, having given as much. -/
def Level (left right : Nat) (text : List UInt8) (s f : RWStream) : Prop :=
  text.length < turns ∧ ∃ used, Stands left s used text ∧ Stands right f used text

def Beside (left right : Nat) (s f : RWStream) : Prop := ∃ text, Level left right text s f

/-- Results with the same value, and streams before the same text. -/
def Same {α : Type} (left right : Nat) (x y : RWStream × α) : Prop := Beside left right x.1 y.1 ∧ x.2 = y.2

/-- Undefined behaviour: too long a number, or an argument of another type. No loop runs on. -/
def Undefined (e : Fault) : Prop := e = .overrun ∨ e = .undefined

theorem Level.beside (level : Level left right text s f) : Beside left right s f := ⟨text, level⟩

theorem Level.peek (level : Level left right text s f) (k : Nat) :
    s.peek k = .ok (s, text.take k) ∧ f.peek k = .ok (f, text.take k) := by
  obtain ⟨_, used, one, two⟩ := level
  exact ⟨one.peek k, two.peek k⟩

theorem Level.read (level : Level left right text s f) (k : Nat) : ∃ s' f', s.read k = .ok (s', text.take k) ∧
    f.read k = .ok (f', text.take k) ∧ Level left right (text.drop k) s' f' := by
  obtain ⟨short, used, one, two⟩ := level
  obtain ⟨s', readS, one'⟩ := one.read k
  obtain ⟨f', readF, two'⟩ := two.read k
  exact ⟨s', f', readS, readF, by rw [List.length_drop]; omega, _, one', two'⟩

theorem Beside.peek (beside : Beside left right s f) (k : Nat) :
    Lockstep Undefined (Same left right) (s.peek k) (f.peek k) := by
  obtain ⟨text, level⟩ := beside
  obtain ⟨one, two⟩ := level.peek k
  rw [one, two]
  exact .returns _ _ ⟨level.beside, rfl⟩

theorem Beside.read (beside : Beside left right s f) (k : Nat) :
    Lockstep Undefined (Same left right) (s.read k) (f.read k) := by
  obtain ⟨text, level⟩ := beside
  obtain ⟨s', f', one, two, next⟩ := level.read k
  rw [one, two]
  exact .returns _ _ ⟨next.beside, rfl⟩

theorem Beside.tell (beside : Beside left right s f) :
    Lockstep Undefined (fun at_s at_f => at_s + right = at_f + left) s.tell f.tell := by
  obtain ⟨_, _, used, one, two⟩ := beside
  rw [one.tell, two.tell]
  exact .returns _ _ (by omega)

theorem Level.skipWhile {skipped : UInt8 → Bool} (level : Level left right text s f) (enough : text.length < fuel) :
    Lockstep Undefined (Beside left right) (Fmt.skipWhile skipped fuel s) (Fmt.skipWhile skipped fuel f) := by
  induction text generalizing s f fuel with
  | nil =>
    obtain ⟨one, two⟩ := level.peek 1
    cases fuel with
    | zero => cases enough
    | succ fuel =>
      rw [Fmt.skipWhile, Fmt.skipWhile, one, two]
      exact .returns _ _ level.beside
  | cons c rest ih =>
    obtain ⟨one, two⟩ := level.peek 1
    obtain ⟨s', f', readS, readF, next⟩ := level.read 1
    cases fuel with
    | zero => cases enough
    | succ fuel =>
      rw [Fmt.skipWhile, Fmt.skipWhile, one, two]
      by_cases goes : skipped c = true
      · have later := ih next (Nat.lt_of_succ_lt_succ enough)
        simpa only [bind, Except.bind, List.take_succ_cons, goes, if_true, readS, readF] using later
      · simp only [bind, Except.bind, List.take_succ_cons, goes, pure, Except.pure]
        exact .returns _ _ level.beside

theorem Beside.skipWhile {skipped : UInt8 → Bool} (beside : Beside left right s f) :
    Lockstep Undefined (Beside left right) (Fmt.skipWhile skipped turns s) (Fmt.skipWhile skipped turns f) := by
  obtain ⟨text, level⟩ := beside
  exact level.skipWhile level.1

theorem Beside.acceptChar (beside : Beside left right s f) (c : UInt8) :
    Lockstep Undefined (Same left right) (Fmt.acceptChar s c) (Fmt.acceptChar f c) := by
  refine (beside.peek 1).bind ?_
  rintro ⟨s, ch⟩ ⟨f, _⟩ ⟨beside, rfl⟩
  by_cases here : ch.head? = some c
  · simp only [here, if_true]
    refine (beside.read 1).bind ?_
    rintro ⟨s, bytes⟩ ⟨f, _⟩ ⟨beside, rfl⟩
    exact .returns _ _ ⟨beside, rfl⟩
  · simp only [here, if_false]
    exact .returns _ _ ⟨beside, rfl⟩

theorem parseDigits_fault {base : Nat} {buf : List UInt8} {n count : Nat} {e : Fault}
    (fails : parseDigits base buf n count = .error e) : Undefined e := by
  induction buf generalizing n count with
  | nil =>
    cases fails
    exact .inl rfl
  | cons c rest ih =>
    rw [parseDigits] at fails
    split at fails
    · cases fails
    · split at fails
      · exact ih fails
      · split at fails
        · cases fails
          exact .inl rfl
        · split at fails
          · exact ih fails
          · cases fails

theorem Beside.fmtParseNum (beside : Beside left right s f) (base : Nat) :
    Lockstep Undefined (Same left right) (Fmt.fmtParseNum s base) (Fmt.fmtParseNum f base) := by
  refine (beside.peek 64).bind ?_
  rintro ⟨s, ahead⟩ ⟨f, _⟩ ⟨beside, rfl⟩
  refine (Lockstep.same _ fun e => parseDigits_fault).bind ?_
  rintro ⟨n, count⟩ _ rfl
  refine (beside.read count).bind ?_
  rintro ⟨s, bytes⟩ ⟨f, _⟩ ⟨beside, rfl⟩
  exact .returns _ _ ⟨beside, rfl⟩

theorem Beside.fmtParseULL (beside : Beside left right s f) (base : Nat) :
    Lockstep Undefined (Same left right) (Fmt.fmtParseULL s base) (Fmt.fmtParseULL f base) := by
  refine beside.skipWhile.bind ?_
  rintro s f beside
  refine (beside.acceptChar _).bind ?_
  rintro ⟨s, plus⟩ ⟨f, _⟩ ⟨beside, rfl⟩
  exact beside.fmtParseNum base

theorem Beside.fmtParseLL (beside : Beside left right s f) (base : Nat) :
    Lockstep Undefined (Same left right) (Fmt.fmtParseLL s base) (Fmt.fmtParseLL f base) := by
  refine beside.skipWhile.bind ?_
  rintro s f beside
  refine (beside.acceptChar _).bind ?_
  rintro ⟨s, negative⟩ ⟨f, _⟩ ⟨beside, rfl⟩
  cases negative with
  | true =>
    refine (beside.fmtParseNum base).bind ?_
    rintro ⟨s, n⟩ ⟨f, _⟩ ⟨beside, rfl⟩
    exact .returns _ _ ⟨beside, rfl⟩
  | false =>
    refine (beside.acceptChar _).bind ?_
    rintro ⟨s, plus⟩ ⟨f, _⟩ ⟨beside, rfl⟩
    refine (beside.fmtParseNum base).bind ?_
    rintro ⟨s, n⟩ ⟨f, _⟩ ⟨beside, rfl⟩
    exact .returns _ _ ⟨beside, rfl⟩

theorem Level.fracLoop {frac : Nat} {div : ℚ} (level : Level left right text s f) (enough : text.length < fuel) :
    Lockstep Undefined (Same left right) (Fmt.fracLoop fuel s frac div) (Fmt.fracLoop fuel f frac div) := by
  induction text generalizing s f fuel frac div with
  | nil =>
    obtain ⟨one, two⟩ := level.peek 1
    cases fuel with
    | zero => cases enough
    | succ fuel =>
      rw [Fmt.fracLoop, Fmt.fracLoop, one, two]
      exact .returns _ _ ⟨level.beside, rfl⟩
  | cons c rest ih =>
    obtain ⟨one, two⟩ := level.peek 1
    obtain ⟨s', f', readS, readF, next⟩ := level.read 1
    cases fuel with
    | zero => cases enough
    | succ fuel =>
      rw [Fmt.fracLoop, Fmt.fracLoop, one, two]
      by_cases digit : isDigit c = true
      · have later := @ih fuel s' f' (wrap64 (frac * 10 + (c.toNat - 48))) (div * 10) next
          (Nat.lt_of_succ_lt_succ enough)
        simpa only [bind, Except.bind, List.take_succ_cons, digit, if_true, readS, readF] using later
      · simp only [bind, Except.bind, List.take_succ_cons, digit, pure, Except.pure]
        exact .returns _ _ ⟨level.beside, rfl⟩

theorem Level.readWord (level : Level left right text s f) (enough : text.length < fuel) :
    Lockstep Undefined (Same left right) (Fmt.readWord fuel s) (Fmt.readWord fuel f) := by
  induction text generalizing s f fuel with
  | nil =>
    obtain ⟨one, two⟩ := level.peek 1
    cases fuel with
    | zero => cases enough
    | succ fuel =>
      rw [Fmt.readWord, Fmt.readWord, one, two]
      exact .returns _ _ ⟨level.beside, rfl⟩
  | cons c rest ih =>
    obtain ⟨one, two⟩ := level.peek 1
    obtain ⟨s', f', readS, readF, next⟩ := level.read 1
    cases fuel with
    | zero => cases enough
    | succ fuel =>
      rw [Fmt.readWord, Fmt.readWord, one, two]
      by_cases white : isWhitespace c = true
      · simp only [bind, Except.bind, List.take_succ_cons, white, if_true, pure, Except.pure]
        exact .returns _ _ ⟨level.beside, rfl⟩
      · have later := ih next (Nat.lt_of_succ_lt_succ enough)
        simp only [List.take_succ_cons, readS, readF, bind, Except.bind, white]
        refine later.bind ?_
        rintro ⟨s, word⟩ ⟨f, _⟩ ⟨beside, rfl⟩
        exact .returns _ _ ⟨beside, rfl⟩

/-- The end of `fmtParseD`, behind the digits. -/
def exponent (negative : Bool) (val : ℚ) (s : RWStream) : Except Fault (RWStream × ℚ) := do
  let (s, lower) ← acceptChar s (chr 'e')
  let (s, scientific) ← if lower then .ok (s, true) else acceptChar s (chr 'E')
  if scientific then
    let (s, down) ← acceptChar s (chr '-')
    let (s, _) ← if down then .ok (s, false) else acceptChar s (chr '+')
    let (s, e) ← fmtParseNum s 10
    return (s, val * (10 : ℚ) ^ (if down then -(e : Int) else (e : Int)))
  else return (s, val * (if negative then -1 else 1))

theorem Beside.exponent (beside : Beside left right s f) (negative : Bool) (val : ℚ) :
    Lockstep Undefined (Same left right) (Fmt.exponent negative val s) (Fmt.exponent negative val f) := by
  refine (beside.acceptChar _).bind ?_
  rintro ⟨s, lower⟩ ⟨f, _⟩ ⟨beside, rfl⟩
  refine Lockstep.branch lower (.returns _ _ ⟨beside, rfl⟩) (beside.acceptChar _) ?_
  rintro ⟨s, scientific⟩ ⟨f, _⟩ ⟨beside, rfl⟩
  cases scientific with
  | false => exact .returns _ _ ⟨beside, rfl⟩
  | true =>
    refine (beside.acceptChar _).bind ?_
    rintro ⟨s, down⟩ ⟨f, _⟩ ⟨beside, rfl⟩
    refine Lockstep.branch down (.returns _ _ ⟨beside, rfl⟩) (beside.acceptChar _) ?_
    rintro ⟨s, plus⟩ ⟨f, _⟩ ⟨beside, rfl⟩
    refine (beside.fmtParseNum 10).bind ?_
    rintro ⟨s, e⟩ ⟨f, _⟩ ⟨beside, rfl⟩
    exact .returns _ _ ⟨beside, rfl⟩

theorem Beside.fmtParseD (beside : Beside left right s f) :
    Lockstep Undefined (Same left right) (Fmt.fmtParseD s) (Fmt.fmtParseD f) := by
  refine beside.skipWhile.bind ?_
  rintro s f beside
  refine (beside.acceptChar _).bind ?_
  rintro ⟨s, negative⟩ ⟨f, _⟩ ⟨beside, rfl⟩
  refine Lockstep.branch negative (.returns _ _ ⟨beside, rfl⟩) (beside.acceptChar _) ?_
  rintro ⟨s, plus⟩ ⟨f, _⟩ ⟨beside, rfl⟩
  refine beside.tell.bind ?_
  rintro pointS pointF before
  refine (beside.fmtParseNum 10).bind ?_
  rintro ⟨s, whole⟩ ⟨f, _⟩ ⟨beside, rfl⟩
  refine beside.tell.bind ?_
  rintro atS atF behind
  have alike : atS = pointS ↔ atF = pointF := by omega
  refine Lockstep.ite alike (fun nothing => ?_) (fun digits => ?_)
  · exact .returns _ _ ⟨beside, rfl⟩
  · refine (beside.acceptChar _).bind ?_
    rintro ⟨s, dotted⟩ ⟨f, _⟩ ⟨beside, rfl⟩
    cases dotted with
    | false => exact beside.exponent negative _
    | true =>
      obtain ⟨text, level⟩ := beside
      refine (level.fracLoop level.1).bind ?_
      rintro ⟨s, frac, div⟩ ⟨f, _⟩ ⟨beside, rfl⟩
      exact beside.exponent negative _

theorem takeRecv_same (kind : Recv) (recvs : List Recv) :
    Lockstep Undefined (· = ·) (takeRecv kind recvs) (takeRecv kind recvs) := by
  refine Lockstep.same _ fun e fails => ?_
  cases recvs with
  | nil =>
    cases fails
    exact .inr rfl
  | cons r rest =>
    rw [takeRecv] at fails
    split at fails
    · cases fails
    · cases fails
      exact .inr rfl

/-- A directive that parses and stores what it found through its argument. -/
theorem Beside.assign {α : Type} {x y : Except Fault (RWStream × α)} (kind : Recv) (num : Nat) (recvs : List Recv)
    (store : α → Value) (parsed : Lockstep Undefined (Same left right) x y) :
    Lockstep Undefined (Same left right)
      (takeRecv kind recvs >>= fun later => x >>= fun found => .ok (found.1, num, [store found.2], later))
      (takeRecv kind recvs >>= fun later => y >>= fun found => .ok (found.1, num, [store found.2], later)) := by
  refine (takeRecv_same kind recvs).bind ?_
  rintro later _ rfl
  refine parsed.bind ?_
  rintro ⟨s, found⟩ ⟨f, _⟩ ⟨beside, rfl⟩
  exact .returns _ _ ⟨beside, rfl⟩

theorem Beside.scanDirective {num : Nat} {c : UInt8} {recvs : List Recv}
    (beside : Beside left right s f) (low : left ≤ 2 ^ 32) (high : right ≤ 2 ^ 32) :
    Lockstep Undefined (Same left right) (Fmt.scanDirective left c s num recvs)
      (Fmt.scanDirective right c f num recvs) := by
  rw [Fmt.scanDirective, Fmt.scanDirective]
  refine Lockstep.ite Iff.rfl (fun _ => ?_) (fun _ => ?_)
  · refine (beside.read 1).bind ?_
    rintro ⟨s, bytes⟩ ⟨f, _⟩ ⟨beside, rfl⟩
    exact .returns _ _ ⟨beside, rfl⟩
  refine Lockstep.ite Iff.rfl (fun _ => ?_) (fun _ => ?_)
  · exact Beside.assign .int num recvs (fun n => .int (toInt32 n)) (beside.fmtParseLL _)
  refine Lockstep.ite Iff.rfl (fun _ => ?_) (fun _ => ?_)
  · exact Beside.assign .uint num recvs (fun n => .uint (wrap32 n)) (beside.fmtParseULL _)
  refine Lockstep.ite Iff.rfl (fun _ => ?_) (fun _ => ?_)
  · exact Beside.assign .double num recvs .double beside.fmtParseD
  refine Lockstep.ite Iff.rfl (fun _ => ?_) (fun _ => ?_)
  · refine (takeRecv_same _ _).bind ?_
    rintro recvs _ rfl
    refine (beside.read 1).bind ?_
    rintro ⟨s, ch⟩ ⟨f, _⟩ ⟨beside, rfl⟩
    exact .returns _ _ ⟨beside, rfl⟩
  refine Lockstep.ite Iff.rfl (fun _ => ?_) (fun _ => ?_)
  · exact Beside.assign .ptr num recvs (fun n => .ptr (wrap32 n)) (beside.fmtParseULL 16)
  refine Lockstep.ite Iff.rfl (fun _ => ?_) (fun _ => ?_)
  · obtain ⟨text, level⟩ := beside
    exact Beside.assign .str num recvs .str (level.readWord level.1)
  refine Lockstep.ite Iff.rfl (fun _ => ?_) (fun _ => ?_)
  · refine (takeRecv_same _ _).bind ?_
    rintro recvs _ rfl
    refine beside.tell.bind ?_
    rintro atS atF same
    have count : atS + (2 ^ 32 - left) = atF + (2 ^ 32 - right) := by omega
    rw [count]
    exact .returns _ _ ⟨beside, rfl⟩
  · exact .returns _ _ ⟨beside, rfl⟩

theorem Beside.scanLoop {num : Nat} {recvs : List Recv} (beside : Beside left right s f) (low : left ≤ 2 ^ 32)
    (high : right ≤ 2 ^ 32) (fmt : CString) :
    Lockstep Undefined (Same left right) (Fmt.scanLoop left fmt s num recvs) (Fmt.scanLoop right fmt f num recvs) := by
  induction length : fmt.length using Nat.strong_induction_on generalizing fmt s f num recvs with
  | _ n ih =>
    cases fmt with
    | nil =>
      rw [Fmt.scanLoop, Fmt.scanLoop]
      exact .returns _ _ ⟨beside, rfl⟩
    | cons c fmt =>
      rw [Fmt.scanLoop, Fmt.scanLoop]
      refine beside.skipWhile.bind ?_
      rintro s f beside
      by_cases percent : c = chr '%'
      · simp only [percent, if_true]
        cases fmt with
        | nil => exact .returns _ _ ⟨beside, rfl⟩
        | cons d fmt =>
          refine beside.tell.bind ?_
          rintro pointS pointF before
          refine (beside.scanDirective low high).bind ?_
          rintro ⟨s, num, values, recvs⟩ ⟨f, _⟩ ⟨beside, rfl⟩
          refine beside.tell.bind ?_
          rintro atS atF behind
          have stuck : pointS = atS ∧ d ≠ chr 'n' ↔ pointF = atF ∧ d ≠ chr 'n' := by
            refine and_congr_left fun _ => ?_
            omega
          refine Lockstep.ite stuck (fun _ => ?_) (fun _ => ?_)
          · exact .returns _ _ ⟨beside, rfl⟩
          · have shorter : fmt.length < n := by
              simp only [List.length_cons] at length
              omega
            refine (ih _ shorter beside fmt rfl).bind ?_
            rintro ⟨s, num, later⟩ ⟨f, _⟩ ⟨beside, rfl⟩
            exact .returns _ _ ⟨beside, rfl⟩
      · have shorter : fmt.length < n := by
          simp only [List.length_cons] at length
          omega
        simp only [percent, if_false]
        split
        · exact ih _ shorter beside fmt rfl
        · refine (beside.acceptChar c).bind ?_
          rintro ⟨s, matched⟩ ⟨f, _⟩ ⟨beside, rfl⟩
          cases matched with
          | true => exact ih _ shorter beside fmt rfl
          | false => exact .returns _ _ ⟨beside, rfl⟩

theorem Level.fmtvscanf (level : Level left right text s f) (startS : s.tell = .ok left) (startF : f.tell = .ok right)
    (low : left ≤ 2 ^ 32) (high : right ≤ 2 ^ 32) (fmt : CString) (recvs : List Recv) :
    Lockstep Undefined (Same left right) (Fmt.fmtvscanf s fmt recvs) (Fmt.fmtvscanf f fmt recvs) := by
  rw [Fmt.fmtvscanf, Fmt.fmtvscanf, startS, startF]
  exact level.beside.scanLoop low high fmt

/-- One count, the same values, and as many bytes taken from the string as from
the file that stood at `start`. -/
def ScannedAlike (start : Nat) (string file : RWStream × Nat × List Value) : Prop :=
  string.2 = file.2 ∧ ∃ used, string.1.tell = .ok used ∧ file.1.tell = .ok (start + used)

/-- Scanning a string and scanning a file with the same text left give the same,
up to the 2 GiB that a string stream has. -/
theorem scans_agree {mem : Mem} {start : Nat} (spells : Spells mem 0 text) (short : text.length ≤ 2 ^ 31)
    (ahead : FileAhead v p start text) (fmt : CString) (recvs : List Recv) :
    Lockstep Undefined (ScannedAlike start) (fmtvscanf (.mkStr mem) fmt recvs)
      (fmtvscanf (.mkFile v p) fmt recvs) := by
  have room : 0 + text.length ≤ 2 ^ 31 := by omega
  have level : Level 0 start text (.mkStr mem) (.mkFile v p) :=
    ⟨by rw [turns]; omega, 0, ⟨rfl, ⟨mem, rfl, spells⟩, room⟩, ahead⟩
  have high : start ≤ 2 ^ 32 := by
    obtain ⟨st, n, _, _, small, _, _, inside, _⟩ := ahead.reading
    omega
  refine (level.fmtvscanf rfl ahead.tell (Nat.zero_le _) high fmt recvs).mono ?_
  rintro ⟨s, result⟩ ⟨f, _⟩ ⟨⟨_, _, used, one, two⟩, rfl⟩
  refine ⟨rfl, used, ?_, two.tell⟩
  rw [one.tell, Nat.zero_add]

/-- A loop that skips what fills a string up to its limit does not end. -/
theorem skipWhile_never {skipped : UInt8 → Bool} {mem : Mem} {c : UInt8} (target : s.target = .str mem)
    (low : s.offs ≤ s.size) (filled : ∀ a ≤ s.size, mem a = c) (some : c ≠ 0) (goes : skipped c = true)
    (s' : RWStream) : Fmt.skipWhile skipped fuel s ≠ .ok s' := by
  induction fuel generalizing s with
  | zero => rintro ⟨⟩
  | succ fuel ih =>
    have here := filled s.offs low
    have peeked : s.peek 1 = .ok (s, [c]) := by
      simp [RWStream.peek, target, RWStream.strPeek, here, some]
    intro run
    rw [Fmt.skipWhile, peeked] at run
    simp only [bind, Except.bind, goes, if_true, RWStream.read, target] at run
    exact @ih { s with offs := s.offs + (RWStream.strRead mem s.size s.offs 1).length, target := .str mem } rfl
      (strRead_length low 1) filled run

theorem scanLoop_space (start num : Nat) (recvs : List Recv) (s : RWStream) :
    scanLoop start [chr ' '] s num recvs = (skipWhitespaces s).map (·, num, []) := by
  have plain : chr ' ' ≠ chr '%' ∧ isWhitespace (chr ' ') = true := by decide
  rw [scanLoop]
  cases skipWhitespaces s with
  | error e => rfl
  | ok s' => simp [plain, scanLoop, bind, Except.bind, Except.map]

/-- A stream at 3, standing at `i`, of the node at 1, whose data is at 2. -/
def fileOf (content : List UInt8) (i : Nat) : Vfs := { Vfs.empty with
  nodes := Function.update Vfs.empty.nodes 1 (some ⟨content.length, 2, [chr 'a'], 0, 0, 0⟩)
  blocks := Function.update Vfs.empty.blocks 2 (some content)
  streams := Function.update Vfs.empty.streams 3 (some ⟨1, 0, 0, 0, i⟩)
  next := 4 }

theorem ahead_fileOf {content : List UInt8} {i : Nat} (small : content.length < 2 ^ 32) (inside : i ≤ content.length) :
    FileAhead (fileOf content i) 3 i (content.drop i) := by
  have data : (fileOf content i).dataOf ⟨content.length, 2, [chr 'a'], 0, 0, 0⟩ = content := by
    simp [Vfs.dataOf, fileOf]
  refine ⟨⟨1, 0, 0, 0, i⟩, ⟨content.length, 2, [chr 'a'], 0, 0, 0⟩, by simp [fileOf], by simp [fileOf], small, ?_, rfl,
    inside, ?_⟩
  · rw [data]
  · rw [Vfs.contentOf, data, List.take_length]

theorem scans_agree_answer : Lockstep Undefined (ScannedAlike 1)
    (fmtvscanf (.mkStr (stringOf [chr '4', chr '2'])) [chr '%', chr 'd', chr '%', chr 'n'] [.int, .int])
    (fmtvscanf (.mkFile (fileOf [chr 'x', chr '4', chr '2'] 1) 3) [chr '%', chr 'd', chr '%', chr 'n'] [.int, .int]) :=
  scans_agree (spells_stringOf (by decide +kernel)) (by decide)
    (@ahead_fileOf [chr 'x', chr '4', chr '2'] 1 (by decide) (by decide)) _ _

/-- The scan of a string of more spaces than its stream takes never ends, the
scan of the file does. -/
theorem scans_differ_on (length : text.length = 2 ^ 31 + 1) (all : ∀ c ∈ text, c = chr ' ')
    (spells : Spells (stringOf text) 0 text) (ahead : FileAhead v p 0 text) :
    ¬ Lockstep Undefined (ScannedAlike 0) (fmtvscanf (.mkStr (stringOf text)) [chr ' '] [])
      (fmtvscanf (.mkFile v p) [chr ' '] []) := by
  intro step
  -- with room for one byte more the string is scanned to its end, so the file is
  have longer : Ahead (.mkStrS (stringOf text) (2 ^ 31 + 1)) (text ++ []) := by
    rw [List.append_nil]
    exact ⟨⟨_, rfl, spells⟩, by rw [length, RWStream.mkStrS, Nat.zero_add]⟩
  have level : Level 0 0 text (.mkStrS (stringOf text) (2 ^ 31 + 1)) (.mkFile v p) :=
    ⟨by rw [length]; decide, 0, ⟨rfl, by simpa using longer⟩, ahead⟩
  have skipped := @Ahead.skipWhile _ _ _ isWhitespace turns longer
    (fun c member => by rw [all c member]; decide) (by simp [StopsAt]) (by rw [length]; decide)
  have ends := level.fmtvscanf rfl ahead.tell (Nat.zero_le _) (Nat.zero_le _) [chr ' '] []
  have string : fmtvscanf (.mkStrS (stringOf text) (2 ^ 31 + 1)) [chr ' '] [] =
      .ok (skip (.mkStrS (stringOf text) (2 ^ 31 + 1)) text.length, 0, []) := by
    rw [fmtvscanf, longer.tell]
    simp only [bind, Except.bind, scanLoop_space, skipWhitespaces, skipped, Except.map]
  rw [string] at ends
  generalize fmtvscanf (.mkFile v p) [chr ' '] [] = file at ends step
  cases ends with
  | returns _ result _ =>
    generalize run : fmtvscanf (.mkStr (stringOf text)) [chr ' '] [] = short at step
    cases step with
    | returns before _ _ =>
      have start : RWStream.tell (.mkStr (stringOf text)) = .ok 0 := rfl
      rw [fmtvscanf, start] at run
      simp only [bind, Except.bind, scanLoop_space] at run
      have filled : ∀ a ≤ 2 ^ 31, stringOf text a = chr ' ' := by
        intro a low
        have inside : a < text.length := by omega
        rw [stringOf, List.getD_eq_getElem _ _ inside]
        exact all _ (List.getElem_mem inside)
      have never := @skipWhile_never turns (.mkStr (stringOf text)) isWhitespace (stringOf text) (chr ' ') rfl
        (Nat.zero_le _) filled (by decide) (by decide)
      rw [skipWhitespaces] at run
      cases skips : skipWhile isWhitespace turns (.mkStr (stringOf text)) with
      | ok s' => exact never s' skips
      | error e =>
        rw [skips] at run
        cases run

/-- One byte more than a string stream takes. -/
def spaces : List UInt8 := List.replicate (2 ^ 31 + 1) (chr ' ')

theorem scans_differ : Spells (stringOf spaces) 0 spaces ∧ FileAhead (fileOf spaces 0) 3 0 spaces ∧
    ¬ Lockstep Undefined (ScannedAlike 0) (fmtvscanf (.mkStr (stringOf spaces)) [chr ' '] [])
      (fmtvscanf (.mkFile (fileOf spaces 0) 3) [chr ' '] []) := by
  have length : spaces.length = 2 ^ 31 + 1 := List.length_replicate
  have all : ∀ c ∈ spaces, c = chr ' ' := fun c => List.eq_of_mem_replicate
  generalize spaces = text at length all
  have spells : Spells (stringOf text) 0 text := by
    refine spells_stringOf fun c member => ?_
    rw [all c member]
    decide
  have ahead : FileAhead (fileOf text 0) 3 0 text := by
    have whole := @ahead_fileOf text 0 (by rw [length]; decide) (Nat.zero_le _)
    rwa [List.drop_zero] at whole
  exact ⟨spells, ahead, scans_differ_on length all spells ahead⟩

end UmkaOs.Fmt
