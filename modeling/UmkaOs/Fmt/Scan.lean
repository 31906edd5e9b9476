import UmkaOs.Fmt.Print
import Mathlib.Algebra.Order.Field.Rat

namespace UmkaOs.Fmt

open Lib

/-- More turns than any loop over a stream can make progress in. -/
def turns : Nat := 2 ^ 32

def isSpace (c : UInt8) : Bool := c = chr ' '

def isWhitespace (c : UInt8) : Bool := c = chr ' ' || c = chr '\n' || c = chr '\t' || c = chr '\r'

/-- `while (s->peek(s, &ch, 1) && …) s->read(s, &ch, 1);` -/
def skipWhile (skipped : UInt8 → Bool) : Nat → RWStream → Except Fault RWStream
  | 0, _ => .error .diverges
  | fuel + 1, s => do
    let (s, ch) ← s.peek 1
    match ch with
    | [] => return s
    | c :: _ =>
      if skipped c then
        let (s, _) ← s.read 1
        skipWhile skipped fuel s
      else return s

def skipSpaces (s : RWStream) : Except Fault RWStream := skipWhile isSpace turns s

def skipWhitespaces (s : RWStream) : Except Fault RWStream := skipWhile isWhitespace turns s

/-- `basetbl` for the characters below 128. -/
def basetbl (c : UInt8) : Nat :=
  if isDigit c then c.toNat - 48
  else if 65 ≤ c.toNat ∧ c.toNat ≤ 70 then c.toNat - 55
  else if 97 ≤ c.toNat ∧ c.toNat ≤ 102 then c.toNat - 87
  else 0

/-- The digit loop of `fmtParseNum` over the rest of `buf`; a `char` from 128 on
is a negative index into `basetbl`. Returns the number and how far `nptr` got. -/
def parseDigits (base : Nat) : List UInt8 → Nat → Nat → Except Fault (Nat × Nat)
  | [], _, _ => .error .overrun
  | c :: rest, n, count =>
    if c = 0 then .ok (n, count)
    else if c = zero then parseDigits base rest (wrap64 (n * base)) (count + 1)
    else if 128 ≤ c.toNat then .error .overrun
    else if basetbl c ≠ 0 ∧ basetbl c < base then
      parseDigits base rest (wrap64 (n * base + basetbl c)) (count + 1)
    else .ok (n, count)

/-- The base that base 0 stands for, and the length of its prefix. -/
def detectBase (buf : List UInt8) (base : Nat) : Nat × Nat :=
  if base = 0 then
    if buf.headD 0 = zero then
      if buf.getD 1 0 = chr 'x' ∨ buf.getD 1 0 = chr 'X' then (16, 2) else (8, 1)
    else (10, 0)
  else (base, 0)

def fmtParseNum (s : RWStream) (base : Nat) : Except Fault (RWStream × Nat) := do
  let (s, ahead) ← s.peek 64
  let buf := ahead ++ List.replicate (64 - ahead.length) 0
  let (base, start) := detectBase buf base
  let (n, count) ← parseDigits base (buf.drop start) 0 start
  let (s, _) ← s.read count
  return (s, n)

/-- `s->peek(s, &ch, 1); if (ch == c) s->read(s, &ch, 1);`. At the end of the
input `ch` keeps an old value; a read does nothing then. -/
def acceptChar (s : RWStream) (c : UInt8) : Except Fault (RWStream × Bool) := do
  let (s, ch) ← s.peek 1
  if ch.head? = some c then
    let (s, _) ← s.read 1
    return (s, true)
  else return (s, false)

def fmtParseULL (s : RWStream) (base : Nat) : Except Fault (RWStream × Nat) := do
  let s ← skipSpaces s
  let (s, _) ← acceptChar s (chr '+')
  fmtParseNum s base

def fmtParseLL (s : RWStream) (base : Nat) : Except Fault (RWStream × Int) := do
  let s ← skipSpaces s
  let (s, negative) ← acceptChar s (chr '-')
  if negative then
    let (s, n) ← fmtParseNum s base
    return (s, signed 64 (wrap64 (2 ^ 64 - n)))
  else
    let (s, _) ← acceptChar s (chr '+')
    let (s, n) ← fmtParseNum s base
    return (s, signed 64 n)

/-- The loop over the digits behind the point. -/
def fracLoop : Nat → RWStream → Nat → ℚ → Except Fault (RWStream × Nat × ℚ)
  | 0, _, _, _ => .error .diverges
  | fuel + 1, s, frac, div => do
    let (s, ch) ← s.peek 1
    match ch with
    | [] => return (s, frac, div)
    | c :: _ =>
      if isDigit c then
        let (s, _) ← s.read 1
        fracLoop fuel s (wrap64 (frac * 10 + (c.toNat - 48))) (div * 10)
      else return (s, frac, div)

/-- Behind the exponent the sign of the number is not applied. -/
def fmtParseD (s : RWStream) : Except Fault (RWStream × ℚ) := do
  let s ← skipSpaces s
  let (s, negative) ← acceptChar s (chr '-')
  let (s, _) ← if negative then .ok (s, false) else acceptChar s (chr '+')
  let point ← s.tell
  let (s, whole) ← fmtParseNum s 10
  let position ← s.tell
  if position = point then return (s, 0)
  let (s, dotted) ← acceptChar s (chr '.')
  let (s, val) ← if dotted then do
      let (s, frac, div) ← fracLoop turns s 0 1
      .ok (s, (whole : ℚ) + frac / div)
    else .ok (s, (whole : ℚ))
  let (s, lower) ← acceptChar s (chr 'e')
  let (s, scientific) ← if lower then .ok (s, true) else acceptChar s (chr 'E')
  if scientific then
    let (s, down) ← acceptChar s (chr '-')
    let (s, _) ← if down then .ok (s, false) else acceptChar s (chr '+')
    let (s, e) ← fmtParseNum s 10
    return (s, val * (10 : ℚ) ^ (if down then -(e : Int) else (e : Int)))
  else return (s, val * (if negative then -1 else 1))

/-- What an argument of `fmtvscanf` points to; the buffers of strings are long
enough. -/
inductive Recv where
  | int | uint | double | chr | ptr | str
  deriving DecidableEq

/-- What was stored through an argument. -/
inductive Value where
  | int (i : Int)
  | uint (n : Nat)
  | double (d : ℚ)
  | chr (c : UInt8)
  | ptr (p : Nat)
  | str (s : CString)
  | unset
  deriving DecidableEq

/-- `va_arg` for a pointer of the given kind. -/
def takeRecv (kind : Recv) : List Recv → Except Fault (List Recv)
  | r :: rest => if r = kind then .ok rest else .error .undefined
  | [] => .error .undefined

/-- The loop of `%s`. -/
def readWord : Nat → RWStream → Except Fault (RWStream × CString)
  | 0, _ => .error .diverges
  | fuel + 1, s => do
    let (s, ch) ← s.peek 1
    match ch with
    | [] => return (s, [])
    | c :: _ =>
      if isWhitespace c then return (s, [])
      else
        let (s, byte) ← s.read 1
        let (s, word) ← readWord fuel s
        return (s, byte ++ word)

/-- The `switch` over the conversion character. -/
def scanDirective (start : Nat) (c : UInt8) (s : RWStream) (num : Nat) (recvs : List Recv) :
    Except Fault (RWStream × Nat × List Value × List Recv) :=
  if c = chr '%' then do
    let (s, _) ← s.read 1
    return (s, wrap32 (num + (2 ^ 32 - 1)), [], recvs)
  else if c = chr 'i' ∨ c = chr 'd' then do
    let recvs ← takeRecv .int recvs
    let (s, n) ← fmtParseLL s (if c = chr 'i' then 0 else 10)
    return (s, num, [.int (toInt32 n)], recvs)
  else if c = chr 'u' ∨ c = chr 'o' ∨ c = chr 'x' then do
    let recvs ← takeRecv .uint recvs
    let (s, n) ← fmtParseULL s (if c = chr 'u' then 10 else if c = chr 'o' then 8 else 16)
    return (s, num, [.uint (wrap32 n)], recvs)
  else if c = chr 'e' ∨ c = chr 'g' ∨ c = chr 'f' then do
    let recvs ← takeRecv .double recvs
    let (s, d) ← fmtParseD s
    return (s, num, [.double d], recvs)
  else if c = chr 'c' then do
    let recvs ← takeRecv .chr recvs
    let (s, ch) ← s.read 1
    return (s, num, [match ch with | [] => .unset | ch :: _ => .chr ch], recvs)
  else if c = chr 'p' then do
    let recvs ← takeRecv .ptr recvs
    let (s, n) ← fmtParseULL s 16
    return (s, num, [.ptr (wrap32 n)], recvs)
  else if c = chr 's' then do
    let recvs ← takeRecv .str recvs
    let (s, word) ← readWord turns s
    return (s, num, [.str word], recvs)
  else if c = chr 'n' then do
    let recvs ← takeRecv .int recvs
    let position ← s.tell
    return (s, num, [.int (signed32 (wrap32 (position + (2 ^ 32 - start))))], recvs)
  else .ok (s, num, [], recvs)

/-- The loop of `fmtvscanf`; the values are those stored, in order. -/
def scanLoop (start : Nat) : CString → RWStream → Nat → List Recv → Except Fault (RWStream × Nat × List Value)
  | [], s, num, _ => .ok (s, num, [])
  | c :: fmt, s, num, recvs => do
    let s ← skipWhitespaces s
    if c = chr '%' then
      match fmt with
      | [] => return (s, num, [])
      | d :: fmt =>
        let point ← s.tell
        let (s, num, values, recvs) ← scanDirective start d s num recvs
        let position ← s.tell
        if point = position ∧ d ≠ chr 'n' then return (s, num, values)
        else
          let (s, num, later) ← scanLoop start fmt s (wrap32 (num + 1)) recvs
          return (s, num, values ++ later)
    else if isWhitespace c then scanLoop start fmt s num recvs
    else
      let (s, matched) ← acceptChar s c
      if matched then scanLoop start fmt s num recvs else return (s, num, [])

/-- Returns the stream, the count and the stored values. -/
def fmtvscanf (s : RWStream) (fmt : CString) (recvs : List Recv) : Except Fault (RWStream × Nat × List Value) := do
  let start ← s.tell
  scanLoop start fmt s 0 recvs

end UmkaOs.Fmt
