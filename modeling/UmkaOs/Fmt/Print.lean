import UmkaOs.Fmt.Stream
import Mathlib.Data.Rat.Floor

/-! The printing half of `mock_libc/fmt.c`. `double` is read as an exact
rational number. -/

namespace UmkaOs

open Lib

/-- A variadic argument as the i386 ABI passes it: `int`, `long`, `size_t`,
`ptrdiff_t` and plain pointers are words, `long long` and `intmax_t` quads.
`out` is the target of a `%n`. -/
inductive Arg where
  | word (bits : UInt32)
  | quad (bits : UInt64)
  | double (d : ℚ)
  | str (s : CString)
  | out (target : Nat)

namespace Arg

def takeWord : List Arg → Except Fault (UInt32 × List Arg)
  | word bits :: rest => .ok (bits, rest)
  | _ => .error .undefined

def takeQuad : List Arg → Except Fault (UInt64 × List Arg)
  | quad bits :: rest => .ok (bits, rest)
  | _ => .error .undefined

def takeDouble : List Arg → Except Fault (ℚ × List Arg)
  | double d :: rest => .ok (d, rest)
  | _ => .error .undefined

def takeStr : List Arg → Except Fault (CString × List Arg)
  | str s :: rest => .ok (s, rest)
  | _ => .error .undefined

def takeOut : List Arg → Except Fault (Nat × List Arg)
  | out target :: rest => .ok (target, rest)
  | _ => .error .undefined

end Arg

namespace Fmt

/-- `'%'`, `'0'`, `' '` and the other characters the code compares with. -/
def chr (c : Char) : UInt8 := UInt8.ofNat c.toNat

def space : UInt8 := chr ' '

def zero : UInt8 := chr '0'

def isDigit (c : UInt8) : Bool := 48 ≤ c.toNat && c.toNat ≤ 57

/-- `*fmt`; behind the last character stands the terminator. -/
def peekc (fmt : CString) : UInt8 := fmt.headD 0

/-- `fmt++` followed by another look at `*fmt`. -/
def advance : CString → Except Fault CString
  | [] => .error .overrun
  | _ :: rest => .ok rest

/-- `"0123456789ABCDEF"` or `"0123456789abcdef"` with its terminator. -/
def digitLiteral (upper : Bool) : List UInt8 :=
  ['0', '1', '2', '3', '4', '5', '6', '7', '8', '9'].map chr ++
    (if upper then ['A', 'B', 'C', 'D', 'E', 'F'] else ['a', 'b', 'c', 'd', 'e', 'f']).map chr ++ [0]

/-- The literal at the index `d`. -/
def digitAt (upper : Bool) (d : Nat) : Except Fault UInt8 :=
  match (digitLiteral upper)[d]? with
  | some c => .ok c
  | none => .error .overrun

/-- `while (n) { *--ptr = …; n /= base; }`: `ptr` counts down, and `digits` is
what stands at `ptr` so far. -/
def pushDigits (base : Nat) (upper : Bool) : Nat → Nat → List UInt8 → Except Fault (List UInt8)
  | ptr, n, digits =>
    if n = 0 then .ok digits
    else
      match ptr with
      | 0 => .error .overrun
      | ptr + 1 => do
        let digit ← digitAt upper (n % base)
        pushDigits base upper ptr (n / base) (digit :: digits)

/-- The text in `buf[64]`, whose byte 62 is the terminator. -/
def numeral (n base : Nat) (upper : Bool) : Except Fault (List UInt8) :=
  if n = 0 then .ok [zero] else pushDigits base upper 62 n []

def fmtStringifyULL (s : RWStream) (n base : Nat) (upper : Bool) : Except Fault RWStream := do
  let digits ← numeral n base upper
  s.write digits

/-- The sign that both signed conversions start with. -/
def signWrites (negative sign padsign : Bool) : List (List UInt8) :=
  if sign || negative then [[if negative then chr '-' else chr '+']]
  else if padsign then [[if negative then chr '-' else space]]
  else []

def fmtStringifyLL (s : RWStream) (n : Int) (base : Nat) (upper sign padsign : Bool) :
    Except Fault RWStream := do
  let s ← s.writeAll (signWrites (n < 0) sign padsign)
  fmtStringifyULL s (toUInt64 (if n < 0 then -n else n)) base upper

/-- A conversion of a `double` to `int`. -/
def truncInt (d : ℚ) : Except Fault Int :=
  if -2 ^ 31 - 1 < d ∧ d < 2 ^ 31 then .ok (if d < 0 then ⌈d⌉ else ⌊d⌋) else .error .undefined

/-- A conversion of a `double` to `unsigned long long`. -/
def truncULL (d : ℚ) : Except Fault Nat :=
  if -1 < d ∧ d < 2 ^ 64 then .ok ⌊d⌋.toNat else .error .undefined

/-- The fraction loop of `fmtStringifyD`; the index into `"0123456789"` must be
one of its positions (10 is the terminator). -/
def fracDigits (s : RWStream) (frac : ℚ) : Nat → Except Fault RWStream
  | 0 => .ok s
  | prec + 1 => do
    let frac := frac * 10
    let i ← truncInt frac
    let d := Int.tmod i 10
    if d < 0 then throw .overrun
    let s ← s.write [UInt8.ofNat (48 + d.toNat)]
    fracDigits s frac prec

def fmtStringifyD (s : RWStream) (n : ℚ) (upper sign : Bool) (prec : Int) (padsign : Bool) :
    Except Fault RWStream := do
  let s ← s.writeAll (signWrites (n < 0) sign padsign)
  let n := if n < 0 then -n else n
  let whole ← truncULL n
  let s ← fmtStringifyULL s whole 10 upper
  if prec = 0 then return s
  let s ← s.write [chr '.']
  fracDigits s (n - whole) prec.toNat

structure Flags where
  leftjustify : Bool
  forcesign : Bool
  padsign : Bool
  decorated : Bool
  padzero : Bool
  deriving DecidableEq

/-- The flag loop. -/
def readFlags (f : Flags) : CString → Flags × CString
  | [] => (f, [])
  | c :: rest =>
    if c = chr '-' then readFlags { f with leftjustify := true } rest
    else if c = chr '+' then readFlags { f with forcesign := true } rest
    else if c = chr ' ' then readFlags { f with padsign := true } rest
    else if c = chr '#' then readFlags { f with decorated := true } rest
    else if c = chr '0' then readFlags { f with padzero := true } rest
    else (f, c :: rest)

/-- The digit loops of width and precision; an overflowing `int` wraps. -/
def readDigits (value : Int) : CString → Int × CString
  | [] => (value, [])
  | c :: rest =>
    if isDigit c then readDigits (toInt32 (value * 10 + (c.toNat - 48))) rest
    else (value, c :: rest)

/-- `va_arg(ap, int)` -/
def takeInt (args : List Arg) : Except Fault (Int × List Arg) := do
  let (bits, args) ← Arg.takeWord args
  return (signed32 bits.toNat, args)

/-- A number or a star, and `absent` if there is neither. -/
def readNumber (absent : Int) (fmt : CString) (args : List Arg) : Except Fault (Int × CString × List Arg) :=
  if isDigit (peekc fmt) then
    let (value, fmt) := readDigits 0 fmt
    .ok (value, fmt, args)
  else if peekc fmt = chr '*' then do
    let (value, args) ← takeInt args
    return (value, fmt.tail, args)
  else .ok (absent, fmt, args)

def readPrecision (fmt : CString) (args : List Arg) : Except Fault (Int × CString × List Arg) :=
  if peekc fmt = chr '.' then readNumber (-1) fmt.tail args else .ok (-1, fmt, args)

/-- `XNONE` to `XT`, in the order of the enumeration. -/
inductive Length where
  | none | hh | h | l | ll | j | z | t
  deriving DecidableEq

def readLength (fmt : CString) : Length × CString :=
  if peekc fmt = chr 'h' then
    if peekc fmt.tail = chr 'h' then (.hh, fmt.tail.tail) else (.h, fmt.tail)
  else if peekc fmt = chr 'l' then
    if peekc fmt.tail = chr 'l' then (.ll, fmt.tail.tail) else (.l, fmt.tail)
  else if peekc fmt = chr 'j' then (.j, fmt.tail)
  else if peekc fmt = chr 'z' then (.z, fmt.tail)
  else if peekc fmt = chr 't' then (.t, fmt.tail)
  else (.none, fmt)

/-- `ll = …` for `d` and `i`; a `size_t` is not negative. -/
def signedArg (length : Length) (args : List Arg) : Except Fault (Int × List Arg) :=
  match length with
  | .ll | .j => do
    let (bits, args) ← Arg.takeQuad args
    return (signed 64 bits.toNat, args)
  | _ => do
    let (bits, args) ← Arg.takeWord args
    return (match length with
      | .hh => signed 8 bits.toNat
      | .h => signed 16 bits.toNat
      | .z => bits.toNat
      | _ => signed32 bits.toNat, args)

/-- `ull = …` for `u`, `o`, `x` and `X`: what is read as an `int` or a
`ptrdiff_t` is sign-extended. -/
def unsignedArg (length : Length) (args : List Arg) : Except Fault (Nat × List Arg) :=
  match length with
  | .ll | .j => do
    let (bits, args) ← Arg.takeQuad args
    return (bits.toNat, args)
  | _ => do
    let (bits, args) ← Arg.takeWord args
    return (match length with
      | .l | .z => bits.toNat
      | _ => toUInt64 (signed32 bits.toNat), args)

/-- `numtype` with `ull`, `ll` or `d`. -/
inductive Num where
  | none
  | ull (n : Nat)
  | ll (n : Int)
  | double (d : ℚ)

/-- What the `switch` over the conversion character settles: a number that goes
through `numbuf`, `size` bytes of a text with their own padding, or a `%n`. `base`
is not set for every number. -/
inductive Conv where
  | number (num : Num) (base : Option Nat) (uppercase decorated : Bool) (precision : Int)
  | text (source : List UInt8) (size : Int)
  | count

/-- The `switch (*fmt)`. -/
def convert (decorated : Bool) (precision : Int) (length : Length) (c : UInt8) (args : List Arg) :
    Except Fault (Conv × List Arg) :=
  if c = chr 'i' ∨ c = chr 'd' then do
    let (ll, args) ← signedArg length args
    return (.number (.ll ll) (some 10) false decorated precision, args)
  else if c = chr 'X' then do
    let (ull, args) ← unsignedArg length args
    return (.number (.ull ull) (some 16) true decorated precision, args)
  else if c = chr 'x' then do
    let (ull, args) ← unsignedArg length args
    return (.number (.ull ull) (some 16) false decorated precision, args)
  else if c = chr 'o' then do
    let (ull, args) ← unsignedArg length args
    return (.number (.ull ull) (some 8) false decorated precision, args)
  else if c = chr 'u' then do
    let (ull, args) ← unsignedArg length args
    return (.number (.ull ull) (some 10) false decorated precision, args)
  else if c = chr 'E' ∨ c = chr 'e' ∨ c = chr 'G' ∨ c = chr 'g' ∨ c = chr 'f' then do
    let (d, args) ← Arg.takeDouble args
    return (.number (.double d) none false decorated (if precision < 0 then 1 else precision), args)
  else if c = chr 'P' ∨ c = chr 'p' then do
    let (bits, args) ← Arg.takeWord args
    return (.number (.ull bits.toNat) (some 16) (c = chr 'P') true precision, args)
  else if c = chr '%' then .ok (.text [chr '%'] 1, args)
  else if c = chr 'c' then do
    let (bits, args) ← Arg.takeWord args
    return (.text [UInt8.ofNat bits.toNat] 1, args)
  else if c = chr 's' then do
    let (str, args) ← Arg.takeStr args
    let strl := signed32 str.length
    return (.text (str ++ [0]) (if precision ≠ -1 ∧ precision < strl then precision else strl), args)
  else if c = chr 'n' then .ok (.count, args)
  else .ok (.number .none none false decorated precision, args)

/-- `for (int i = 0; i < count; i++) s->write(s, c, 1);` -/
def pad (c : UInt8) (count : Int) : List (List UInt8) := List.replicate count.toNat [c]

/-- `%`, `c` and `s`: the text between its blanks. -/
def writeText (f : Flags) (width : Int) (s : RWStream) (source : List UInt8) (size : Int) : Except Fault RWStream := do
  let blanks := pad space (toInt32 (width - size))
  let s ← s.writeAll (if f.leftjustify then [] else blanks)
  let s ← s.writeFrom source (toUInt32 size)
  s.writeAll (if f.leftjustify then blanks else [])

/-- What `numbuf` holds and how long it is. -/
def numText (f : Flags) (num : Num) (base : Option Nat) (uppercase : Bool) (precision : Int) :
    Except Fault (List UInt8) := do
  let numstream := RWStream.mkStrS (fun _ => 0) 128
  let numstream ← match num with
    | .ull n => fmtStringifyULL numstream n (base.getD 0) uppercase
    | .ll n => fmtStringifyLL numstream n (base.getD 0) uppercase f.forcesign f.padsign
    | .double d => fmtStringifyD numstream d uppercase f.forcesign precision f.padsign
    | .none => .ok numstream
  let numlen ← numstream.tell
  match numstream.target with
  | .str numbuf => return numbuf.bytes 0 numlen
  | .file _ _ => return []

/-- `"0x"` for base 16, `"0"` for base 8. -/
def basePrefix (base : Nat) : List (List UInt8) :=
  if base = 16 then [[zero, chr 'x']] else if base = 8 then [[zero]] else []

/-- The length of the prefix. -/
def baseLength (base : Nat) : Int := if base = 16 then 2 else if base = 8 then 1 else 0

/-- The three ways a number is laid out. -/
def numWrites (f : Flags) (width precision : Int) (num : Num) (base : Nat) (decorated : Bool)
    (numbuf : List UInt8) : List (List UInt8) :=
  let numlen : Int := numbuf.length
  let mark := if decorated then basePrefix base else []
  let marked := if decorated then baseLength base else 0
  let isDouble := match num with
    | .double _ => true
    | _ => false
  let zeros := if precision > 0 ∧ !isDouble then pad zero (precision - numlen) else []
  let padding := width - numlen
  if numlen < width then
    if f.leftjustify then
      mark ++ zeros ++ [numbuf] ++ pad space (padding - marked - zeros.length)
    else
      let padding := padding - marked - (if precision > 0 ∧ !isDouble then precision - numlen else 0)
      (if f.padzero then mark else []) ++ pad (if f.padzero then zero else space) padding ++
        (if f.padzero then [] else mark) ++ zeros ++ [numbuf]
  else mark ++ zeros ++ [numbuf]

/-- All writes of a number, in order. -/
def numberWrites (f : Flags) (width : Int) (num : Num) (base : Option Nat) (uppercase decorated : Bool)
    (precision : Int) : Except Fault (List (List UInt8)) := do
  let numbuf ← numText f num base uppercase precision
  -- a decorated number looks at its base
  if decorated && base.isNone then throw .undefined
  return numWrites f width precision num (base.getD 0) decorated numbuf

/-- The type of the object a `%n` stores to. -/
inductive OutType where
  | schar | short | long | longlong | intmax | size | ptrdiff | int
  deriving DecidableEq

structure Store where
  target : Nat
  type : OutType
  value : Nat
  deriving DecidableEq

/-- The cases of `%n` fall through to the next one. -/
def outTypes : Length → List OutType
  | .hh => [.schar, .short, .long, .longlong, .intmax, .size, .ptrdiff, .int]
  | .h => [.short, .long, .longlong, .intmax, .size, .ptrdiff, .int]
  | .l => [.long, .longlong, .intmax, .size, .ptrdiff, .int]
  | .ll => [.longlong, .intmax, .size, .ptrdiff, .int]
  | .j => [.intmax, .size, .ptrdiff, .int]
  | .z => [.size, .ptrdiff, .int]
  | .t => [.ptrdiff, .int]
  | .none => [.int]

def storeCount (value : Nat) : List OutType → List Arg → Except Fault (List Store × List Arg)
  | [], args => .ok ([], args)
  | type :: rest, args => do
    let (target, args) ← Arg.takeOut args
    let (stores, args) ← storeCount value rest args
    return (⟨target, type, value⟩ :: stores, args)

/-- A conversion specification with its arguments, up to the conversion character. -/
structure Directive where
  flags : Flags
  width : Int
  length : Length
  conv : Conv

/-- From behind the `%` to the conversion character. -/
def readDirective (fmt : CString) (args : List Arg) : Except Fault (Directive × CString × List Arg) := do
  let (f, fmt) := readFlags ⟨false, false, false, false, false⟩ fmt
  let (width, fmt, args) ← readNumber 0 fmt args
  let (precision, fmt, args) ← readPrecision fmt args
  let (length, fmt) := readLength fmt
  let (conv, args) ← convert f.decorated precision length (peekc fmt) args
  return (⟨f, width, length, conv⟩, fmt, args)

/-- The `%n` of a call that started at `start`. -/
def countChars (s : RWStream) (start : Nat) (d : Directive) (args : List Arg) :
    Except Fault (RWStream × List Store × List Arg) := do
  let blanks := pad space d.width
  let s ← s.writeAll (if d.flags.leftjustify then [] else blanks)
  let position ← s.tell
  let (stores, args) ← storeCount (wrap32 (position + (2 ^ 32 - start))) (outTypes d.length) args
  let s ← s.writeAll (if d.flags.leftjustify then blanks else [])
  return (s, stores, args)

/-- The output of one conversion. -/
def runDirective (start : Nat) (s : RWStream) (d : Directive) (args : List Arg) :
    Except Fault (RWStream × List Store × List Arg) :=
  match d.conv with
  | .count => countChars s start d args
  | .text source size => do
    let s ← writeText d.flags d.width s source size
    return (s, [], args)
  | .number num base uppercase decorated precision => do
    let writes ← numberWrites d.flags d.width num base uppercase decorated precision
    let s ← s.writeAll writes
    return (s, [], args)

/-- The loop of `fmtvprintf`, one character or conversion a turn. -/
def printLoop (start : Nat) : Nat → RWStream → CString → List Arg → Except Fault (RWStream × List Store)
  | 0, _, _, _ => .error .diverges
  | _ + 1, s, [], _ => .ok (s, [])
  | fuel + 1, s, c :: fmt, args =>
    if c = chr '%' then do
      let (d, fmt, args) ← readDirective fmt args
      let (s, stores, args) ← runDirective start s d args
      let fmt ← advance fmt
      let (s, later) ← printLoop start fuel s fmt args
      return (s, stores ++ later)
    else do
      let s ← s.write [c]
      printLoop start fuel s fmt args

/-- Returns the stream, what the `%n`s stored and the count. -/
def fmtvprintf (s : RWStream) (fmt : CString) (args : List Arg) : Except Fault (RWStream × List Store × Nat) := do
  let start := s.supposedoffs
  let (s, stores) ← printLoop start (fmt.length + 1) s fmt args
  return (s, stores, wrap32 (s.supposedoffs + (2 ^ 32 - start)))

/-- `vsnprintf` on the memory from `dest` on. -/
def vsnprintf (dest : Mem) (n : Nat) (fmt : CString) (args : List Arg) : Except Fault (Mem × List Store × Int) := do
  let (s, stores, written) ← fmtvprintf (.mkStrS dest n) fmt args
  match s.target with
  | .str mem => return (mem, stores, signed32 written)
  | .file _ _ => throw .undefined

def sprintf (dest : Mem) (fmt : CString) (args : List Arg) : Except Fault (Mem × List Store × Int) :=
  vsnprintf dest 0xFFFFFFFF fmt args

end Fmt

end UmkaOs
