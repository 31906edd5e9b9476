import Mathlib.Data.Nat.Notation

/-! `mock_libc/arith.c`: the integer routines that gcc calls on the 32-bit target.
Words are bit vectors and signed arithmetic wraps. The two routines that differ in
their width alone are one definition. -/

namespace UmkaOs.Arith

variable {w : Nat}

/-- `arith64_hi` -/
def hi (n : BitVec 64) : BitVec 32 := n.extractLsb' 32 32

/-- `arith64_lo` -/
def lo (n : BitVec 64) : BitVec 32 := n.extractLsb' 0 32

/-- A condition as an `int`. -/
def flag (p : Prop) [Decidable p] : Nat := if p then 1 else 0

/-- `arith64_neg` -/
def neg (a b : BitVec 64) : BitVec 64 :=
  (a ^^^ BitVec.ofInt 64 (flag (0 ≤ b.toInt) - 1)) + BitVec.ofNat 64 (flag (b.toInt < 0))

/-- `arith64_abs` -/
def abs (a : BitVec 64) : BitVec 64 := neg a a

/-! Shifts. An `arith64_word` is its high half before its low half. -/

def ashldi3 (a : BitVec 64) (b : BitVec 32) : BitVec 64 :=
  let b := (b &&& 63).toNat
  if b ≥ 32 then lo a <<< (b - 32) ++ 0#32
  else if b ≠ 0 then (lo a >>> (32 - b) ||| hi a <<< b) ++ lo a <<< b
  else a

def ashrdi3 (a : BitVec 64) (b : BitVec 32) : BitVec 64 :=
  let b := (b &&& 63).toNat
  if b ≥ 32 then (hi a).sshiftRight 31 ++ (hi a).sshiftRight (b - 32)
  else if b ≠ 0 then (hi a).sshiftRight b ++ (hi a <<< (32 - b) ||| lo a >>> b)
  else a

def lshrdi3 (a : BitVec 64) (b : BitVec 32) : BitVec 64 :=
  let b := (b &&& 63).toNat
  if b ≥ 32 then 0#32 ++ hi a >>> (b - 32)
  else if b ≠ 0 then hi a >>> b ++ (hi a <<< (32 - b) ||| lo a >>> b)
  else a

/-- `b = !(a & mask) << k; n += b; a <<= b` -/
def leadingStep (mask : BitVec w) (k : Nat) (s : BitVec w × Nat) : BitVec w × Nat :=
  let b := flag (s.1 &&& mask = 0) <<< k
  (s.1 <<< b, s.2 + b)

def clzsi2 (a : BitVec 32) : Nat :=
  let s := leadingStep 0xffff0000 4 (a, 0)
  let s := leadingStep 0xff000000 3 s
  let s := leadingStep 0xf0000000 2 s
  let s := leadingStep 0xc0000000 1 s
  s.2 + flag (s.1 &&& 0x80000000 = 0)

def clzdi2 (a : BitVec 64) : Nat :=
  let s := leadingStep 0xffffffff00000000 5 (a, 0)
  let s := leadingStep 0xffff000000000000 4 s
  let s := leadingStep 0xff00000000000000 3 s
  let s := leadingStep 0xf000000000000000 2 s
  let s := leadingStep 0xc000000000000000 1 s
  s.2 + flag (s.1 &&& 0x8000000000000000 = 0)

/-- `b = !(a & mask) << k; n += b; a >>= b` -/
def trailingStep (mask : BitVec w) (k : Nat) (s : BitVec w × Nat) : BitVec w × Nat :=
  let b := flag (s.1 &&& mask = 0) <<< k
  (s.1 >>> b, s.2 + b)

def ctzsi2 (a : BitVec 32) : Nat :=
  let s := trailingStep 0x0000ffff 4 (a, 0)
  let s := trailingStep 0x000000ff 3 s
  let s := trailingStep 0x0000000f 2 s
  let s := trailingStep 0x00000003 1 s
  s.2 + flag (s.1 &&& 0x00000001 = 0)

def ctzdi2 (a : BitVec 64) : Nat :=
  let s := trailingStep 0x00000000ffffffff 5 (a, 0)
  let s := trailingStep 0x000000000000ffff 4 s
  let s := trailingStep 0x00000000000000ff 3 s
  let s := trailingStep 0x000000000000000f 2 s
  let s := trailingStep 0x0000000000000003 1 s
  s.2 + flag (s.1 &&& 0x0000000000000001 = 0)

def ffsdi2 (a : BitVec 64) : Nat := if a ≠ 0 then ctzdi2 a + 1 else 0

def popcountsi2 (a : BitVec 32) : Nat :=
  let a := a - (a >>> 1 &&& 0x55555555)
  let a := (a >>> 2 &&& 0x33333333) + (a &&& 0x33333333)
  let a := (a + a >>> 4) &&& 0x0F0F0F0F
  let a := a + a >>> 16
  ((a + a >>> 8) &&& 63).toNat

def popcountdi2 (a : BitVec 64) : Nat :=
  let a := a - (a >>> 1 &&& 0x5555555555555555)
  let a := (a >>> 2 &&& 0x3333333333333333) + (a &&& 0x3333333333333333)
  let a := (a + a >>> 4) &&& 0x0F0F0F0F0F0F0F0F
  let a := a + a >>> 32
  let a := a + a >>> 16
  ((a + a >>> 8) &&& 127).toNat

/-- The variables of the long division. -/
structure Division where
  a : BitVec 64
  rem : BitVec 64
  wrap : BitVec 64

/-- One bit of the numerator. -/
def divStep (b : BitVec 64) (s : Division) : Division :=
  let rem := s.rem <<< 1 ||| s.a >>> 63
  let a := s.a <<< 1 ||| (s.wrap &&& 1)
  let wrap := (b - rem - 1).sshiftRight 63
  ⟨a, rem - (b &&& wrap), wrap⟩

/-- `while (bits-- > 0)` -/
def divLoop (b : BitVec 64) : Nat → Division → Division
  | 0, s => s
  | bits + 1, s => divLoop b bits (divStep b s)

/-- The number of bits to iterate, kept in a `char`. -/
def divBits (a b : BitVec 64) : Nat := (BitVec.ofInt 8 ((clzdi2 b : Int) - clzdi2 a + 1)).toInt.toNat

def longDivision (a b : BitVec 64) : BitVec 64 × BitVec 64 :=
  let bits := divBits a b
  let s := divLoop b bits ⟨a <<< (64 - bits), a >>> bits, 0⟩
  (s.a <<< 1 ||| (s.wrap &&& 1), s.rem)

/-- The quotient, and what is stored at `c` if it is not null; none is the exception that a
division by zero forces. -/
def divmoddi4 (a b : BitVec 64) : Option (BitVec 64 × BitVec 64) :=
  if b.toNat > a.toNat then some (0, a)
  else if hi b = 0 then
    if b = 0 then none
    else if b = 1 then some (a, 0)
    else if hi a = 0 then some ((lo a / lo b).setWidth 64, (lo a % lo b).setWidth 64)
    else some (longDivision a b)
  else some (longDivision a b)

def divdi3 (a b : BitVec 64) : Option (BitVec 64) :=
  (divmoddi4 (abs a) (abs b)).map fun d => neg d.1 (a ^^^ b)

def moddi3 (a b : BitVec 64) : Option (BitVec 64) :=
  (divmoddi4 (abs a) (abs b)).map fun d => neg d.2 a

def udivdi3 (a b : BitVec 64) : Option (BitVec 64) := (divmoddi4 a b).map Prod.fst

def umoddi3 (a b : BitVec 64) : Option (BitVec 64) := (divmoddi4 a b).map Prod.snd

def udivmoddi4 (a b : BitVec 64) : Option (BitVec 64 × BitVec 64) := divmoddi4 a b

end UmkaOs.Arith
