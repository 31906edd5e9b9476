import UmkaOs.Vfs.Model
import UmkaOs.Lib.ByteMemory

/-! The memory and string functions of `mock_libc/mock_libc.c`. What is only read
is a list of bytes; what is written is a memory with addresses, whose ranges do
not wrap. -/

namespace UmkaOs.Libc

open Lib

/-- A `char`, which is signed. -/
def charOf (c : UInt8) : Int := signed 8 c.toNat

/-- The loop of `memcmp` with its `int` index. -/
def memcmpLoop (s1 s2 : List UInt8) : Nat → Nat → Except Fault Int
  | 0, _ => .ok 0
  | left + 1, i =>
    match s1[i]?, s2[i]? with
    | some x, some y =>
      if x ≠ y then .ok ((x.toNat : Int) - y.toNat)
      else if i + 1 = 2 ^ 31 then .error .undefined
      else memcmpLoop s1 s2 left (i + 1)
    | _, _ => .error .overrun

def memcmp (s1 s2 : List UInt8) (n : Nat) : Except Fault Int := memcmpLoop s1 s2 n 0

def strcmp : CString → CString → Int
  | [], b => charOf 0 - charOf (b.headD 0)
  | x :: a, b =>
    if x ≠ 0 ∧ b.headD 0 ≠ 0 ∧ x = b.headD 0 then strcmp a b.tail else charOf x - charOf (b.headD 0)

/-- `n ? *a - *b : 0`, behind the decrement that ended the loop. -/
def strncmpEnd (x y : UInt8) (n : Nat) : Int := if n ≠ 0 then charOf x - charOf y else 0

def strncmp : CString → CString → Nat → Int
  | [], b, n => strncmpEnd 0 (b.headD 0) (wrap32 (n + (2 ^ 32 - 1)))
  | x :: a, b, n =>
    if n ≠ 0 ∧ x ≠ 0 ∧ b.headD 0 ≠ 0 ∧ x = b.headD 0 then strncmp a b.tail (wrap32 (n + (2 ^ 32 - 1)))
    else strncmpEnd x (b.headD 0) (wrap32 (n + (2 ^ 32 - 1)))

/-- `while (n--) *d++ = *s++;` -/
def memcpy (m : Mem) (d s : Nat) : Nat → Mem
  | 0 => m
  | n + 1 => memcpy (Function.update m d (m s)) (d + 1) (s + 1) n

/-- `while (n--) *--d = *--s;` -/
def copyDown (m : Mem) (d s : Nat) : Nat → Mem
  | 0 => m
  | n + 1 => copyDown (Function.update m (d - 1) (m (s - 1))) (d - 1) (s - 1) n

def memmove (m : Mem) (dest src n : Nat) : Mem :=
  if dest < src then memcpy m dest src n else copyDown m (dest + n) (src + n) n

/-- `while (s[j] && …) d[i++] = s[j++];`, with so many turns left; gives `i`. -/
def copyChars (d s : Nat) : Nat → Nat → Nat → Mem → Mem × Nat
  | 0, i, _, m => (m, i)
  | left + 1, i, j, m =>
    if m (s + j) ≠ 0 then copyChars d s left (i + 1) (j + 1) (Function.update m (d + i) (m (s + j))) else (m, i)

/-- `while (d[i]) i++;` -/
def strEnd (m : Mem) (d : Nat) : Nat → Nat → Except Fault Nat
  | 0, _ => .error .diverges
  | fuel + 1, i => if m (d + i) ≠ 0 then strEnd m d fuel (i + 1) else .ok i

def strncpy (m : Mem) (d s n : Nat) : Mem :=
  let (m, i) := copyChars d s n 0 0 m
  Function.update m (d + i) 0

def strncat (m : Mem) (d s c : Nat) : Except Fault Mem := do
  let i ← strEnd m d (2 ^ 32) 0
  let (m, i) := copyChars d s c i 0 m
  return Function.update m (d + i) 0

end UmkaOs.Libc
