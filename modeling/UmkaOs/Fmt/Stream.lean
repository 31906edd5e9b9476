import UmkaOs.Vfs.Model
import UmkaOs.Lib.ByteMemory

namespace UmkaOs

open Lib

/-- What a stream works on: the memory from its `data` pointer on, or a file. -/
inductive Target where
  | str (mem : Mem)
  | file (vfs : Vfs) (stream : Ptr)

structure RWStream where
  supposedoffs : Nat
  offs : Nat
  size : Nat
  target : Target

namespace RWStream

/-- `rwStreamMkStr`; `1 << 31` as a `size_t`. -/
def mkStr (mem : Mem) : RWStream := ⟨0, 0, 2 ^ 31, .str mem⟩

def mkStrS (mem : Mem) (size : Nat) : RWStream := ⟨0, 0, size, .str mem⟩

def mkFile (vfs : Vfs) (stream : Ptr) : RWStream := ⟨0, 0, 0, .file vfs stream⟩

/-- The copying loop of `_strWrite`. -/
def strPut (limit : Nat) : List UInt8 → Mem → Nat → Mem × Nat
  | [], mem, offs => (mem, offs)
  | c :: rest, mem, offs =>
    if offs < limit then strPut limit rest (Function.update mem offs c) (offs + 1) else (mem, offs)

/-- `s->write`; no caller uses the count it returns. -/
def write (s : RWStream) (data : List UInt8) : Except Fault RWStream :=
  let s := { s with supposedoffs := wrap32 (s.supposedoffs + data.length) }
  match s.target with
  | .str mem =>
    if s.size = 0 then .ok s
    else
      let (mem, offs) := strPut (s.size - 1) data mem s.offs
      .ok { s with offs := offs, target := .str (Function.update mem offs 0) }
  | .file vfs stream => do
    let (vfs, _) ← vfs.vfsWrite stream data
    return { s with target := .file vfs stream }

/-- How many bytes of its source `s->write` reads when it is asked for `size`, `produced` bytes from now:
a buffer stops at its last byte but one. -/
def reads (s : RWStream) (produced size : Nat) : Nat :=
  match s.target with
  | .str _ => min size (s.size - 1 - (s.offs + produced))
  | .file _ _ => size

/-- `s->write(s, source, size)` with a `size` that may be longer than the source. -/
def writeFrom (s : RWStream) (source : List UInt8) (size : Nat) : Except Fault RWStream :=
  if source.length < s.reads 0 size then .error .overrun
  else do
    let written ← s.write (source.take (s.reads 0 size))
    return { written with supposedoffs := wrap32 (s.supposedoffs + size) }

/-- The loop of `_strPeek`. -/
def strPeek (mem : Mem) (offs : Nat) : Nat → List UInt8
  | 0 => []
  | size + 1 => if mem offs = 0 then [] else mem offs :: strPeek mem (offs + 1) size

/-- The loop of `_strRead`. -/
def strRead (mem : Mem) (limit offs : Nat) : Nat → List UInt8
  | 0 => []
  | size + 1 =>
    if offs < limit ∧ mem offs ≠ 0 then mem offs :: strRead mem limit (offs + 1) size else []

/-- `s->peek`; `_vfsPeek` reads and seeks back. -/
def peek (s : RWStream) (size : Nat) : Except Fault (RWStream × List UInt8) :=
  match s.target with
  | .str mem => .ok (s, strPeek mem s.offs size)
  | .file vfs stream => do
    let position ← vfs.vfsTell stream
    let (vfs, bytes) ← vfs.vfsRead stream size
    let vfs ← vfs.vfsSeek stream position 0
    return ({ s with target := .file vfs stream }, bytes)

def tell (s : RWStream) : Except Fault Nat :=
  match s.target with
  | .str _ => .ok s.offs
  | .file vfs stream => vfs.vfsTell stream

def read (s : RWStream) (size : Nat) : Except Fault (RWStream × List UInt8) :=
  match s.target with
  | .str mem =>
    let bytes := strRead mem s.size s.offs size
    .ok ({ s with offs := s.offs + bytes.length }, bytes)
  | .file vfs stream => do
    let (vfs, bytes) ← vfs.vfsRead stream size
    return ({ s with target := .file vfs stream }, bytes)

/-- A row of writes. -/
def writeAll (s : RWStream) : List (List UInt8) → Except Fault RWStream
  | [] => .ok s
  | data :: rest => do
    let s ← s.write data
    s.writeAll rest

variable {s : RWStream}

theorem tell_str {mem : Mem} (target : s.target = .str mem) : s.tell = .ok s.offs := by
  rw [tell, target]

theorem tell_file {v : Vfs} {p : Ptr} {st : Stream} (target : s.target = .file v p) (opened : v.streams p = some st) :
    s.tell = .ok st.i := by
  simp only [tell, target, Vfs.vfsTell, Vfs.stream, opened, bind, Except.bind, pure, Except.pure]

end RWStream

end UmkaOs
