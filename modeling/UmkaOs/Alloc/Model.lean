import UmkaOs.Machine
import UmkaOs.Lib.ByteMemory

/-! `mock_libc/alloc.c`: the arena allocator, with its headers in the same
bytes as the client data, and `calloc` of `mock_libc.c`. -/

namespace UmkaOs

open Lib

/-! `struct MemNode`: three words and padding, then the flexible `data`. -/
namespace MemNode

def sizeof : Nat := 16

def magic : Nat := 0x11FACADE

def check (m : Mem) (node : Nat) : Nat := m.load32 node

def next (m : Mem) (node : Nat) : Nat := m.load32 (node + 4)

def size (m : Mem) (node : Nat) : Nat := m.load32 (node + 8)

def setCheck (m : Mem) (node v : Nat) : Mem := m.store32 node v

def setNext (m : Mem) (node v : Nat) : Mem := m.store32 (node + 4) v

def setSize (m : Mem) (node v : Nat) : Mem := m.store32 (node + 8) v

/-- `*node = (MemNode){0}` -/
def zero (m : Mem) (node : Nat) : Mem := m.fill node 0 sizeof

/-- `node->data` -/
def data (node : Nat) : Nat := wrap32 (node + sizeof)

/-- `(MemNode *)((char *)ptr - sizeof(MemNode))` -/
def ofData (ptr : Nat) : Nat := wrap32 (ptr + (2 ^ 32 - sizeof))

end MemNode

/-- The global `alloc` together with the memory it manages. -/
structure Allocator where
  mem : Mem
  tail : Nat
  free : Nat

namespace Allocator

def allocatorInit (m : Mem) (start : Nat) : Allocator where
  mem := MemNode.zero m start
  tail := start
  free := 0

/-- The `while (node->size < size)` loop. `none` is its `goto normal`, `some`
gives the final `prev` and `node`. A walk longer than the address space
revisits a node and so never ends. -/
def scan (m : Mem) (size : Nat) : Nat → Nat → Nat → Except Fault (Option (Nat × Nat))
  | 0, _, _ => .error .diverges
  | fuel + 1, prev, node =>
    if MemNode.size m node < size then
      if MemNode.next m node = 0 then .ok none
      else scan m size fuel node (MemNode.next m node)
    else .ok (some (prev, node))

/-- The code after the label `normal`. -/
def carve (h : Allocator) (size : Nat) : Allocator × Nat :=
  let node := wrap32 (h.tail + MemNode.size h.mem h.tail + MemNode.sizeof)
  let m := MemNode.setCheck (MemNode.zero h.mem node) node MemNode.magic
  let m := MemNode.setSize m node (wrap32 (size + (16 - size % 16)))
  ({ h with mem := m, tail := node }, MemNode.data node)

/-- Taking `node` off the free list, `prev` being the node before it. -/
def take (h : Allocator) (prev node : Nat) : Except Fault (Allocator × Nat) := do
  let h ←
    if node = h.free then .ok { h with free := MemNode.next h.mem node }
    else if prev = 0 then .error .panic
    else .ok { h with mem := MemNode.setNext h.mem prev (MemNode.next h.mem node) }
  if MemNode.check h.mem node = MemNode.magic then .ok (h, MemNode.data node)
  else .error .panic

def allocatorAlloc (h : Allocator) (size : Nat) : Except Fault (Allocator × Nat) :=
  if h.free = 0 then .ok (h.carve size)
  else do
    match ← scan h.mem size (2 ^ 32) 0 h.free with
    | none => return h.carve size
    | some (prev, node) => h.take prev node

def allocatorFree (h : Allocator) (ptr : Nat) : Except Fault Allocator :=
  if ptr = 0 then .ok h
  else
    let node := MemNode.ofData ptr
    if MemNode.check h.mem node = MemNode.magic then
      .ok { h with mem := MemNode.setNext h.mem node h.free, free := node }
    else .error .panic

def allocatorRealloc (h : Allocator) (ptr size : Nat) : Except Fault (Allocator × Nat) :=
  if ptr = 0 then h.allocatorAlloc size
  else
    let node := MemNode.ofData ptr
    if size ≤ MemNode.size h.mem node then .ok (h, ptr)
    else do
      let (h, new) ← h.allocatorAlloc size
      let h := { h with mem := h.mem.copy new (MemNode.data node) (MemNode.size h.mem node) }
      let h ← h.allocatorFree ptr
      return (h, new)

def calloc (h : Allocator) (nmemb size : Nat) : Except Fault (Allocator × Nat) := do
  let (h, ptr) ← h.allocatorAlloc (wrap32 (nmemb * size))
  return ({ h with mem := h.mem.fill ptr 0 (wrap32 (nmemb * size)) }, ptr)

/-- First address after the last block, as an exact number. -/
def arenaEnd (h : Allocator) : Nat := h.tail + MemNode.sizeof + MemNode.size h.mem h.tail

end Allocator

end UmkaOs
