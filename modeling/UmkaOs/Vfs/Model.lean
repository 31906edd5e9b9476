import UmkaOs.Machine
import Mathlib.Data.List.Basic

/-! `mock_libc/vfs.c`: the in-memory file system as a store of nodes, streams
and malloc'ed byte blocks. Every allocation gets a name that is never used
again, so a use after free shows as `Fault.dangling`. -/

namespace UmkaOs

/-- The name of an allocation; 0 is `NULL`. -/
abbrev Ptr := Nat

/-- A C string without its terminator. -/
abbrev CString := List UInt8

structure Node where
  datasize : Nat
  data : Ptr
  filename : CString
  parent : Ptr
  child : Ptr
  sibling : Ptr
  deriving DecidableEq

structure Stream where
  node : Ptr
  flushdata : Nat
  flush : Nat
  flushindex : Nat
  i : Nat
  deriving DecidableEq

/-- One call of a flush hook: `flush(flushdata, data + start, size)`. -/
structure FlushCall where
  stream : Ptr
  hook : Nat
  flushdata : Nat
  start : Nat
  size : Nat
  buffer : List UInt8
  deriving DecidableEq

structure Vfs where
  root : Ptr
  nodes : Ptr → Option Node
  streams : Ptr → Option Stream
  blocks : Ptr → Option (List UInt8)
  next : Nat
  flushed : List FlushCall

/-- Capacity of `filename`, terminator included. -/
def filenameSize : Nat := 32

/-- Length of the array `sub` in `vfsGetPath`. -/
def subSize : Nat := 32

def slash : UInt8 := 47

def dot : UInt8 := 46

namespace Vfs

def empty : Vfs where
  root := 0
  nodes := fun _ => none
  streams := fun _ => none
  blocks := fun _ => none
  next := 1
  flushed := []

def node (v : Vfs) (p : Ptr) : Except Fault Node :=
  match v.nodes p with
  | some n => .ok n
  | none => .error .dangling

/-- `assert(stream)` and the first dereference. -/
def stream (v : Vfs) (p : Ptr) : Except Fault Stream :=
  match v.streams p with
  | some s => .ok s
  | none => .error (if p = 0 then .panic else .dangling)

def block (v : Vfs) (p : Ptr) : Except Fault (List UInt8) :=
  match v.blocks p with
  | some b => .ok b
  | none => .error .dangling

def setNode (v : Vfs) (p : Ptr) (n : Node) : Vfs :=
  { v with nodes := Function.update v.nodes p (some n) }

def setStream (v : Vfs) (p : Ptr) (s : Stream) : Vfs :=
  { v with streams := Function.update v.streams p (some s) }

/-- A new byte block. -/
def malloc (v : Vfs) (content : List UInt8) : Vfs × Ptr :=
  ({ v with blocks := Function.update v.blocks v.next (some content), next := v.next + 1 }, v.next)

def newNode (v : Vfs) (n : Node) : Vfs × Ptr :=
  ({ v with nodes := Function.update v.nodes v.next (some n), next := v.next + 1 }, v.next)

def newStream (v : Vfs) (s : Stream) : Vfs × Ptr :=
  ({ v with streams := Function.update v.streams v.next (some s), next := v.next + 1 }, v.next)

def free (v : Vfs) (p : Ptr) : Except Fault Vfs := do
  let _ ← v.block p
  return { v with blocks := Function.update v.blocks p none }

def freeNode (v : Vfs) (p : Ptr) : Except Fault Vfs := do
  let _ ← v.node p
  return { v with nodes := Function.update v.nodes p none }

def freeStream (v : Vfs) (p : Ptr) : Except Fault Vfs := do
  let _ ← v.stream p
  return { v with streams := Function.update v.streams p none }

/-- `realloc`: a block of `size` bytes that starts like the old one. The old
block is given up even where the C allocator could have kept it in place. -/
def realloc (v : Vfs) (p : Ptr) (size : Nat) : Except Fault (Vfs × Ptr) :=
  if p = 0 then .ok (v.malloc (List.replicate size 0))
  else do
    let old ← v.block p
    let v ← v.free p
    return v.malloc (old.take size ++ List.replicate (size - old.length) 0)

/-- The loop of `vfsBasename`: `base` is the rest behind the last slash seen. -/
def basenameFrom (base : CString) : CString → CString
  | [] => base
  | c :: rest => if c = slash then basenameFrom rest rest else basenameFrom base rest

def vfsBasename (path : CString) : CString := basenameFrom path path

/-- `sub[sub_idx++] = …`: a copy of the component in a block of its own. -/
def pushSub (v : Vfs) (sub : List Ptr) (name : CString) : Except Fault (Vfs × List Ptr) :=
  if sub.length < subSize then
    let (v, p) := v.malloc (name ++ [0])
    .ok (v, sub ++ [p])
  else .error .overrun

/-- The splitting loop of `vfsGetPath`; `current` holds the last `n` bytes. -/
def splitPath (v : Vfs) (sub : List Ptr) (current : CString) : CString → Except Fault (Vfs × List Ptr)
  | [] => if current = [] then .ok (v, sub) else v.pushSub sub current
  | c :: rest =>
    if c = slash then
      if current = [] then splitPath v sub [] rest
      else do
        let (v, sub) ← v.pushSub sub current
        splitPath v sub [] rest
    else splitPath v sub (current ++ [c]) rest

/-- `while (child)` in `vfsGetPath`: the first child called `name`, or `NULL`. -/
def findChild (v : Vfs) (name : List UInt8) : Nat → Ptr → Except Fault Ptr
  | 0, _ => .error .diverges
  | fuel + 1, child =>
    if child = 0 then .ok 0
    else do
      let c ← v.node child
      if c.filename ++ [0] = name then return child
      else findChild v name fuel c.sibling

/-- The resolving loop of `vfsGetPath`. -/
def walkPath (v : Vfs) : List Ptr → Ptr → Except Fault Ptr
  | [], p => .ok p
  | s :: rest, p => do
    let name ← v.block s
    if name = [dot, dot, 0] then
      let n ← v.node p
      if n.parent = 0 then return 0 else walkPath v rest n.parent
    else if name = [dot, 0] then walkPath v rest p
    else if name = [0] then walkPath v rest p
    else
      let n ← v.node p
      let child ← v.findChild name v.next n.child
      if child = 0 then return 0 else walkPath v rest child

/-- The `cleanup` loop. -/
def freeAll (v : Vfs) : List Ptr → Except Fault Vfs
  | [] => .ok v
  | p :: rest => do
    let v ← v.free p
    v.freeAll rest

/-- `if (base && sub_idx >= 1)` -/
def dropLast (v : Vfs) (sub : List Ptr) (base : Bool) : Except Fault (Vfs × List Ptr) :=
  match base, sub.getLast? with
  | true, some last => do
    let v ← v.free last
    return (v, sub.dropLast)
  | _, _ => .ok (v, sub)

def vfsGetPath (v : Vfs) (path : CString) (base : Bool) : Except Fault (Vfs × Ptr) := do
  let (v, sub) ← v.splitPath [] [] path
  let (v, sub) ← v.dropLast sub base
  let p ← v.walkPath sub v.root
  let v ← v.freeAll sub
  return (v, p)

def vfsExists (v : Vfs) (path : CString) : Except Fault (Vfs × Bool) := do
  let (v, p) ← v.vfsGetPath path false
  return (v, p != 0)

/-- `while (child->sibling) child = child->sibling;` -/
def lastSibling (v : Vfs) : Nat → Ptr → Except Fault Ptr
  | 0, _ => .error .diverges
  | fuel + 1, child => do
    let c ← v.node child
    if c.sibling = 0 then return child else lastSibling v fuel c.sibling

def vfsAlloc (v : Vfs) (p : Ptr) (file : CString) : Except Fault (Vfs × Ptr) := do
  let (v, new) := v.newNode ⟨0, 0, [], 0, 0, 0⟩
  let (v, data) := v.malloc [0]
  if filenameSize ≤ file.length then throw .overrun
  let v := v.setNode new ⟨0, data, file, p, 0, 0⟩
  let n ← v.node p
  if n.child = 0 then return (v.setNode p { n with child := new }, new)
  else
    let last ← v.lastSibling v.next n.child
    let l ← v.node last
    return (v.setNode last { l with sibling := new }, new)

/-- The search for `p` in its parent's chain in `vfsFree`. -/
def unlinkFrom (v : Vfs) (p : Ptr) (n : Node) : Nat → Ptr → Ptr → Except Fault Vfs
  | 0, _, _ => .error .diverges
  | fuel + 1, prev, child =>
    if child = 0 then .ok v
    else if child = p then
      if prev ≠ 0 then do
        let before ← v.node prev
        return v.setNode prev { before with sibling := n.sibling }
      else do
        let parent ← v.node n.parent
        return v.setNode n.parent { parent with child := n.sibling }
    else do
      let c ← v.node child
      unlinkFrom v p n fuel child c.sibling

/-- `if (node->parent)` of `vfsFree`. -/
def unlink (v : Vfs) (p : Ptr) : Except Fault Vfs := do
  let n ← v.node p
  if n.parent = 0 then return v
  else
    let parent ← v.node n.parent
    v.unlinkFrom p n v.next 0 parent.child

mutual

/-- The recursive `vfsFree`; it frees a node at every level. -/
def freeTree : Nat → Vfs → Ptr → Except Fault Vfs
  | 0, _, _ => .error .diverges
  | fuel + 1, v, p => do
    let v ← v.unlink p
    let n ← v.node p
    let v ← freeChildren fuel v n.child
    v.freeNode p

/-- Its loop over the children. -/
def freeChildren : Nat → Vfs → Ptr → Except Fault Vfs
  | 0, _, _ => .error .diverges
  | fuel + 1, v, child =>
    if child = 0 then .ok v
    else do
      let c ← v.node child
      let v ← freeTree fuel v child
      freeChildren fuel v c.sibling

end

/-- Two levels of calls for every node there is. -/
def vfsFree (v : Vfs) (p : Ptr) : Except Fault Vfs := freeTree (2 * v.next) v p

def vfsCreate_ (v : Vfs) (path : CString) : Except Fault (Vfs × Ptr) := do
  let (v, p) ← v.vfsGetPath path false
  if p ≠ 0 then return (v, p)
  else
    let (v, p) ← v.vfsGetPath path true
    if p = 0 then return (v, 0)
    else v.vfsAlloc p (vfsBasename path)

def vfsCreate (v : Vfs) (path : CString) : Except Fault (Vfs × Int) := do
  let (v, p) ← v.vfsCreate_ path
  return (v, if p ≠ 0 then 0 else -1)

def vfsRemove (v : Vfs) (path : CString) : Except Fault (Vfs × Int) := do
  let (v, p) ← v.vfsGetPath path false
  if p = 0 then return (v, -1)
  else
    let v ← v.vfsFree p
    return (v, 0)

/-- `"$stdin"`, `"$stdout"` and `"$stderr"` -/
def stdinName : CString := [36, 115, 116, 100, 105, 110]

def stdoutName : CString := [36, 115, 116, 100, 111, 117, 116]

def stderrName : CString := [36, 115, 116, 100, 101, 114, 114]

def vfsInit (v : Vfs) : Except Fault Vfs := do
  let (v, root) := v.newNode ⟨0, 0, [], 0, 0, 0⟩
  let (v, _) ← { v with root := root }.vfsCreate stdinName
  let (v, _) ← v.vfsCreate stdoutName
  let (v, _) ← v.vfsCreate stderrName
  return v

def vfsClearData (v : Vfs) (p : Ptr) : Except Fault Vfs := do
  let n ← v.node p
  return v.setNode p { n with datasize := 0 }

/-- A sum that wraps would have `memcpy` run past the reallocated block. -/
def vfsAppendData (v : Vfs) (p : Ptr) (bytes : List UInt8) : Except Fault Vfs := do
  let n ← v.node p
  if 2 ^ 32 ≤ n.datasize + bytes.length then throw .overrun
  let (v, data) ← v.realloc n.data (n.datasize + bytes.length)
  let b ← v.block data
  let b := b.take n.datasize ++ bytes ++ b.drop (n.datasize + bytes.length)
  let v := { v with blocks := Function.update v.blocks data (some b) }
  return v.setNode p { n with data := data, datasize := n.datasize + bytes.length }

/-- The loop over `perm`: `none` for the `return NULL` at an `'a'`. -/
def scanPerm (write : Bool) : CString → Option Bool
  | [] => some write
  | c :: rest => if c = 97 then none else scanPerm (write || c == 119) rest

def vfsOpen (v : Vfs) (path perm : CString) : Except Fault (Vfs × Ptr) :=
  match scanPerm false perm with
  | none => .ok (v, 0)
  | some write => do
    let (v, p) ← v.vfsGetPath path false
    let (v, p) ← if p = 0 && write then v.vfsCreate_ path else .ok (v, p)
    if p = 0 then return (v, 0)
    else
      let v ← if write then v.vfsClearData p else .ok v
      return v.newStream ⟨p, 0, 0, 0, 0⟩

def vfsClose (v : Vfs) (s : Ptr) : Except Fault Vfs := v.freeStream s

/-- `memcpy` out of a data block; what lies behind the block is left open. -/
def readBytes (b : List UInt8) (start : Nat) : Nat → List UInt8
  | 0 => []
  | n + 1 => b.getD start 0 :: readBytes b (start + 1) n

/-- The bytes at `node->data`. -/
def dataOf (v : Vfs) (n : Node) : List UInt8 := (v.blocks n.data).getD []

/-- `readsize` of `vfsRead`: an unsigned difference, cut to `size`. -/
def readSize (datasize i size : Nat) : Nat := min (wrap32 (datasize + (2 ^ 32 - i))) size

def vfsRead (v : Vfs) (s : Ptr) (size : Nat) : Except Fault (Vfs × List UInt8) := do
  let st ← v.stream s
  let n ← v.node st.node
  let count := readSize n.datasize st.i size
  return (v.setStream s { st with i := wrap32 (st.i + count) }, readBytes (v.dataOf n) st.i count)

def vfsFlush (v : Vfs) (s : Ptr) : Except Fault Vfs := do
  let st ← v.stream s
  if st.flush = 0 then return v
  else if st.flushindex < st.i then
    let n ← v.node st.node
    let size := st.i - st.flushindex
    let call : FlushCall := ⟨s, st.flush, st.flushdata, st.flushindex, size,
      readBytes (v.dataOf n) st.flushindex size⟩
    return { v.setStream s { st with flushindex := st.i } with flushed := v.flushed ++ [call] }
  else return v

def vfsWrite (v : Vfs) (s : Ptr) (bytes : List UInt8) : Except Fault (Vfs × Nat) := do
  let st ← v.stream s
  let v ← v.vfsAppendData st.node bytes
  let v := v.setStream s { st with i := wrap32 (st.i + bytes.length) }
  let v ← v.vfsFlush s
  return (v, bytes.length)

def vfsSeek (v : Vfs) (s : Ptr) (pos whence : Nat) : Except Fault Vfs := do
  let st ← v.stream s
  if whence = 0 then return v.setStream s { st with i := wrap32 pos }
  else if whence = 1 then return v.setStream s { st with i := wrap32 (st.i + pos) }
  else if whence = 2 then
    let n ← v.node st.node
    return v.setStream s { st with i := wrap32 (n.datasize + pos) }
  else return v

def vfsTell (v : Vfs) (s : Ptr) : Except Fault Nat := do
  let st ← v.stream s
  return st.i

def vfsEof (v : Vfs) (s : Ptr) : Except Fault Bool := do
  let st ← v.stream s
  let n ← v.node st.node
  return decide (n.datasize ≤ st.i)

/-- A null hook is stopped by the assertion. -/
def vfsHookFlush (v : Vfs) (s : Ptr) (flushdata hook : Nat) : Except Fault Vfs := do
  let st ← v.stream s
  if hook = 0 then throw .panic
  return v.setStream s { st with flush := hook, flushdata := flushdata, flushindex := 0 }

end Vfs

end UmkaOs
