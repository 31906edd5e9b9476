import UmkaOs.Fmt.Print
import UmkaOs.Vfs.Tree

namespace UmkaOs.Image

open Lib Fmt

/-- What `os.scandir` lists, in its order: an entry, for a directory what is in
it, and the entries behind it. -/
inductive Dir where
  | nil
  | dir (name : CString) (entries rest : Dir)
  | file (name : CString) (data : List UInt8) (rest : Dir)

/-- `bytes(ctypes.c_int32(size))` -/
def sizeBytes (size : Nat) : List UInt8 :=
  [UInt8.ofNat size, UInt8.ofNat (size / 2 ^ 8), UInt8.ofNat (size / 2 ^ 16), UInt8.ofNat (size / 2 ^ 24)]

def encodeDir : Dir → List UInt8
  | .nil => []
  | .dir name entries rest => chr 'd' :: (name ++ 0 :: (encodeDir entries ++ chr 'p' :: encodeDir rest))
  | .file name data rest => chr 'f' :: (name ++ 0 :: (sizeBytes data.length ++ (data ++ encodeDir rest)))

/-- The string at `p`, and `p + strlen(p) + 1`. -/
def takeString : List UInt8 → Except Fault (CString × List UInt8)
  | [] => .error .overrun
  | c :: p =>
    if c = 0 then .ok ([], p)
    else do
      let (name, p) ← takeString p
      return (c :: name, p)

/-- `uint32_t size = *(uint32_t *)(p); p += 4;` -/
def takeSize : List UInt8 → Except Fault (Nat × List UInt8)
  | a :: b :: c :: d :: p => .ok (a.toNat + 2 ^ 8 * b.toNat + 2 ^ 16 * c.toNat + 2 ^ 24 * d.toNat, p)
  | _ => .error .overrun

/-- `sizeof(temp)` -/
def tempSize : Nat := 512

/-- `sprintf(temp, "%s/%s", path, p)` -/
def pathFormat : CString := [chr '%', chr 's', slash, chr '%', chr 's']

def formatPath (path name : CString) : Except Fault CString := do
  let (temp, _, length) ← sprintf (fun _ => 0) pathFormat [.str path, .str name]
  if length < tempSize then return temp.bytes 0 length.toNat else throw .overrun

/-- `"wb"` -/
def writeBinary : CString := [chr 'w', chr 'b']

/-- `p` is the rest of the image; an unknown tag stops the machine. Returns the
file system and the new `p`. -/
def loadVfsImage : Nat → Vfs → List UInt8 → CString → Except Fault (Vfs × List UInt8)
  | 0, _, _, _ => .error .diverges
  | _ + 1, v, [], _ => .ok (v, [])
  | fuel + 1, v, tag :: p, path =>
    if tag = chr 'p' then .ok (v, p)
    else if tag = chr 'd' then do
      let (name, p) ← takeString p
      let temp ← formatPath path name
      let (v, _) ← v.vfsCreate temp
      let (v, p) ← loadVfsImage fuel v p temp
      loadVfsImage fuel v p path
    else if tag = chr 'f' then do
      let (name, p) ← takeString p
      let temp ← formatPath path name
      let (v, _) ← v.vfsCreate temp
      let (size, p) ← takeSize p
      let (v, s) ← v.vfsOpen temp writeBinary
      if p.length < size then throw .overrun
      let (v, _) ← v.vfsWrite s (p.take size)
      let v ← v.vfsClose s
      loadVfsImage fuel v (p.drop size) path
    else .error .panic

/-- The call of `kmain`; every turn of the loop takes a byte of the image. -/
def loadImage (v : Vfs) (image : List UInt8) : Except Fault (Vfs × List UInt8) :=
  loadVfsImage (image.length + 1) v image []

namespace Dir

/-- The names at the top level. -/
def names : Dir → List CString
  | nil => []
  | dir name _ rest => name :: rest.names
  | file name _ rest => name :: rest.names

/-- Every entry as its list of names from the top. -/
def paths : Dir → List (List CString)
  | nil => []
  | dir name entries rest => [name] :: (entries.paths.map (name :: ·) ++ rest.paths)
  | file name _ rest => [name] :: rest.paths

/-- Siblings have different names. -/
def Unique : Dir → Prop
  | nil => True
  | dir name entries rest => name ∉ rest.names ∧ entries.Unique ∧ rest.Unique
  | file name _ rest => name ∉ rest.names ∧ rest.Unique

/-- The contents of all files. -/
def contents : Dir → List (List UInt8)
  | nil => []
  | dir _ entries rest => entries.contents ++ rest.contents
  | file _ data rest => data :: rest.contents

end Dir

/-- A name that a path can hold. -/
structure Ordinary (name : CString) : Prop where
  nonempty : name ≠ []
  short : name.length < filenameSize
  plain : ∀ c ∈ name, c ≠ slash ∧ c ≠ 0
  notDot : name ≠ [dot]
  notDots : name ≠ [dot, dot]

/-- The path as the loader writes it, every name behind a slash. -/
def joined (names : List CString) : CString := names.flatMap (slash :: ·)

structure Encodable (d : Dir) : Prop where
  unique : d.Unique
  ordinary : ∀ path ∈ d.paths, ∀ name ∈ path, Ordinary name
  levels : ∀ path ∈ d.paths, path.length ≤ subSize
  short : ∀ path ∈ d.paths, (joined path).length < tempSize
  small : ∀ data ∈ d.contents, data.length < 2 ^ 31

/-- The forest holds the directory tree: every entry in its place, with its name
and its bytes. -/
def Holds : FileTree → Dir → Prop
  | Forest.nil, .nil => True
  | Forest.node _ file kids behind, .dir name entries rest => file = ⟨name, []⟩ ∧ Holds kids entries ∧ Holds behind rest
  | Forest.node _ file kids behind, .file name data rest => file = ⟨name, data⟩ ∧ kids = .nil ∧ Holds behind rest
  | _, _ => False

end UmkaOs.Image
