import Ekapkgs.Text
import Ekapkgs.Lib.Fallible

/-!
# The NAR format

`nar.rs`: the tree a NAR archive describes, its parser over a byte slice with a
cursor, and its writer. Every field is a little-endian length, the bytes, and
zeros up to a multiple of eight.
-/

namespace Ekapkgs

/-- A `NarDirectoryEntry` is the pair of its name and its node. -/
inductive NarNode where
  | regular (executable : Bool) (data : Bytes)
  | directory (entries : List (String × NarNode))
  | symlink (target : String)

/-! ## Writing -/

/-- `u64::to_le_bytes` for `k = 8`. -/
def toLeBytes : Nat → Nat → Bytes
  | 0, _ => []
  | k + 1, n => UInt8.ofNat (n % 256) :: toLeBytes k (n / 256)

def padding (len : Nat) : Bytes := List.replicate ((8 - len % 8) % 8) 0

def writeBytes (data : Bytes) : Bytes := toLeBytes 8 data.length ++ data ++ padding data.length

def writeStr (s : String) : Bytes := writeBytes (asBytes s)

def writeExecutable (executable : Bool) : Bytes :=
  if executable then writeStr "executable" ++ writeStr "" else []

mutual
def writeNarObj : NarNode → Bytes
  | .regular executable data =>
    writeStr "(" ++ writeStr "type" ++ writeStr "regular" ++ writeExecutable executable ++ writeStr "contents" ++
      writeBytes data ++ writeStr ")"
  | .directory entries =>
    writeStr "(" ++ writeStr "type" ++ writeStr "directory" ++ writeEntries entries ++ writeStr ")"
  | .symlink target =>
    writeStr "(" ++ writeStr "type" ++ writeStr "symlink" ++ writeStr "target" ++ writeStr target ++ writeStr ")"
def writeEntries : List (String × NarNode) → Bytes
  | [] => []
  | (name, node) :: entries =>
    writeStr "entry" ++ writeStr "(" ++ writeStr "name" ++ writeStr name ++ writeStr "node" ++ writeNarObj node ++
      writeStr ")" ++ writeEntries entries
end

def writeNar (node : NarNode) : Bytes := writeStr "nix-archive-1" ++ writeNarObj node

/-! ## Parsing -/

structure NarReader where
  data : Bytes
  pos : Nat

inductive NarError where
  | eof
  | overflow
  | expected (s : String)
  | utf8
  | unknownType (s : String)
  | unexpected (s : String)
  /-- The parser's recursion went deeper than the archive has bytes. -/
  | depth
  deriving DecidableEq

abbrev NarParser := EStateM NarError NarReader

def fromLeBytes : Bytes → Nat
  | [] => 0
  | b :: bs => b.toNat + 256 * fromLeBytes bs

def readU64 : NarParser Nat := fun r =>
  if r.pos + 8 ≤ r.data.length then
    .ok (fromLeBytes ((r.data.drop r.pos).take 8)) { r with pos := r.pos + 8 }
  else .error .eof r

/-- The bounds check adds `usize`s: a length past `2^64 - pos` panics there. -/
def readBytes (len : Nat) : NarParser Bytes := fun r =>
  if 2 ^ 64 ≤ r.pos + len then .error .overflow r
  else if r.pos + len ≤ r.data.length then
    .ok ((r.data.drop r.pos).take len) { r with pos := r.pos + len + (8 - len % 8) % 8 }
  else .error .eof r

def readStr : NarParser Bytes := do
  let len ← readU64
  readBytes len

def expectStr (expected : String) : NarParser Unit := do
  let s ← readStr
  if s = asBytes expected then pure () else throw (.expected expected)

def readString : NarParser String := do
  let s ← readStr
  match fromUtf8 s with
  | some s => pure s
  | none => throw .utf8

/-- Go back over the `")"` just read: 8 bytes of length, one of text, 7 of padding. -/
def rewind : NarParser Unit := modify fun r => { r with pos := r.pos - 16 }

def remaining : NarParser Nat := do
  let r ← get
  pure (r.data.length - r.pos)

def parseRegular : Nat → Bool → NarParser NarNode
  | 0, _ => throw .depth
  | fuel + 1, executable => do
    let field ← readString
    if field = "executable" then
      let _ ← readStr
      parseRegular fuel true
    else if field = "contents" then
      let data ← readStr
      pure (.regular executable data)
    else if field = ")" then
      -- an empty file without a "contents" field: the caller reads the ")" again
      rewind
      pure (.regular executable [])
    else throw (.unexpected field)

def parseSymlink : NarParser NarNode := do
  expectStr "target"
  let target ← readString
  pure (.symlink target)

mutual
def parseNarObj : Nat → NarParser NarNode
  | 0 => throw .depth
  | fuel + 1 => do
    expectStr "("
    expectStr "type"
    let type ← readString
    let node ←
      if type = "regular" then parseRegular fuel false
      else if type = "directory" then parseDirectory fuel []
      else if type = "symlink" then parseSymlink
      else throw (.unknownType type)
    expectStr ")"
    pure node
def parseDirectory : Nat → List (String × NarNode) → NarParser NarNode
  | 0, _ => throw .depth
  | fuel + 1, entries => do
    if (← remaining) < 8 then pure (.directory entries)
    else
      let token ← readString
      if token = "entry" then
        expectStr "("
        expectStr "name"
        let name ← readString
        expectStr "node"
        let node ← parseNarObj fuel
        expectStr ")"
        parseDirectory fuel (entries ++ [(name, node)])
      else if token = ")" then
        rewind
        pure (.directory entries)
      else throw (.unexpected token)
end

def parseArchive (fuel : Nat) : NarParser NarNode := do
  expectStr "nix-archive-1"
  parseNarObj fuel

/-- Every call and every round of a loop reads a field of at least eight bytes,
so the length of the archive bounds the recursion (`parseNar_depth`). -/
def parseNar (data : Bytes) : Except NarError NarNode :=
  match parseArchive (data.length + 8) ⟨data, 0⟩ with
  | .ok node _ => .ok node
  | .error e _ => .error e

end Ekapkgs
