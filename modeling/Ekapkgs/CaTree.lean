import Ekapkgs.Nar

/-!
# Content-addressed trees

The messages of `cas.proto` and what the store calls of the crates it is built
on. A digest is a value of `δ`: the sources compare digests, write them into
messages and read them back, and do nothing else with their bytes.
-/

namespace Ekapkgs

structure B3Digest where
  digest : Bytes
  deriving DecidableEq

structure CaFileNode where
  digest : Option B3Digest
  size : Nat
  executable : Bool
  deriving DecidableEq

structure CaDirectoryNode where
  digest : Option B3Digest
  size : Nat
  deriving DecidableEq

structure CaSymlinkNode where
  target : String
  deriving DecidableEq

inductive CaNodeKind where
  | file (file : CaFileNode)
  | directory (dir : CaDirectoryNode)
  | symlink (symlink : CaSymlinkNode)
  deriving DecidableEq

structure CaNode where
  node : Option CaNodeKind
  deriving DecidableEq

structure CaDirectoryEntry where
  name : String
  node : Option CaNode
  deriving DecidableEq

structure CaDirectory where
  entries : List CaDirectoryEntry
  deriving DecidableEq

/-! ## External crates -/

/-- BLAKE3, FastCDC, zstd and prost, as the store calls them. `toVec` and
`tryFrom` convert between a `[u8; 32]` and the bytes of a message field. -/
structure Ext (δ : Type) where
  blake3 : Bytes → δ
  toVec : δ → Bytes
  tryFrom : Bytes → Option δ
  fastcdc : Bytes → List (Nat × Nat)
  compress : Int → Bytes → Option Bytes
  decompress : Bytes → Nat → Option Bytes
  encodeNode : CaNode → Bytes
  decodeNode : Bytes → Option CaNode
  encodeDirectory : CaDirectory → Bytes
  decodeDirectory : Bytes → Option CaDirectory
  sha256 : Bytes → Bytes

def CHUNK_MAX : Nat := 256 * 1024
def INLINE_THRESHOLD : Nat := 1024

variable {δ : Type}

/-- `data[offset..offset + length]` for every chunk FastCDC cuts. -/
def Ext.chunks (ext : Ext δ) (data : Bytes) : List Bytes :=
  (ext.fastcdc data).map fun c => (data.drop c.1).take c.2

/-- What the crates document about themselves. -/
structure Ext.Laws (ext : Ext δ) : Prop where
  blake3_injective : Function.Injective ext.blake3
  tryFrom_toVec : ∀ d, ext.tryFrom (ext.toVec d) = some d
  chunk_length : ∀ data, ∀ c ∈ ext.fastcdc data, ((data.drop c.1).take c.2).length = c.2
  chunk_le : ∀ data, ∀ c ∈ ext.fastcdc data, c.2 ≤ CHUNK_MAX
  chunks_flatten : ∀ data, (ext.chunks data).flatten = data
  compress_isSome : ∀ level data, (ext.compress level data).isSome
  decompress_compress : ∀ level data bytes cap, ext.compress level data = some bytes → data.length ≤ cap →
    ext.decompress bytes cap = some data
  decode_encodeNode : ∀ node, ext.decodeNode (ext.encodeNode node) = some node
  decode_encodeDirectory : ∀ dir, ext.decodeDirectory (ext.encodeDirectory dir) = some dir

/-! ## The tree of a NAR -/

/-- The root node that ingesting a file returns. -/
def fileNode (ext : Ext δ) (executable : Bool) (data : Bytes) : CaNode :=
  ⟨some (.file ⟨some ⟨ext.toVec (ext.blake3 data)⟩, ((ext.fastcdc data).map Prod.snd).sum, executable⟩)⟩

def directoryNode (ext : Ext δ) (dir : CaDirectory) : CaNode :=
  ⟨some (.directory ⟨some ⟨ext.toVec (ext.blake3 (ext.encodeDirectory dir))⟩, dir.entries.length⟩)⟩

mutual
def caNode (ext : Ext δ) : NarNode → CaNode
  | .regular executable data => fileNode ext executable data
  | .directory entries => directoryNode ext ⟨caEntries ext entries⟩
  | .symlink target => ⟨some (.symlink ⟨target⟩)⟩
def caEntries (ext : Ext δ) : List (String × NarNode) → List CaDirectoryEntry
  | [] => []
  | (name, node) :: entries => ⟨name, some (caNode ext node)⟩ :: caEntries ext entries
end

mutual
/-- A node and all nodes below it, children first. -/
def NarNode.postorder : NarNode → List NarNode
  | .regular executable data => [.regular executable data]
  | .directory entries => postorderEntries entries ++ [.directory entries]
  | .symlink target => [.symlink target]
def postorderEntries : List (String × NarNode) → List NarNode
  | [] => []
  | (_, node) :: entries => node.postorder ++ postorderEntries entries
end

/-- The contents of the files of a tree. -/
def NarNode.files (t : NarNode) : List Bytes :=
  t.postorder.filterMap fun
    | .regular _ data => some data
    | _ => none

end Ekapkgs
