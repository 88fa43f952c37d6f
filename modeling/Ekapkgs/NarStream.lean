import Ekapkgs.Castore
import Ekapkgs.Lib.Blocks

/-!
# Streaming a NAR out of a content-addressed store

`write_nar_streaming` walks the nodes of a stored tree and reads files and
directories through a `ChunkReader`. It writes the length of a file from the
node before it reads the chunks. What is written before an error stays written,
so the output is part of the state.
-/

namespace Ekapkgs
open Keyed

variable {δ κ α : Type}

/-- A computation over the state of a reader and the bytes written so far. -/
abbrev Stream (δ κ : Type) := EStateM (CasError δ) (κ × Bytes)

def emit (bytes : Bytes) : Stream δ κ Unit := modify fun s => (s.1, s.2 ++ bytes)

def reading (m : EStateM (CasError δ) κ α) : Stream δ κ α := fun s =>
  match m s.1 with
  | .ok a k => .ok a (k, s.2)
  | .error e k => .error e (k, s.2)

structure ChunkReader (δ κ : Type) where
  writeFileDataTo : δ → Stream δ κ Unit
  loadDirectory : δ → EStateM (CasError δ) κ CaDirectory

def digestOf (ext : Ext δ) (field : Option B3Digest) : Except (CasError δ) δ :=
  match field with
  | none => .error .missingDigest
  | some d =>
    match ext.tryFrom d.digest with
    | none => .error .invalidDigestLength
    | some digest => .ok digest

def liftExcept : Except (CasError δ) α → Stream δ κ α
  | .ok a => pure a
  | .error e => throw e

def sortEntries (entries : List CaDirectoryEntry) : List CaDirectoryEntry :=
  entries.mergeSort fun a b => a.name ≤ b.name

def writeCasNode (ext : Ext δ) (reader : ChunkReader δ κ) : Nat → CaNode → Stream δ κ Unit
  | 0, _ => throw .depth
  | fuel + 1, caNode =>
    match caNode.node with
    | none => throw .noVariant
    | some (.file file) => do
      emit (writeStr "(" ++ writeStr "type")
      let digest ← liftExcept (digestOf ext file.digest)
      emit (writeStr "regular" ++ writeExecutable file.executable ++ writeStr "contents" ++ toLeBytes 8 file.size)
      reader.writeFileDataTo digest
      emit (padding file.size)
      emit (writeStr ")")
    | some (.directory dir) => do
      emit (writeStr "(" ++ writeStr "type")
      let digest ← liftExcept (digestOf ext dir.digest)
      emit (writeStr "directory")
      let caDir ← reading (reader.loadDirectory digest)
      (sortEntries caDir.entries).forM fun entry => do
        emit (writeStr "entry" ++ writeStr "(" ++ writeStr "name" ++ writeStr entry.name ++ writeStr "node")
        entry.node.forM (writeCasNode ext reader fuel)
        emit (writeStr ")")
      emit (writeStr ")")
    | some (.symlink symlink) => do
      emit (writeStr "(" ++ writeStr "type")
      emit (writeStr "symlink" ++ writeStr "target" ++ writeStr symlink.target)
      emit (writeStr ")")

def writeNarStreaming (ext : Ext δ) (reader : ChunkReader δ κ) (fuel : Nat) (root : CaNode) : Stream δ κ Unit := do
  emit (writeStr "nix-archive-1")
  writeCasNode ext reader fuel root

/-! ## The store as a reader -/

variable [DecidableEq δ] (ext : Ext δ)

def writeChunks : List δ → Stream δ (Store δ) Unit
  | [] => pure ()
  | chunkDigest :: chunkDigests => do
    match ← reading (getChunkByDigest ext chunkDigest) with
    | none => throw (.missingChunk chunkDigest)
    | some chunkData =>
      emit chunkData
      writeChunks chunkDigests

def writeFileDataTo (fileDigest : δ) : Stream δ (Store δ) Unit := do
  let chunks ← reading (query fun db => db.fileChunks.ordered fileDigest)
  writeChunks ext (chunks.map Prod.fst)

def castoreReader : ChunkReader δ (Store δ) := ⟨writeFileDataTo ext, loadDirectory ext⟩

def writeNarTo (filePath : String) : Stream δ (Store δ) Bool := do
  match ← reading (getRootNode ext (hashOfFilePath filePath)) with
  | none => pure false
  | some rootNode =>
    let s ← get
    writeNarStreaming ext (castoreReader ext) s.1.db.depth rootNode
    pure true

def getNar (filePath : String) : CasM δ (Option Bytes) := fun st =>
  match writeNarTo ext filePath (st, []) with
  | .ok true s => .ok (some s.2) s.1
  | .ok false s => .ok none s.1
  | .error e s => .error e s.1

abbrev ChannelWriter (chunkSize : Nat) := Blocks.Buffer UInt8 chunkSize

def STREAM_CHUNK_SIZE : Nat := 64 * 1024

theorem STREAM_CHUNK_SIZE_pos : 0 < STREAM_CHUNK_SIZE := by decide

/-- The blocks sent, and what the call returns. A `BufWriter` decides how the
output is divided into writes, which does not matter (`Blocks.Buffer.foldl_write`). -/
def streamNarChunks (filePath : String) {chunkSize : Nat} (h : 0 < chunkSize) (st : Store δ) :
    List Bytes × EStateM.Result (CasError δ) (Store δ) Bool :=
  let writer : ChannelWriter chunkSize := .new h
  match writeNarTo ext filePath (st, []) with
  | .ok true s => ((writer.write s.2).flush, .ok true s.1)
  | .ok false s => ((writer.write s.2).sent, .ok false s.1)
  | .error e s => ((writer.write s.2).sent, .error e s.1)

end Ekapkgs
