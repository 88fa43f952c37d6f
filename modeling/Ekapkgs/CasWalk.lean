import Ekapkgs.Bloom
import Ekapkgs.ChunkStore
import Ekapkgs.Lib.Once
import Ekapkgs.StoredTree

/-!
# The walk that answers a chunk negotiation

`walk_cas_trees` of `storage/castore.rs` goes through the stored trees of all
wanted paths at once. Three sets are shared by all of it, so a directory, a file
or a chunk that was met under one path is left out under the next.
-/

namespace Ekapkgs
open Keyed Fallible

variable {δ : Type} [DecidableEq δ]

/-- What a client says it has: the digests, or a filter of them. -/
inductive ChunkHaveCheck (δ : Type) where
  | exact (digests : List δ)
  | bloom (filter : BloomFilter)

def ChunkHaveCheck.contains (ext : Ext δ) : ChunkHaveCheck δ → δ → Bool
  | .exact digests, digest => digests.contains digest
  | .bloom filter, digest => filter.maybeContains (ext.toVec digest)

/-- The six accumulators of `walk_cas_node`. -/
structure CasWalk (δ : Type) where
  chunkSeen : List δ
  missingChunks : List ChunkMeta
  dirSeen : List δ
  directories : List (δ × CaDirectory)
  fileSeen : List δ
  fileMappings : List (δ × List (δ × Nat))

def CasWalk.empty : CasWalk δ := ⟨[], [], [], [], [], []⟩

variable (ext : Ext δ) (haveChunks : ChunkHaveCheck δ)

def chunkMeta (chunk : δ × Nat) : ChunkMeta := ⟨some ⟨ext.toVec chunk.1⟩, chunk.2⟩

def CasWalk.addChunk (w : CasWalk δ) (chunk : δ × Nat) : CasWalk δ :=
  if haveChunks.contains ext chunk.1 then w
  else if chunk.1 ∈ w.chunkSeen then w
  else { w with chunkSeen := w.chunkSeen ++ [chunk.1], missingChunks := w.missingChunks ++ [chunkMeta ext chunk] }

def CasWalk.addMapping (w : CasWalk δ) (file : δ) (chunks : List (δ × Nat)) : CasWalk δ :=
  if chunks.isEmpty then w else { w with fileMappings := w.fileMappings ++ [(file, chunks)] }

/-- `if let Ok(..)`: the error is dropped. -/
def orNone {α : Type} (m : CasM δ α) : CasM δ (Option α) := fun st =>
  match m st with
  | .ok a st' => .ok (some a) st'
  | .error _ st' => .ok none st'

def walkFile (file : δ) (w : CasWalk δ) : CasM δ (CasWalk δ) :=
  if file ∈ w.fileSeen then pure w
  else do
    attempt  -- prepare
    let chunks ← query fun db => db.fileChunks.ordered file
    let w := { w with fileSeen := w.fileSeen ++ [file] }
    pure ((chunks.foldl (CasWalk.addChunk ext haveChunks) w).addMapping file chunks)

def walkCasNode : Nat → CaNode → CasWalk δ → CasM δ (CasWalk δ)
  | 0, _, w => pure w
  | fuel + 1, caNode, w =>
    match caNode.node with
    | none => pure w
    | some (.file file) =>
      match fieldDigest ext file.digest with
      | none => pure w
      | some fileDigest => walkFile ext haveChunks fileDigest w
    | some (.directory dir) =>
      match fieldDigest ext dir.digest with
      | none => pure w
      | some dirDigest =>
        if dirDigest ∈ w.dirSeen then pure w
        else do
          let w := { w with dirSeen := w.dirSeen ++ [dirDigest] }
          match ← orNone (loadDirectory ext dirDigest) with
          | none => pure w
          | some caDir => do
            -- children first
            let w ← caDir.entries.foldlM (forChild (walkCasNode fuel)) w
            pure { w with directories := w.directories ++ [(dirDigest, caDir)] }
    | some (.symlink _) => pure w

def walkRoots : List String → CasWalk δ → CasM δ (CasWalk δ)
  | [], w => pure w
  | hash :: hashes, w => do
    match ← getRootNode ext hash with
    | none => walkRoots hashes w
    | some root => do
      let st ← get
      walkRoots hashes (← walkCasNode ext haveChunks st.db.depth root w)

def walkCasTrees (wantHashes : List String) :
    CasM δ (List ChunkMeta × List (δ × CaDirectory) × List (δ × List (δ × Nat))) := do
  let w ← walkRoots ext haveChunks wantHashes .empty
  pure (w.missingChunks, w.directories, w.fileMappings)

end Ekapkgs
