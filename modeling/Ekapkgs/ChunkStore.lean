import Ekapkgs.NarStream

/-!
# The chunk store of a client

`chunk_store.rs`: tables like those of the server without its inline data and
its digest checks. A `Call` is one call into SQLite or the file system, and
`fails` says which of them do not succeed on this machine.
-/

namespace Ekapkgs
open Keyed

inductive Call (δ : Type) where
  | openStore
  | selectChunks | selectChunk (digest : δ) | insertChunk (digest : δ) | deleteChunk (digest : δ) | totalChunkBytes
  | writeChunk (digest : δ) | readChunk (digest : δ) | removeChunk (digest : δ)
  | selectDirectory (digest : δ) | insertDirectory (digest : δ)
  | selectFileChunks (file : δ) | insertFileChunk (file : δ) (index : Nat) | deleteFileChunks (file : δ)
  | chunkReferenced (chunk : δ)
  | selectPaths | selectPath (hash : String) | insertPath (hash : String) | deletePath (hash : String)
  | otherPathsExist (hash : String)
  | begin (hash : String) | commit (hash : String)
  | openStaging | createParent (path : String) | writeStaged (path : String)

structure CachedPath where
  rootNode : Bytes
  addedAt : Nat

structure ChunkStore (δ : Type) where
  chunks : Table δ Nat
  fileChunks : Table (δ × Nat) (δ × Nat)
  directories : Table δ Bytes
  casPaths : Table String CachedPath
  files : δ → Option Bytes

/-! ## The messages of a chunk negotiation -/

structure CaPathMapping where
  storePathHash : String
  rootNode : Option CaNode

structure ChunkDownload where
  digest : Option B3Digest
  size : Nat
  url : String

structure CaDirectoryData where
  digest : Option B3Digest
  directory : Option CaDirectory

structure ChunkMeta where
  digest : Option B3Digest
  size : Nat

structure FileChunkMapping where
  fileDigest : Option B3Digest
  chunks : List ChunkMeta

structure ChunkNegotiateResponse where
  pathMappings : List CaPathMapping
  missingChunks : List ChunkDownload
  totalChunkSize : Nat
  directories : List CaDirectoryData
  fileChunkMappings : List FileChunkMapping

/-! ## Reading -/

variable {δ : Type} (fails : Call δ → Bool)

abbrev ChunkM (δ : Type) := EStateM (CasError δ) (ChunkStore δ)

/-- A call whose error `?` passes on. -/
def tryCall (call : Call δ) : Except (CasError δ) Unit := if fails call then .error .failed else .ok ()

def performCall (call : Call δ) : ChunkM δ Unit := if fails call then throw .failed else pure ()

namespace ChunkStore

def empty : ChunkStore δ := ⟨.empty, .empty, .empty, .empty, fun _ => none⟩

/-- No walk over acyclic directories is deeper than this; over a cycle the
recursion does not end. -/
def depth (store : ChunkStore δ) : Nat := store.directories.rows.length + 1

def allChunkDigests (store : ChunkStore δ) : Except (CasError δ) (List δ) := do
  tryCall fails .selectChunks
  pure (store.chunks.rows.map Prod.fst)

def getChunk (store : ChunkStore δ) (digest : δ) : Except (CasError δ) (Option Bytes) :=
  match store.files digest with
  | none => .ok none
  | some data => do
    tryCall fails (.readChunk digest)
    pure (some data)

def readChunks (store : ChunkStore δ) : List δ → Except (CasError δ) Bytes
  | [] => .ok []
  | chunkDigest :: chunkDigests => do
    match ← store.getChunk fails chunkDigest with
    | none => .error (.missingChunk chunkDigest)
    | some chunkData =>
      let rest ← readChunks store chunkDigests
      pure (chunkData ++ rest)

variable [DecidableEq δ] (ext : Ext δ)

/-- The concatenation of the chunks of a file, whatever its digest. -/
def readFileData (store : ChunkStore δ) (fileDigest : δ) : Except (CasError δ) Bytes := do
  tryCall fails (.selectFileChunks fileDigest)
  store.readChunks fails ((store.fileChunks.ordered fileDigest).map Prod.fst)

def loadDirectory (store : ChunkStore δ) (digest : δ) : Except (CasError δ) CaDirectory := do
  tryCall fails (.selectDirectory digest)
  match store.directories.get? digest with
  | none => .error .noRow
  | some data =>
    match ext.decodeDirectory data with
    | none => .error .decode
    | some dir => .ok dir

/-- The trait's own `write_file_data_to` reads the whole file first. -/
def reader (store : ChunkStore δ) : ChunkReader δ Unit where
  writeFileDataTo fileDigest := do
    let data ← liftExcept (store.readFileData fails fileDigest)
    emit data
  loadDirectory digest := fun s =>
    match store.loadDirectory fails ext digest with
    | .ok dir => .ok dir s
    | .error e => .error e s

end ChunkStore

/-! ## Writing -/

variable [DecidableEq δ] (ext : Ext δ)

def storeChunkFile (digest : δ) (data : Bytes) : ChunkM δ Unit := do
  let store ← get
  match store.files digest with
  | some _ => pure ()
  | none => do
    performCall fails (.writeChunk digest)
    modify fun store => { store with files := Function.update store.files digest (some data) }
    performCall fails (.insertChunk digest)
    modify fun store => { store with chunks := store.chunks.insertOrIgnore digest data.length }

def storeDirectory (digest : δ) (data : Bytes) : ChunkM δ Unit := do
  performCall fails (.insertDirectory digest)
  modify fun store => { store with directories := store.directories.insertOrIgnore digest data }

def storeFileChunks (fileDigest : δ) (chunks : List (δ × Nat)) : ChunkM δ Unit :=
  chunks.zipIdx.forM fun chunk => do
    performCall fails (.insertFileChunk fileDigest chunk.2)
    modify fun store => { store with fileChunks := store.fileChunks.insertOrIgnore (fileDigest, chunk.2) chunk.1 }

def indexDirectory (dirData : CaDirectoryData) : ChunkM δ Unit :=
  match fieldDigest ext dirData.digest, dirData.directory with
  | some digest, some dir => storeDirectory fails digest (ext.encodeDirectory dir)
  | _, _ => pure ()

def indexFileChunks (mapping : FileChunkMapping) : ChunkM δ Unit :=
  match fieldDigest ext mapping.fileDigest with
  | none => pure ()
  | some fileDigest =>
    let chunks := mapping.chunks.filterMap fun cm => (fieldDigest ext cm.digest).map fun digest => (digest, cm.size)
    if chunks.isEmpty then pure () else storeFileChunks fails fileDigest chunks

def indexResponse (response : ChunkNegotiateResponse) : ChunkM δ Unit := do
  response.directories.forM (indexDirectory fails ext)
  response.fileChunkMappings.forM (indexFileChunks fails ext)

def recordCasPath (now : Nat) (hash : String) (rootNode : CaNode) : ChunkM δ Unit := do
  performCall fails (.insertPath hash)
  modify fun store => { store with casPaths := store.casPaths.insertOrReplace hash ⟨ext.encodeNode rootNode, now⟩ }

/-! ## Evicting -/

def collectFileDigests (store : ChunkStore δ) : Nat → CaNode → List δ → Except (CasError δ) (List δ)
  | 0, _, _ => .error .depth
  | fuel + 1, caNode, out =>
    match caNode.node with
    | none => .ok out
    | some (.file file) =>
      match fieldDigest ext file.digest with
      | some d => .ok (out ++ [d])
      | none => .ok out
    | some (.directory dir) =>
      match fieldDigest ext dir.digest with
      | none => .ok out
      | some d =>
        match (store.loadDirectory fails ext d) with
        | .error _ => .ok out
        | .ok caDir => caDir.entries.foldlM (fun out entry =>
            match entry.node with
            | some child => collectFileDigests store fuel child out
            | none => .ok out) out
    | some (.symlink _) => .ok out

/-- The chunks of the files, and the rows of the files deleted when no other
path is left. -/
def chunksOfEvicted (hash : String) (chunkDigests : List δ) (fileDigest : δ) : ChunkM δ (List δ) := do
  performCall fails (.selectFileChunks fileDigest)
  let store ← get
  performCall fails (.otherPathsExist hash)
  if store.casPaths.rows.all fun row => row.1 = hash then do
    performCall fails (.deleteFileChunks fileDigest)
    modify fun store => { store with fileChunks := store.fileChunks.deleteWhere fun key _ => key.1 = fileDigest }
  pure (chunkDigests ++ (store.fileChunks.rows.filter fun row => row.1.1 = fileDigest).map fun row => row.2.1)

def dropOrphan (totalFreed : Nat) (chunkDigest : δ) : ChunkM δ Nat := do
  performCall fails (.chunkReferenced chunkDigest)
  let store ← get
  if store.fileChunks.rows.any fun row => row.2.1 = chunkDigest then pure totalFreed
  else do
    let size := if fails (.selectChunk chunkDigest) then none else store.chunks.get? chunkDigest
    performCall fails (.deleteChunk chunkDigest)
    let files := if fails (.removeChunk chunkDigest) then store.files else Function.update store.files chunkDigest none
    set { store with chunks := store.chunks.delete chunkDigest, files }
    pure (totalFreed + size.getD 0)

/-- The transaction for one path; files removed before an error stay removed. -/
def evictCachedPath (hash : String) (totalFreed : Nat) : ChunkM δ Nat := fun store₀ =>
  let body : ChunkM δ Nat := do
    performCall fails (.begin hash)
    let store ← get
    match if fails (.selectPath hash) then none else store.casPaths.get? hash with
    | none => pure totalFreed
    | some row => do
      let fileDigests ← match ext.decodeNode row.rootNode with
        | none => pure []
        | some rootNode => fun s =>
          match collectFileDigests fails ext store store.depth rootNode [] with
          | .ok fileDigests => .ok fileDigests s
          | .error e => .error e s
      performCall fails (.deletePath hash)
      modify fun store => { store with casPaths := store.casPaths.delete hash }
      let chunkDigests ← fileDigests.foldlM (chunksOfEvicted fails hash) []
      let totalFreed ← chunkDigests.foldlM (dropOrphan fails) totalFreed
      performCall fails (.commit hash)
      pure totalFreed
  match body store₀ with
  | .ok totalFreed store => .ok totalFreed store
  | .error e store => .error e { store₀ with files := store.files }

def ChunkStore.pathsByAge (store : ChunkStore δ) : List String :=
  (store.casPaths.rows.insertionSort fun a b => a.2.addedAt ≤ b.2.addedAt).map Prod.fst

def evictToSize (targetBytes : Nat) : ChunkM δ Nat := do
  performCall fails .totalChunkBytes
  let store ← get
  let current := store.chunks.total id
  if current ≤ targetBytes then pure 0
  else do
    performCall fails .selectPaths
    store.pathsByAge.foldlM (fun totalFreed hash =>
      if current - targetBytes ≤ totalFreed then pure totalFreed
      else evictCachedPath fails ext hash totalFreed) 0

end Ekapkgs
