import Ekapkgs.CaTree
import Ekapkgs.NarInfo
import Ekapkgs.Lib.Fallible
import Ekapkgs.Lib.Keyed

/-!
# The content-addressed store

`storage/castore.rs`: the tables of `castore.db`, the chunk files next to it,
and the operations on both. Every call into SQLite or the file system may fail,
in any order the environment chooses: `faults` holds the outcomes still to come.
A crash is a failure of the next call that takes the transaction with it.
-/

namespace Ekapkgs
open Keyed

/-! ## Tables -/

structure ChunkRow where
  size : Nat
  zstdLevel : Option Int
  diskSize : Nat
  data : Option Bytes
  deriving DecidableEq

structure PathRow where
  storePath : String
  narHash : String
  narSize : Nat
  rootNode : Bytes
  references : String
  signatures : String
  ca : String
  deriver : String
  addedAt : Nat
  lastAccess : Nat
  deriving DecidableEq

/-- Keys are the primary keys: a file chunk is keyed by its file and its index,
a path file by both columns. -/
structure Db (δ : Type) where
  chunks : Table δ ChunkRow
  fileChunks : Table (δ × Nat) (δ × Nat)
  directories : Table δ Bytes
  pathFiles : Table (String × δ) Unit
  casPaths : Table String PathRow

def DIR_CACHE_CAPACITY : Nat := 4096

structure DirCache (δ : Type) where
  map : Table δ CaDirectory
  order : List δ
  capacity : Nat

/-- The chunk file of a digest is found by its hex name. -/
structure Store (δ : Type) where
  db : Db δ
  files : δ → Option Bytes
  dirCache : DirCache δ
  faults : List Bool

inductive CasError (δ : Type) where
  /-- SQLite or the file system failed. -/
  | failed
  | nar (e : NarError)
  | invalidNarinfo
  | compress
  | corruptChunk (digest : δ)
  | missingChunk (digest : δ)
  | digestMismatch (expected actual : δ)
  | noRow
  | decode
  | noVariant
  | missingDigest
  | invalidDigestLength
  /-- The recursion went deeper than there are directories. -/
  | depth

abbrev CasM (δ : Type) := EStateM (CasError δ) (Store δ)

variable {δ α : Type} [DecidableEq δ]

def DirCache.new (capacity : Nat) : DirCache δ := ⟨.empty, [], capacity⟩

def DirCache.empty : DirCache δ := .new DIR_CACHE_CAPACITY

def DirCache.get (c : DirCache δ) (digest : δ) : Option CaDirectory × DirCache δ :=
  match c.map.get? digest with
  | some dir => (some dir, { c with order := c.order.filter (· ≠ digest) ++ [digest] })
  | none => (none, c)

def DirCache.insert (c : DirCache δ) (digest : δ) (dir : CaDirectory) : DirCache δ :=
  let c' := if c.map.contains digest then { c with order := c.order.filter (· ≠ digest) }
    else if c.capacity ≤ c.map.rows.length then
      match c.order with
      | evicted :: order => { c with map := c.map.delete evicted, order }
      | [] => c
    else c
  { c' with map := c'.map.insertOrReplace digest dir, order := c'.order ++ [digest] }

def Db.empty : Db δ := ⟨.empty, .empty, .empty, .empty, .empty⟩

def Store.empty : Store δ := ⟨.empty, fun _ => none, .empty, []⟩

/-! ## Calls that may fail -/

/-- Ask the environment whether the next call fails. -/
def fails : CasM δ Bool := fun st =>
  match st.faults with
  | [] => .ok false st
  | fault :: faults => .ok fault { st with faults }

/-- A call whose error `?` passes on. -/
def attempt : CasM δ Unit := do
  if ← fails then throw .failed

def exec (f : Db δ → Db δ) : CasM δ Unit := do
  attempt
  modify fun st => { st with db := f st.db }

def query (f : Db δ → α) : CasM δ α := do
  attempt
  let st ← get
  pure (f st.db)

/-- `query_row(..).ok()`: a failed query looks like a missing row. -/
def queryRow (f : Db δ → Option α) : CasM δ (Option α) := do
  if ← fails then pure none
  else
    let st ← get
    pure (f st.db)

/-- On an error the tables go back to what they were, and the chunk files stay. -/
def rollback (db : Db δ) : EStateM.Result (CasError δ) (Store δ) α → EStateM.Result (CasError δ) (Store δ) α
  | .ok a st => .ok a st
  | .error e st => .error e { st with db }

/-- `unchecked_transaction` to `commit`. -/
def inTransaction (body : CasM δ α) : CasM δ α := do
  attempt
  let a ← body
  attempt
  pure a

def withTransaction (body : CasM δ α) : CasM δ α := fun st => rollback st.db (inTransaction body st)

variable (ext : Ext δ) (level : Int)

/-! ## Chunks -/

/-- `compress_chunk`, then the choice between the compressed bytes and the raw
ones: `NULL` stands for incompressible. -/
def storedForm (data : Bytes) : Option (Bytes × Option Int) :=
  (ext.compress level data).map fun compressed =>
    if compressed.length < data.length then (compressed, some level) else (data, none)

def writeFile (digest : δ) (bytes : Bytes) : CasM δ Unit := do
  attempt  -- NamedTempFile::new_in
  attempt  -- write_all
  attempt  -- persist
  modify fun st => { st with files := Function.update st.files digest (some bytes) }

def writeChunkFile (data : Bytes) : CasM δ (δ × Option Int × Nat) := do
  let digest := ext.blake3 data
  if data.length < INLINE_THRESHOLD then pure (digest, none, 0)
  else
    let st ← get
    match st.files digest with
    | none =>
      attempt  -- create_dir_all
      match storedForm ext level data with
      | none => throw .compress
      | some (bytes, zstdLevel) =>
        writeFile digest bytes
        pure (digest, zstdLevel, bytes.length)
    | some bytes => pure (digest, none, bytes.length)

def insertChunkRow (digest : δ) (size : Nat) (zstdLevel : Option Int) (diskSize : Nat) (inlineData : Option Bytes) :
    CasM δ Unit :=
  exec fun db => { db with chunks := db.chunks.insertOrIgnore digest ⟨size, zstdLevel, diskSize, inlineData⟩ }

def inlineData (data : Bytes) : Option Bytes := if data.length < INLINE_THRESHOLD then some data else none

def storeChunk (data : Bytes) : CasM δ δ := do
  let (digest, zstdLevel, diskSize) ← writeChunkFile ext level data
  insertChunkRow digest data.length zstdLevel diskSize (inlineData data)
  pure digest

def storeChunkExternal (data : Bytes) : CasM δ δ := storeChunk ext level data

def getChunkByDigest (digest : δ) : CasM δ (Option Bytes) := do
  match ← queryRow fun db => db.chunks.get? digest with
  | none => pure none
  | some row =>
    match row.data with
    | some data => pure (some data)
    | none =>
      let st ← get
      match st.files digest with
      | none => pure none
      | some fileBytes =>
        attempt  -- fs::read
        if row.zstdLevel.isSome then
          match ext.decompress fileBytes (CHUNK_MAX * 2) with
          | some data => pure (some data)
          | none => throw (.corruptChunk digest)
        else pure (some fileBytes)

/-! ## Ingesting a tree -/

def insertFileChunkRow (file : δ) (index : Nat) (chunk : δ) (size : Nat) : CasM δ Unit :=
  exec fun db => { db with fileChunks := db.fileChunks.insertOrIgnore (file, index) (chunk, size) }

def insertDirectory (dir : CaDirectory) : CasM δ δ := do
  let encoded := ext.encodeDirectory dir
  let digest := ext.blake3 encoded
  exec fun db => { db with directories := db.directories.insertOrIgnore digest encoded }
  pure digest

/-- The chunks of a file, with the digest and length of each. -/
def ingestChunks (data : Bytes) : List (Nat × Nat) → CasM δ (List (δ × Nat))
  | [] => pure []
  | (offset, length) :: chunks => do
    let digest ← storeChunk ext level ((data.drop offset).take length)
    let rest ← ingestChunks data chunks
    pure ((digest, length) :: rest)

def insertFileChunkRows (file : δ) : Nat → List (δ × Nat) → CasM δ Unit
  | _, [] => pure ()
  | index, (chunk, size) :: rest => do
    insertFileChunkRow file index chunk size
    insertFileChunkRows file (index + 1) rest

mutual
def ingestNode : NarNode → CasM δ CaNode
  | .regular executable data => do
    let chunkDigests ← ingestChunks ext level data (ext.fastcdc data)
    let fileDigest := ext.blake3 data
    insertFileChunkRows fileDigest 0 chunkDigests
    pure ⟨some (.file ⟨some ⟨ext.toVec fileDigest⟩, (chunkDigests.map Prod.snd).sum, executable⟩)⟩
  | .directory entries => do
    let caEntries ← ingestEntries entries
    let dirDigest ← insertDirectory ext ⟨caEntries⟩
    pure ⟨some (.directory ⟨some ⟨ext.toVec dirDigest⟩, caEntries.length⟩)⟩
  | .symlink target => pure ⟨some (.symlink ⟨target⟩)⟩
def ingestEntries : List (String × NarNode) → CasM δ (List CaDirectoryEntry)
  | [] => pure []
  | (name, node) :: entries => do
    let childNode ← ingestNode node
    let rest ← ingestEntries entries
    pure (⟨name, some childNode⟩ :: rest)
end

/-! ## Walking a stored tree -/

/-- `<[u8; 32]>::try_from` on the digest field of a message. -/
def fieldDigest (field : Option B3Digest) : Option δ := field.bind fun d => ext.tryFrom d.digest

/-- Nested directories have different digests, so no walk is deeper than this. -/
def Db.depth (db : Db δ) : Nat := db.directories.rows.length + 1

/-- `if let Some(child) = &entry.node`. -/
def forChild {α : Type} (f : CaNode → α → CasM δ α) (acc : α) (entry : CaDirectoryEntry) : CasM δ α :=
  match entry.node with
  | some child => f child acc
  | none => pure acc

/-- A `HashSet` is a list without duplicates. -/
def collectFileDigestsFromTree : Nat → CaNode → List δ → CasM δ (List δ)
  | 0, _, fileDigests => pure fileDigests
  | fuel + 1, caNode, fileDigests =>
    match caNode.node with
    | none => pure fileDigests
    | some (.file file) =>
      match fieldDigest ext file.digest with
      | some d => pure (fileDigests.insert d)
      | none => pure fileDigests
    | some (.directory dir) =>
      match fieldDigest ext dir.digest with
      | none => pure fileDigests
      | some d => do
        match (← queryRow fun db => db.directories.get? d).bind ext.decodeDirectory with
        | none => pure fileDigests
        | some caDir => caDir.entries.foldlM (forChild (collectFileDigestsFromTree fuel)) fileDigests
    | some (.symlink _) => pure fileDigests

def loadDirectory (digest : δ) : CasM δ CaDirectory := do
  let st ← get
  match st.dirCache.get digest with
  | (some dir, dirCache) =>
    set { st with dirCache }
    pure dir
  | (none, _) =>
    match ← query fun db => db.directories.get? digest with
    | none => throw .noRow
    | some data =>
      if ext.blake3 data ≠ digest then throw (.digestMismatch digest (ext.blake3 data))
      else
        match ext.decodeDirectory data with
        | none => throw .decode
        | some dir =>
          modify fun st => { st with dirCache := st.dirCache.insert digest dir }
          pure dir

def getRootNode (hash : String) : CasM δ (Option CaNode) := do
  attempt  -- prepare
  match ← queryRow fun db => (db.casPaths.get? hash).map PathRow.rootNode with
  | none => pure none
  | some bytes =>
    match ext.decodeNode bytes with
    | some node => pure (some node)
    | none => throw .decode

/-! ## Metadata -/

def pathRow (now : Nat) (narinfo : NarInfo) (rootNode : CaNode) : PathRow where
  storePath := narinfo.storePath
  narHash := narinfo.narHash
  narSize := narinfo.narSize
  rootNode := ext.encodeNode rootNode
  references := join ' ' (basenames narinfo.references)
  signatures := join '\n' narinfo.signatures
  ca := narinfo.ca.getD ""
  deriver := narinfo.deriver.getD ""
  addedAt := now
  lastAccess := now

def storeMetadata (now : Nat) (hash : String) (narinfo : NarInfo) (rootNode : CaNode) : CasM δ Unit :=
  exec fun db => { db with casPaths := db.casPaths.insertOrReplace hash (pathRow ext now narinfo rootNode) }

def narinfoOfRow (hash : String) (row : PathRow) : NarInfo where
  storePath := row.storePath
  url := "nar/" ++ hash ++ ".nar"
  compression := "none"
  fileHash := ""
  fileSize := 0
  narHash := row.narHash
  narSize := row.narSize
  references := if row.references = "" then [] else split ' ' row.references
  deriver := if row.deriver = "" then none else some row.deriver
  signatures := if row.signatures = "" then [] else split '\n' row.signatures
  ca := if row.ca = "" then none else some row.ca

def loadMetadata (hash : String) : CasM δ (Option NarInfo) := do
  attempt  -- prepare
  let row ← queryRow fun db => db.casPaths.get? hash
  pure (row.map (narinfoOfRow hash))

/-! ## Uploads -/

/-- `"nar/{hash}.nar"` to `{hash}`. -/
def hashOfFilePath (filePath : String) : String := splitNext '.' (rsplitNext '/' filePath)

def hexEncode (bytes : Bytes) : String :=
  let digit (n : Nat) : Char := if n < 10 then Char.ofNat (48 + n) else Char.ofNat (87 + n)
  String.ofList (bytes.flatMap fun b => [digit (b.toNat / 16), digit (b.toNat % 16)])

def placeholderInfo (hash : String) (data : Bytes) : NarInfo where
  storePath := ""
  url := "nar/" ++ hash ++ ".nar"
  compression := "none"
  fileHash := "sha256:" ++ hexEncode (ext.sha256 data)
  fileSize := data.length
  narHash := "sha256:" ++ hexEncode (ext.sha256 data)
  narSize := data.length
  references := []
  deriver := none
  signatures := []
  ca := none

def insertPathFile (hash : String) (fileDigest : δ) : CasM δ Unit :=
  exec fun db => { db with pathFiles := db.pathFiles.insertOrIgnore (hash, fileDigest) () }

/-- Record the root under the metadata there is, or under a placeholder. -/
def storeRoot (now : Nat) (hash : String) (data : Bytes) (rootNode : CaNode) : CasM δ Unit := do
  match ← loadMetadata hash with
  | some existing => storeMetadata ext now hash existing rootNode
  | none => storeMetadata ext now hash (placeholderInfo ext hash data) rootNode

/-- The body of `put_nar`'s transaction. -/
def ingestNar (now : Nat) (hash : String) (data : Bytes) (narNode : NarNode) : CasM δ Unit := do
  let rootNode ← ingestNode ext level narNode
  let st ← get
  let fileDigests ← collectFileDigestsFromTree ext st.db.depth rootNode []
  fileDigests.forM (insertPathFile hash)
  storeRoot ext now hash data rootNode

def putNar (now : Nat) (filePath : String) (data : Bytes) : CasM δ Bool := do
  match parseNar data with
  | .error e => throw (.nar e)
  | .ok narNode =>
    withTransaction (ingestNar ext level now (hashOfFilePath filePath) data narNode)
    pure true

/-- A path with metadata and no NAR. -/
def placeholderRoot : CaNode := ⟨none⟩

def hasRoot (hash : String) : CasM δ Bool := query fun db => db.casPaths.contains hash

/-- The root the metadata will be stored under: none when the row went away
between the two reads. -/
def rootFor (hash : String) (hasRoot : Bool) : CasM δ (Option CaNode) :=
  if hasRoot then getRootNode ext hash else pure (some placeholderRoot)

def readRoot (hash : String) : CasM δ (Option CaNode) := do
  rootFor ext hash (← hasRoot hash)

def writeNarinfo (now : Nat) (hash : String) (narinfo : NarInfo) (rootNode : Option CaNode) : CasM δ Unit :=
  match rootNode with
  | some rootNode => storeMetadata ext now hash narinfo rootNode
  | none => pure ()

def putNarinfo (now : Nat) (hash content : String) : CasM δ Bool := do
  match NarInfo.parse content with
  | none => throw .invalidNarinfo
  | some narinfo =>
    writeNarinfo ext now hash narinfo (← readRoot ext hash)
    pure true

/-! ## Eviction -/

def Db.filesOfPath (db : Db δ) (hash : String) : List δ :=
  (db.pathFiles.rows.filter fun r => r.1.1 = hash).map fun r => r.1.2

def Db.chunksOfFile (db : Db δ) (file : δ) : List δ :=
  (db.fileChunks.rows.filter fun r => r.1.1 = file).map fun r => r.2.1

def deletePath (hash : String) : CasM δ Unit := do
  exec fun db => { db with casPaths := db.casPaths.delete hash }
  exec fun db => { db with pathFiles := db.pathFiles.deleteWhere fun k _ => k.1 = hash }

/-- Drop the file chunks of every file no path refers to any more, and return
the chunks they named. -/
def releaseFiles : List δ → List δ → CasM δ (List δ)
  | [], chunkDigests => pure chunkDigests
  | file :: files, chunkDigests => do
    let stillReferenced ← query fun db => db.pathFiles.rows.any fun r => r.1.2 = file
    if stillReferenced then releaseFiles files chunkDigests
    else
      let chunks ← query fun db => db.chunksOfFile file
      exec fun db => { db with fileChunks := db.fileChunks.deleteWhere fun k _ => k.1 = file }
      releaseFiles files (chunks.foldl (fun acc chunk => acc.insert chunk) chunkDigests)

/-- `let _ = remove_file(path)`. -/
def removeFile (digest : δ) : CasM δ Unit := do
  if ← fails then pure ()
  else modify fun st => { st with files := Function.update st.files digest none }

def deleteChunkRow (digest : δ) : CasM δ Unit := exec fun db => { db with chunks := db.chunks.delete digest }

/-- Drop every chunk no file refers to any more, and return the bytes freed. -/
def releaseChunks : List δ → Nat → CasM δ Nat
  | [], bytesFreed => pure bytesFreed
  | chunk :: chunks, bytesFreed => do
    let stillReferenced ← query fun db => db.fileChunks.rows.any fun r => r.2.1 = chunk
    if stillReferenced then releaseChunks chunks bytesFreed
    else
      let size ← queryRow fun db => (db.chunks.get? chunk).map ChunkRow.size
      deleteChunkRow chunk
      removeFile chunk
      releaseChunks chunks (bytesFreed + size.getD 0)

def evictPath (hash : String) : CasM δ Nat :=
  withTransaction do
    let fileDigests ← query fun db => db.filesOfPath hash
    deletePath hash
    if fileDigests.isEmpty then pure 0
    else
      let chunkDigests ← releaseFiles fileDigests []
      releaseChunks chunkDigests 0

def totalChunkBytes : CasM δ Nat := query fun db => db.chunks.total ChunkRow.size

/-! ## Requests -/

inductive StoreOp where
  | putNar (now : Nat) (filePath : String) (data : Bytes)
  | storeChunkExternal (data : Bytes)
  | putNarinfo (now : Nat) (hash content : String)
  | evictPath (hash : String)
  /-- The process starts again: what it held in memory is gone. -/
  | restart

def finalState {ε σ : Type} : EStateM.Result ε σ α → σ
  | .ok _ st => st
  | .error _ st => st

/-- The state after one request, whatever it returned. -/
def applyOp : StoreOp → Store δ → Store δ
  | .putNar now filePath data, st => finalState (putNar ext level now filePath data st)
  | .storeChunkExternal data, st => finalState (storeChunkExternal ext level data st)
  | .putNarinfo now hash content, st => finalState (putNarinfo ext now hash content st)
  | .evictPath hash, st => finalState (evictPath hash st)
  | .restart, st => { st with dirCache := .empty }

/-- The chunks a request stores. -/
def opChunks : StoreOp → List Bytes
  | .putNar _ _ data =>
    match parseNar data with
    | .ok t => t.files.flatMap ext.chunks
    | .error _ => []
  | .storeChunkExternal data => [data]
  | _ => []

end Ekapkgs
