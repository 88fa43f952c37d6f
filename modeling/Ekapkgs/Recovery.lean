import Ekapkgs.Castore

/-!
# Recovering a corrupt database

`recover_from_corrupt` in `storage/castore.rs`: the rows of the old database that
can still be read are copied into the fresh one while the server runs, table by
table, in batches that are each one transaction. Rows that are there already
stay.
-/

namespace Ekapkgs
open Keyed

/-! ## Reading the old tables -/

/-- What `rows.next()` gives before the end of a table. -/
inductive Fetched (γ : Type) where
  | row (columns : γ)
  | error

def MAX_CONSECUTIVE_ERRORS : Nat := 100

/-- The rows of a table that can be read: a row without its key columns is
skipped, and after too many errors in a row the rest is given up. -/
def readRows {γ ρ : Type} (toRow : γ → Option ρ) : Nat → List (Fetched γ) → List ρ
  | _, [] => []
  | consecutiveErrs, .error :: rows =>
    if MAX_CONSECUTIVE_ERRORS ≤ consecutiveErrs + 1 then [] else readRows toRow (consecutiveErrs + 1) rows
  | _, .row columns :: rows =>
    match toRow columns with
    | some row => row :: readRows toRow 0 rows
    | none => readRows toRow 0 rows

/-- `none` is a column that cannot be read. -/
structure ChunkColumns (δ : Type) where
  digest : Option δ
  size : Option Nat
  zstdLevel : Option (Option Int)
  diskSize : Option Nat
  data : Option (Option Bytes)

structure FileChunkColumns (δ : Type) where
  fileDigest : Option δ
  chunkIndex : Option Nat
  chunkDigest : Option δ
  chunkSize : Option Nat

structure DirColumns (δ : Type) where
  digest : Option δ
  data : Option Bytes

structure CasPathColumns where
  hash : Option String
  storePath : Option String
  narHash : Option String
  narSize : Option Nat
  rootNode : Option Bytes
  references : Option String
  signatures : Option String
  ca : Option String
  deriver : Option String
  addedAt : Option Nat
  lastAccess : Option Nat

variable {δ : Type}

def ChunkColumns.toRow (c : ChunkColumns δ) : Option (δ × ChunkRow) :=
  c.digest.map fun digest => (digest, ⟨c.size.getD 0, c.zstdLevel.getD none, c.diskSize.getD 0, c.data.getD none⟩)

def FileChunkColumns.toRow (c : FileChunkColumns δ) : Option ((δ × Nat) × (δ × Nat)) :=
  c.fileDigest.bind fun fileDigest => c.chunkDigest.map fun chunkDigest =>
    ((fileDigest, c.chunkIndex.getD 0), (chunkDigest, c.chunkSize.getD 0))

def DirColumns.toRow (c : DirColumns δ) : Option (δ × Bytes) :=
  c.digest.bind fun digest => c.data.map fun data => (digest, data)

def CasPathColumns.toRow (c : CasPathColumns) : Option (String × PathRow) :=
  c.hash.bind fun hash => c.rootNode.map fun rootNode =>
    (hash, {
      storePath := c.storePath.getD ""
      narHash := c.narHash.getD ""
      narSize := c.narSize.getD 0
      rootNode := rootNode
      references := c.references.getD ""
      signatures := c.signatures.getD ""
      ca := c.ca.getD ""
      deriver := c.deriver.getD ""
      addedAt := c.addedAt.getD 0
      lastAccess := c.lastAccess.getD 0 })

/-- The old database, as far as its tables can be scanned: one that cannot be
opened has no rows. -/
structure CorruptDb (δ : Type) where
  chunks : List (Fetched (ChunkColumns δ))
  fileChunks : List (Fetched (FileChunkColumns δ))
  directories : List (Fetched (DirColumns δ))
  casPaths : List (Fetched CasPathColumns)

/-- The rows still to be copied. -/
structure Salvage (δ : Type) where
  chunks : List (δ × ChunkRow)
  fileChunks : List ((δ × Nat) × (δ × Nat))
  directories : List (δ × Bytes)
  casPaths : List (String × PathRow)

def Salvage.empty : Salvage δ := ⟨[], [], [], []⟩

def CorruptDb.salvage (old : CorruptDb δ) : Salvage δ where
  chunks := readRows ChunkColumns.toRow 0 old.chunks
  fileChunks := readRows FileChunkColumns.toRow 0 old.fileChunks
  directories := readRows DirColumns.toRow 0 old.directories
  casPaths := readRows CasPathColumns.toRow 0 old.casPaths

/-! ## Batches -/

def RECOVERY_BATCH_SIZE : Nat := 5000

inductive Batch (δ : Type) where
  | chunks (rows : List (δ × ChunkRow))
  | fileChunks (rows : List ((δ × Nat) × (δ × Nat)))
  | directories (rows : List (δ × Bytes))
  | casPaths (rows : List (String × PathRow))

/-- The next batch, and what is left after it. The paths come last. -/
def Salvage.next (s : Salvage δ) : Option (Batch δ × Salvage δ) :=
  if s.chunks ≠ [] then
    some (.chunks (s.chunks.take RECOVERY_BATCH_SIZE), { s with chunks := s.chunks.drop RECOVERY_BATCH_SIZE })
  else if s.fileChunks ≠ [] then
    some (.fileChunks (s.fileChunks.take RECOVERY_BATCH_SIZE), { s with fileChunks := s.fileChunks.drop RECOVERY_BATCH_SIZE })
  else if s.directories ≠ [] then
    some (.directories (s.directories.take RECOVERY_BATCH_SIZE), { s with directories := s.directories.drop RECOVERY_BATCH_SIZE })
  else if s.casPaths ≠ [] then
    some (.casPaths (s.casPaths.take RECOVERY_BATCH_SIZE), { s with casPaths := s.casPaths.drop RECOVERY_BATCH_SIZE })
  else none

section
variable [DecidableEq δ]

/-- A statement whose error is counted and no more. -/
def tryExec (f : Db δ → Db δ) : CasM δ Bool := do
  if ← fails then pure false
  else
    modify fun st => { st with db := f st.db }
    pure true

def recoverChunk (row : δ × ChunkRow) : CasM δ Unit :=
  discard <| tryExec fun db => { db with chunks := db.chunks.insertOrIgnore row.1 row.2 }

def recoverFileChunk (row : (δ × Nat) × (δ × Nat)) : CasM δ Unit :=
  discard <| tryExec fun db => { db with fileChunks := db.fileChunks.insertOrIgnore row.1 row.2 }

def recoverDirectory (row : δ × Bytes) : CasM δ Unit :=
  discard <| tryExec fun db => { db with directories := db.directories.insertOrIgnore row.1 row.2 }

def recoverPathFile (hash : String) (fileDigest : δ) : CasM δ Unit :=
  discard <| tryExec fun db => { db with pathFiles := db.pathFiles.insertOrIgnore (hash, fileDigest) () }

variable (ext : Ext δ)

/-- The row, then the files of its tree as far as the copied directories have it. -/
def recoverPath (row : String × PathRow) : CasM δ Unit := do
  if ← tryExec fun db => { db with casPaths := db.casPaths.insertOrIgnore row.1 row.2 } then
    match ext.decodeNode row.2.rootNode with
    | some rootCa =>
      let st ← get
      let fds ← collectFileDigestsFromTree ext st.db.depth rootCa []
      fds.forM (recoverPathFile row.1)
    | none => pure ()

/-- `BEGIN` to `COMMIT`. -/
def Batch.write : Batch δ → CasM δ Unit
  | .chunks rows => withTransaction (rows.forM recoverChunk)
  | .fileChunks rows => withTransaction (rows.forM recoverFileChunk)
  | .directories rows => withTransaction (rows.forM recoverDirectory)
  | .casPaths rows => withTransaction (rows.forM (recoverPath ext))

end

/-! ## Opening -/

def Db.pathFilesNeedsBackfill (db : Db δ) : Bool := db.pathFiles.rows.isEmpty && !db.casPaths.rows.isEmpty

structure OpenDbResult (δ : Type) where
  db : Db δ
  corrupt : Option (CorruptDb δ)
  needsBackfill : Bool

/-- A database that fails its check is put aside, and an empty one is opened. -/
def openDb (integrityOk : Bool) (db : Db δ) (corrupt : CorruptDb δ) : OpenDbResult δ :=
  if integrityOk then { db, corrupt := none, needsBackfill := db.pathFilesNeedsBackfill }
  else { db := .empty, corrupt := some corrupt, needsBackfill := false }

end Ekapkgs
