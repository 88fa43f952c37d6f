import Ekapkgs.Sample
import Ekapkgs.StoredTree

/-!
# Compressing the stored chunks again

`cmd_compress_chunks` in `main.rs`: bring every compressed chunk to one level.
The workers of a batch only read chunk files, each its own, so the order they
run in does not show and the batch is done in list order here.
-/

namespace Ekapkgs
open Keyed Fallible

def TARGET_LEVEL : Int := 3

def BATCH_SIZE : Nat := 1000

/-! ## The selection -/

/-- `zstd_level IS NOT NULL AND zstd_level != ?1`. -/
def ChunkRow.offTarget (row : ChunkRow) : Bool :=
  match row.zstdLevel with
  | some level => level ≠ TARGET_LEVEL
  | none => false

/-- `chunks.chunks(BATCH_SIZE)`. The length of the list bounds the recursion. -/
def batchesFrom {α : Type} (size : Nat) : Nat → List α → List (List α)
  | 0, _ => []
  | _, [] => []
  | fuel + 1, l => l.take size :: batchesFrom size fuel (l.drop size)

def batches {α : Type} (size : Nat) (l : List α) : List (List α) := batchesFrom size l.length l

variable {δ : Type}

def Db.chunksOffTarget (db : Db δ) : List (δ × ChunkRow) := db.chunks.rows.filter fun r => r.2.offTarget

/-- `ORDER BY size DESC`. -/
def Db.chunksToCompress (db : Db δ) : List δ :=
  (db.chunksOffTarget.insertionSort fun a b => b.2.size ≤ a.2.size).map Prod.fst

/-! ## A worker -/

/-- The temporary file of a result is what its path names once the worker has
returned. -/
inductive ChunkResult (δ : Type) where
  | recompressed (digest : δ) (tempFile : Option Bytes) (newSize oldSize : Nat)
  | alreadyOptimal (digest : δ) (size : Nat)
  | skipped

/-- `tmp.into_temp_path().to_path_buf()`. The `TempPath` is gone at the end of
the statement and takes its file with it. -/
def intoTempPathToPathBuf (_written : Bytes) : Option Bytes := none

section
variable (ext : Ext δ)

def recompress (compressedOld : Bytes) : Option Bytes :=
  (ext.decompress compressedOld (CHUNK_MAX * 2)).bind (ext.compress TARGET_LEVEL)

def writeTempFile (digest : δ) (compressedOld compressedNew : Bytes) : CasM δ (ChunkResult δ) := do
  if ← fails then pure .skipped  -- NamedTempFile::new_in
  else if ← fails then pure .skipped  -- write_all
  else
    pure (.recompressed digest (intoTempPathToPathBuf compressedNew) compressedNew.length compressedOld.length)

def compressChunk (dryRun : Bool) (digest : δ) : CasM δ (ChunkResult δ) := do
  let st ← get
  match st.files digest with
  | none => pure .skipped
  | some compressedOld =>
    if ← fails then pure .skipped  -- fs::read
    else
      match recompress ext compressedOld with
      | none => pure .skipped
      | some compressedNew =>
        if compressedNew.length < compressedOld.length then
          if dryRun then pure (.recompressed digest none compressedNew.length compressedOld.length)
          else writeTempFile digest compressedOld compressedNew
        else pure (.alreadyOptimal digest compressedOld.length)

def compressEach (dryRun : Bool) : List δ → CasM δ (List (ChunkResult δ))
  | [] => pure []
  | digest :: batch => do
    let result ← compressChunk ext dryRun digest
    let results ← compressEach dryRun batch
    pure (result :: results)

end

/-! ## The main thread -/

section
variable [DecidableEq δ] (ext : Ext δ)

def ChunkRow.atTarget (diskSize : Nat) (row : ChunkRow) : ChunkRow :=
  { row with zstdLevel := some TARGET_LEVEL, diskSize }

def Db.setCompressed (digest : δ) (diskSize : Nat) (db : Db δ) : Db δ :=
  { db with chunks := db.chunks.update digest (ChunkRow.atTarget diskSize) }

/-- The row that a result updates, and the size it records there. -/
def ChunkResult.entry : ChunkResult δ → Option (δ × Nat)
  | .recompressed digest _ newSize _ => some (digest, newSize)
  | .alreadyOptimal digest size => some (digest, size)
  | .skipped => none

def ChunkResult.record (result : ChunkResult δ) : CasM δ Unit :=
  match result.entry with
  | some (digest, size) => exec (Db.setCompressed digest size)
  | none => pure ()

/-- `let _ = rename(..)`, which fails when there is no such file. -/
def rename (tempFile : Option Bytes) (digest : δ) : CasM δ Unit :=
  match tempFile with
  | none => pure ()
  | some bytes => do
    if ← fails then pure ()
    else modify fun st => { st with files := Function.update st.files digest (some bytes) }

def ChunkResult.finalize (dryRun : Bool) : ChunkResult δ → CasM δ Unit
  | .recompressed digest tempFile _ _ => if dryRun then pure () else rename tempFile digest
  | .alreadyOptimal .. => pure ()
  | .skipped => pure ()

def compressBatch (dryRun : Bool) (batch : List δ) : CasM δ Unit := do
  let results ← compressEach ext dryRun batch
  if dryRun then pure () else withTransaction (results.forM ChunkResult.record)
  results.forM (ChunkResult.finalize dryRun)

def cmdCompressChunks (dryRun : Bool) : CasM δ Unit := do
  attempt  -- Connection::open
  attempt  -- execute_batch
  attempt  -- ensure_compression_columns
  let total ← query fun db => db.chunksOffTarget.length
  if total = 0 then pure ()
  else
    attempt  -- prepare
    let chunks ← query Db.chunksToCompress
    attempt  -- ThreadPoolBuilder
    (batches BATCH_SIZE chunks).forM (compressBatch ext dryRun)

end

/-! ## The selection is what it says -/

section
variable {α : Type}

theorem batchesFrom_flatten {size : Nat} (hsize : 0 < size) :
    ∀ (fuel : Nat) (l : List α), l.length ≤ fuel → (batchesFrom size fuel l).flatten = l
  | 0, l, h => by
    rw [List.eq_nil_of_length_eq_zero (Nat.le_zero.mp h)]; rfl
  | fuel + 1, [], _ => rfl
  | fuel + 1, a :: l, h => by
    have hdrop : ((a :: l).drop size).length ≤ fuel := by
      rw [List.length_drop]
      simp only [List.length_cons] at h ⊢
      omega
    rw [batchesFrom, List.flatten_cons, batchesFrom_flatten hsize fuel _ hdrop, List.take_append_drop]
    simp

theorem batches_flatten {size : Nat} (hsize : 0 < size) (l : List α) : (batches size l).flatten = l :=
  batchesFrom_flatten hsize _ l (Nat.le_refl _)

end

variable [DecidableEq δ] {ext : Ext δ} {st : Store δ} {db : Db δ} {files : δ → Option Bytes} {d : δ}

theorem mem_chunksToCompress : d ∈ db.chunksToCompress ↔ ∃ row, db.chunks.get? d = some row ∧ row.offTarget = true := by
  unfold Db.chunksToCompress Db.chunksOffTarget
  simp only [List.mem_map, List.mem_insertionSort, List.mem_filter, Prod.exists, Table.get?_eq_some]
  constructor
  · rintro ⟨_, row, hrow, rfl⟩
    exact ⟨row, hrow⟩
  · rintro ⟨row, hrow⟩
    exact ⟨d, row, hrow, rfl⟩

theorem offTarget_ne {row : ChunkRow} (h : row.offTarget = true) :
    row.zstdLevel.isSome = true ∧ row.zstdLevel ≠ some TARGET_LEVEL := by
  unfold ChunkRow.offTarget at h
  cases hl : row.zstdLevel with
  | none => rw [hl] at h; cases h
  | some level =>
    rw [hl] at h
    exact ⟨rfl, by simpa using h⟩

/-! ## What a run does to the store -/

variable (ext) in
/-- The size a worker reports of a chunk, unless it skips it. -/
def reportedSize (files : δ → Option Bytes) (digest : δ) : Option Nat :=
  (files digest).bind fun compressedOld =>
    (recompress ext compressedOld).map fun compressedNew => min compressedNew.length compressedOld.length

variable (ext) in
/-- A selected chunk, with the size that the run records of it. -/
def Outcome (db : Db δ) (files : δ → Option Bytes) (digest : δ) (size : Nat) : Prop :=
  digest ∈ db.chunksToCompress ∧ reportedSize ext files digest = some size

variable (ext) in
/-- A result that came out of the store, whose temporary file is gone. -/
def ChunkResult.Fits (db : Db δ) (files : δ → Option Bytes) : ChunkResult δ → Prop
  | .recompressed digest tempFile newSize _ => tempFile = none ∧ Outcome ext db files digest newSize
  | .alreadyOptimal digest size => Outcome ext db files digest size
  | .skipped => True

variable (ext) in
/-- The store somewhere in a run that began with `db₀` and `files₀`. -/
def Compressing (db₀ : Db δ) (files₀ : δ → Option Bytes) : View δ := fun db files =>
  files = files₀ ∧ ∀ d, db.chunks.get? d = db₀.chunks.get? d ∨
    ∃ size, Outcome ext db₀ files₀ d size ∧ db.chunks.get? d = (db₀.chunks.get? d).map (ChunkRow.atTarget size)

section
variable {db₀ : Db δ} {files₀ : δ → Option Bytes}

theorem compressChunk_on {digest : δ} (hdigest : digest ∈ db₀.chunksToCompress) :
    Triple (on (Compressing ext db₀ files₀)) (compressChunk ext false digest)
      (fun result st => result.Fits ext db₀ files₀ ∧ on (Compressing ext db₀ files₀) st)
      (fun _ => on (Compressing ext db₀ files₀)) := by
  have skip : Triple (on (Compressing ext db₀ files₀)) (pure .skipped : CasM δ (ChunkResult δ))
      (fun result st => result.Fits ext db₀ files₀ ∧ on (Compressing ext db₀ files₀) st)
      (fun _ => on (Compressing ext db₀ files₀)) := .pure fun _ h => ⟨trivial, h⟩
  refine .bind (.get (Q := fun a st => a.files = files₀ ∧ on (Compressing ext db₀ files₀) st) fun _ h => ⟨h.1, h⟩)
    fun st => .pre_fact fun hst => ?_
  cases hfile : st.files digest with
  | none => exact skip
  | some compressedOld =>
    rw [hst] at hfile
    refine .bind fails_on fun fault => ?_
    cases fault with
    | true => exact skip
    | false =>
      cases hnew : recompress ext compressedOld with
      | none => simp only [Bool.false_eq_true, if_false]; exact skip
      | some compressedNew =>
        have houtcome : Outcome ext db₀ files₀ digest (min compressedNew.length compressedOld.length) :=
          ⟨hdigest, by simp [reportedSize, hfile, hnew]⟩
        simp only [Bool.false_eq_true, if_false]
        by_cases hlt : compressedNew.length < compressedOld.length
        · rw [if_pos hlt]
          unfold writeTempFile
          refine .bind fails_on fun fault => ?_
          cases fault with
          | true => exact skip
          | false =>
            refine .bind fails_on fun fault => ?_
            cases fault with
            | true => exact skip
            | false =>
              rw [Nat.min_eq_left (Nat.le_of_lt hlt)] at houtcome
              exact .pure fun _ h => ⟨⟨rfl, houtcome⟩, h⟩
        · rw [if_neg hlt]
          rw [Nat.min_eq_right (Nat.le_of_not_lt hlt)] at houtcome
          exact .pure fun _ h => ⟨houtcome, h⟩

theorem compressEach_on : ∀ (batch : List δ), (∀ d ∈ batch, d ∈ db₀.chunksToCompress) →
    Triple (on (Compressing ext db₀ files₀)) (compressEach ext false batch)
      (fun results st => (∀ result ∈ results, result.Fits ext db₀ files₀) ∧ on (Compressing ext db₀ files₀) st)
      (fun _ => on (Compressing ext db₀ files₀))
  | [], _ => .pure fun _ h => ⟨nofun, h⟩
  | digest :: batch, h => by
    unfold compressEach
    refine .bind (compressChunk_on (h digest (List.mem_cons_self ..))) fun result => .pre_fact fun hresult => ?_
    refine .bind (compressEach_on batch fun d hd => h d (List.mem_cons_of_mem _ hd)) fun results => ?_
    exact .pre_fact fun hresults => .pure fun _ hI => ⟨List.forall_mem_cons.mpr ⟨hresult, hresults⟩, hI⟩

theorem Compressing.setCompressed {db : Db δ} {files : δ → Option Bytes} (h : Compressing ext db₀ files₀ db files)
    {digest : δ} {size : Nat} (houtcome : Outcome ext db₀ files₀ digest size) :
    Compressing ext db₀ files₀ (db.setCompressed digest size) files := by
  refine ⟨h.1, fun d => ?_⟩
  unfold Db.setCompressed
  rw [Table.get?_update]
  by_cases hd : d = digest
  · subst hd
    rw [if_pos rfl]
    refine .inr ⟨size, houtcome, ?_⟩
    rcases h.2 d with hrow | ⟨earlier, -, hrow⟩
    · rw [hrow]
    · rw [hrow, Option.map_map]; rfl
  · rw [if_neg hd]
    exact h.2 d

theorem record_on {result : ChunkResult δ} (h : result.Fits ext db₀ files₀) :
    Keeps (Compressing ext db₀ files₀) result.record := by
  unfold ChunkResult.record
  cases result with
  | recompressed digest tempFile newSize oldSize => exact exec_keeps fun _ _ hI => hI.setCompressed h.2
  | alreadyOptimal digest size => exact exec_keeps fun _ _ hI => hI.setCompressed h
  | skipped => exact .pure fun _ hI => hI

/-- Nothing is left to rename. -/
theorem finalize_eq {result : ChunkResult δ} (h : result.Fits ext db₀ files₀) :
    result.finalize false = pure () := by
  cases result with
  | recompressed digest tempFile newSize oldSize => obtain ⟨rfl, -⟩ := h; rfl
  | alreadyOptimal digest size => rfl
  | skipped => rfl

theorem compressBatch_on {batch : List δ} (h : ∀ d ∈ batch, d ∈ db₀.chunksToCompress) :
    Keeps (Compressing ext db₀ files₀) (compressBatch ext false batch) := by
  refine .bind (compressEach_on batch h) fun results => .pre_fact fun hresults => ?_
  refine .bind (R := fun _ => on (Compressing ext db₀ files₀)) ?_ fun _ => .forM results fun result hresult => ?_
  · have hrecord : Keeps (Compressing ext db₀ files₀) (results.forM ChunkResult.record) :=
      .forM results fun result hresult => record_on (hresults result hresult)
    refine (withTransaction_on (Q := fun _ => Compressing ext db₀ files₀) (F := fun files => files = files₀)
      (D := fun db => ∀ files, files = files₀ → Compressing ext db₀ files₀ db files)
      (hrecord.conseq (fun _ hI => hI) (fun _ _ hI => hI) fun _ _ hI => hI.1) (fun _ _ hI => hI.1)
      fun _ _ _ hI => hI.1).conseq (fun st hI => ⟨fun files hfiles => ⟨hfiles, hI.2⟩, hI⟩) (fun _ _ hI => hI) ?_
    exact fun _ st hI => hI.1 st.files hI.2
  · rw [finalize_eq (hresults result hresult)]
    exact .pure fun _ hI => hI

theorem cmdCompressChunks_on : Triple (on fun db files => db = db₀ ∧ files = files₀) (cmdCompressChunks ext false)
    (fun _ => on (Compressing ext db₀ files₀)) (fun _ => on (Compressing ext db₀ files₀)) := by
  have start : ∀ (db : Db δ) (files : δ → Option Bytes), db = db₀ ∧ files = files₀ →
      Compressing ext db₀ files₀ db files := fun db files h => ⟨h.2, fun d => .inl (by rw [h.1])⟩
  refine .bind (attempt_on start) fun _ => .bind (attempt_on start) fun _ => .bind (attempt_on start) fun _ => ?_
  refine .bind ((query_on start).post fun _ _ h => h.2) fun total => ?_
  by_cases htotal : total = 0
  · rw [if_pos htotal]
    exact .pure fun st h => start st.db st.files h
  rw [if_neg htotal]
  have hselect : Triple (on fun db files => db = db₀ ∧ files = files₀) (query Db.chunksToCompress)
      (fun chunks st => chunks = db₀.chunksToCompress ∧ on (fun db files => db = db₀ ∧ files = files₀) st)
      (fun _ => on (Compressing ext db₀ files₀)) :=
    (query_on start).post fun _ _ h => ⟨by rw [← h.1, h.2.1], h.2⟩
  refine .bind (attempt_on start) fun _ => .bind hselect fun chunks => .pre_fact fun hchunks => ?_
  refine .bind (attempt_on start) fun _ => ?_
  refine (Triple.forM _ fun batch hbatch => compressBatch_on fun d hd => ?_).pre fun st h => start st.db st.files h
  rw [← hchunks, ← batches_flatten (by decide : 0 < BATCH_SIZE) chunks]
  exact List.mem_flatten.mpr ⟨batch, hbatch, hd⟩

end

/-! ## A run in which nothing fails -/

variable (ext) in
def chunkResult (files : δ → Option Bytes) (digest : δ) : ChunkResult δ :=
  match files digest with
  | none => .skipped
  | some compressedOld =>
    match recompress ext compressedOld with
    | none => .skipped
    | some compressedNew =>
      if compressedNew.length < compressedOld.length then
        .recompressed digest (intoTempPathToPathBuf compressedNew) compressedNew.length compressedOld.length
      else .alreadyOptimal digest compressedOld.length

variable (ext) in
/-- The tables once a chunk is recorded. -/
def Db.compress (files : δ → Option Bytes) (db : Db δ) (digest : δ) : Db δ :=
  match reportedSize ext files digest with
  | some size => db.setCompressed digest size
  | none => db

omit [DecidableEq δ] in
theorem compressChunk_quiet (hf : st.faults = []) (digest : δ) :
    compressChunk ext false digest st = .ok (chunkResult ext st.files digest) st := by
  unfold compressChunk chunkResult
  rw [bind_get]
  cases st.files digest with
  | none => rfl
  | some compressedOld =>
    dsimp only
    rw [bind_of_ok (fails_quiet hf), if_neg Bool.false_ne_true]
    cases recompress ext compressedOld with
    | none => rfl
    | some compressedNew =>
      dsimp only
      by_cases hlt : compressedNew.length < compressedOld.length
      · rw [if_pos hlt, if_pos hlt, if_neg Bool.false_ne_true]
        unfold writeTempFile
        rw [bind_of_ok (fails_quiet hf), if_neg Bool.false_ne_true, bind_of_ok (fails_quiet hf)]; rfl
      · rw [if_neg hlt, if_neg hlt]; rfl

omit [DecidableEq δ] in
theorem compressEach_quiet (hf : st.faults = []) : ∀ batch : List δ,
    compressEach ext false batch st = .ok (batch.map (chunkResult ext st.files)) st
  | [] => rfl
  | digest :: batch => by
    unfold compressEach
    rw [bind_of_ok (compressChunk_quiet hf digest), bind_of_ok (compressEach_quiet hf batch)]; rfl

theorem record_quiet (hf : st.faults = []) (digest : δ) :
    (chunkResult ext files digest).record st = .ok () { st with db := st.db.compress ext files digest } := by
  unfold ChunkResult.record Db.compress chunkResult reportedSize
  cases files digest with
  | none => rfl
  | some compressedOld =>
    simp only [Option.bind_some]
    cases recompress ext compressedOld with
    | none => rfl
    | some compressedNew =>
      simp only [Option.map_some]
      by_cases hlt : compressedNew.length < compressedOld.length
      · rw [if_pos hlt, Nat.min_eq_left (Nat.le_of_lt hlt)]
        exact exec_quiet hf
      · rw [if_neg hlt, Nat.min_eq_right (Nat.le_of_not_lt hlt)]
        exact exec_quiet hf

theorem records_quiet : ∀ (batch : List δ) {st : Store δ}, st.faults = [] →
    (batch.map (chunkResult ext files)).forM ChunkResult.record st =
      .ok () { st with db := batch.foldl (Db.compress ext files) st.db }
  | [], _, _ => rfl
  | digest :: batch, st, hf => by
    rw [List.map_cons, List.foldl_cons]
    exact (bind_of_ok (record_quiet hf digest)).trans (records_quiet batch hf)

theorem finalizes_quiet (batch : List δ) (st : Store δ) :
    (batch.map (chunkResult ext files)).forM (ChunkResult.finalize false) st = .ok () st := by
  induction batch with
  | nil => rfl
  | cons digest batch ih =>
    have hfinalize : (chunkResult ext files digest).finalize false = (pure () : CasM δ Unit) := by
      unfold chunkResult
      cases files digest with
      | none => rfl
      | some compressedOld =>
        dsimp only
        cases recompress ext compressedOld with
        | none => rfl
        | some compressedNew => dsimp only; split <;> rfl
    rw [List.map_cons]
    exact (bind_of_ok (by rw [hfinalize]; rfl)).trans ih

theorem compressBatch_quiet (hf : st.faults = []) (batch : List δ) : compressBatch ext false batch st =
    .ok () { st with db := batch.foldl (Db.compress ext st.files) st.db } := by
  unfold compressBatch
  rw [bind_of_ok (compressEach_quiet hf batch), if_neg Bool.false_ne_true,
    bind_of_ok (withTransaction_quiet hf (records_quiet batch hf) hf)]
  exact finalizes_quiet batch _

theorem compressBatches_quiet : ∀ (batches : List (List δ)) {st : Store δ}, st.faults = [] →
    batches.forM (compressBatch ext false) st =
      .ok () { st with db := batches.flatten.foldl (Db.compress ext st.files) st.db }
  | [], _, _ => rfl
  | batch :: batches, st, hf => by
    rw [List.flatten_cons, List.foldl_append]
    exact (bind_of_ok (compressBatch_quiet hf batch)).trans (compressBatches_quiet batches hf)

theorem cmdCompressChunks_quiet (hf : st.faults = []) : cmdCompressChunks ext false st =
    .ok () { st with db := st.db.chunksToCompress.foldl (Db.compress ext st.files) st.db } := by
  unfold cmdCompressChunks
  rw [bind_of_ok (attempt_quiet hf), bind_of_ok (attempt_quiet hf), bind_of_ok (attempt_quiet hf),
    bind_of_ok (query_quiet hf)]
  by_cases htotal : st.db.chunksOffTarget.length = 0
  · have hnone : st.db.chunksToCompress = [] := by
      unfold Db.chunksToCompress; rw [List.eq_nil_of_length_eq_zero htotal]; rfl
    rw [if_pos htotal, hnone]; rfl
  · rw [if_neg htotal, bind_of_ok (attempt_quiet hf), bind_of_ok (query_quiet hf), bind_of_ok (attempt_quiet hf),
      compressBatches_quiet _ hf, batches_flatten (by decide)]

/-- A chunk that a worker reports is recorded, whatever comes before and after. -/
theorem get?_compress {size : Nat} (hsize : reportedSize ext files d = some size) : ∀ (ds : List δ) (db : Db δ),
    (ds.foldl (Db.compress ext files) db).chunks.get? d =
      if d ∈ ds then (db.chunks.get? d).map (ChunkRow.atTarget size) else db.chunks.get? d
  | [], db => by simp
  | digest :: ds, db => by
    rw [List.foldl_cons, get?_compress hsize ds]
    by_cases hd : d = digest
    · subst hd
      unfold Db.compress
      rw [hsize]
      simp only [Db.setCompressed, Table.get?_update, List.mem_cons, true_or, if_true, Option.map_map]
      split <;> rfl
    · have hother : (db.compress ext files digest).chunks.get? d = db.chunks.get? d := by
        unfold Db.compress
        split
        · rw [Db.setCompressed, Table.get?_update, if_neg hd]
        · rfl
      rw [hother]
      simp only [List.mem_cons, hd, false_or]

/-! ## What the run promises -/

variable (ext) in
/-- What `get_chunk_by_digest` returns while nothing fails. -/
def chunkBytes (st : Store δ) (digest : δ) : Except (CasError δ) (Option Bytes) :=
  match getChunkByDigest ext digest { st with faults := [] } with
  | .ok data _ => .ok data
  | .error e _ => .error e

theorem chunkBytes_eq (st : Store δ) (digest : δ) : chunkBytes ext st digest = readStored ext st.db st.files digest := by
  unfold chunkBytes
  rw [getChunkByDigest_quiet ext rfl]
  cases readStored ext st.db st.files digest <;> rfl

/-- Every row that the run brought to the level says how long its file is. -/
def MarkedSizesExact (st st' : Store δ) : Prop :=
  ∀ digest before after, st.db.chunks.get? digest = some before → st'.db.chunks.get? digest = some after →
    before.zstdLevel ≠ some TARGET_LEVEL → after.zstdLevel = some TARGET_LEVEL →
    ∃ file, st'.files digest = some file ∧ after.diskSize = file.length

variable (ext) in
/-- Every row reads as a chunk with its digest. -/
def AllReadable (st : Store δ) : Prop :=
  ∀ digest row, st.db.chunks.get? digest = some row →
    ∃ data, chunkBytes ext st digest = .ok (some data) ∧ ext.blake3 data = digest

variable (ext) in
/-- No compressed chunk that the run selects gets any smaller. -/
def NothingToGain (st : Store δ) : Prop :=
  ∀ digest row file compressedNew, st.db.chunks.get? digest = some row → row.offTarget = true →
    st.files digest = some file → recompress ext file = some compressedNew → file.length ≤ compressedNew.length

variable (ext) in
/-- The reads are the same after the run, and the sizes are right. -/
def CompressesSafely (st : Store δ) : Prop :=
  ∀ faults st', cmdCompressChunks ext false { st with faults } = .ok () st' →
    (∀ digest, chunkBytes ext st' digest = chunkBytes ext st digest) ∧ MarkedSizesExact st st'

/-- A row at the target level reads its file the way it did before. -/
theorem readStored_compressing {db₀ db : Db δ} (h : Compressing ext db₀ files db files) (digest : δ) :
    readStored ext db files digest = readStored ext db₀ files digest := by
  rcases h.2 digest with hrow | ⟨size, ⟨hmem, -⟩, hrow⟩
  · unfold readStored; rw [hrow]
  · obtain ⟨row, hrow₀, hoff⟩ := mem_chunksToCompress.mp hmem
    have hlevel := (offTarget_ne hoff).1
    unfold readStored
    rw [hrow, hrow₀]
    simp [ChunkRow.atTarget, decodeFile, hlevel]

theorem chunkBytes_compressed {st st' : Store δ} {faults : List Bool}
    (hrun : cmdCompressChunks ext false { st with faults } = .ok () st') :
    Compressing ext st.db st.files st'.db st'.files ∧
      ∀ digest, chunkBytes ext st' digest = chunkBytes ext st digest := by
  have hfinal : Compressing ext st.db st.files st'.db st'.files :=
    cmdCompressChunks_on.ok_of (s := { st with faults }) ⟨rfl, rfl⟩ hrun
  refine ⟨hfinal, fun digest => ?_⟩
  have hfiles : st'.files = st.files := hfinal.1
  rw [hfiles] at hfinal
  rw [chunkBytes_eq, chunkBytes_eq, hfiles, readStored_compressing hfinal]

theorem outcome_exact (h : NothingToGain ext st) {digest : δ} {size : Nat} (houtcome : Outcome ext st.db st.files digest size) :
    ∃ file, st.files digest = some file ∧ size = file.length := by
  obtain ⟨hmem, hsize⟩ := houtcome
  obtain ⟨row, hrow, hoff⟩ := mem_chunksToCompress.mp hmem
  obtain ⟨file, hfile, hsize⟩ := Option.bind_eq_some_iff.mp hsize
  obtain ⟨compressedNew, hnew, rfl⟩ := Option.map_eq_some_iff.mp hsize
  exact ⟨file, hfile, Nat.min_eq_right (h digest row file compressedNew hrow hoff hfile hnew)⟩

/-- The run keeps rows and files in step exactly when there is nothing for it to
do: a smaller form is recorded, and then there is no file to rename. -/
theorem compressesSafely_iff (st : Store δ) : CompressesSafely ext st ↔ NothingToGain ext st := by
  constructor
  · intro h digest row file compressedNew hrow hoff hfile hnew
    obtain ⟨-, hexact⟩ := h [] _ (cmdCompressChunks_quiet rfl)
    have hsize : reportedSize ext st.files digest = some (min compressedNew.length file.length) := by
      simp [reportedSize, hfile, hnew]
    have hafter := get?_compress hsize st.db.chunksToCompress st.db
    rw [if_pos (mem_chunksToCompress.mpr ⟨row, hrow, hoff⟩), hrow] at hafter
    obtain ⟨file', hfile', hdisk⟩ := hexact digest row _ hrow hafter (offTarget_ne hoff).2 rfl
    cases hfile'.symm.trans hfile
    exact min_eq_right_iff.mp hdisk
  · intro h faults st' hrun
    obtain ⟨hfinal, hreads⟩ := chunkBytes_compressed hrun
    refine ⟨hreads, fun digest before after hbefore hafter hne hlevel => ?_⟩
    rcases hfinal.2 digest with hrow | ⟨size, houtcome, hrow⟩
    · rw [hafter, hbefore] at hrow
      cases hrow
      exact absurd hlevel hne
    · obtain ⟨file, hfile, hsize⟩ := outcome_exact h houtcome
      rw [hafter, hbefore] at hrow
      cases hrow
      exact ⟨file, by rw [hfinal.1, hfile], hsize⟩

/-! ## A chunk that gets smaller -/

/-- A chunk of zeros whose compressed form at another level is as long as it. -/
def looseStore : Store Bytes where
  db := { Db.empty with chunks := ⟨[(zeros, ⟨zeros.length, some 1, (0 :: zeros).length, none⟩)], by simp⟩ }
  files := Function.update (fun _ => none) zeros (some (0 :: zeros))
  dirCache := .empty
  faults := []

theorem recorded_size_without_file :
    AllReadable sampleExt looseStore ∧ ¬ CompressesSafely sampleExt looseStore := by
  have hfile : looseStore.files zeros = some (0 :: zeros) := by
    simp only [looseStore, Function.update_self]
  have hrow : looseStore.db.chunks.get? zeros = some ⟨zeros.length, some 1, (0 :: zeros).length, none⟩ :=
    Table.get?_eq_some.mpr (List.mem_singleton.mpr rfl)
  have hraw : sampleExt.decompress (0 :: zeros) (CHUNK_MAX * 2) = some zeros := by decide +kernel
  constructor
  · intro digest row hget
    obtain ⟨rfl, rfl⟩ := Prod.mk.inj (List.mem_singleton.mp (Table.get?_eq_some.mp hget))
    refine ⟨zeros, ?_, rfl⟩
    rw [chunkBytes_eq, readStored_file hrow rfl hfile]
    simp [decodeFile, hraw]
  · intro h
    obtain ⟨-, hexact⟩ := h [] _ (cmdCompressChunks_quiet rfl)
    have hsize : reportedSize sampleExt looseStore.files zeros = some 10 := by
      simp only [reportedSize, hfile, Option.bind_some, recompress, hraw]
      decide +kernel
    have hafter := get?_compress hsize looseStore.db.chunksToCompress looseStore.db
    rw [if_pos (mem_chunksToCompress.mpr ⟨_, hrow, rfl⟩), hrow] at hafter
    obtain ⟨file, hfile', hdisk⟩ := hexact zeros _ _ hrow hafter (by decide) rfl
    dsimp only at hfile'
    rw [hfile, Option.some.injEq] at hfile'
    rw [← hfile'] at hdisk
    exact absurd hdisk (by decide +kernel)

end Ekapkgs
