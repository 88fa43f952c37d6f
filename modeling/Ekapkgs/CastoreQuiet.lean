import Ekapkgs.CastoreIngest

/-!
# When nothing fails

Without faults an operation of the store is a function of the state. The
equations here say which.
-/

namespace Ekapkgs
open Keyed Fallible

variable {δ α : Type} {st : Store δ}

/-! ## Calls -/

theorem fails_quiet (hf : st.faults = []) : fails st = .ok false st := by
  unfold fails; rw [hf]

theorem queryRow_quiet {f : Db δ → Option α} (hf : st.faults = []) :
    queryRow f st = .ok (f st.db) st :=
  bind_ok.mpr ⟨_, _, fails_quiet hf, rfl⟩

theorem attempt_quiet (hf : st.faults = []) : attempt st = .ok () st :=
  bind_ok.mpr ⟨_, _, fails_quiet hf, rfl⟩

theorem query_quiet {f : Db δ → α} (hf : st.faults = []) : query f st = .ok (f st.db) st :=
  bind_ok.mpr ⟨_, _, attempt_quiet hf, rfl⟩

theorem exec_quiet {f : Db δ → Db δ} (hf : st.faults = []) : exec f st = .ok () { st with db := f st.db } := by
  unfold exec
  rw [bind_of_ok (attempt_quiet hf)]; rfl

/-- A transaction that raises nothing is its body. -/
theorem withTransaction_quiet {body : CasM δ α} {a : α} {st' : Store δ} (hf : st.faults = [])
    (hbody : body st = .ok a st') (hf' : st'.faults = []) : withTransaction body st = .ok a st' := by
  unfold withTransaction inTransaction
  rw [bind_of_ok (attempt_quiet hf), bind_of_ok hbody, bind_of_ok (attempt_quiet hf')]; rfl

/-! ## Reading a chunk -/

section
variable [DecidableEq δ] (ext : Ext δ)

/-- The chunk a file holds, by what its row says of it. -/
def decodeFile (row : ChunkRow) (digest : δ) (fileBytes : Bytes) : Except (CasError δ) (Option Bytes) :=
  if row.zstdLevel.isSome then
    match ext.decompress fileBytes (CHUNK_MAX * 2) with
    | some data => .ok (some data)
    | none => .error (.corruptChunk digest)
  else .ok (some fileBytes)

/-- What `get_chunk_by_digest` makes of the row and the file of a chunk. -/
def readStored (db : Db δ) (files : δ → Option Bytes) (digest : δ) : Except (CasError δ) (Option Bytes) :=
  match db.chunks.get? digest with
  | none => .ok none
  | some row =>
    match row.data with
    | some data => .ok (some data)
    | none =>
      match files digest with
      | none => .ok none
      | some fileBytes => decodeFile ext row digest fileBytes

section
variable {ext} {db : Db δ} {files : δ → Option Bytes} {digest : δ} {row : ChunkRow}

theorem readStored_inline {data : Bytes} (hrow : db.chunks.get? digest = some row) (hdata : row.data = some data) :
    readStored ext db files digest = .ok (some data) := by
  unfold readStored
  rw [hrow]; dsimp only
  rw [hdata]

theorem readStored_file {fileBytes : Bytes} (hrow : db.chunks.get? digest = some row) (hdata : row.data = none)
    (hfile : files digest = some fileBytes) : readStored ext db files digest = decodeFile ext row digest fileBytes := by
  unfold readStored
  rw [hrow]; dsimp only
  rw [hdata]; dsimp only
  rw [hfile]

end

/-- A result in a state that stays as it is. -/
def resultIn (st : Store δ) : Except (CasError δ) α → EStateM.Result (CasError δ) (Store δ) α
  | .ok a => .ok a st
  | .error e => .error e st

theorem getChunkByDigest_quiet (hf : st.faults = []) (digest : δ) :
    getChunkByDigest ext digest st = resultIn st (readStored ext st.db st.files digest) := by
  unfold getChunkByDigest readStored
  rw [bind_of_ok (queryRow_quiet hf)]
  cases st.db.chunks.get? digest with
  | none => rfl
  | some row =>
    dsimp only
    cases row.data with
    | some data => rfl
    | none =>
      dsimp only
      rw [bind_of_ok (show (get : CasM δ (Store δ)) st = .ok st st from rfl)]
      cases st.files digest with
      | none => rfl
      | some fileBytes =>
        dsimp only
        rw [bind_of_ok (attempt_quiet hf), decodeFile]
        by_cases hz : row.zstdLevel.isSome
        · rw [if_pos hz, if_pos hz]
          cases ext.decompress fileBytes (CHUNK_MAX * 2) <;> rfl
        · rw [if_neg hz, if_neg hz]; rfl

end

/-! ## Ingesting a tree -/

section
variable [DecidableEq δ] (ext : Ext δ) (level : Int)

def Stmt.apply (st : Store δ) : Stmt δ → Store δ
  | .chunk x => { st with db := st.db.withChunk ext level st.files x, files := (written ext level st.files x).1 }
  | .fileChunk file index digest size =>
    { st with db := { st.db with fileChunks := st.db.fileChunks.insertOrIgnore (file, index) (digest, size) } }
  | .directory dir =>
    { st with db := { st.db with
        directories := st.db.directories.insertOrIgnore (ext.blake3 (ext.encodeDirectory dir)) (ext.encodeDirectory dir) } }

/-- The store once a tree is ingested. -/
def ingested (st : Store δ) (t : NarNode) : Store δ := (script ext t.postorder).foldl (Stmt.apply ext level) st

variable {ext level}

theorem writeFile_quiet (hf : st.faults = []) (digest : δ) (bytes : Bytes) :
    writeFile digest bytes st = .ok () { st with files := Function.update st.files digest (some bytes) } := by
  unfold writeFile
  rw [bind_of_ok (attempt_quiet hf), bind_of_ok (attempt_quiet hf), bind_of_ok (attempt_quiet hf)]; rfl

theorem writeChunkFile_quiet (laws : ext.Laws) (hf : st.faults = []) (x : Bytes) :
    writeChunkFile ext level x st =
      .ok (ext.blake3 x, (written ext level st.files x).2) { st with files := (written ext level st.files x).1 } := by
  unfold writeChunkFile written
  by_cases hinline : x.length < INLINE_THRESHOLD
  · rw [if_pos hinline, if_pos hinline]; rfl
  rw [if_neg hinline, if_neg hinline, bind_of_ok (show (get : CasM δ (Store δ)) st = .ok st st from rfl)]
  cases hfile : st.files (ext.blake3 x) with
  | some bytes => rfl
  | none =>
    obtain ⟨bytes, zstdLevel, hform⟩ := storedForm_isSome laws level x
    simp only [hform]
    rw [bind_of_ok (attempt_quiet hf), bind_of_ok (writeFile_quiet hf _ _)]; rfl

theorem storeChunk_quiet (laws : ext.Laws) (hf : st.faults = []) (x : Bytes) :
    storeChunk ext level x st = .ok (ext.blake3 x) (Stmt.apply ext level st (.chunk x)) := by
  refine (bind_of_ok (writeChunkFile_quiet laws hf x)).trans ?_
  have hquiet : ({ st with files := (written ext level st.files x).1 } : Store δ).faults = [] := hf
  exact (bind_of_ok (exec_quiet hquiet)).trans rfl

theorem Stmt.exec_quiet (laws : ext.Laws) (hf : st.faults = []) (stmt : Stmt δ) :
    stmt.exec ext level st = .ok () (stmt.apply ext level st) := by
  cases stmt with
  | chunk x => exact (bind_of_ok (storeChunk_quiet laws hf x)).trans rfl
  | fileChunk file index chunk size => unfold Stmt.exec insertFileChunkRow; exact Ekapkgs.exec_quiet hf
  | directory dir =>
    have hinsert : insertDirectory ext dir st = .ok _ (Stmt.apply ext level st (.directory dir)) :=
      (bind_of_ok (Ekapkgs.exec_quiet hf)).trans rfl
    exact (bind_of_ok hinsert).trans rfl

theorem Stmt.apply_faults (st : Store δ) (stmt : Stmt δ) : (stmt.apply ext level st).faults = st.faults := by
  cases stmt <;> rfl

theorem runScript_quiet (laws : ext.Laws) : ∀ (stmts : List (Stmt δ)) {st : Store δ}, st.faults = [] →
    runScript ext level stmts st = .ok () (stmts.foldl (Stmt.apply ext level) st)
  | [], _, _ => rfl
  | stmt :: stmts, st, hf => by
    rw [runScript_cons, bind_of_ok (stmt.exec_quiet laws hf), List.foldl_cons]
    exact runScript_quiet laws stmts (by rw [Stmt.apply_faults, hf])

theorem ingestNode_quiet (laws : ext.Laws) (hf : st.faults = []) (t : NarNode) :
    ingestNode ext level t st = .ok (caNode ext t) (ingested ext level st t) := by
  rw [ingestNode_eq, bind_of_ok (runScript_quiet laws _ hf)]; rfl

/-- What every statement keeps, ingestion keeps. -/
theorem ingested_keeps {P : Store δ → Prop} (t : NarNode)
    (h : ∀ st, ∀ stmt ∈ script ext t.postorder, P st → P (stmt.apply ext level st)) :
    ∀ {st}, P st → P (ingested ext level st t) := by
  unfold ingested
  generalize script ext t.postorder = stmts at h
  induction stmts with
  | nil => exact id
  | cons stmt stmts ih =>
    intro st hst
    rw [List.foldl_cons]
    exact ih (fun st s hs => h st s (List.mem_cons_of_mem _ hs)) (h st stmt (List.mem_cons_self ..) hst)

variable (ext level)

/-- Ingestion leaves the other tables, the cache and the faults alone. -/
theorem ingested_frame (st : Store δ) (t : NarNode) : (ingested ext level st t).db.pathFiles = st.db.pathFiles ∧
    (ingested ext level st t).db.casPaths = st.db.casPaths ∧ (ingested ext level st t).dirCache = st.dirCache ∧
    (ingested ext level st t).faults = st.faults := by
  refine ingested_keeps (P := fun st' => st'.db.pathFiles = st.db.pathFiles ∧ st'.db.casPaths = st.db.casPaths ∧
    st'.dirCache = st.dirCache ∧ st'.faults = st.faults) t (fun st' stmt _ h => ?_) ⟨rfl, rfl, rfl, rfl⟩
  cases stmt <;> exact h

end

end Ekapkgs
