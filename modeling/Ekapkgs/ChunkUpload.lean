import Ekapkgs.CastoreQuiet
import Ekapkgs.HexDecode
import Ekapkgs.Push
import Ekapkgs.Sample

/-!
# Reading an uploaded chunk back

`put_chunk` of `api/chunks.rs` and the store behind it. The endpoint accepts
16 MiB, and `get_chunk_by_digest` decompresses into a buffer for a chunk that
FastCDC would cut. What is at the digest already is kept.
-/

namespace Ekapkgs
open Keyed Fallible

variable {δ : Type} [DecidableEq δ]

/-! ## The endpoint -/

def CHUNK_BODY_LIMIT : Nat := 16 * 1024 * 1024

/-- `PUT /cas/chunk/{b3hex}`: whether it answers success. A panic of
`hex_decode` ends the request. -/
def putChunkRequest (ext : Ext δ) (level : Int) (supportsCas : Bool) (writeTokens : List String) (token : Option String) (b3hex : String)
    (body : Bytes) (st : Store δ) : Bool × Store δ :=
  if CHUNK_BODY_LIMIT < body.length then (false, st)
  else if !checkAuth writeTokens token then (false, st)
  else if !supportsCas then (false, st)
  else
    match hexDecode b3hex with
    | .error _ => (false, st)
    | .ok none => (false, st)
    | .ok (some expectedDigest) =>
      if ext.toVec (ext.blake3 body) ≠ expectedDigest then (false, st)
      else
        match storeChunkExternal ext level body st with
        | .ok _ st' => (true, st')
        | .error _ st' => (false, st')

/-- What zstd documents: a frame decompresses to its content if there is room, and not otherwise. -/
structure ZstdFrames (ext : Ext δ) : Prop where
  compress_isSome : ∀ level data, (ext.compress level data).isSome
  decompress_compress : ∀ level data bytes capacity, ext.compress level data = some bytes → data.length ≤ capacity →
    ext.decompress bytes capacity = some data
  decompress_overflow : ∀ level data bytes capacity, ext.compress level data = some bytes → capacity < data.length →
    ext.decompress bytes capacity = none

/-! ## What is read back -/

variable (ext : Ext δ) (level : Int) (body : Bytes)

def Compressible : Prop := ∃ compressed, ext.compress level body = some compressed ∧ compressed.length < body.length

/-- A chunk file under a row of this level holds the body. -/
def FileReads (zstdLevel : Option Int) (fileBytes : Bytes) : Prop :=
  if zstdLevel.isSome then ext.decompress fileBytes (CHUNK_MAX * 2) = some body else fileBytes = body

/-- A row is there: its data, or the file that is there, or the file that will be. -/
def OldRowReads (row : ChunkRow) (file : Option Bytes) : Prop :=
  row.data = some body ∨ row.data = none ∧
    ((∃ fileBytes, file = some fileBytes ∧ FileReads ext body row.zstdLevel fileBytes) ∨
      file = none ∧ INLINE_THRESHOLD ≤ body.length ∧
        ((Compressible ext level body ∧ row.zstdLevel.isSome = true ∧ body.length ≤ CHUNK_MAX * 2) ∨
          ¬ Compressible ext level body ∧ FileReads ext body row.zstdLevel body))

/-- No row is there: the row will have the data, or read the file as it is or as it will be. -/
def NewRowReads (file : Option Bytes) : Prop :=
  body.length < INLINE_THRESHOLD ∨ file = some body ∨
    file = none ∧ (¬ Compressible ext level body ∨ body.length ≤ CHUNK_MAX * 2)

def UploadReads (st : Store δ) : Prop :=
  (∀ row, st.db.chunks.get? (ext.blake3 body) = some row → OldRowReads ext level body row (st.files (ext.blake3 body))) ∧
    (st.db.chunks.get? (ext.blake3 body) = none → NewRowReads ext level body (st.files (ext.blake3 body)))

variable {ext level body} {st st' : Store δ}

/-! ## The store after an upload -/

theorem storeChunk_ok {digest : δ} (h : storeChunk ext level body st = .ok digest st') :
    st'.db = st.db.withChunk ext level st.files body ∧ st'.files = (written ext level st.files body).1 := by
  have hstored : Triple (on fun db files => db = st.db ∧ files = st.files) (storeChunk ext level body)
      (fun _ => on fun db files => db = st.db.withChunk ext level st.files body ∧ files = (written ext level st.files body).1)
      (fun _ => on fun _ _ => True) := by
    refine storeChunk_on (fun _ _ _ => trivial) (fun _ _ _ => trivial) ?_
    rintro db files ⟨rfl, rfl⟩
    exact ⟨rfl, rfl⟩
  exact hstored.ok_of ⟨rfl, rfl⟩ h

omit [DecidableEq δ] in
theorem decodeFile_reads_iff {row : ChunkRow} {digest : δ} {fileBytes : Bytes} :
    decodeFile ext row digest fileBytes = .ok (some body) ↔ FileReads ext body row.zstdLevel fileBytes := by
  unfold decodeFile FileReads
  split
  · cases ext.decompress fileBytes (CHUNK_MAX * 2) with
    | none => exact iff_of_false nofun nofun
    | some data => simp
  · simp

theorem readStored_iff {db : Db δ} {files : δ → Option Bytes} {row : ChunkRow} (hrow : db.chunks.get? (ext.blake3 body) = some row) :
    readStored ext db files (ext.blake3 body) = .ok (some body) ↔ row.data = some body ∨
      row.data = none ∧ ∃ fileBytes, files (ext.blake3 body) = some fileBytes ∧ FileReads ext body row.zstdLevel fileBytes := by
  unfold readStored
  rw [hrow]
  dsimp only
  cases hdata : row.data with
  | some data => simp
  | none =>
    dsimp only
    cases files (ext.blake3 body) with
    | none => exact iff_of_false nofun (by simp)
    | some fileBytes => simp [decodeFile_reads_iff]

omit [DecidableEq δ] in
/-- The stored form of a body, by whether compressing it pays. -/
theorem storedForm_pays (zstd : ZstdFrames ext) (level : Int) (body : Bytes) :
    (Compressible ext level body ∧ ∃ compressed, storedForm ext level body = some (compressed, some level) ∧
      ext.compress level body = some compressed ∧ compressed.length < body.length) ∨
      ¬ Compressible ext level body ∧ storedForm ext level body = some (body, none) := by
  obtain ⟨compressed, hcompress⟩ := Option.isSome_iff_exists.mp (zstd.compress_isSome level body)
  unfold storedForm Compressible
  rw [hcompress, Option.map_some]
  by_cases hsmaller : compressed.length < body.length
  · rw [if_pos hsmaller]
    exact .inl ⟨⟨compressed, rfl, hsmaller⟩, compressed, rfl, rfl, hsmaller⟩
  · rw [if_neg hsmaller]
    refine .inr ⟨?_, rfl⟩
    rintro ⟨other, heq, hother⟩
    cases heq
    exact hsmaller hother

omit [DecidableEq δ] in
/-- A compressed file is read through its frame only, and only when the body fits. -/
theorem fileReads_compressed_iff (zstd : ZstdFrames ext) {compressed : Bytes} (hcompress : ext.compress level body = some compressed)
    (hsmaller : compressed.length < body.length) (zstdLevel : Option Int) :
    FileReads ext body zstdLevel compressed ↔ zstdLevel.isSome = true ∧ body.length ≤ CHUNK_MAX * 2 := by
  unfold FileReads
  split
  next hsome =>
    rcases Nat.lt_or_ge (CHUNK_MAX * 2) body.length with hover | hfits
    · rw [zstd.decompress_overflow level body compressed _ hcompress hover]
      exact iff_of_false nofun fun h => absurd h.2 (Nat.not_le.mpr hover)
    · rw [zstd.decompress_compress level body compressed _ hcompress hfits]
      exact iff_of_true rfl ⟨hsome, hfits⟩
  next hnone =>
    refine iff_of_false ?_ fun h => hnone h.1
    rintro rfl
    exact Nat.lt_irrefl _ hsmaller

/-- The file after the write: as it was, or the stored form of the body. -/
theorem written_file (zstd : ZstdFrames ext) (level : Int) (body : Bytes) (files : δ → Option Bytes) :
    (body.length < INLINE_THRESHOLD ∨ ∃ fileBytes, files (ext.blake3 body) = some fileBytes) ∧
        (written ext level files body).1 = files ∧ (written ext level files body).2.1 = none ∨
      INLINE_THRESHOLD ≤ body.length ∧ files (ext.blake3 body) = none ∧ ∃ bytes zstdLevel, storedForm ext level body = some (bytes, zstdLevel) ∧
        (written ext level files body).1 (ext.blake3 body) = some bytes ∧ (written ext level files body).2.1 = zstdLevel := by
  unfold written
  by_cases hinline : body.length < INLINE_THRESHOLD
  · rw [if_pos hinline]
    exact .inl ⟨.inl hinline, rfl, rfl⟩
  rw [if_neg hinline]
  cases hfile : files (ext.blake3 body) with
  | some fileBytes => exact .inl ⟨.inr ⟨fileBytes, rfl⟩, rfl, rfl⟩
  | none =>
    refine .inr ⟨Nat.not_lt.mp hinline, rfl, ?_⟩
    rcases storedForm_pays zstd level body with ⟨_, compressed, hform, _⟩ | ⟨_, hform⟩
    · simp only [hform]
      exact ⟨compressed, some level, rfl, Function.update_self .., rfl⟩
    · simp only [hform]
      exact ⟨body, none, rfl, Function.update_self .., rfl⟩

/-- A row that was there is read with the file that is there after the write. -/
theorem oldRowReads_iff (zstd : ZstdFrames ext) (row : ChunkRow) (files : δ → Option Bytes) :
    (row.data = some body ∨ row.data = none ∧ ∃ fileBytes, (written ext level files body).1 (ext.blake3 body) = some fileBytes ∧
      FileReads ext body row.zstdLevel fileBytes) ↔ OldRowReads ext level body row (files (ext.blake3 body)) := by
  unfold OldRowReads
  refine or_congr_right (and_congr_right fun _ => ?_)
  rcases written_file zstd level body files with ⟨hkept, hwritten, -⟩ | ⟨hlarge, hfile, bytes, zstdLevel, hform, hwritten, -⟩
  · rw [hwritten]
    refine ⟨.inl, fun h => h.resolve_right ?_⟩
    rintro ⟨hnone, hlarge, -⟩
    rcases hkept with hinline | ⟨fileBytes, hfile⟩
    · exact absurd hlarge (Nat.not_le.mpr hinline)
    · exact nomatch hfile.symm.trans hnone
  · rw [hwritten, hfile]
    have hnew : (∃ fileBytes, some bytes = some fileBytes ∧ FileReads ext body row.zstdLevel fileBytes) ↔
        FileReads ext body row.zstdLevel bytes := ⟨fun ⟨_, heq, h⟩ => Option.some.inj heq ▸ h, fun h => ⟨_, rfl, h⟩⟩
    rw [hnew]
    rcases storedForm_pays zstd level body with ⟨hpays, compressed, hform', hcompress, hsmaller⟩ | ⟨hpays, hform'⟩
    · cases hform.symm.trans hform'
      rw [fileReads_compressed_iff zstd hcompress hsmaller]
      simp [hlarge, hpays]
    · cases hform.symm.trans hform'
      simp [hlarge, hpays]

/-- A new row has the data of a small body, or the level that its file was written with. -/
theorem newRowReads_iff (zstd : ZstdFrames ext) (files : δ → Option Bytes) :
    (inlineData body = some body ∨ inlineData body = none ∧ ∃ fileBytes, (written ext level files body).1 (ext.blake3 body) = some fileBytes ∧
      FileReads ext body (written ext level files body).2.1 fileBytes) ↔ NewRowReads ext level body (files (ext.blake3 body)) := by
  unfold NewRowReads inlineData
  by_cases hinline : body.length < INLINE_THRESHOLD
  · rw [if_pos hinline]
    exact iff_of_true (.inl rfl) (.inl hinline)
  rw [if_neg hinline]
  rcases written_file zstd level body files with ⟨hkept, hwritten, hlevel⟩ | ⟨hlarge, hfile, bytes, zstdLevel, hform, hwritten, hlevel⟩
  · obtain ⟨fileBytes, hfile⟩ := hkept.resolve_left hinline
    rw [hwritten, hlevel, hfile]
    simp [hinline, FileReads]
  · rw [hwritten, hlevel, hfile]
    rcases storedForm_pays zstd level body with ⟨hpays, compressed, hform', hcompress, hsmaller⟩ | ⟨hpays, hform'⟩
    · cases hform.symm.trans hform'
      have hreads := fileReads_compressed_iff zstd hcompress hsmaller (some level)
      simp [hinline, hpays, hreads]
    · cases hform.symm.trans hform'
      simp [hinline, hpays, FileReads]

theorem storeChunk_reads_iff (zstd : ZstdFrames ext) {digest : δ} (h : storeChunk ext level body st = .ok digest st') :
    readStored ext st'.db st'.files (ext.blake3 body) = .ok (some body) ↔ UploadReads ext level body st := by
  obtain ⟨hdb, hfiles⟩ := storeChunk_ok h
  have hrow : st'.db.chunks.get? (ext.blake3 body) =
      some ((st.db.chunks.get? (ext.blake3 body)).getD (chunkRow ext level st.files body)) := by
    rw [hdb, Db.withChunk, Table.get?_insertOrIgnore, if_pos rfl]
  rw [readStored_iff hrow, hfiles]
  unfold UploadReads
  cases hold : st.db.chunks.get? (ext.blake3 body) with
  | some row =>
    rw [Option.getD_some, oldRowReads_iff zstd]
    simp
  | none =>
    rw [Option.getD_none, chunkRow, newRowReads_iff zstd]
    simp

theorem getChunkByDigest_reads_iff (zstd : ZstdFrames ext) {digest : δ} (h : storeChunk ext level body st = .ok digest st') :
    (∃ st'', getChunkByDigest ext (ext.blake3 body) { st' with faults := [] } = .ok (some body) st'') ↔ UploadReads ext level body st := by
  have hquiet : ({ st' with faults := [] } : Store δ).faults = [] := rfl
  rw [← storeChunk_reads_iff zstd h, getChunkByDigest_quiet ext hquiet]
  cases readStored ext st'.db st'.files (ext.blake3 body) with
  | error e => exact iff_of_false (fun ⟨_, hread⟩ => nomatch hread) nofun
  | ok data =>
    constructor
    · rintro ⟨_, hread⟩
      cases hread
      rfl
    · intro hread
      cases hread
      exact ⟨_, rfl⟩

theorem putChunkRequest_stored {supportsCas : Bool} {writeTokens : List String} {token : Option String} {b3hex : String}
    (h : putChunkRequest ext level supportsCas writeTokens token b3hex body st = (true, st')) :
    ∃ digest, storeChunk ext level body st = .ok digest st' := by
  unfold putChunkRequest at h
  split at h
  · cases h
  split at h
  · cases h
  split at h
  · cases h
  split at h
  · cases h
  · cases h
  split at h
  · cases h
  split at h
  next digest st₁ hstore =>
    cases h
    exact ⟨digest, hstore⟩
  · cases h

/-- An accepted chunk is read back exactly when nothing else is kept at its digest and its frame fits. -/
theorem putChunkRequest_reads_iff (zstd : ZstdFrames ext) {supportsCas : Bool} {writeTokens : List String} {token : Option String}
    {b3hex : String} (h : putChunkRequest ext level supportsCas writeTokens token b3hex body st = (true, st')) :
    (∃ st'', getChunkByDigest ext (ext.blake3 body) { st' with faults := [] } = .ok (some body) st'') ↔ UploadReads ext level body st := by
  obtain ⟨digest, hstored⟩ := putChunkRequest_stored h
  exact getChunkByDigest_reads_iff zstd hstored

/-! ## A body that does not fit -/

theorem unpackRun_overflow (data : Bytes) {capacity : Nat} (h : capacity < data.length) : unpackRun (packRun data) capacity = none := by
  cases data with
  | nil => cases h
  | cons b rest =>
    by_cases hrun : (b :: rest).length < 2 ^ 64 ∧ (b :: rest).all (· == b)
    · have hlen : fromLeBytes (toLeBytes 8 (b :: rest).length) = (b :: rest).length := by
        rw [fromLeBytes_toLeBytes, Nat.mod_eq_of_lt (by omega)]
      rw [packRun, if_pos hrun, unpackRun, if_neg (by decide)]
      simp only [hlen]
      rw [if_neg (Nat.not_le.mpr h)]
    · rw [packRun, if_neg hrun, unpackRun, if_pos rfl, if_neg (Nat.not_le.mpr h)]

/-- The crates of the sample, where the digest of one body is spelled as 32 bytes. -/
def spelledExt (body digest : Bytes) : Ext Bytes :=
  { sampleExt with toVec := Equiv.swap body digest, tryFrom := fun v => some (Equiv.swap body digest v) }

theorem spelledExt_laws (body digest : Bytes) : (spelledExt body digest).Laws :=
  { sampleExt_laws with tryFrom_toVec := fun d => congrArg some (Equiv.swap_apply_self body digest d) }

theorem spelledExt_frames (body digest : Bytes) : ZstdFrames (spelledExt body digest) where
  compress_isSome := sampleExt_laws.compress_isSome
  decompress_compress := sampleExt_laws.decompress_compress
  decompress_overflow _ data _ _ hcompress hover := by
    cases hcompress
    exact unpackRun_overflow data hover

def zeroDigest : Bytes := List.replicate 32 0

def zerosHex : String := "0000000000000000000000000000000000000000000000000000000000000000"

theorem putChunkRequest_spelled (body : Bytes) (hlimit : body.length ≤ CHUNK_BODY_LIMIT) : ∃ st',
    putChunkRequest (spelledExt body zeroDigest) 3 true ["t"] (some "t") zerosHex body .empty = (true, st') := by
  have hquiet : (Store.empty : Store Bytes).faults = [] := rfl
  have hhex : hexDecode zerosHex = .ok (some zeroDigest) := by decide
  have hdigest : (spelledExt body zeroDigest).toVec ((spelledExt body zeroDigest).blake3 body) = zeroDigest :=
    Equiv.swap_apply_left body _
  unfold putChunkRequest storeChunkExternal
  rw [if_neg (Nat.not_lt.mpr hlimit), if_neg (by decide), if_neg (by decide), hhex, storeChunk_quiet (spelledExt_laws _ _) hquiet]
  dsimp only
  rw [if_neg (not_not.mpr hdigest)]
  exact ⟨_, rfl⟩

theorem putChunkRequest_reads_small : ∃ st', putChunkRequest (spelledExt [1, 2, 3] zeroDigest) 3 true ["t"] (some "t") zerosHex
    [1, 2, 3] .empty = (true, st') ∧ ∃ st'', getChunkByDigest (spelledExt [1, 2, 3] zeroDigest) [1, 2, 3] { st' with faults := [] } =
      .ok (some [1, 2, 3]) st'' := by
  have haccepted := putChunkRequest_spelled [1, 2, 3] (by decide)
  obtain ⟨st', hrun⟩ := haccepted
  exact ⟨st', hrun, (putChunkRequest_reads_iff (spelledExt_frames _ _) hrun).mpr ⟨nofun, fun _ => .inl (by decide)⟩⟩

theorem packRun_replicate_length (b : UInt8) {n : Nat} (h : n + 1 < 2 ^ 64) : (packRun (List.replicate (n + 1) b)).length = 10 := by
  have hall : (List.replicate (n + 1) b).all (· == b) = true := by simp
  have hlength : (List.replicate (n + 1) b).length < 2 ^ 64 := by simpa using h
  rw [List.replicate_succ] at hall hlength ⊢
  rw [packRun, if_pos ⟨hlength, hall⟩]
  simp [toLeBytes_length]

/-- Over half a mebibyte of zeros. -/
def overfullBody : Bytes := List.replicate (CHUNK_MAX * 2 + 1) 0

theorem putChunkRequest_overfull : ¬ ∀ (ext : Ext Bytes), ZstdFrames ext → ∀ (level : Int) (supportsCas : Bool) (writeTokens : List String)
    (token : Option String) (b3hex : String) (body : Bytes) (st st' : Store Bytes),
    putChunkRequest ext level supportsCas writeTokens token b3hex body st = (true, st') →
      ∃ st'', getChunkByDigest ext (ext.blake3 body) { st' with faults := [] } = .ok (some body) st'' := by
  intro h
  have hlength : overfullBody.length = CHUNK_MAX * 2 + 1 := List.length_replicate
  obtain ⟨st', hrun⟩ := putChunkRequest_spelled overfullBody (by rw [hlength]; decide)
  obtain ⟨digest, hstored⟩ := putChunkRequest_stored hrun
  have hreads := (getChunkByDigest_reads_iff (spelledExt_frames _ _) hstored).mp (h _ (spelledExt_frames _ _) _ _ _ _ _ _ _ _ hrun)
  have hpays : Compressible (spelledExt overfullBody zeroDigest) 3 overfullBody := by
    refine ⟨packRun overfullBody, rfl, ?_⟩
    have hpacked : (packRun overfullBody).length = 10 := packRun_replicate_length 0 (by decide)
    rw [hlength, hpacked]
    decide
  rcases hreads.2 rfl with hsmall | hfile | ⟨-, hno | hfits⟩
  · rw [hlength] at hsmall
    revert hsmall
    decide
  · cases hfile
  · exact hno hpays
  · rw [hlength] at hfits
    revert hfits
    decide

end Ekapkgs
