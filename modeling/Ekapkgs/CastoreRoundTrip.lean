import Ekapkgs.CastoreUpload
import Ekapkgs.Sample

/-!
# A NAR that was uploaded is downloaded

Ingestion gives every chunk of the tree a row, and `readsAs` is what the chunk
then reads as: a file that an earlier failure left without a row is taken for
the raw chunk.
-/

namespace Ekapkgs
open Keyed

variable {δ : Type} [DecidableEq δ] (ext : Ext δ) (level : Int)

/-! ## What a stored chunk reads as -/

def Readable (db : Db δ) (files : δ → Option Bytes) : Prop :=
  ∀ d row, db.chunks.get? d = some row → ∃ x, readStored ext db files d = .ok (some x) ∧ ext.blake3 x = d

/-- What a chunk reads as once it is stored. -/
def readsAs (db : Db δ) (files : δ → Option Bytes) (x : Bytes) : Bytes :=
  if db.chunks.contains (ext.blake3 x) ∨ x.length < INLINE_THRESHOLD then x else (files (ext.blake3 x)).getD x

variable {ext level} {db : Db δ} {files : δ → Option Bytes} {x : Bytes}

omit [DecidableEq δ] in
/-- A form that a chunk is stored in is read back. -/
theorem decodeFile_storedForm (laws : ext.Laws) {x bytes : Bytes} {zstdLevel : Option Int} {row : ChunkRow} {d : δ}
    (hform : storedForm ext level x = some (bytes, zstdLevel)) (hlevel : row.zstdLevel = zstdLevel)
    (hfits : x.length ≤ CHUNK_MAX * 2) : decodeFile ext row d bytes = .ok (some x) := by
  unfold decodeFile
  obtain ⟨compressed, hc, hif⟩ := Option.map_eq_some_iff.mp hform
  by_cases hlt : compressed.length < x.length
  · rw [if_pos hlt] at hif; cases hif
    rw [hlevel, laws.decompress_compress level x bytes _ hc hfits]; rfl
  · rw [if_neg hlt] at hif; cases hif
    rw [hlevel]; rfl

theorem readStored_withChunk_of_ne (laws : ext.Laws) (level : Int) {d : δ} (hd : d ≠ ext.blake3 x) :
    readStored ext (db.withChunk ext level files x) (written ext level files x).1 d = readStored ext db files d := by
  unfold readStored
  rw [Db.withChunk, Table.get?_insertOrIgnore, if_neg hd, written_of_ne laws level files hd]

/-- A chunk with a row that reads back still does after it is stored again. -/
theorem readStored_withChunk_of_row (laws : ext.Laws) (level : Int) {row : ChunkRow} {y : Bytes}
    (hrow : db.chunks.get? (ext.blake3 x) = some row) (hread : readStored ext db files (ext.blake3 x) = .ok (some y)) :
    readStored ext (db.withChunk ext level files x) (written ext level files x).1 (ext.blake3 x) = .ok (some y) := by
  have hrow' : (db.withChunk ext level files x).chunks.get? (ext.blake3 x) = some row := by
    rw [Db.withChunk, Table.get?_insertOrIgnore, if_pos rfl, hrow]; rfl
  cases hdata : row.data with
  | some data =>
    rw [readStored_inline hrow hdata] at hread
    rw [readStored_inline hrow' hdata, hread]
  | none =>
    cases hfile : files (ext.blake3 x) with
    | none => simp [readStored, hrow, hdata, hfile] at hread
    | some bytes =>
      have hfile' : (written ext level files x).1 (ext.blake3 x) = some bytes := by
        rcases written_cases laws level files x with ⟨_, hw⟩ | ⟨_, ⟨_, _, hw⟩ | ⟨hnone, _⟩⟩
        · rw [hw]; exact hfile
        · rw [hw]; exact hfile
        · rw [hfile] at hnone; cases hnone
      rw [readStored_file hrow hdata hfile] at hread
      rw [readStored_file hrow' hdata hfile', hread]

theorem readStored_withChunk_new (laws : ext.Laws) (level : Int) (hfits : x.length ≤ CHUNK_MAX * 2)
    (hnone : db.chunks.get? (ext.blake3 x) = none) :
    readStored ext (db.withChunk ext level files x) (written ext level files x).1 (ext.blake3 x) =
      .ok (some (readsAs ext db files x)) := by
  have hrow : (db.withChunk ext level files x).chunks.get? (ext.blake3 x) = some (chunkRow ext level files x) := by
    rw [Db.withChunk, Table.get?_insertOrIgnore, if_pos rfl, hnone]; rfl
  have hcontains : db.chunks.contains (ext.blake3 x) = false := by rw [Table.contains_eq_isSome, hnone]; rfl
  unfold readsAs
  rw [hcontains]
  rcases written_cases laws level files x with ⟨hlt, hw⟩ | ⟨hge, ⟨bytes, hfile, hw⟩ | ⟨hfile, bytes, zstdLevel, hform, hw⟩⟩
  · rw [readStored_inline hrow (if_pos hlt), if_pos (.inr hlt)]
  · have hdata : (chunkRow ext level files x).data = none := if_neg (by omega)
    rw [if_neg (by simp; omega), hfile, hw, readStored_file hrow hdata hfile]
    simp [decodeFile, chunkRow, hw]
  · have hdata : (chunkRow ext level files x).data = none := if_neg (by omega)
    rw [if_neg (by simp; omega), hfile, readStored_file hrow hdata (by rw [hw]; exact Function.update_self ..)]
    exact decodeFile_storedForm laws hform (by simp [chunkRow, hw]) hfits

/-! ## Ingestion -/

/-- A store that holds more chunks than one it grew from: every chunk with a row
reads as it does there, and one without is as it was. -/
structure Grown (ext : Ext δ) (st₀ st : Store δ) : Prop where
  read : ∀ x row, st.db.chunks.get? (ext.blake3 x) = some row →
    readStored ext st.db st.files (ext.blake3 x) = .ok (some (readsAs ext st₀.db st₀.files x))
  rest : ∀ d, st.db.chunks.get? d = none → st₀.db.chunks.get? d = none ∧ st.files d = st₀.files d

variable {st₀ st : Store δ} {t : NarNode}

theorem grown_refl (laws : ext.Laws) (h : Readable ext st.db st.files) : Grown ext st st where
  read x row hrow := by
    obtain ⟨y, hread, hy⟩ := h _ row hrow
    have hcontains : st.db.chunks.contains (ext.blake3 x) = true := by rw [Table.contains_eq_isSome, hrow]; rfl
    rw [hread, laws.blake3_injective hy, readsAs, if_pos (.inl hcontains)]
  rest _ h := ⟨h, rfl⟩

theorem Grown.apply_chunk (laws : ext.Laws) (h : Grown ext st₀ st) (hfits : x.length ≤ CHUNK_MAX) :
    Grown ext st₀ (Stmt.apply ext level st (.chunk x)) where
  read y row hrow := by
    simp only [Stmt.apply] at hrow ⊢
    by_cases hy : ext.blake3 y = ext.blake3 x
    · obtain rfl := laws.blake3_injective hy
      cases hold : st.db.chunks.get? (ext.blake3 y) with
      | some old => exact readStored_withChunk_of_row laws level hold (h.read y old hold)
      | none =>
        obtain ⟨hnone, hfile⟩ := h.rest _ hold
        rw [readStored_withChunk_new laws level (by omega) hold]
        simp only [readsAs, Table.contains_eq_isSome, hold, hnone, hfile]
    · rw [Db.withChunk, Table.get?_insertOrIgnore, if_neg hy] at hrow
      rw [readStored_withChunk_of_ne laws level hy, h.read y row hrow]
  rest d hd := by
    simp only [Stmt.apply, Db.withChunk, Table.get?_insertOrIgnore] at hd ⊢
    by_cases hx : d = ext.blake3 x
    · rw [if_pos hx] at hd; cases hd
    · rw [if_neg hx] at hd
      rw [written_of_ne laws level st.files hx]
      exact h.rest d hd

theorem Grown.ingested (laws : ext.Laws) (level : Int) (h : Readable ext st.db st.files) (t : NarNode) :
    Grown ext st (ingested ext level st t) := by
  refine ingested_keeps (P := Grown ext st) t (fun st' stmt hstmt hgrown => ?_) (grown_refl laws h)
  cases stmt with
  | chunk x => exact hgrown.apply_chunk laws (chunk_mem_script laws hstmt).2
  | fileChunk file index digest size => exact ⟨hgrown.read, hgrown.rest⟩
  | directory dir => exact ⟨hgrown.read, hgrown.rest⟩

/-- A store state in which what is there reads back and is what its digest says. -/
structure Consistent (ext : Ext δ) (st : Store δ) : Prop where
  quiet : st.faults = []
  rows : ContentRows ext st.db
  chunks : Readable ext st.db st.files
  cache : CacheCoherent ext st.dirCache

omit [DecidableEq δ] in
theorem mem_script_chunk {data : Bytes} (hdata : data ∈ t.files) (hx : x ∈ ext.chunks data) :
    Stmt.chunk x ∈ script ext t.postorder :=
  mem_script_file hdata (List.mem_append_left _ (List.mem_map_of_mem hx))

/-- After an upload the store has the tree, each chunk as it reads. -/
theorem uploaded_holds (laws : ext.Laws) (level : Int) (h : Consistent ext st) (now : Nat) (hash : String) (data : Bytes) (t : NarNode) :
    Holds ext (uploaded ext level now hash data t st).db (uploaded ext level now hash data t st).files
      (readsAs ext st.db st.files) t where
  directories := hasDirectories_of_done laws (h.rows.ingested laws level t) (ingested_done level st t)
  fileChunks _ hdata := fileChunks_of_stored (h.rows.ingested laws level t) (fileStored_of_done (ingested_done level st t) hdata)
  chunks _ hdata x hx := by
    obtain ⟨row, hrow⟩ := ingested_done level st t _ (mem_script_chunk hdata hx)
    exact (Grown.ingested laws level h.chunks t).read x row hrow

theorem uploaded_serving (level : Int) (h : Consistent ext st) (now : Nat) (hash : String) (data : Bytes) (t : NarNode) :
    Serving ext (uploaded ext level now hash data t st).db (uploaded ext level now hash data t st).files
      (uploaded ext level now hash data t st) := by
  obtain ⟨-, -, hcache, hfaults⟩ := ingested_frame ext level st t
  exact ⟨rfl, rfl, hfaults.trans h.quiet, hcache ▸ h.cache⟩

/-! ## Which downloads are whole -/

/-- Every chunk of the tree on disk without a row is there as it is. -/
def OrphansRaw (ext : Ext δ) (st : Store δ) (t : NarNode) : Prop :=
  ∀ x ∈ t.files.flatMap ext.chunks, INLINE_THRESHOLD ≤ x.length → st.db.chunks.get? (ext.blake3 x) = none →
    ∀ bytes, st.files (ext.blake3 x) = some bytes → bytes = x

/-- A chunk file is the chunk, or shorter: zstd made it. -/
def FilesWritten (ext : Ext δ) (files : δ → Option Bytes) : Prop :=
  ∀ x bytes, files (ext.blake3 x) = some bytes → bytes = x ∨ bytes.length < x.length

theorem orphansRaw_iff : OrphansRaw ext st t ↔ ∀ x ∈ t.files.flatMap ext.chunks, readsAs ext st.db st.files x = x := by
  unfold OrphansRaw readsAs
  refine forall₂_congr fun x _ => ?_
  rw [Table.contains_eq_isSome]
  by_cases hlt : x.length < INLINE_THRESHOLD
  · simp only [hlt, or_true, if_true, iff_true]; omega
  have hge : INLINE_THRESHOLD ≤ x.length := by omega
  cases st.db.chunks.get? (ext.blake3 x) with
  | some row => simp
  | none => cases st.files (ext.blake3 x) <;> simp [hlt, hge]

theorem FilesWritten.readsAs_length (h : FilesWritten ext files) (db : Db δ) (x : Bytes) :
    readsAs ext db files x = x ∨ (readsAs ext db files x).length < x.length := by
  unfold readsAs
  split
  · exact .inl rfl
  · cases hfile : files (ext.blake3 x) with
    | none => exact .inl rfl
    | some bytes => exact h x bytes hfile

omit [DecidableEq δ] in
theorem fileContent_length (content : Bytes → Bytes) (data : Bytes) :
    (fileContent ext content data).length = ((ext.chunks data).map fun x => (content x).length).sum := by
  rw [fileContent, List.length_flatten, List.map_map]; rfl

omit [DecidableEq δ] in
theorem files_fileContent_length (ext : Ext δ) (content : Bytes → Bytes) (t : NarNode) :
    (t.files.map fun data => (fileContent ext content data).length).sum =
      ((t.files.flatMap ext.chunks).map fun x => (content x).length).sum := by
  simp only [fileContent_length, List.flatMap, List.map_flatten, List.sum_flatten, List.map_map, Function.comp_def]

omit [DecidableEq δ] in
theorem writeNarWith_of_reads (laws : ext.Laws) {content : Bytes → Bytes}
    (h : ∀ x ∈ t.files.flatMap ext.chunks, content x = x) : writeNarWith (fileContent ext content) t = writeNar t := by
  have hcongr : ∀ data ∈ t.files, fileContent ext content data = id data := by
    intro data hdata
    have hmap : (ext.chunks data).map content = ext.chunks data :=
      (List.map_congr_left fun x hx => h x (List.mem_flatMap.mpr ⟨data, hdata, hx⟩)).trans (List.map_id _)
    rw [fileContent, hmap, laws.chunks_flatten]; rfl
  rw [writeNarWith, writeNarObjWith_congr t hcongr, writeNarObjWith_id]; rfl

omit [DecidableEq δ] in
/-- The header of a file has its length, so output with a shorter chunk is shorter. -/
theorem reads_of_writeNarWith (laws : ext.Laws) {content : Bytes → Bytes}
    (hshort : ∀ x, content x = x ∨ (content x).length < x.length)
    (heq : writeNarWith (fileContent ext content) t = writeNar t) : ∀ x ∈ t.files.flatMap ext.chunks, content x = x := by
  intro x hx
  have hlen : _ + _ = _ + (t.files.map fun data => (fileContent ext content data).length).sum := writeNarObjWith_length t
  have hobj : (writeNarObjWith (fileContent ext content) t).length = (writeNarObj t).length := by
    have := congrArg List.length heq
    simpa only [writeNarWith, writeNar, List.length_append, Nat.add_left_cancel_iff] using this
  have hfiles : (t.files.map List.length).sum = ((t.files.flatMap ext.chunks).map List.length).sum := by
    have h := files_fileContent_length ext id t
    simp only [fileContent_id laws] at h
    exact h
  rw [files_fileContent_length, hobj, hfiles] at hlen
  by_contra hne
  have hlt := List.sum_lt_sum (fun x => (content x).length) List.length
    (fun y _ => (hshort y).elim (fun h => by rw [h]) le_of_lt) ⟨x, hx, (hshort x).resolve_left hne⟩
  omega

theorem Downloads.unique {filePath : String} {nar nar' : Bytes} (h : Downloads ext st (hashOfFilePath filePath) nar)
    (h' : Downloads ext st (hashOfFilePath filePath) nar') : nar = nar' := by
  obtain ⟨_, hget⟩ := h.getNar filePath rfl
  obtain ⟨_, hget'⟩ := h'.getNar filePath rfl
  rw [hget] at hget'
  cases hget'; rfl

theorem uploaded_downloads (laws : ext.Laws) (level : Int) (h : Consistent ext st) (now : Nat) (hash : String) (data : Bytes)
    (hcanonical : t.Canonical) : Downloads ext (uploaded ext level now hash data t st) hash
      (writeNarWith (fileContent ext (readsAs ext st.db st.files)) t) := by
  have hdown := (uploaded_holds laws level h now hash data t).downloads laws (uploaded_hasRoot now hash data t)
    (uploaded_serving level h now hash data t)
  rwa [NarNode.sorted_of_canonical t hcanonical] at hdown

theorem orphansRaw_of_downloads (laws : ext.Laws) (hfiles : FilesWritten ext st.files) {st' : Store δ} {filePath : String}
    (hdown : Downloads ext st' (hashOfFilePath filePath) (writeNarWith (fileContent ext (readsAs ext st.db st.files)) t))
    (hnar : Downloads ext st' (hashOfFilePath filePath) (writeNar t)) : OrphansRaw ext st t :=
  orphansRaw_iff.mpr (reads_of_writeNarWith laws (hfiles.readsAs_length st.db) (hdown.unique hnar))

/-- After an upload the path's downloads are the NAR exactly if no chunk of it
was on disk without a row in another form. -/
theorem putNar_downloads_iff (laws : ext.Laws) (level : Int) (hcanonical : t.Canonical)
    (hlen : (writeNar t).length < 2 ^ 64) (h : Consistent ext st) (now : Nat) (filePath : String) : ∃ st',
      putNar ext level now filePath (writeNar t) st = .ok true st' ∧
      (OrphansRaw ext st t → Downloads ext st' (hashOfFilePath filePath) (writeNar t)) ∧
      (FilesWritten ext st.files → Downloads ext st' (hashOfFilePath filePath) (writeNar t) → OrphansRaw ext st t) := by
  have hdown := uploaded_downloads laws level h now (hashOfFilePath filePath) (writeNar t) hcanonical
  refine ⟨_, putNar_quiet laws level h.quiet h.rows now filePath (parseNar_writeNar hlen), fun horphans => ?_,
    fun hfiles => orphansRaw_of_downloads laws hfiles hdown⟩
  rwa [writeNarWith_of_reads laws (orphansRaw_iff.mp horphans)] at hdown

/-- A tree with a file that is compressed, an empty one, a link and an empty directory. -/
def sampleTree : NarNode :=
  .directory [("a", .regular true zeros), ("b", .directory []), ("c", .symlink "a"), ("d", .regular false [])]

theorem sampleTree_canonical : sampleTree.Canonical := by
  intro entries h
  simp only [sampleTree, NarNode.postorder, postorderEntries, List.nil_append, List.cons_append, List.mem_cons,
    NarNode.directory.injEq, List.not_mem_nil, or_false, reduceCtorEq, false_or] at h
  rcases h with rfl | rfl
  · exact .nil
  · decide

theorem sampleTree_length : (writeNar sampleTree).length < 2 ^ 64 := by decide +kernel

theorem consistent_of_no_rows (st : Store Bytes) (hf : st.faults = []) (hdb : st.db = .empty) (hcache : st.dirCache = .empty) :
    Consistent sampleExt st where
  quiet := hf
  rows := by rw [hdb]; exact ⟨nofun, nofun⟩
  chunks := by rw [hdb]; exact nofun
  cache := by rw [hcache]; exact cacheCoherent_empty

theorem putNar_downloads_sampleTree : ∃ st', putNar sampleExt 3 0 "nar/h.nar" (writeNar sampleTree) Store.empty = .ok true st' ∧
    Downloads sampleExt st' "h" (writeNar sampleTree) := by
  obtain ⟨st', hput, hdown, _⟩ := putNar_downloads_iff sampleExt_laws 3 sampleTree_canonical sampleTree_length
    (consistent_of_no_rows Store.empty rfl rfl rfl) 0 "nar/h.nar"
  exact ⟨st', hput, hdown fun _ _ _ _ _ hfile => nomatch hfile⟩

/-- The compressed file of a chunk without a row. -/
def orphaned : Store Bytes :=
  { Store.empty with files := Function.update (fun _ => none) zeros (some (packRun zeros)) }

-- storing a chunk leaves it behind when the row cannot be inserted
example : let st := finalState (storeChunkExternal sampleExt 3 zeros
      { Store.empty with faults := [false, false, false, false, true] })
    st.files zeros = orphaned.files zeros ∧ st.db.chunks.rows = [] := by decide +kernel

theorem orphaned_files (x : Bytes) :
    orphaned.files (sampleExt.blake3 x) = if x = zeros then some (packRun zeros) else none := by
  unfold orphaned
  dsimp only
  rw [Function.update_apply]; rfl

theorem packRun_zeros_length : (packRun zeros).length < zeros.length := by decide +kernel

theorem orphaned_not_raw : ¬ OrphansRaw sampleExt orphaned sampleTree := by
  intro h
  have hmem : zeros ∈ sampleTree.files.flatMap sampleExt.chunks := by decide +kernel
  have hlong : INLINE_THRESHOLD ≤ zeros.length := by decide +kernel
  have hraw := h zeros hmem hlong rfl (packRun zeros) ((orphaned_files zeros).trans (if_pos rfl))
  have hlt := packRun_zeros_length
  rw [hraw] at hlt
  exact Nat.lt_irrefl _ hlt

theorem orphaned_filesWritten : FilesWritten sampleExt orphaned.files := by
  intro x bytes hfile
  rw [orphaned_files] at hfile
  by_cases hx : x = zeros
  · rw [if_pos hx] at hfile
    rw [← Option.some.inj hfile, hx]
    exact .inr packRun_zeros_length
  · rw [if_neg hx] at hfile; cases hfile

theorem sampleTree_not_downloaded :
    ¬ ∀ (t : NarNode) (st : Store Bytes) (now : Nat) (filePath : String), t.Canonical → (writeNar t).length < 2 ^ 64 →
      Consistent sampleExt st → ∀ st', putNar sampleExt 3 now filePath (writeNar t) st = .ok true st' →
        Downloads sampleExt st' (hashOfFilePath filePath) (writeNar t) := by
  intro h
  have hst : Consistent sampleExt orphaned := consistent_of_no_rows _ rfl rfl rfl
  have hput := putNar_quiet sampleExt_laws 3 hst.quiet hst.rows 0 "nar/h.nar" (parseNar_writeNar sampleTree_length)
  have hnar := h sampleTree orphaned 0 "nar/h.nar" sampleTree_canonical sampleTree_length hst _ hput
  have hdown := uploaded_downloads sampleExt_laws 3 hst 0 (hashOfFilePath "nar/h.nar") (writeNar sampleTree) sampleTree_canonical
  exact orphaned_not_raw (orphansRaw_of_downloads sampleExt_laws orphaned_filesWritten hdown hnar)

end Ekapkgs
