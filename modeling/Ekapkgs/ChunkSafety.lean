import Ekapkgs.CastoreQuiet
import Ekapkgs.Sample
import Ekapkgs.Lib.Runs

/-!
# Chunks read back

A chunk is kept inline, as a raw file or as a zstd file, and the row says which.
Only the row is transactional. `FileForm` and `RowForm` say separately that a
file holds the one form its chunk is stored in, and that a row names that form;
a row with a file then reads back.
-/

namespace Ekapkgs
open Keyed Fallible

variable {δ : Type} [DecidableEq δ] (ext : Ext δ) (level : Int)

/-! ## Invariants -/

/-- Every chunk file holds what `write_chunk_file` would write there. -/
def FileForm (files : δ → Option Bytes) : Prop :=
  ∀ d bytes, files d = some bytes →
    ∃ x zstdLevel, ext.blake3 x = d ∧ storedForm ext level x = some (bytes, zstdLevel)

/-- The row holds the chunk, or the level its file is written with. A compressed
file must fit the buffer it is read into. -/
def RowOf (x : Bytes) (row : ChunkRow) : Prop :=
  row.data = some x ∨ row.data = none ∧ (∃ bytes, storedForm ext level x = some (bytes, row.zstdLevel)) ∧
    (row.zstdLevel.isSome → x.length ≤ CHUNK_MAX * 2)

def RowForm (db : Db δ) : Prop :=
  ∀ d row, db.chunks.get? d = some row → ∃ x, ext.blake3 x = d ∧ RowOf ext level x row

/-- zstd makes the chunk smaller. -/
def compressible (x : Bytes) : Bool := (storedForm ext level x).any fun form => form.2.isSome

/-- The chunk does not have a compressed file and no row. -/
def NotOrphaned (x : Bytes) (db : Db δ) (files : δ → Option Bytes) : Prop :=
  INLINE_THRESHOLD ≤ x.length → (files (ext.blake3 x)).isSome → db.chunks.get? (ext.blake3 x) = none →
    compressible ext level x = false

/-- Every row whose chunk is present is read as bytes with its digest. -/
def ChunksReadable (st : Store δ) : Prop :=
  ∀ d row, st.db.chunks.get? d = some row → row.data.isSome ∨ (st.files d).isSome →
    ∃ bytes, getChunkByDigest ext d { st with faults := [] } = .ok (some bytes) { st with faults := [] } ∧
      ext.blake3 bytes = d

variable {ext level}

omit [DecidableEq δ] in
theorem storedForm_of_incompressible {x bytes : Bytes} {zstdLevel : Option Int} (h : compressible ext level x = false)
    (hform : storedForm ext level x = some (bytes, zstdLevel)) : zstdLevel = none := by
  rw [compressible, hform] at h
  simpa using h

omit [DecidableEq δ] in
theorem storedForm_cases {x bytes : Bytes} {zstdLevel : Option Int}
    (hform : storedForm ext level x = some (bytes, zstdLevel)) :
    zstdLevel = none ∧ bytes = x ∨ zstdLevel = some level ∧ ext.compress level x = some bytes := by
  obtain ⟨compressed, hc, hif⟩ := Option.map_eq_some_iff.mp hform
  by_cases hlt : compressed.length < x.length
  · rw [if_pos hlt] at hif; cases hif; exact .inr ⟨rfl, hc⟩
  · rw [if_neg hlt] at hif; cases hif; exact .inl ⟨rfl, rfl⟩

/-- A chunk in the form its row names is read back. -/
theorem readStored_of_forms (laws : ext.Laws) {db : Db δ} {files : δ → Option Bytes} (hrows : RowForm ext level db)
    (hfiles : FileForm ext level files) {d : δ} {row : ChunkRow} (hrow : db.chunks.get? d = some row)
    (hpresent : row.data.isSome ∨ (files d).isSome) :
    ∃ x, readStored ext db files d = .ok (some x) ∧ ext.blake3 x = d := by
  obtain ⟨x, hx, hdata | ⟨hdata, ⟨bytes, hform⟩, hfits⟩⟩ := hrows d row hrow
  · exact ⟨x, readStored_inline hrow hdata, hx⟩
  obtain ⟨fileBytes, hfile⟩ := Option.isSome_iff_exists.mp (hpresent.resolve_left (by rw [hdata]; nofun))
  obtain ⟨x', _, hx', hform'⟩ := hfiles d fileBytes hfile
  obtain rfl : x' = x := laws.blake3_injective (hx'.trans hx.symm)
  obtain ⟨rfl, hlevel⟩ := Prod.mk.inj (Option.some.inj (hform.symm.trans hform'))
  refine ⟨x', ?_, hx⟩
  rw [readStored_file hrow hdata hfile, decodeFile]
  rcases storedForm_cases hform with ⟨hnone, rfl⟩ | ⟨hsome, hcomp⟩
  · rw [hnone]; rfl
  · have hfits' := hfits (by rw [hsome]; rfl)
    rw [hsome, laws.decompress_compress level x' bytes _ hcomp hfits']; rfl

theorem chunksReadable_of_forms (laws : ext.Laws) {st : Store δ} (hrows : RowForm ext level st.db)
    (hfiles : FileForm ext level st.files) : ChunksReadable ext st := by
  intro d row hrow hpresent
  obtain ⟨x, hread, hx⟩ := readStored_of_forms laws hrows hfiles hrow hpresent
  have hquiet : getChunkByDigest ext d { st with faults := [] } = _ := getChunkByDigest_quiet ext rfl d
  exact ⟨x, by rw [hquiet, hread]; rfl, hx⟩

/-! ## Storing a chunk -/

theorem fileForm_update {files : δ → Option Bytes} (h : FileForm ext level files) {x bytes : Bytes}
    {zstdLevel : Option Int} (hform : storedForm ext level x = some (bytes, zstdLevel)) :
    FileForm ext level (Function.update files (ext.blake3 x) (some bytes)) := by
  intro d b hb
  by_cases hd : d = ext.blake3 x
  · subst hd
    rw [Function.update_self] at hb
    cases hb; exact ⟨x, zstdLevel, rfl, hform⟩
  · rw [Function.update_of_ne hd] at hb
    exact h d b hb

theorem fileForm_remove {files : δ → Option Bytes} (h : FileForm ext level files) (d : δ) :
    FileForm ext level (Function.update files d none) := by
  intro d' b hb
  by_cases hd : d' = d
  · rw [hd, Function.update_self] at hb; cases hb
  · rw [Function.update_of_ne hd] at hb; exact h d' b hb

theorem rowForm_insert {db : Db δ} (h : RowForm ext level db) {x : Bytes} {row : ChunkRow}
    (hrow : db.chunks.get? (ext.blake3 x) = none → RowOf ext level x row) :
    RowForm ext level { db with chunks := db.chunks.insertOrIgnore (ext.blake3 x) row } := by
  intro d r hr
  rw [Table.get?_insertOrIgnore] at hr
  by_cases hd : d = ext.blake3 x
  · rw [if_pos hd] at hr
    cases hget : db.chunks.get? (ext.blake3 x) with
    | some old => rw [hget] at hr; cases hr; exact h d _ (hd ▸ hget)
    | none => rw [hget] at hr; cases hr; exact ⟨x, hd.symm, hrow hget⟩
  · rw [if_neg hd] at hr; exact h d r hr

theorem rowForm_delete {db : Db δ} (h : RowForm ext level db) (d : δ) :
    RowForm ext level { db with chunks := db.chunks.delete d } := by
  intro d' r hr
  rw [Table.get?_delete] at hr
  by_cases hd : d' = d
  · rw [if_pos hd] at hr; cases hr
  · rw [if_neg hd] at hr; exact h d' r hr

/-- Both halves of the store are in form. -/
def Formed (ext : Ext δ) (level : Int) : View δ := fun db files => RowForm ext level db ∧ FileForm ext level files

/-- What a chunk row says when there was none. -/
theorem chunkRow_form (laws : ext.Laws) {db : Db δ} {files : δ → Option Bytes} {x : Bytes}
    (hfits : x.length ≤ CHUNK_MAX) (hfiles : FileForm ext level files) (ho : NotOrphaned ext level x db files)
    (hnone : db.chunks.get? (ext.blake3 x) = none) : RowOf ext level x (chunkRow ext level files x) := by
  have hfits' : x.length ≤ CHUNK_MAX * 2 := by omega
  unfold chunkRow inlineData
  rcases written_cases laws level files x with ⟨hlt, _⟩ | ⟨hge, ⟨bytes, hfile, hw⟩ | ⟨_, bytes, zstdLevel, hform, hw⟩⟩
  · exact .inl (if_pos hlt)
  · -- the file was there before: by assumption it is the raw chunk
    obtain ⟨x', zstdLevel, hx', hform⟩ := hfiles _ _ hfile
    obtain rfl := laws.blake3_injective hx'
    have hinc := ho hge (by rw [hfile]; rfl) hnone
    obtain rfl := storedForm_of_incompressible hinc hform
    exact .inr ⟨if_neg (by omega), ⟨bytes, by rw [hw]; exact hform⟩, fun _ => hfits'⟩
  · exact .inr ⟨if_neg (by omega), ⟨bytes, by rw [hw]; exact hform⟩, fun _ => hfits'⟩

theorem written_form (laws : ext.Laws) {files : δ → Option Bytes} {x : Bytes} (hfiles : FileForm ext level files) : FileForm ext level (written ext level files x).1 := by
  rcases written_cases laws level files x with ⟨_, hw⟩ | ⟨_, ⟨_, _, hw⟩ | ⟨_, bytes, zstdLevel, hform, hw⟩⟩
  · rw [hw]; exact hfiles
  · rw [hw]; exact hfiles
  · rw [hw]; exact fileForm_update hfiles hform

/-- Storing one chunk does not orphan another. -/
theorem notOrphaned_withChunk (laws : ext.Laws) {db : Db δ} {files : δ → Option Bytes} {x y : Bytes}
    (ho : NotOrphaned ext level y db files) :
    NotOrphaned ext level y (db.withChunk ext level files x) (written ext level files x).1 := by
  intro hy hfile hrow
  have hne : ext.blake3 y ≠ ext.blake3 x := by
    rintro he
    rw [Db.withChunk, Table.get?_insertOrIgnore, if_pos he] at hrow; cases hrow
  rw [Db.withChunk, Table.get?_insertOrIgnore, if_neg hne] at hrow
  exact ho hy (by rwa [written_of_ne laws level files hne] at hfile) hrow

/-- Storing a chunk that is not orphaned keeps the forms, and keeps the chunks of
`xs` from being orphaned. -/
theorem storeChunk_safe (laws : ext.Laws) (level : Int) {xs : List Bytes} {x : Bytes} (hx : x ∈ xs) (hlen : x.length ≤ CHUNK_MAX) :
    Triple (on fun db files => Formed ext level db files ∧ ∀ y ∈ xs, NotOrphaned ext level y db files)
      (storeChunk ext level x)
      (fun _ => on fun db files => Formed ext level db files ∧ ∀ y ∈ xs, NotOrphaned ext level y db files)
      (fun _ => on (Formed ext level)) := by
  refine storeChunk_on (fun _ _ h => h.1) ?_ ?_
  · rintro db files ⟨⟨hrows, hfiles⟩, _⟩
    exact ⟨hrows, written_form laws hfiles⟩
  · rintro db files ⟨⟨hrows, hfiles⟩, ho⟩
    exact ⟨⟨rowForm_insert hrows (chunkRow_form laws hlen hfiles (ho x hx)), written_form laws hfiles⟩,
      fun y hy => notOrphaned_withChunk laws (ho y hy)⟩

/-! ## The operations -/

theorem runScript_safe (laws : ext.Laws) (level : Int) {xs : List Bytes} {stmts : List (Stmt δ)}
    (hchunks : ∀ x, Stmt.chunk x ∈ stmts → x ∈ xs ∧ x.length ≤ CHUNK_MAX) :
    Triple (on fun db files => Formed ext level db files ∧ ∀ y ∈ xs, NotOrphaned ext level y db files)
      (runScript ext level stmts)
      (fun _ => on fun db files => Formed ext level db files ∧ ∀ y ∈ xs, NotOrphaned ext level y db files)
      (fun _ => on (Formed ext level)) := by
  refine .forM stmts fun stmt hstmt => ?_
  cases stmt with
  | chunk x =>
    obtain ⟨hx, hlen⟩ := hchunks x hstmt
    exact .bind (storeChunk_safe laws level hx hlen) fun _ => .pure fun _ h => h
  | fileChunk file index chunk size =>
    rw [Stmt.exec, insertFileChunkRow]
    exact exec_on (fun _ _ h => h) fun _ _ h => h.1
  | directory dir =>
    rw [Stmt.exec, insertDirectory]
    exact .bind (.bind (exec_on (fun _ _ h => h) fun _ _ h => h.1) fun _ => .pure fun _ h => h) fun _ =>
      .pure fun _ h => h

/-- Everything an upload does after its chunks are stored leaves chunks alone. -/
theorem storeRoot_formed (now : Nat) (hash : String) (data : Bytes) (root : CaNode) :
    Keeps (Formed ext level) (storeRoot ext now hash data root) := by
  refine .bind (loadMetadata_keeps _) fun existing => ?_
  cases existing <;> exact exec_keeps fun _ _ h => h

theorem putNar_safe (laws : ext.Laws) (now : Nat) (filePath : String) (data : Bytes) :
    Triple (on fun db files => Formed ext level db files ∧
        ∀ t, parseNar data = .ok t → ∀ y ∈ t.files.flatMap ext.chunks, NotOrphaned ext level y db files)
      (putNar ext level now filePath data) (fun _ => on (Formed ext level)) (fun _ => on (Formed ext level)) := by
  unfold putNar
  cases hparse : parseNar data with
  | error e => exact .throw fun _ h => h.1
  | ok t =>
    refine .bind (R := fun _ => on (Formed ext level)) ?_ fun _ => .pure fun _ h => h
    refine (withTransaction_on (D := RowForm ext level) (F := FileForm ext level)
      (I := fun db files => Formed ext level db files ∧ ∀ y ∈ t.files.flatMap ext.chunks, NotOrphaned ext level y db files)
      ?_ (fun _ _ h => h.1.2) fun _ _ _ h => h.2).pre fun st h => ⟨h.1.1, h.1, h.2 t rfl⟩
    rw [ingestNar, ingestNode_eq]
    have hscript := runScript_safe laws level fun x => chunk_mem_script laws (t := t) (x := x)
    refine .bind (R := fun _ => on (Formed ext level)) (.bind (hscript.conseq (fun _ h => h) (fun _ _ h => h.1) fun _ _ h => h.2)
      fun _ => .pure fun _ h => h) fun root => ?_
    refine Triple.conseq (show Keeps (Formed ext level) _ from ?_) (fun _ h => h) (fun _ _ h => h) fun _ _ h => h.2
    refine .bind (.get (Q := fun _ => on (Formed ext level)) fun _ h => h) fun st => ?_
    refine .bind (collectFileDigestsFromTree_keeps ext _ _ _) fun fileDigests => ?_
    refine .bind (.forM _ fun fd _ => exec_keeps fun _ _ h => h) fun _ => ?_
    exact storeRoot_formed now _ data root

theorem putNarinfo_safe (now : Nat) (hash content : String) :
    Keeps (Formed ext level) (putNarinfo ext now hash content) := by
  unfold putNarinfo
  cases NarInfo.parse content with
  | none => exact .throw fun _ h => h
  | some narinfo =>
    refine .bind (readRoot_keeps ext hash) fun root => .bind (R := fun _ => on (Formed ext level)) ?_ fun _ =>
      .pure fun _ h => h
    cases root with
    | none => exact .pure fun _ h => h
    | some rootNode => unfold writeNarinfo storeMetadata; exact exec_keeps fun _ _ h => h

theorem releaseFiles_formed : ∀ files chunkDigests : List δ,
    Keeps (Formed ext level) (releaseFiles files chunkDigests)
  | [], _ => .pure fun _ h => h
  | file :: files, chunkDigests => by
    refine .bind query_keeps fun stillReferenced => ?_
    cases stillReferenced with
    | true => exact releaseFiles_formed files chunkDigests
    | false =>
      refine .bind query_keeps fun chunks => .bind (exec_keeps fun _ _ h => h) fun _ => ?_
      exact releaseFiles_formed files _

theorem releaseChunks_formed : ∀ (chunks : List δ) (bytesFreed : Nat),
    Keeps (Formed ext level) (releaseChunks chunks bytesFreed)
  | [], _ => .pure fun _ h => h
  | chunk :: chunks, bytesFreed => by
    refine .bind query_keeps fun stillReferenced => ?_
    cases stillReferenced with
    | true => exact releaseChunks_formed chunks bytesFreed
    | false =>
      refine .bind queryRow_keeps fun size => .bind (exec_keeps fun _ _ h => ⟨rowForm_delete h.1 chunk, h.2⟩) fun _ => ?_
      refine .bind (removeFile_on (fun _ _ h => ⟨h.1, fileForm_remove h.2 chunk⟩) fun _ _ h => h) fun _ => ?_
      exact releaseChunks_formed chunks _

theorem evictPath_safe (hash : String) :
    Keeps (Formed ext level) (evictPath hash) := by
  refine (withTransaction_on (D := RowForm ext level) (F := FileForm ext level) (I := Formed ext level) ?_
    (fun _ _ h => h.2) fun _ _ _ h => h.2).pre fun st h => ⟨h.1, h⟩
  refine Triple.conseq (show Keeps (Formed ext level) _ from ?_) (fun _ h => h) (fun _ _ h => h) fun _ _ h => h.2
  refine .bind query_keeps fun fileDigests => .bind (.bind (exec_keeps fun _ _ h => h) fun _ => exec_keeps fun _ _ h => h)
    fun _ => ?_
  by_cases hempty : fileDigests.isEmpty
  · rw [if_pos hempty]; exact .pure fun _ h => h
  · rw [if_neg hempty]
    exact .bind (releaseFiles_formed _ _) fun _ => releaseChunks_formed _ _

/-! ## Runs -/

/-- One request, with the failures it meets, as a step of the store. -/
def requestStep (ext : Ext δ) (level : Int) (st : Store δ) (request : StoreOp × List Bool) (st' : Store δ) : Prop :=
  (∀ x ∈ opChunks ext request.1, x.length ≤ CHUNK_MAX) ∧
    st' = applyOp ext level request.1 { st with faults := request.2 }

/-- The request stores no chunk again that an earlier failure left as a
compressed file without a row. -/
def StoresNoOrphan (ext : Ext δ) (level : Int) (st : Store δ) (request : StoreOp × List Bool) : Prop :=
  ∀ x ∈ opChunks ext request.1, NotOrphaned ext level x st.db st.files

theorem request_formed (laws : ext.Laws) {st st' : Store δ} {request : StoreOp × List Bool}
    (hst : on (Formed ext level) st) (hok : StoresNoOrphan ext level st request)
    (hstep : requestStep ext level st request st') : on (Formed ext level) st' := by
  obtain ⟨op, faults⟩ := request
  obtain ⟨hmax, rfl⟩ := hstep
  cases op with
  | putNar now filePath data =>
    refine finalState_on (putNar_safe laws now filePath data) ⟨hst, fun t ht y hy => hok y ?_⟩
    rw [opChunks, ht]; exact hy
  | storeChunkExternal data =>
    have hmem : data ∈ opChunks ext (.storeChunkExternal data) := List.mem_singleton.mpr rfl
    have hsafe := storeChunk_safe laws level (List.mem_singleton.mpr (Eq.refl data)) (hmax data hmem)
    exact finalState_on (hsafe.post fun _ _ h => h.1) ⟨hst, fun y hy => hok y hy⟩
  | putNarinfo now hash content => exact finalState_on (putNarinfo_safe now hash content) hst
  | evictPath hash => exact finalState_on (evictPath_safe hash) hst
  | restart => exact hst

/-- **Chunks read back under failures.** As long as no request stores again a chunk
whose compressed file an earlier failure left without a row, every row whose
chunk is present is read as bytes with its digest. -/
theorem run_chunksReadable (laws : ext.Laws) {requests : List (StoreOp × List Bool)} {st : Store δ}
    (hrun : Runs.Run (Runs.guarded (requestStep ext level) (StoresNoOrphan ext level)) Store.empty requests st) :
    ChunksReadable ext st := by
  have hinit : on (Formed ext level) (Store.empty : Store δ) := ⟨nofun, nofun⟩
  have hst := hrun.invariant (I := on (Formed ext level))
    (fun _ _ _ hs hstep => request_formed laws hs hstep.1 hstep.2) hinit
  exact chunksReadable_of_forms laws hst.1 hst.2

/-- The state after a list of requests. -/
def runRequests (ext : Ext δ) (level : Int) (st : Store δ) (requests : List (StoreOp × List Bool)) : Store δ :=
  requests.foldl (fun st request => applyOp ext level request.1 { st with faults := request.2 }) st

theorem run_runRequests : ∀ (requests : List (StoreOp × List Bool)) (st : Store δ),
    (∀ request ∈ requests, ∀ x ∈ opChunks ext request.1, x.length ≤ CHUNK_MAX) →
    Runs.Run (requestStep ext level) st requests (runRequests ext level st requests)
  | [], st, _ => .nil st
  | request :: requests, _, h =>
    .cons ⟨h request (List.mem_cons_self ..), rfl⟩ (run_runRequests requests _ fun r hr => h r (List.mem_cons_of_mem _ hr))

theorem opChunks_zeros {op : StoreOp} (h : op = .storeChunkExternal zeros) :
    ∀ x ∈ opChunks sampleExt op, x = zeros ∧ x.length ≤ CHUNK_MAX := by
  subst h
  intro x hx
  obtain rfl := List.mem_singleton.mp hx
  exact ⟨rfl, zeros_length⟩

/-- An upload that fails before its file has its name, and the next attempt. -/
def retriedRequests : List (StoreOp × List Bool) :=
  [(.storeChunkExternal zeros, [false, false, true]), (.storeChunkExternal zeros, [])]

set_option maxRecDepth 8000 in
theorem run_chunksReadable_retry :
    ChunksReadable sampleExt (runRequests sampleExt 3 Store.empty retriedRequests) := by
  have hrun : Runs.Run (Runs.guarded (requestStep sampleExt 3) (StoresNoOrphan sampleExt 3)) Store.empty retriedRequests
      (runRequests sampleExt 3 Store.empty retriedRequests) := .cons ⟨?_, ?_, rfl⟩ (.cons ⟨?_, ?_, rfl⟩ (.nil _))
  · exact run_chunksReadable sampleExt_laws hrun
  · exact fun x _ _ hfile => by cases hfile
  · exact fun x hx => (opChunks_zeros rfl x hx).2
  · intro x hx _ hfile
    obtain ⟨rfl, _⟩ := opChunks_zeros rfl x hx
    revert hfile; decide
  · exact fun x hx => (opChunks_zeros rfl x hx).2

/-- A compressed file under a row without a level is read as it is. -/
theorem zeros_unreadable {st : Store Bytes} {size diskSize : Nat}
    (hrow : st.db.chunks.get? zeros = some ⟨size, none, diskSize, none⟩) (hfile : st.files zeros = some (packRun zeros)) :
    ¬ ∃ bytes, getChunkByDigest sampleExt zeros { st with faults := [] } = .ok (some bytes) { st with faults := [] } ∧
      sampleExt.blake3 bytes = zeros := by
  rintro ⟨bytes, hget, hbytes⟩
  have hread : readStored sampleExt st.db st.files zeros = .ok (some (packRun zeros)) := by
    rw [readStored_file hrow rfl hfile]; rfl
  rw [getChunkByDigest_quiet sampleExt rfl, hread] at hget
  have hpacked : some (packRun zeros) = some bytes := (EStateM.Result.ok.inj hget).1
  have hlen : bytes.length = 10 := by rw [← Option.some.inj hpacked]; decide +kernel
  have : bytes = zeros := hbytes
  rw [this, zeros, List.length_replicate] at hlen
  cases hlen

/-- The row of the first upload fails and its file stays. The second upload finds
the file and records it as raw. -/
def orphanRequests : List (StoreOp × List Bool) :=
  [(.storeChunkExternal zeros, [false, false, false, false, true]), (.storeChunkExternal zeros, [])]

theorem reupload_of_orphan_unreadable :
    ¬ ∀ (requests : List (StoreOp × List Bool)) (st : Store Bytes),
      Runs.Run (requestStep sampleExt 3) Store.empty requests st → ChunksReadable sampleExt st := by
  intro h
  have hmax : ∀ request ∈ orphanRequests, ∀ x ∈ opChunks sampleExt request.1, x.length ≤ CHUNK_MAX := by
    intro request hrequest x hx
    refine (opChunks_zeros ?_ x hx).2
    rcases List.mem_cons.mp hrequest with rfl | hrequest
    · rfl
    · obtain rfl := List.mem_singleton.mp hrequest; rfl
  have hreadable := h _ _ (run_runRequests orphanRequests Store.empty hmax)
  generalize hst : runRequests sampleExt 3 Store.empty orphanRequests = st at hreadable
  have hrow : st.db.chunks.get? zeros = some ⟨1024, none, 10, none⟩ := by rw [← hst]; decide +kernel
  have hfile : st.files zeros = some (packRun zeros) := by rw [← hst]; decide +kernel
  exact zeros_unreadable hrow hfile (hreadable zeros _ hrow (.inr (by rw [hfile]; rfl)))

end Ekapkgs
