import Ekapkgs.CastoreEvict
import Ekapkgs.CastoreRoundTrip
import Ekapkgs.Lib.Runs

/-!
# Garbage collection

An eviction decides by `path_files` and `file_chunks` which chunks are live.
`GcInv` says that these tables cover the trees of all paths, so no eviction takes
a live chunk. They may record more: uploading another NAR under a hash leaves the
files of the old one recorded.
-/

namespace Ekapkgs
open Keyed Fallible Runs

variable {δ : Type} [DecidableEq δ] (ext : Ext δ) (level : Int)

/-- A store, and the tree last uploaded under each hash. -/
structure Served (δ : Type) where
  store : Store δ
  nars : String → Option NarNode

def Served.init : Served δ := ⟨.empty, fun _ => none⟩

/-- The requests that succeed. -/
def serveNext (s : Served δ) : StoreOp → Option (Served δ)
  | .putNar now filePath data =>
    (parseNar data).toOption.bind fun t =>
      onReturn (putNar ext level now filePath data s.store) fun _ st =>
        ⟨st, Function.update s.nars (hashOfFilePath filePath) (some t)⟩
  | .putNarinfo now hash content => onReturn (putNarinfo ext now hash content s.store) fun _ st => { s with store := st }
  | .evictPath hash => onReturn (evictPath hash s.store) fun _ st => ⟨st, Function.update s.nars hash none⟩
  | .storeChunkExternal _ => none
  | .restart => some { s with store := { s.store with dirCache := .empty } }

abbrev serveStep : Served δ → StoreOp → Served δ → Prop := stepOf (serveNext ext level)

/-! ## Reachability -/

/-- A file that the tree under a root has. -/
inductive Reaches (db : Db δ) : CaNode → δ → Prop where
  | file {file : CaFileNode} {f : δ} (hdigest : fieldDigest ext file.digest = some f) : Reaches db ⟨some (.file file)⟩ f
  | entry {dir : CaDirectoryNode} {d f : δ} {data : Bytes} {caDir : CaDirectory} {entry : CaDirectoryEntry} {child : CaNode}
      (hdigest : fieldDigest ext dir.digest = some d) (hrow : db.directories.get? d = some data)
      (hdecode : ext.decodeDirectory data = some caDir) (hentry : entry ∈ caDir.entries) (hchild : entry.node = some child)
      (hreach : Reaches db child f) : Reaches db ⟨some (.directory dir)⟩ f

def PathReaches (db : Db δ) (hash : String) (file : δ) : Prop :=
  ∃ row root, db.casPaths.get? hash = some row ∧ ext.decodeNode row.rootNode = some root ∧ Reaches ext db root file

def PathReachesChunk (db : Db δ) (hash : String) (chunk : δ) : Prop :=
  ∃ file i size, PathReaches ext db hash file ∧ db.fileChunks.get? (file, i) = some (chunk, size)

/-- What every eviction does. -/
structure EvictsOnly (st st' : Store δ) (hash : String) : Prop where
  path : st'.db.casPaths.get? hash = none
  fileChunks : ∀ hash' ≠ hash, ∀ f, PathReaches ext st.db hash' f → ∀ i,
    st'.db.fileChunks.get? (f, i) = st.db.fileChunks.get? (f, i)
  chunks : ∀ hash' ≠ hash, ∀ c, PathReachesChunk ext st.db hash' c →
    st'.db.chunks.get? c = st.db.chunks.get? c ∧ st'.files c = st.files c

/-- What an eviction should do besides. -/
structure EvictsAll (st st' : Store δ) (hash : String) : Prop where
  fileChunks : ∀ f, PathReaches ext st.db hash f → (∀ hash' ≠ hash, ¬ PathReaches ext st.db hash' f) → ∀ i,
    st'.db.fileChunks.get? (f, i) = none
  chunks : ∀ c, PathReachesChunk ext st.db hash c → (∀ hash' ≠ hash, ¬ PathReachesChunk ext st.db hash' c) →
    st'.db.chunks.get? c = none ∧ st'.files c = none

variable {ext level} {t : NarNode} {db : Db δ}

omit [DecidableEq δ] in
theorem fieldDigest_toVec (laws : ext.Laws) (d : δ) : fieldDigest ext (some ⟨ext.toVec d⟩) = some d := by
  simp only [fieldDigest, Option.bind_some, laws.tryFrom_toVec]

/-- The walk from the root of a stored tree finds its files. -/
theorem reaches_caNode (laws : ext.Laws) {f : δ} (t : NarNode) : HasDirectories ext db t →
    (Reaches ext db (caNode ext t) f ↔ f ∈ t.files.map ext.blake3) := by
  induction t using NarNode.tree_induction with
  | regular executable data =>
    intro _
    rw [caNode, fileNode, files_regular]
    constructor
    · intro h
      cases h with
      | file hdigest =>
        rw [fieldDigest_toVec laws] at hdigest
        simpa using (Option.some.inj hdigest).symm
    · intro h
      rw [List.map_singleton, List.mem_singleton] at h
      exact .file (by rw [h]; exact fieldDigest_toVec laws _)
  | symlink target =>
    intro _
    rw [files_symlink]
    constructor
    · intro h; cases h
    · intro h; cases h
  | directory entries ih =>
    intro hdirs
    have hrow := hdirs entries (self_mem_postorder _)
    rw [caNode, directoryNode, files_directory, entriesFiles, List.map_flatMap]
    constructor
    · intro h
      cases h with
      | entry hdigest hget hdecode hentry hchild hreach =>
        rw [fieldDigest_toVec laws] at hdigest
        cases hdigest
        cases hrow.symm.trans hget
        rw [laws.decode_encodeDirectory] at hdecode
        cases hdecode
        rw [caEntries_eq_map] at hentry
        obtain ⟨e, he, rfl⟩ := List.mem_map.mp hentry
        cases hchild
        exact List.mem_flatMap.mpr ⟨e, he, (ih e he fun es hes => hdirs es (child_mem_postorder he hes)).mp hreach⟩
    · intro h
      obtain ⟨e, he, hf⟩ := List.mem_flatMap.mp h
      have hreach := (ih e he fun es hes => hdirs es (child_mem_postorder he hes)).mpr hf
      exact .entry (fieldDigest_toVec laws _) hrow (laws.decode_encodeDirectory _)
        (by rw [caEntries_eq_map]; exact List.mem_map_of_mem he) rfl hreach

/-! ## Chunks stay readable -/

/-- Every chunk row reads back, and no chunk file is without a row. -/
structure ChunksSound (ext : Ext δ) (db : Db δ) (files : δ → Option Bytes) : Prop where
  readable : Readable ext db files
  rows : ∀ d bytes, files d = some bytes → ∃ row, db.chunks.get? d = some row

theorem ChunksSound.withChunk (laws : ext.Laws) {files : δ → Option Bytes} {x : Bytes} (h : ChunksSound ext db files)
    (hfits : x.length ≤ CHUNK_MAX) : ChunksSound ext (db.withChunk ext level files x) (written ext level files x).1 where
  readable d row hrow := by
    by_cases hd : d = ext.blake3 x
    · subst hd
      cases hold : db.chunks.get? (ext.blake3 x) with
      | some old =>
        obtain ⟨y, hread, hy⟩ := h.readable _ old hold
        exact ⟨y, readStored_withChunk_of_row laws level hold hread, hy⟩
      | none =>
        have hfile : files (ext.blake3 x) = none := by
          cases hfile : files (ext.blake3 x) with
          | none => rfl
          | some bytes =>
            obtain ⟨row, hrow⟩ := h.rows _ bytes hfile
            rw [hold] at hrow; cases hrow
        have hreads : readsAs ext db files x = x := by
          unfold readsAs
          rw [hfile]
          split <;> rfl
        exact ⟨x, by rw [readStored_withChunk_new laws level (by omega) hold, hreads], rfl⟩
    · rw [Db.withChunk, Table.get?_insertOrIgnore, if_neg hd] at hrow
      rw [readStored_withChunk_of_ne laws level hd]
      exact h.readable d row hrow
  rows d bytes hfile := by
    rw [Db.withChunk]
    by_cases hd : d = ext.blake3 x
    · exact get?_insertOrIgnore_isSome (.inr hd)
    · rw [written_of_ne laws level files hd] at hfile
      exact get?_insertOrIgnore_isSome (.inl (h.rows d bytes hfile))

theorem ChunksSound.ingested (laws : ext.Laws) (level : Int) {st : Store δ} (h : ChunksSound ext st.db st.files) (t : NarNode) :
    ChunksSound ext (ingested ext level st t).db (ingested ext level st t).files := by
  refine ingested_keeps (P := fun st => ChunksSound ext st.db st.files) t (fun st stmt hstmt hst => ?_) h
  cases stmt with
  | chunk x => exact hst.withChunk laws (chunk_mem_script laws hstmt).2
  | fileChunk file index digest size => exact ⟨hst.readable, hst.rows⟩
  | directory dir => exact ⟨hst.readable, hst.rows⟩

/-- Dropping the rows and files of some chunks leaves the others readable. -/
theorem ChunksSound.withoutChunks {st : Store δ} (h : ChunksSound ext st.db st.files) (dead : δ → Bool) :
    ChunksSound ext (withoutChunks st dead).db (withoutChunks st dead).files where
  readable d row hrow := by
    rw [get?_withoutChunks] at hrow
    cases hdead : dead d with
    | true => rw [if_pos hdead] at hrow; cases hrow
    | false =>
      rw [if_neg (by rw [hdead]; decide)] at hrow
      obtain ⟨x, hread, hx⟩ := h.readable d row hrow
      refine ⟨x, ?_, hx⟩
      rw [← hread]
      unfold readStored
      rw [get?_withoutChunks, if_neg (by rw [hdead]; decide)]
      simp only [Ekapkgs.withoutChunks, hdead]
      rfl
  rows d bytes hfile := by
    simp only [Ekapkgs.withoutChunks] at hfile
    cases hdead : dead d with
    | true => rw [hdead] at hfile; cases hfile
    | false =>
      rw [get?_withoutChunks, if_neg (by rw [hdead]; decide)]
      rw [hdead] at hfile
      exact h.rows d bytes hfile

/-! ## The invariant -/

/-- The root of a path whose tree was uploaded, or not yet. -/
def rootOf (ext : Ext δ) : Option NarNode → CaNode
  | some t => caNode ext t
  | none => placeholderRoot

structure GcInv (ext : Ext δ) (st : Store δ) (nars : String → Option NarNode) : Prop where
  quiet : st.faults = []
  cache : CacheCoherent ext st.dirCache
  rows : ContentRows ext st.db
  chunks : ChunksSound ext st.db st.files
  root : ∀ hash row, st.db.casPaths.get? hash = some row → row.rootNode = ext.encodeNode (rootOf ext (nars hash))
  path : ∀ hash t, nars hash = some t → ∃ row, st.db.casPaths.get? hash = some row
  directories : ∀ hash t, nars hash = some t → HasDirectories ext st.db t
  files : ∀ hash t, nars hash = some t → ∀ data ∈ t.files, st.db.pathFiles.get? (hash, ext.blake3 data) = some ()
  recorded : ∀ hash f, st.db.pathFiles.get? (hash, f) = some () →
    (∃ t, nars hash = some t) ∧ ∃ data, ext.blake3 data = f ∧ FileStored ext st.db data
  listed : ∀ f i v, st.db.fileChunks.get? (f, i) = some v → st.db.refersFile f = true

/-- Each path has recorded the files of its tree and no others. -/
def Exact (ext : Ext δ) (db : Db δ) (nars : String → Option NarNode) : Prop :=
  ∀ hash f, db.pathFiles.get? (hash, f) = some () → ∃ t, nars hash = some t ∧ f ∈ t.files.map ext.blake3

/-- The new NAR of a path has every file that is recorded for the path. -/
def KeepsFiles (ext : Ext δ) (s : Served δ) : StoreOp → Prop
  | .putNar _ filePath data => ∀ t, parseNar data = .ok t → ∀ f,
    s.store.db.pathFiles.get? (hashOfFilePath filePath, f) = some () → f ∈ t.files.map ext.blake3
  | _ => True

theorem gcInv_init : GcInv ext Store.empty fun _ => none := by
  refine ⟨rfl, cacheCoherent_empty, ⟨nofun, nofun⟩, ⟨nofun, nofun⟩, nofun, nofun, nofun, nofun, nofun, nofun⟩

theorem exact_init : Exact ext (Db.empty : Db δ) fun _ => none := nofun

/-! ## Uploads keep it -/

theorem get?_insertOrIgnore_of_some {κ ρ : Type} [DecidableEq κ] {t : Table κ ρ} {k k' : κ} {v w : ρ}
    (h : t.get? k' = some w) : (t.insertOrIgnore k v).get? k' = some w := by
  rw [Table.get?_insertOrIgnore]
  by_cases hk : k' = k
  · subst hk; rw [if_pos rfl, h]; rfl
  · rw [if_neg hk, h]

theorem HasDirectories.ingested (level : Int) {st : Store δ} {t' : NarNode} (h : HasDirectories ext st.db t') (t : NarNode) :
    HasDirectories ext (ingested ext level st t).db t' := by
  refine ingested_keeps (P := fun st => HasDirectories ext st.db t') t (fun st stmt _ hst entries hentries => ?_) h
  cases stmt with
  | chunk x => exact hst entries hentries
  | fileChunk file index digest size => exact hst entries hentries
  | directory dir => exact get?_insertOrIgnore_of_some (hst entries hentries)

theorem FileStored.ingested (level : Int) {st : Store δ} {data : Bytes} (h : FileStored ext st.db data) (t : NarNode) :
    FileStored ext (ingested ext level st t).db data :=
  fun stmt hstmt => ingested_keeps_done level t (h stmt hstmt)

/-- A chunk list that an upload adds is that of one of its files. -/
theorem ingested_fileChunks {st : Store δ} (t : NarNode) {f : δ} {i : Nat} {v : δ × Nat}
    (h : (ingested ext level st t).db.fileChunks.get? (f, i) = some v) :
    st.db.fileChunks.get? (f, i) = some v ∨ f ∈ t.files.map ext.blake3 := by
  refine ingested_keeps (P := fun st' => ∀ v, st'.db.fileChunks.get? (f, i) = some v →
    st.db.fileChunks.get? (f, i) = some v ∨ f ∈ t.files.map ext.blake3) t (fun st' stmt hstmt hst v hget => ?_)
    (fun _ => .inl) v h
  cases stmt with
  | chunk x => exact hst v hget
  | directory dir => exact hst v hget
  | fileChunk file index digest size =>
    simp only [Stmt.apply, Table.get?_insertOrIgnore] at hget
    by_cases hk : (f, i) = (file, index)
    · obtain ⟨node, hnode, hfile⟩ := List.mem_flatMap.mp hstmt
      cases hk
      cases node with
      | symlink target => cases hfile
      | directory entries => simp [nodeScript] at hfile
      | regular executable data =>
        rcases List.mem_append.mp hfile with hchunk | hfile
        · simp at hchunk
        obtain ⟨_, _, _, heq⟩ := mem_fileChunkStmts.mp hfile
        cases heq
        exact .inr (List.mem_map.mpr ⟨data, List.mem_filterMap.mpr ⟨_, hnode, rfl⟩, rfl⟩)
    · rw [if_neg hk] at hget; exact hst v hget

theorem mem_treeFileDigests {f : δ} : f ∈ treeFileDigests ext t ↔ f ∈ t.files.map ext.blake3 := by
  rw [treeFileDigests, mem_insertAll]; simp

variable {st : Store δ} {nars : String → Option NarNode}

theorem gcInv_putNar (laws : ext.Laws) (h : GcInv ext st nars) (now : Nat) (hash : String) (data : Bytes) (t : NarNode) :
    GcInv ext (uploaded ext level now hash data t st) (Function.update nars hash (some t)) := by
  obtain ⟨hpathFiles, hcasPaths, hcache, hfaults⟩ := ingested_frame ext level st t
  have hrows := h.rows.ingested laws level t
  have hdone : ∀ stmt ∈ script ext t.postorder, stmt.Done ext (ingested ext level st t).db := ingested_done level st t
  have hrecords : ∀ hash' f, (uploaded ext level now hash data t st).db.pathFiles.get? (hash', f) = some () ↔
      hash' = hash ∧ f ∈ t.files.map ext.blake3 ∨ st.db.pathFiles.get? (hash', f) = some () := by
    intro hash' f
    rw [← mem_treeFileDigests, ← hpathFiles]
    exact get?_withPathFiles hash hash' f (treeFileDigests ext t) _
  have hpaths : ∀ hash', hash' ≠ hash →
      (uploaded ext level now hash data t st).db.casPaths.get? hash' = st.db.casPaths.get? hash' := by
    intro hash' hne
    rw [← hcasPaths]
    exact (Table.get?_insertOrReplace ..).trans (if_neg hne)
  obtain ⟨row, hrow, hroot⟩ : HasRoot ext (uploaded ext level now hash data t st).db hash t := uploaded_hasRoot now hash data t
  have hchunks := h.chunks.ingested laws level t
  refine ⟨hfaults.trans h.quiet, hcache ▸ h.cache, ⟨hrows.fileChunks, hrows.directories⟩, ⟨hchunks.readable, hchunks.rows⟩, ?_, ?_, ?_, ?_, ?_, ?_⟩
  · intro hash' row' hrow'
    by_cases hne : hash' = hash
    · subst hne
      cases hrow.symm.trans hrow'
      rw [Function.update_self]; exact hroot
    · rw [hpaths hash' hne] at hrow'
      rw [Function.update_of_ne hne]
      exact h.root hash' row' hrow'
  · intro hash' t' ht'
    by_cases hne : hash' = hash
    · subst hne; exact ⟨row, hrow⟩
    · rw [Function.update_of_ne hne] at ht'
      rw [hpaths hash' hne]; exact h.path hash' t' ht'
  · intro hash' t' ht'
    by_cases hne : hash' = hash
    · subst hne
      rw [Function.update_self] at ht'; cases ht'
      exact hasDirectories_of_done laws hrows hdone
    · rw [Function.update_of_ne hne] at ht'
      exact (h.directories hash' t' ht').ingested level t
  · intro hash' t' ht' data' hdata'
    by_cases hne : hash' = hash
    · subst hne
      rw [Function.update_self] at ht'; cases ht'
      exact (hrecords ..).mpr (.inl ⟨rfl, List.mem_map_of_mem hdata'⟩)
    · rw [Function.update_of_ne hne] at ht'
      exact (hrecords ..).mpr (.inr (h.files hash' t' ht' data' hdata'))
  · intro hash' f hf
    rcases (hrecords ..).mp hf with ⟨rfl, hmem⟩ | hold
    · obtain ⟨data', hdata', rfl⟩ := List.mem_map.mp hmem
      exact ⟨⟨t, Function.update_self ..⟩, data', rfl, fileStored_of_done hdone hdata'⟩
    · obtain ⟨⟨t', ht'⟩, data', hdata', hstored⟩ := h.recorded hash' f hold
      refine ⟨?_, data', hdata', hstored.ingested level t⟩
      by_cases hne : hash' = hash
      · subst hne; exact ⟨t, Function.update_self ..⟩
      · exact ⟨t', by rw [Function.update_of_ne hne, ht']⟩
  · intro f i v hget
    refine refersFile_iff.mpr ?_
    rcases ingested_fileChunks t hget with hold | hmem
    · obtain ⟨hash', hf⟩ := refersFile_iff.mp (h.listed f i v hold)
      exact ⟨hash', (hrecords ..).mpr (.inr hf)⟩
    · exact ⟨hash, (hrecords ..).mpr (.inl ⟨rfl, hmem⟩)⟩

theorem exact_putNar (h : Exact ext st.db nars) (hash : String) (data : Bytes) (now : Nat) (t : NarNode)
    (hkeeps : ∀ f, st.db.pathFiles.get? (hash, f) = some () → f ∈ t.files.map ext.blake3) :
    Exact ext (uploaded ext level now hash data t st).db (Function.update nars hash (some t)) := by
  obtain ⟨hpathFiles, -⟩ := ingested_frame ext level st t
  intro hash' f hf
  have hf : hash' = hash ∧ f ∈ treeFileDigests ext t ∨ (ingested ext level st t).db.pathFiles.get? (hash', f) = some () :=
    (get?_withPathFiles hash hash' f (treeFileDigests ext t) _).mp hf
  rw [hpathFiles, mem_treeFileDigests] at hf
  by_cases hne : hash' = hash
  · subst hne
    exact ⟨t, Function.update_self .., hf.elim And.right (hkeeps f)⟩
  · rw [Function.update_of_ne hne]
    exact h hash' f (hf.resolve_left fun h => hne h.1)

/-- Replacing a row by one with the same root. -/
theorem gcInv_withRoot (laws : ext.Laws) (h : GcInv ext st nars) (now : Nat) {hash : String} (narinfo : NarInfo) {root : CaNode}
    (hroot : CurrentRoot ext st.db hash root) : GcInv ext { st with db := st.db.withRoot ext now hash narinfo root } nars := by
  have hcurrent : root = rootOf ext (nars hash) := by
    rcases hroot with ⟨hnone, rfl⟩ | ⟨row, hrow, hdecode⟩
    · cases hnars : nars hash with
      | none => rfl
      | some t =>
        obtain ⟨row, hrow⟩ := h.path hash t hnars
        rw [hnone] at hrow; cases hrow
    · rw [h.root hash row hrow, laws.decode_encodeNode] at hdecode
      exact (Option.some.inj hdecode).symm
  refine ⟨h.quiet, h.cache, ⟨h.rows.fileChunks, h.rows.directories⟩, ⟨h.chunks.readable, h.chunks.rows⟩, ?_, ?_,
    h.directories, h.files, h.recorded, h.listed⟩
  · intro hash' row hrow
    by_cases hne : hash' = hash
    · subst hne
      cases (get?_withRoot ..).symm.trans hrow
      exact congrArg ext.encodeNode hcurrent
    · exact h.root hash' row (((Table.get?_insertOrReplace ..).trans (if_neg hne)).symm.trans hrow)
  · intro hash' t ht
    by_cases hne : hash' = hash
    · subst hne; exact ⟨_, get?_withRoot ..⟩
    · obtain ⟨row, hrow⟩ := h.path hash' t ht
      exact ⟨row, ((Table.get?_insertOrReplace ..).trans (if_neg hne)).trans hrow⟩

/-! ## Evictions keep it -/

theorem not_deadFile {hash hash' : String} {f : δ} (hne : hash' ≠ hash) (h : db.pathFiles.get? (hash', f) = some ()) :
    db.deadFile hash f = false := by
  have hrefers : (db.withoutPath hash).refersFile f = true := refersFile_iff.mpr ⟨hash', get?_withoutPath.mpr ⟨hne, h⟩⟩
  unfold Db.deadFile
  rw [hrefers, Bool.not_true, Bool.and_false]

theorem not_deadChunk {hash : String} {f c : δ} {i size : Nat} (hf : db.deadFile hash f = false)
    (h : db.fileChunks.get? (f, i) = some (c, size)) : db.deadChunk hash c = false := by
  have hrefers : (db.withoutFiles (db.deadFile hash)).refersChunk c = true :=
    refersChunk_iff.mpr ⟨f, i, size, by rw [get?_withoutFiles, hf]; exact h⟩
  unfold Db.deadChunk
  rw [hrefers, Bool.not_true, Bool.and_false]

/-- The chunks of a stored file are on its list. -/
theorem FileStored.listed {data x : Bytes} (hrows : ContentRows ext db) (h : FileStored ext db data) (hx : x ∈ ext.chunks data) :
    ∃ i size, db.fileChunks.get? (ext.blake3 data, i) = some (ext.blake3 x, size) := by
  have hmem : ext.blake3 x ∈ (chunkRefs ext data).map Prod.fst := by
    rw [chunkRefs_digests]; exact List.mem_map_of_mem hx
  obtain ⟨⟨c, size⟩, href, hc⟩ := List.mem_map.mp hmem
  obtain ⟨i, hi⟩ := List.mem_iff_getElem?.mp href
  obtain ⟨v, hv⟩ := h _ (List.mem_append_right _ (mem_fileChunkStmts.mpr ⟨i, _, hi, rfl⟩))
  have hrow := hrows.fileChunks data i v hv
  rw [hi] at hrow
  cases hrow
  exact ⟨i, size, by rw [hv]; exact congrArg some (Prod.ext hc rfl)⟩

theorem evicted_fileChunks (hash : String) (f : δ) (i : Nat) : (evicted hash st).db.fileChunks.get? (f, i) =
    if st.db.deadFile hash f then none else st.db.fileChunks.get? (f, i) := get?_withoutFiles ..

theorem evicted_chunks (hash : String) (c : δ) : (evicted hash st).db.chunks.get? c =
    if st.db.deadChunk hash c then none else st.db.chunks.get? c := get?_withoutChunks ..

theorem FileStored.evicted {hash : String} {data : Bytes} (hrows : ContentRows ext st.db) (h : FileStored ext st.db data)
    (halive : st.db.deadFile hash (ext.blake3 data) = false) : FileStored ext (evicted hash st).db data := by
  intro stmt hstmt
  rcases List.mem_append.mp hstmt with hchunk | hfile
  · obtain ⟨x, hx, rfl⟩ := List.mem_map.mp hchunk
    obtain ⟨i, size, hlisted⟩ := h.listed hrows hx
    obtain ⟨row, hrow⟩ := h _ hstmt
    exact ⟨row, by rw [evicted_chunks, not_deadChunk halive hlisted]; exact hrow⟩
  · obtain ⟨i, v, hv, rfl⟩ := mem_fileChunkStmts.mp hfile
    obtain ⟨w, hw⟩ := h _ hstmt
    exact ⟨w, by rw [evicted_fileChunks, halive]; exact hw⟩

theorem evicted_casPaths (hash hash' : String) : (evicted hash st).db.casPaths.get? hash' =
    if hash' = hash then none else st.db.casPaths.get? hash' := Table.get?_delete ..

theorem gcInv_evictPath (h : GcInv ext st nars) (hash : String) :
    GcInv ext (evicted hash st) (Function.update nars hash none) := by
  let st₁ : Store δ := { st with db := (st.db.withoutPath hash).withoutFiles (st.db.deadFile hash) }
  have hchunks₁ : ChunksSound ext st₁.db st₁.files := ⟨h.chunks.readable, h.chunks.rows⟩
  have hchunks : ChunksSound ext (evicted hash st).db (evicted hash st).files := hchunks₁.withoutChunks (st.db.deadChunk hash)
  refine ⟨h.quiet, h.cache, ⟨fun data i v hget => ?_, h.rows.directories⟩, hchunks, ?_, ?_, ?_, ?_, ?_, ?_⟩
  · rw [evicted_fileChunks] at hget
    exact h.rows.fileChunks data i v (Option.ite_none_left_eq_some.mp hget).2
  · intro hash' row hrow
    rw [evicted_casPaths] at hrow
    obtain ⟨hne, hrow⟩ := Option.ite_none_left_eq_some.mp hrow
    rw [Function.update_of_ne hne]; exact h.root hash' row hrow
  · intro hash' t ht
    by_cases hne : hash' = hash
    · subst hne; rw [Function.update_self] at ht; cases ht
    · rw [Function.update_of_ne hne] at ht
      rw [evicted_casPaths, if_neg hne]; exact h.path hash' t ht
  · intro hash' t ht
    by_cases hne : hash' = hash
    · subst hne; rw [Function.update_self] at ht; cases ht
    · rw [Function.update_of_ne hne] at ht
      exact h.directories hash' t ht
  · intro hash' t ht data hdata
    by_cases hne : hash' = hash
    · subst hne; rw [Function.update_self] at ht; cases ht
    · rw [Function.update_of_ne hne] at ht
      exact get?_withoutPath.mpr ⟨hne, h.files hash' t ht data hdata⟩
  · intro hash' f hf
    obtain ⟨hne, hf⟩ := get?_withoutPath.mp hf
    obtain ⟨⟨t, ht⟩, data, rfl, hstored⟩ := h.recorded hash' f hf
    exact ⟨⟨t, by rw [Function.update_of_ne hne, ht]⟩, data, rfl, hstored.evicted h.rows (not_deadFile hne hf)⟩
  · intro f i v hget
    rw [evicted_fileChunks] at hget
    obtain ⟨halive, hget⟩ := Option.ite_none_left_eq_some.mp hget
    obtain ⟨hash', hf⟩ := refersFile_iff.mp (h.listed f i v hget)
    by_cases hne : hash' = hash
    · -- the path had the file, and the file is not dead, so another path has it
      subst hne
      have hmem : f ∈ st.db.filesOfPath hash' := mem_filesOfPath.mpr hf
      have hrefers : (st.db.withoutPath hash').refersFile f = true := by simpa [Db.deadFile, hmem] using halive
      exact hrefers
    · exact refersFile_iff.mpr ⟨hash', get?_withoutPath.mpr ⟨hne, hf⟩⟩

theorem exact_evictPath (h : Exact ext st.db nars) (hash : String) :
    Exact ext (evicted hash st).db (Function.update nars hash none) := by
  intro hash' f hf
  obtain ⟨hne, hf⟩ := get?_withoutPath.mp hf
  rw [Function.update_of_ne hne]
  exact h hash' f hf

/-! ## Runs -/

/-- Where the invariant holds, every parsed NAR can be uploaded. -/
theorem serveStep_putNar (laws : ext.Laws) (level : Int) {s : Served δ} (h : GcInv ext s.store s.nars) (now : Nat)
    (filePath : String) {data : Bytes} {t : NarNode} (hparse : parseNar data = .ok t) :
    serveStep ext level s (.putNar now filePath data) ⟨uploaded ext level now (hashOfFilePath filePath) data t s.store,
      Function.update s.nars (hashOfFilePath filePath) (some t)⟩ := by
  unfold serveStep stepOf serveNext
  simp only [hparse, putNar_quiet laws level h.quiet h.rows now filePath hparse]
  rfl

theorem serveStep_gcInv (laws : ext.Laws) {s s' : Served δ} {op : StoreOp} (h : GcInv ext s.store s.nars)
    (hstep : serveStep ext level s op s') : GcInv ext s'.store s'.nars ∧
      (Exact ext s.store.db s.nars → KeepsFiles ext s op → Exact ext s'.store.db s'.nars) := by
  cases op with
  | putNar now filePath data =>
    obtain ⟨t, htree, hreturn⟩ := Option.bind_eq_some_iff.mp hstep
    obtain ⟨b, st, hput, rfl⟩ := onReturn_eq_some.mp hreturn
    have hparse : parseNar data = .ok t := ok_of_toOption htree
    obtain ⟨-, rfl⟩ : true = b ∧ uploaded ext level now (hashOfFilePath filePath) data t s.store = st := by
      rw [putNar_quiet laws level h.quiet h.rows now filePath hparse] at hput
      exact EStateM.Result.ok.inj hput
    dsimp only
    exact ⟨gcInv_putNar laws h now (hashOfFilePath filePath) data t, fun hexact hkeeps => exact_putNar hexact (hashOfFilePath filePath) data now t (hkeeps t hparse)⟩
  | putNarinfo now hash content =>
    obtain ⟨_, st, hput, rfl⟩ := onReturn_eq_some.mp hstep
    cases hparse : NarInfo.parse content with
    | none => unfold putNarinfo at hput; rw [hparse] at hput; cases hput
    | some narinfo =>
      obtain ⟨root, hroot⟩ : ∃ root, CurrentRoot ext s.store.db hash root := by
        cases hrow : s.store.db.casPaths.get? hash with
        | none => exact ⟨placeholderRoot, .inl ⟨hrow, rfl⟩⟩
        | some row => exact ⟨_, .inr ⟨row, hrow, by rw [h.root hash row hrow]; exact laws.decode_encodeNode _⟩⟩
      cases (putNarinfo_quiet h.quiet hroot now hparse).symm.trans hput
      exact ⟨gcInv_withRoot laws h now narinfo hroot, fun hexact _ => hexact⟩
  | evictPath hash =>
    obtain ⟨_, st, hevict, rfl⟩ := onReturn_eq_some.mp hstep
    obtain ⟨bytesFreed, hrun, -⟩ := evictPath_quiet h.quiet hash
    cases hrun.symm.trans hevict
    exact ⟨gcInv_evictPath h hash, fun hexact _ => exact_evictPath hexact hash⟩
  | storeChunkExternal data => cases hstep
  | restart =>
    cases hstep
    exact ⟨⟨h.quiet, cacheCoherent_empty, ⟨h.rows.fileChunks, h.rows.directories⟩, ⟨h.chunks.readable, h.chunks.rows⟩, h.root,
      h.path, h.directories, h.files, h.recorded, h.listed⟩, fun hexact _ => hexact⟩

/-- A path reaches the files of the tree that was uploaded under it. -/
theorem pathReaches_iff (laws : ext.Laws) (h : GcInv ext st nars) {hash : String} {f : δ} :
    PathReaches ext st.db hash f ↔ ∃ t, nars hash = some t ∧ f ∈ t.files.map ext.blake3 := by
  constructor
  · rintro ⟨row, root, hrow, hdecode, hreach⟩
    rw [h.root hash row hrow, laws.decode_encodeNode] at hdecode
    cases hdecode
    cases hnars : nars hash with
    | none => rw [hnars] at hreach; cases hreach
    | some t =>
      rw [hnars] at hreach
      exact ⟨t, rfl, (reaches_caNode laws t (h.directories hash t hnars)).mp hreach⟩
  · rintro ⟨t, hnars, hf⟩
    obtain ⟨row, hrow⟩ := h.path hash t hnars
    refine ⟨row, caNode ext t, hrow, ?_, (reaches_caNode laws t (h.directories hash t hnars)).mpr hf⟩
    rw [h.root hash row hrow, laws.decode_encodeNode, hnars]; rfl

/-- What a path reaches is recorded for it. -/
theorem PathReaches.recorded (laws : ext.Laws) (h : GcInv ext st nars) {hash : String} {f : δ}
    (hreach : PathReaches ext st.db hash f) : st.db.pathFiles.get? (hash, f) = some () := by
  obtain ⟨t, hnars, hf⟩ := (pathReaches_iff laws h).mp hreach
  obtain ⟨data, hdata, rfl⟩ := List.mem_map.mp hf
  exact h.files hash t hnars data hdata

theorem evictsOnly (laws : ext.Laws) (h : GcInv ext st nars) (hash : String) : EvictsOnly ext st (evicted hash st) hash where
  path := by rw [evicted_casPaths, if_pos rfl]
  fileChunks hash' hne f hreach i := by rw [evicted_fileChunks, not_deadFile hne (hreach.recorded laws h)]; rfl
  chunks hash' hne c hreach := by
    obtain ⟨f, i, size, hreach, hlisted⟩ := hreach
    have halive := not_deadChunk (not_deadFile hne (hreach.recorded laws h)) hlisted
    refine ⟨by rw [evicted_chunks, halive]; rfl, ?_⟩
    simp only [evicted, withoutChunks, halive]
    rfl

theorem evictsAll (laws : ext.Laws) (h : GcInv ext st nars) (hexact : Exact ext st.db nars) (hash : String) :
    EvictsAll ext st (evicted hash st) hash := by
  have hdead : ∀ f, PathReaches ext st.db hash f → (∀ hash' ≠ hash, ¬ PathReaches ext st.db hash' f) →
      st.db.deadFile hash f = true := by
    intro f hreach hothers
    have hmem : f ∈ st.db.filesOfPath hash := mem_filesOfPath.mpr (hreach.recorded laws h)
    have hrefers : (st.db.withoutPath hash).refersFile f = false := by
      refine Bool.eq_false_iff.mpr fun hrefers => ?_
      obtain ⟨hash', hf⟩ := refersFile_iff.mp hrefers
      obtain ⟨hne, hf⟩ := get?_withoutPath.mp hf
      exact hothers hash' hne ((pathReaches_iff laws h).mpr (hexact hash' f hf))
    simp [Db.deadFile, hmem, hrefers]
  refine ⟨fun f hreach hothers i => by rw [evicted_fileChunks, hdead f hreach hothers]; rfl, fun c hreach hothers => ?_⟩
  obtain ⟨f, i, size, hreach, hlisted⟩ := hreach
  have hf := hdead f hreach fun hash' hne hreach' => hothers hash' hne ⟨f, i, size, hreach', hlisted⟩
  have hchunk : st.db.deadChunk hash c = true := by
    have hmem : (st.db.fileChunks.rows.any fun r => st.db.deadFile hash r.1.1 && r.2.1 = c) = true :=
      List.any_eq_true.mpr ⟨_, Table.get?_eq_some.mp hlisted, by simp [hf]⟩
    have hrefers : (st.db.withoutFiles (st.db.deadFile hash)).refersChunk c = false := by
      refine Bool.eq_false_iff.mpr fun hrefers => ?_
      obtain ⟨f', i', size', hkept⟩ := refersChunk_iff.mp hrefers
      rw [get?_withoutFiles] at hkept
      obtain ⟨halive, hget⟩ := Option.ite_none_left_eq_some.mp hkept
      -- a list that stays belongs to a file that some path has, and that path reaches the chunk
      obtain ⟨hash', hf'⟩ := refersFile_iff.mp (h.listed f' i' _ hget)
      have hreach' := (pathReaches_iff laws h).mpr (hexact hash' f' hf')
      by_cases hne : hash' = hash
      · subst hne
        refine halive (hdead f' hreach' fun hash'' hne'' hreach'' => ?_)
        exact hothers hash'' hne'' ⟨f', i', size', hreach'', hget⟩
      · exact hothers hash' hne ⟨f', i', size', hreach', hget⟩
    unfold Db.deadChunk
    rw [hmem, hrefers]; rfl
  refine ⟨by rw [evicted_chunks, hchunk]; rfl, ?_⟩
  simp only [evicted, withoutChunks, hchunk]
  rfl

/-- Every path with a NAR is served. -/
theorem gcInv_downloads (laws : ext.Laws) (h : GcInv ext st nars) {hash : String} {t : NarNode} (hnars : nars hash = some t) :
    Downloads ext st hash (writeNar t.sorted) := by
  have hstored : ∀ data ∈ t.files, FileStored ext st.db data := by
    intro data hdata
    obtain ⟨-, data', heq, hstored⟩ := h.recorded hash _ (h.files hash t hnars data hdata)
    rwa [laws.blake3_injective heq] at hstored
  have hholds : Holds ext st.db st.files id t := by
    refine ⟨h.directories hash t hnars, fun data hdata i => ?_, fun data hdata x hx => ?_⟩
    · exact fileChunks_of_stored h.rows (hstored data hdata) i
    · obtain ⟨row, hrow⟩ := hstored data hdata _ (List.mem_append_left _ (List.mem_map_of_mem hx))
      obtain ⟨y, hread, hy⟩ := h.chunks.readable _ row hrow
      rw [hread, laws.blake3_injective hy]; rfl
  obtain ⟨row, hrow⟩ := h.path hash t hnars
  have hroot : HasRoot ext st.db hash t := ⟨row, hrow, by rw [h.root hash row hrow, hnars]; rfl⟩
  have hdown := hholds.downloads laws hroot ⟨rfl, rfl, h.quiet, h.cache⟩
  have hid : ∀ x ∈ t.sorted.files.flatMap ext.chunks, id x = x := fun _ _ => rfl
  rwa [writeNarWith_of_reads laws hid] at hdown

theorem run_gcInv (laws : ext.Laws) {ops : List StoreOp} {s : Served δ} (hrun : Run (serveStep ext level) .init ops s) :
    GcInv ext s.store s.nars :=
  hrun.invariant (I := fun s => GcInv ext s.store s.nars) (fun _ _ _ h hstep => (serveStep_gcInv laws h hstep).1) gcInv_init

theorem run_exact (laws : ext.Laws) {ops : List StoreOp} {s : Served δ}
    (hrun : Run (guarded (serveStep ext level) (KeepsFiles ext)) .init ops s) : Exact ext s.store.db s.nars := by
  refine (hrun.invariant (I := fun s => GcInv ext s.store s.nars ∧ Exact ext s.store.db s.nars) (fun s op s' h hstep => ?_)
    ⟨gcInv_init, exact_init⟩).2
  obtain ⟨hinv, hexact⟩ := serveStep_gcInv laws h.1 hstep.2
  exact ⟨hinv, hexact h.2 hstep.1⟩

/-- Whatever was uploaded and evicted before, an eviction takes nothing that
another path needs and counts what it frees. It takes everything that only its
path needed if no upload replaced a tree by one that lacks a recorded file. -/
theorem evictPath_after_run (laws : ext.Laws) {ops : List StoreOp} {s : Served δ} (hrun : Run (serveStep ext level) .init ops s)
    (hash : String) :
    (∃ bytesFreed st', evictPath hash s.store = .ok bytesFreed st' ∧ EvictsOnly ext s.store st' hash ∧
      bytesFreed + st'.db.chunks.total ChunkRow.size = s.store.db.chunks.total ChunkRow.size ∧
      (Run (guarded (serveStep ext level) (KeepsFiles ext)) .init ops s → EvictsAll ext s.store st' hash)) ∧
    ∀ hash' t, s.nars hash' = some t → Downloads ext s.store hash' (writeNar t.sorted) := by
  have hinv := run_gcInv laws hrun
  obtain ⟨bytesFreed, hevict, hbytes⟩ := evictPath_quiet hinv.quiet hash
  refine ⟨⟨bytesFreed, _, hevict, evictsOnly laws hinv hash, hbytes, fun hguarded => ?_⟩,
    fun hash' t hnars => gcInv_downloads laws hinv hnars⟩
  exact evictsAll laws hinv (run_exact laws hguarded) hash

/-! ## A shared file -/

def oneUpload : Served Bytes :=
  ⟨uploaded sampleExt 3 0 "a" (writeNar sampleFile) sampleFile Store.empty, Function.update (fun _ => none) "a" (some sampleFile)⟩

def twoUploads : Served Bytes :=
  ⟨uploaded sampleExt 3 1 "b" (writeNar sampleFile) sampleFile oneUpload.store,
    Function.update oneUpload.nars "b" (some sampleFile)⟩

theorem oneUpload_step : serveStep sampleExt 3 .init (.putNar 0 "nar/a.nar" (writeNar sampleFile)) oneUpload := by
  have hstep := serveStep_putNar sampleExt_laws 3 (s := .init) gcInv_init 0 "nar/a.nar" sampleFile_parse
  have hpath : hashOfFilePath "nar/a.nar" = "a" := by decide
  rw [hpath] at hstep
  exact hstep

theorem oneUpload_inv : GcInv sampleExt oneUpload.store oneUpload.nars :=
  (serveStep_gcInv sampleExt_laws gcInv_init oneUpload_step).1

theorem twoUploads_step : serveStep sampleExt 3 oneUpload (.putNar 1 "nar/b.nar" (writeNar sampleFile)) twoUploads := by
  have hstep := serveStep_putNar sampleExt_laws 3 oneUpload_inv 1 "nar/b.nar" sampleFile_parse
  have hpath : hashOfFilePath "nar/b.nar" = "b" := by decide
  rw [hpath] at hstep
  exact hstep

theorem twoUploads_inv : GcInv sampleExt twoUploads.store twoUploads.nars :=
  (serveStep_gcInv sampleExt_laws oneUpload_inv twoUploads_step).1

/-- The first of two paths with one file is evicted. -/
theorem evictPath_of_twoUploads : ∃ bytesFreed st', evictPath "a" twoUploads.store = .ok bytesFreed st' ∧
    EvictsAll sampleExt twoUploads.store st' "a" ∧ Downloads sampleExt twoUploads.store "b" (writeNar sampleFile.sorted) := by
  have hfirst : KeepsFiles sampleExt .init (.putNar 0 "nar/a.nar" (writeNar sampleFile)) := fun _ _ _ hf => nomatch hf
  have hsecond : KeepsFiles sampleExt oneUpload (.putNar 1 "nar/b.nar" (writeNar sampleFile)) := by
    intro t _ f hf
    have hpath : hashOfFilePath "nar/b.nar" = "b" := by decide
    rw [hpath] at hf
    obtain ⟨⟨t, ht⟩, -⟩ := oneUpload_inv.recorded "b" f hf
    cases ht
  have hrun : Run (guarded (serveStep sampleExt 3) (KeepsFiles sampleExt)) .init
      [.putNar 0 "nar/a.nar" (writeNar sampleFile), .putNar 1 "nar/b.nar" (writeNar sampleFile)] twoUploads :=
    .cons ⟨hfirst, oneUpload_step⟩ (.cons ⟨hsecond, twoUploads_step⟩ (.nil _))
  obtain ⟨⟨bytesFreed, st', hevict, -, -, hall⟩, hserves⟩ := evictPath_after_run sampleExt_laws hrun.unguarded "a"
  exact ⟨bytesFreed, st', hevict, hall hrun, hserves "b" sampleFile rfl⟩

/-- A link is uploaded in place of the first file. -/
def replacedFile : Served Bytes :=
  ⟨uploaded sampleExt 3 2 "a" (writeNar sampleLink) sampleLink twoUploads.store,
    Function.update twoUploads.nars "a" (some sampleLink)⟩

theorem replacedFile_step : serveStep sampleExt 3 twoUploads (.putNar 2 "nar/a.nar" (writeNar sampleLink)) replacedFile := by
  have hstep := serveStep_putNar sampleExt_laws 3 twoUploads_inv 2 "nar/a.nar" sampleLink_parse
  have hpath : hashOfFilePath "nar/a.nar" = "a" := by decide
  rw [hpath] at hstep
  exact hstep

/-- The file stays recorded for the path that was replaced, so evicting the
other path leaves its chunk list. -/
theorem replaced_file_not_evicted :
    ¬ ∀ (ops : List StoreOp) (s : Served Bytes), Run (serveStep sampleExt 3) .init ops s → ∀ hash bytesFreed st',
      evictPath hash s.store = .ok bytesFreed st' → EvictsAll sampleExt s.store st' hash := by
  intro h
  have hinv : GcInv sampleExt replacedFile.store replacedFile.nars :=
    (serveStep_gcInv sampleExt_laws twoUploads_inv replacedFile_step).1
  have hrun := Run.cons oneUpload_step (.cons twoUploads_step (.cons replacedFile_step (.nil _)))
  obtain ⟨bytesFreed, hevict, -⟩ := evictPath_quiet hinv.quiet "b"
  have hall := h _ _ hrun "b" bytesFreed _ hevict
  have hmem : ([1] : Bytes) ∈ sampleFile.files := List.mem_singleton_self _
  have hb : replacedFile.nars "b" = some sampleFile := rfl
  have hreach := (pathReaches_iff sampleExt_laws hinv).mpr ⟨sampleFile, hb, List.mem_map_of_mem hmem⟩
  have hothers : ∀ hash' ≠ "b", ¬ PathReaches sampleExt replacedFile.store.db hash' [1] := by
    intro hash' hne hreach'
    obtain ⟨t, ht, hf⟩ := (pathReaches_iff sampleExt_laws hinv).mp hreach'
    by_cases ha : hash' = "a"
    · subst ha; cases ht; cases hf
    · have hnone : replacedFile.nars hash' = none := by
        simp only [replacedFile, twoUploads, oneUpload, Function.update_of_ne ha, Function.update_of_ne hne]
      rw [hnone] at ht; cases ht
  have hgone := hall.fileChunks [1] hreach hothers 0
  have hold := twoUploads_inv.files "a" sampleFile rfl [1] hmem
  have hkept : replacedFile.store.db.pathFiles.get? ("a", [1]) = some () :=
    (get?_withPathFiles "a" "a" [1] (treeFileDigests sampleExt sampleLink) _).mpr (.inr hold)
  rw [evicted_fileChunks, not_deadFile (by decide) hkept] at hgone
  obtain ⟨-, data, heq, hstored⟩ := hinv.recorded "a" [1] hkept
  have heq : data = [1] := heq
  subst heq
  have hlist : replacedFile.store.db.fileChunks.get? ([1], 0) = some ([1], 1) := fileChunks_of_stored hinv.rows hstored 0
  cases hlist.symm.trans hgone

end Ekapkgs
