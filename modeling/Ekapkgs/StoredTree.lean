import Ekapkgs.CastoreQuiet
import Ekapkgs.NarStreamSound

/-!
# Serving a stored tree

`Holds` says what the store must have of a tree for the streaming writer to get
through it: the directories, the chunk lists, and chunks that read as something.
-/

namespace Ekapkgs
open Keyed Fallible

variable {δ α : Type} [DecidableEq δ] (ext : Ext δ)

def HasDirectories (db : Db δ) (t : NarNode) : Prop :=
  ∀ entries, NarNode.directory entries ∈ t.postorder →
    db.directories.get? (dirDigest ext entries) = some (ext.encodeDirectory ⟨caEntries ext entries⟩)

structure Holds (db : Db δ) (files : δ → Option Bytes) (content : Bytes → Bytes) (t : NarNode) : Prop where
  directories : HasDirectories ext db t
  fileChunks : ∀ data ∈ t.files, ∀ i, db.fileChunks.get? (ext.blake3 data, i) = (chunkRefs ext data)[i]?
  chunks : ∀ data ∈ t.files, ∀ x ∈ ext.chunks data, readStored ext db files (ext.blake3 x) = .ok (some (content x))

/-- A cached directory is what its digest says. -/
def CacheCoherent (c : DirCache δ) : Prop :=
  ∀ d dir, c.map.get? d = some dir → ∃ bytes, ext.blake3 bytes = d ∧ ext.decodeDirectory bytes = some dir

/-- A store with these tables and files, in which nothing fails. -/
structure Serving (db : Db δ) (files : δ → Option Bytes) (st : Store δ) : Prop where
  db : st.db = db
  files : st.files = files
  quiet : st.faults = []
  cache : CacheCoherent ext st.dirCache

/-- The chunks of a file as the store reads them. -/
def fileContent (content : Bytes → Bytes) (data : Bytes) : Bytes := ((ext.chunks data).map content).flatten

variable {ext} {db : Db δ} {files : δ → Option Bytes} {content : Bytes → Bytes} {t : NarNode}

omit [DecidableEq δ] in
theorem fileContent_id (laws : ext.Laws) (data : Bytes) : fileContent ext id data = data := by
  rw [fileContent, List.map_id, laws.chunks_flatten]

/-! ## The directory cache -/

theorem cacheCoherent_empty : CacheCoherent ext DirCache.empty := fun _ _ h => nomatch h

theorem CacheCoherent.insert {c : DirCache δ} (h : CacheCoherent ext c) {digest : δ} {dir : CaDirectory} {bytes : Bytes}
    (hbytes : ext.blake3 bytes = digest) (hdir : ext.decodeDirectory bytes = some dir) :
    CacheCoherent ext (c.insert digest dir) := by
  intro d dir' hget
  unfold DirCache.insert at hget
  simp only [Table.get?_insertOrReplace] at hget
  by_cases hd : d = digest
  · rw [if_pos hd] at hget
    cases hget; exact ⟨bytes, hbytes.trans hd.symm, hdir⟩
  rw [if_neg hd] at hget
  -- making room only takes entries out
  refine h d dir' ?_
  split at hget
  · exact hget
  split at hget
  · split at hget
    · rw [Table.get?_delete] at hget
      by_cases hev : d = ‹δ›
      · rw [if_pos hev] at hget; cases hget
      · rwa [if_neg hev] at hget
    · exact hget
  · exact hget

theorem CacheCoherent.get {c : DirCache δ} (h : CacheCoherent ext c) (digest : δ) :
    CacheCoherent ext (c.get digest).2 := by
  unfold DirCache.get
  cases c.map.get? digest <;> exact h

/-! ## Reading -/

theorem loadDirectory_of_get (laws : ext.Laws) {dir : CaDirectory} {d : δ} (hd : ext.blake3 (ext.encodeDirectory dir) = d)
    (hrow : db.directories.get? d = some (ext.encodeDirectory dir)) {st : Store δ} (hst : Serving ext db files st) :
    ∃ st', loadDirectory ext d st = .ok dir st' ∧ Serving ext db files st' := by
  unfold loadDirectory
  rw [bind_of_ok (show (get : CasM δ (Store δ)) st = .ok st st from rfl)]
  cases hget : st.dirCache.map.get? d with
  | some cached =>
    obtain ⟨bytes, hbytes, hdecode⟩ := hst.cache d cached hget
    obtain rfl := laws.blake3_injective (hbytes.trans hd.symm)
    rw [laws.decode_encodeDirectory] at hdecode
    cases hdecode
    have hcache := hst.cache.get d
    simp only [DirCache.get, hget] at hcache ⊢
    exact ⟨_, rfl, ⟨hst.db, hst.files, hst.quiet, hcache⟩⟩
  | none =>
    simp only [DirCache.get, hget]
    rw [bind_of_ok (query_quiet hst.quiet), hst.db, hrow]
    simp only [hd, ne_eq, not_true_eq_false, if_false, laws.decode_encodeDirectory]
    exact ⟨_, rfl, ⟨hst.db, hst.files, hst.quiet, hst.cache.insert hd (laws.decode_encodeDirectory dir)⟩⟩

theorem writeChunks_writes : ∀ xs : List Bytes,
    (∀ x ∈ xs, readStored ext db files (ext.blake3 x) = .ok (some (content x))) →
    Writes (Serving ext db files) (writeChunks ext (xs.map ext.blake3)) ((xs.map content).flatten)
  | [], _ => .pure
  | x :: xs, h => by
    have hread : ∀ st, Serving ext db files st → ∃ st',
        getChunkByDigest ext (ext.blake3 x) st = .ok (some (content x)) st' ∧ Serving ext db files st' := by
      intro st hst
      rw [getChunkByDigest_quiet ext hst.quiet, hst.db, hst.files, h x (List.mem_cons_self ..)]
      exact ⟨st, rfl, hst⟩
    exact .bind_reading hread (.bind (.emit _) (writeChunks_writes xs fun y hy => h y (List.mem_cons_of_mem _ hy)))

omit [DecidableEq δ] in
theorem chunkRefs_digests (data : Bytes) : (chunkRefs ext data).map Prod.fst = (ext.chunks data).map ext.blake3 := by
  rw [chunkRefs, Ext.chunks, List.map_map, List.map_map]; rfl

theorem Holds.writeFile (h : Holds ext db files content t) {data : Bytes} (hdata : data ∈ t.files) :
    Writes (Serving ext db files) (writeFileDataTo ext (ext.blake3 data)) (fileContent ext content data) := by
  have hread : ∀ st, Serving ext db files st → ∃ st',
      (query fun db => db.fileChunks.ordered (ext.blake3 data) : CasM δ _) st = .ok (chunkRefs ext data) st' ∧
        Serving ext db files st' := by
    intro st hst
    rw [query_quiet hst.quiet, hst.db, Table.ordered_eq (h.fileChunks data hdata)]
    exact ⟨st, rfl, hst⟩
  refine .bind_reading hread ?_
  rw [chunkRefs_digests]
  exact writeChunks_writes _ (h.chunks data hdata)

theorem Holds.serves (laws : ext.Laws) (h : Holds ext db files content t) :
    (castoreReader ext).Serves ext (Serving ext db files) (fileContent ext content) t where
  file _ hdata := h.writeFile hdata
  directory entries hentries _ hst := loadDirectory_of_get laws rfl (h.directories entries hentries) hst

/-- The directories of a stored tree are rows, so the walk has enough fuel. -/
theorem HasDirectories.depth_le (laws : ext.Laws) (h : HasDirectories ext db t) : t.depth ≤ db.depth := by
  have hsub : dirDigests ext t ⊆ (db.directories.rows.map Prod.fst).toFinset := by
    intro d hd
    obtain ⟨entries, hentries, rfl⟩ := mem_dirDigests.mp hd
    exact List.mem_toFinset.mpr (Table.mem_keys_iff.mpr ⟨_, h entries hentries⟩)
  have hcard := (Finset.card_le_card hsub).trans (List.toFinset_card_le _)
  rw [List.length_map] at hcard
  exact (depth_le_dirDigests laws t).trans (Nat.succ_le_succ hcard)

/-! ## Serving -/

/-- The path has this tree for its root. -/
def HasRoot (ext : Ext δ) (db : Db δ) (hash : String) (t : NarNode) : Prop :=
  ∃ row, db.casPaths.get? hash = some row ∧ row.rootNode = ext.encodeNode (caNode ext t)

omit [DecidableEq δ] in
theorem getRootNode_of_hasRoot (laws : ext.Laws) {hash : String} {st : Store δ} (hf : st.faults = [])
    (h : HasRoot ext st.db hash t) : getRootNode ext hash st = .ok (some (caNode ext t)) st := by
  obtain ⟨row, hrow, hroot⟩ := h
  unfold getRootNode
  rw [bind_of_ok (attempt_quiet hf), bind_of_ok (queryRow_quiet hf), hrow]
  simp only [Option.map_some, hroot, laws.decode_encodeNode]
  rfl

theorem Holds.writeNarTo (laws : ext.Laws) (h : Holds ext db files content t) {filePath : String}
    (hroot : HasRoot ext db (hashOfFilePath filePath) t) {st : Store δ} (hst : Serving ext db files st) :
    ∃ st', Ekapkgs.writeNarTo ext filePath (st, []) = .ok true (st', writeNarWith (fileContent ext content) t.sorted) ∧
      Serving ext db files st' := by
  have hread := getRootNode_of_hasRoot laws hst.quiet (hst.db ▸ hroot)
  have hreading : reading (getRootNode ext (hashOfFilePath filePath)) (st, []) = .ok (some (caNode ext t)) (st, []) := by
    unfold reading; rw [hread]
  unfold Ekapkgs.writeNarTo
  rw [bind_of_ok hreading]
  dsimp only
  rw [bind_of_ok (show (get : Stream δ (Store δ) _) (st, []) = .ok (st, []) (st, []) from rfl), hst.db]
  obtain ⟨st', hrun, hst'⟩ := writeNarStreaming_serves laws (h.directories.depth_le laws) (h.serves laws) st [] hst
  exact ⟨st', by rw [bind_of_ok hrun]; rfl, hst'⟩

/-- What every way to download a path gives. -/
structure Downloads (ext : Ext δ) (st : Store δ) (hash : String) (nar : Bytes) : Prop where
  writeNarTo : ∀ filePath, hashOfFilePath filePath = hash →
    ∃ st', Ekapkgs.writeNarTo ext filePath (st, []) = .ok true (st', nar)
  getNar : ∀ filePath, hashOfFilePath filePath = hash → ∃ st', Ekapkgs.getNar ext filePath st = .ok (some nar) st'
  streamNarChunks : ∀ filePath, hashOfFilePath filePath = hash → ∀ chunkSize (h : 0 < chunkSize), ∃ blocks st',
    Ekapkgs.streamNarChunks ext filePath h st = (blocks, .ok true st') ∧ blocks.flatten = nar

theorem downloads_of_writeNarTo {st : Store δ} {hash : String} {nar : Bytes}
    (h : ∀ filePath, hashOfFilePath filePath = hash → ∃ st', Ekapkgs.writeNarTo ext filePath (st, []) = .ok true (st', nar)) :
    Downloads ext st hash nar where
  writeNarTo := h
  getNar filePath hpath := by
    obtain ⟨st', hrun⟩ := h filePath hpath
    exact ⟨st', by unfold Ekapkgs.getNar; rw [hrun]⟩
  streamNarChunks filePath hpath chunkSize hsize := by
    obtain ⟨st', hrun⟩ := h filePath hpath
    refine ⟨_, st', by unfold Ekapkgs.streamNarChunks; rw [hrun], ?_⟩
    rw [Blocks.Buffer.flatten_flush, Blocks.Buffer.contents_write]; rfl

theorem Holds.downloads (laws : ext.Laws) (h : Holds ext db files content t) {hash : String}
    (hroot : HasRoot ext db hash t) {st : Store δ} (hst : Serving ext db files st) :
    Downloads ext st hash (writeNarWith (fileContent ext content) t.sorted) := by
  refine downloads_of_writeNarTo fun filePath hpath => ?_
  subst hpath
  obtain ⟨st', hrun, _⟩ := h.writeNarTo laws hroot hst
  exact ⟨st', hrun⟩

end Ekapkgs
