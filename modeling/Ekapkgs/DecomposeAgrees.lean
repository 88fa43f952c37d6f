import Ekapkgs.CastoreRoundTrip
import Ekapkgs.ChunkUpload
import Ekapkgs.ClientIndex

/-!
# The client decomposes as the server ingests

`decompose_node` of `decompose.rs` collects in memory what `ingest_node` of
`castore.rs` writes to the tables. Both visit the nodes of the tree children
first, so what one node adds is compared with the statements of that node.
-/

namespace Ekapkgs
open Keyed Fallible

variable {δ : Type} [DecidableEq δ] {ext : Ext δ} {level : Int}

/-! ## What a node adds -/

/-- The mapping of a file. -/
def fileMapping (ext : Ext δ) (data : Bytes) : FileChunkMapping :=
  ⟨some ⟨ext.toVec (ext.blake3 data)⟩, (chunkRefs ext data).map fun c => ⟨some ⟨ext.toVec c.1⟩, c.2⟩⟩

namespace DecomposeResult

def addNode (ext : Ext δ) (r : DecomposeResult δ) : NarNode → DecomposeResult δ
  | .regular executable data => (decomposeFile ext executable data r).2
  | .directory entries => { r with directories := r.directories ++ [(dirDigest ext entries, ⟨caEntries ext entries⟩)] }
  | .symlink _ => r

/-- The directory that was collected for a digest, encoded. -/
def directoryAt (ext : Ext δ) (r : DecomposeResult δ) (digest : δ) : Option Bytes :=
  (r.directories.find? fun c => c.1 = digest).map fun c => ext.encodeDirectory c.2

/-- The chunks that were collected for a file, in order. -/
def chunksAt (ext : Ext δ) (r : DecomposeResult δ) (file : δ) : List (δ × Nat) :=
  ((r.fileChunkMappings.find? fun mapping => fieldDigest ext mapping.fileDigest = some file).map (listedChunks ext)).getD []

end DecomposeResult

omit [DecidableEq δ] in
theorem chunks_lengths (laws : ext.Laws) (data : Bytes) : (ext.chunks data).map List.length = (ext.fastcdc data).map Prod.snd := by
  unfold Ext.chunks
  rw [List.map_map]
  exact List.map_congr_left fun c hc => laws.chunk_length data c hc

omit [DecidableEq δ] in
theorem chunkMetas_eq (laws : ext.Laws) (data : Bytes) : ((ext.chunks data).map fun c => ChunkMeta.mk (some ⟨ext.toVec (ext.blake3 c)⟩) c.length) =
    (chunkRefs ext data).map fun c => ⟨some ⟨ext.toVec c.1⟩, c.2⟩ := by
  unfold Ext.chunks chunkRefs
  rw [List.map_map, List.map_map]
  refine List.map_congr_left fun c hc => ?_
  simp only [Function.comp_apply, laws.chunk_length data c hc]

theorem decomposeFile_eq (laws : ext.Laws) (executable : Bool) (data : Bytes) (r : DecomposeResult δ) :
    decomposeFile ext executable data r = (fileNode ext executable data, r.addNode ext (.regular executable data)) := by
  refine Prod.ext ?_ rfl
  show (⟨some (.file ⟨some ⟨ext.toVec (ext.blake3 (ext.chunks data).flatten)⟩, ((ext.chunks data).map List.length).sum, executable⟩)⟩ : CaNode) = _
  rw [laws.chunks_flatten, chunks_lengths laws]
  rfl

/-- The client visits the nodes children first, as the server does. -/
theorem decomposeNode_eq (laws : ext.Laws) (t : NarNode) : ∀ r : DecomposeResult δ,
    decomposeNode ext t r = (caNode ext t, t.postorder.foldl (DecomposeResult.addNode ext) r) := by
  induction t using NarNode.tree_induction with
  | regular executable data =>
    intro r
    rw [decomposeNode, decomposeFile_eq laws]
    rfl
  | symlink target => exact fun r => rfl
  | directory entries ih =>
    intro r
    have hentries : ∀ (l : List (String × NarNode)), (∀ e ∈ l, e ∈ entries) → ∀ r : DecomposeResult δ,
        decomposeEntries ext l r = (caEntries ext l, (postorderEntries l).foldl (DecomposeResult.addNode ext) r) := by
      intro l
      induction l with
      | nil => exact fun _ r => rfl
      | cons e l ihl =>
        intro hl r
        rw [decomposeEntries, ih e (hl e (List.mem_cons_self ..))]
        dsimp only
        rw [ihl fun e he => hl e (List.mem_cons_of_mem _ he)]
        rw [postorderEntries, List.foldl_append]
        rfl
    rw [decomposeNode, hentries entries fun _ he => he]
    dsimp only
    rw [NarNode.postorder, List.foldl_append]
    rfl

/-! ## What is collected -/

namespace DecomposeResult
variable {r : DecomposeResult δ}

/-- A chunk stands under its own digest. -/
def Digested (ext : Ext δ) (r : DecomposeResult δ) : Prop := ∀ c ∈ r.chunks, ext.blake3 c.2 = c.1

theorem mem_addChunk (laws : ext.Laws) (h : r.Digested ext) {data : Bytes} {c : δ × Bytes} :
    c ∈ (r.addChunk ext data).chunks ↔ c ∈ r.chunks ∨ c = (ext.blake3 data, data) := by
  unfold addChunk
  split
  next hseen =>
    refine ⟨.inl, fun hc => hc.elim id ?_⟩
    rintro rfl
    obtain ⟨c, hc, hdigest⟩ := List.any_eq_true.mp hseen
    have hdigest : c.1 = ext.blake3 data := by simpa using hdigest
    have hdata : c.2 = data := laws.blake3_injective ((h c hc).trans hdigest)
    rwa [show (ext.blake3 data, data) = c from Prod.ext hdigest.symm hdata.symm]
  next => exact List.mem_append.trans (or_congr_right List.mem_singleton)

theorem Digested.addChunk (laws : ext.Laws) (h : r.Digested ext) (data : Bytes) : (r.addChunk ext data).Digested ext := by
  intro c hc
  rcases (mem_addChunk laws h).mp hc with hc | rfl
  · exact h c hc
  · rfl

theorem mem_foldl_addChunk (laws : ext.Laws) {c : δ × Bytes} : ∀ (xs : List Bytes) {r : DecomposeResult δ}, r.Digested ext →
    ((xs.foldl (fun r x => r.addChunk ext x) r).Digested ext ∧
      (c ∈ (xs.foldl (fun r x => r.addChunk ext x) r).chunks ↔ c ∈ r.chunks ∨ ∃ x ∈ xs, c = (ext.blake3 x, x)))
  | [], r, h => ⟨h, by simp⟩
  | x :: xs, r, h => by
    obtain ⟨hdigested, hmem⟩ := mem_foldl_addChunk laws xs (h.addChunk laws x)
    refine ⟨hdigested, hmem.trans ?_⟩
    rw [mem_addChunk laws h]
    simp only [List.mem_cons, exists_eq_or_imp, or_assoc]

theorem foldl_addChunk_frame (ext : Ext δ) (xs : List Bytes) (r : DecomposeResult δ) :
    (xs.foldl (fun r x => r.addChunk ext x) r).directories = r.directories ∧
      (xs.foldl (fun r x => r.addChunk ext x) r).fileChunkMappings = r.fileChunkMappings := by
  induction xs generalizing r with
  | nil => exact ⟨rfl, rfl⟩
  | cons x xs ih =>
    obtain ⟨hdirs, hmappings⟩ := ih (r.addChunk ext x)
    have hframe : (r.addChunk ext x).directories = r.directories ∧ (r.addChunk ext x).fileChunkMappings = r.fileChunkMappings := by
      unfold addChunk
      split
      · exact ⟨rfl, rfl⟩
      · exact ⟨rfl, rfl⟩
    exact ⟨hdirs.trans hframe.1, hmappings.trans hframe.2⟩

theorem addNode_regular (ext : Ext δ) (r : DecomposeResult δ) (executable : Bool) (data : Bytes) :
    (r.addNode ext (.regular executable data)).chunks = ((ext.chunks data).foldl (fun r x => r.addChunk ext x) r).chunks ∧
      (r.addNode ext (.regular executable data)).directories = r.directories := by
  have hframe := foldl_addChunk_frame ext (ext.chunks data) r
  unfold addNode decomposeFile
  dsimp only
  split
  · exact ⟨rfl, hframe.1⟩
  · exact ⟨rfl, hframe.1⟩

theorem addNode_mappings (laws : ext.Laws) (executable : Bool) (data : Bytes) :
    (r.addNode ext (.regular executable data)).fileChunkMappings =
      if ext.chunks data = [] then r.fileChunkMappings else r.fileChunkMappings ++ [fileMapping ext data] := by
  have hframe := foldl_addChunk_frame ext (ext.chunks data) r
  unfold addNode decomposeFile fileMapping
  dsimp only
  rw [laws.chunks_flatten, chunkMetas_eq laws]
  split
  · exact hframe.2
  · rw [← hframe.2]

theorem mem_chunks_foldl (laws : ext.Laws) {c : δ × Bytes} : ∀ (nodes : List NarNode) {r : DecomposeResult δ}, r.Digested ext →
    ((nodes.foldl (addNode ext) r).Digested ext ∧ (c ∈ (nodes.foldl (addNode ext) r).chunks ↔
      c ∈ r.chunks ∨ ∃ executable data, NarNode.regular executable data ∈ nodes ∧ ∃ x ∈ ext.chunks data, c = (ext.blake3 x, x)))
  | [], r, h => ⟨h, by simp⟩
  | .regular executable data :: nodes, r, h => by
    obtain ⟨hdigested, hmem⟩ := mem_foldl_addChunk laws (c := c) (ext.chunks data) h
    have hchunks := (addNode_regular ext r executable data).1
    have hstep : (r.addNode ext (.regular executable data)).Digested ext := by
      unfold Digested
      rw [hchunks]
      exact hdigested
    obtain ⟨hrest, hmem'⟩ := mem_chunks_foldl laws (c := c) nodes hstep
    refine ⟨hrest, hmem'.trans ?_⟩
    rw [hchunks, hmem, or_assoc]
    refine or_congr_right ⟨?_, ?_⟩
    · rintro (hx | ⟨executable', data', hnode, hx⟩)
      · exact ⟨executable, data, List.mem_cons_self .., hx⟩
      · exact ⟨executable', data', List.mem_cons_of_mem _ hnode, hx⟩
    · rintro ⟨executable', data', hnode, hx⟩
      rcases List.mem_cons.mp hnode with heq | hnode
      · cases heq
        exact .inl hx
      · exact .inr ⟨executable', data', hnode, hx⟩
  | .directory entries :: nodes, r, h => by
    obtain ⟨hrest, hmem⟩ := mem_chunks_foldl laws (c := c) nodes (r := r.addNode ext (.directory entries)) h
    refine ⟨hrest, hmem.trans (or_congr_right ?_)⟩
    simp
  | .symlink target :: nodes, r, h => by
    obtain ⟨hrest, hmem⟩ := mem_chunks_foldl laws (c := c) nodes (r := r.addNode ext (.symlink target)) h
    refine ⟨hrest, hmem.trans (or_congr_right ?_)⟩
    simp

theorem directories_foldl : ∀ (nodes : List NarNode) (r : DecomposeResult δ) (c : δ × CaDirectory),
    c ∈ (nodes.foldl (addNode ext) r).directories ↔
      c ∈ r.directories ∨ ∃ entries, NarNode.directory entries ∈ nodes ∧ c = (dirDigest ext entries, ⟨caEntries ext entries⟩)
  | [], r, c => by simp
  | .regular executable data :: nodes, r, c => by
    refine (directories_foldl nodes (r.addNode ext (.regular executable data)) c).trans ?_
    rw [(addNode_regular ext r executable data).2]
    simp
  | .directory entries :: nodes, r, c => by
    refine (directories_foldl nodes (r.addNode ext (.directory entries)) c).trans ?_
    simp [addNode, or_assoc]
  | .symlink target :: nodes, r, c => by
    refine (directories_foldl nodes (r.addNode ext (.symlink target)) c).trans ?_
    simp [addNode]

theorem mappings_foldl (laws : ext.Laws) : ∀ (nodes : List NarNode) (r : DecomposeResult δ) (mapping : FileChunkMapping),
    mapping ∈ (nodes.foldl (addNode ext) r).fileChunkMappings ↔ mapping ∈ r.fileChunkMappings ∨
      ∃ executable data, NarNode.regular executable data ∈ nodes ∧ ext.chunks data ≠ [] ∧ mapping = fileMapping ext data
  | [], r, mapping => by simp
  | .regular executable data :: nodes, r, mapping => by
    refine (mappings_foldl laws nodes (r.addNode ext (.regular executable data)) mapping).trans ?_
    rw [addNode_mappings laws]
    by_cases hempty : ext.chunks data = []
    · rw [if_pos hempty]
      refine or_congr_right ⟨?_, ?_⟩
      · rintro ⟨executable', data', hnode, hne⟩
        exact ⟨executable', data', List.mem_cons_of_mem _ hnode, hne⟩
      · rintro ⟨executable', data', hnode, hne, heq⟩
        rcases List.mem_cons.mp hnode with hsame | hnode
        · cases hsame
          exact absurd hempty hne
        · exact ⟨executable', data', hnode, hne, heq⟩
    · rw [if_neg hempty, List.mem_append, List.mem_singleton, or_assoc]
      refine or_congr_right ⟨?_, ?_⟩
      · rintro (heq | ⟨executable', data', hnode, hne, heq⟩)
        · exact ⟨executable, data, List.mem_cons_self .., hempty, heq⟩
        · exact ⟨executable', data', List.mem_cons_of_mem _ hnode, hne, heq⟩
      · rintro ⟨executable', data', hnode, hne, heq⟩
        rcases List.mem_cons.mp hnode with hsame | hnode
        · cases hsame
          exact .inl heq
        · exact .inr ⟨executable', data', hnode, hne, heq⟩
  | .directory entries :: nodes, r, mapping => by
    refine (mappings_foldl laws nodes (r.addNode ext (.directory entries)) mapping).trans ?_
    simp [addNode]
  | .symlink target :: nodes, r, mapping => by
    refine (mappings_foldl laws nodes (r.addNode ext (.symlink target)) mapping).trans ?_
    simp [addNode]

end DecomposeResult

/-! ## What is stored -/

variable {st st' : Store δ} {t : NarNode}

omit [DecidableEq δ] in
theorem exec_ok {f : Db δ → Db δ} (h : exec f st = .ok () st') : st'.db = f st.db ∧ st'.files = st.files := by
  have hexec : Triple (on fun db files => db = st.db ∧ files = st.files) (exec f) (fun _ => on fun db files => db = f st.db ∧ files = st.files)
      (fun _ => on fun _ _ => True) := by
    refine exec_on ?_ fun _ _ _ => trivial
    rintro db files ⟨rfl, rfl⟩
    exact ⟨rfl, rfl⟩
  exact hexec.ok_of ⟨rfl, rfl⟩ h

/-- A statement that returns has done what it does in a store without failures. -/
theorem Stmt.exec_ok (stmt : Stmt δ) (h : stmt.exec ext level st = .ok () st') :
    st'.db = (stmt.apply ext level st).db ∧ st'.files = (stmt.apply ext level st).files := by
  cases stmt with
  | chunk x =>
    obtain ⟨_, st₁, hstore, hpure⟩ := bind_ok.mp h
    cases hpure
    exact storeChunk_ok hstore
  | fileChunk file index chunk size =>
    rw [Stmt.exec, insertFileChunkRow] at h
    exact Ekapkgs.exec_ok h
  | directory dir =>
    obtain ⟨_, st₁, hinsert, hpure⟩ := bind_ok.mp h
    cases hpure
    obtain ⟨_, st₂, hexec, hpure⟩ := bind_ok.mp hinsert
    cases hpure
    exact Ekapkgs.exec_ok hexec

theorem Stmt.apply_congr (stmt : Stmt δ) (ext : Ext δ) (level : Int) (hdb : st'.db = st.db) (hfiles : st'.files = st.files) :
    (stmt.apply ext level st').db = (stmt.apply ext level st).db ∧ (stmt.apply ext level st').files = (stmt.apply ext level st).files := by
  cases stmt with
  | chunk x =>
    unfold Stmt.apply
    rw [hdb, hfiles]
    exact ⟨rfl, rfl⟩
  | fileChunk file index chunk size =>
    unfold Stmt.apply
    rw [hdb]
    exact ⟨rfl, hfiles⟩
  | directory dir =>
    unfold Stmt.apply
    rw [hdb]
    exact ⟨rfl, hfiles⟩

theorem runScript_ok : ∀ (stmts : List (Stmt δ)) {st st₀ st' : Store δ}, st.db = st₀.db → st.files = st₀.files →
    runScript ext level stmts st = .ok () st' →
      st'.db = (stmts.foldl (Stmt.apply ext level) st₀).db ∧ st'.files = (stmts.foldl (Stmt.apply ext level) st₀).files
  | [], _, _, _, hdb, hfiles, h => by
    cases h
    exact ⟨hdb, hfiles⟩
  | stmt :: stmts, st, st₀, st', hdb, hfiles, h => by
    rw [runScript_cons] at h
    obtain ⟨_, st₁, hstmt, h⟩ := bind_ok.mp h
    have hexec := stmt.exec_ok hstmt
    have happly := stmt.apply_congr ext level hdb hfiles
    exact runScript_ok stmts (hexec.1.trans happly.1) (hexec.2.trans happly.2) h

theorem ingestNode_ok {root : CaNode} (h : ingestNode ext level t st = .ok root st') :
    root = caNode ext t ∧ st'.db = (ingested ext level st t).db ∧ st'.files = (ingested ext level st t).files := by
  rw [ingestNode_eq] at h
  obtain ⟨_, st₁, hscript, hpure⟩ := bind_ok.mp h
  cases hpure
  exact ⟨rfl, runScript_ok _ rfl rfl hscript⟩

/-! ## The two agree -/

/-- The store has grown by what was collected, where it had nothing. -/
structure StoredAs (ext : Ext δ) (st st' : Store δ) (r : DecomposeResult δ) : Prop where
  chunkRows : ∀ digest, st'.db.chunks.contains digest = true ↔ st.db.chunks.contains digest = true ∨ ∃ x, (digest, x) ∈ r.chunks
  chunkData : ∀ c ∈ r.chunks, st.db.chunks.get? c.1 = none → st.files c.1 = none → readStored ext st'.db st'.files c.1 = .ok (some c.2)
  directories : ∀ digest, st'.db.directories.get? digest = (st.db.directories.get? digest).or (r.directoryAt ext digest)
  fileChunks : ∀ file i, st'.db.fileChunks.get? (file, i) = (st.db.fileChunks.get? (file, i)).or (r.chunksAt ext file)[i]?

omit [DecidableEq δ] in
theorem chunk_mem_script_iff {x : Bytes} : Stmt.chunk x ∈ script ext t.postorder ↔
    ∃ executable data, NarNode.regular executable data ∈ t.postorder ∧ x ∈ ext.chunks data := by
  unfold script
  rw [List.mem_flatMap]
  constructor
  · rintro ⟨node, hnode, hx⟩
    cases node with
    | symlink target => cases hx
    | directory entries => simp [nodeScript] at hx
    | regular executable data => exact ⟨executable, data, hnode, by simpa [nodeScript, fileChunkStmts] using hx⟩
  · rintro ⟨executable, data, hnode, hx⟩
    exact ⟨_, hnode, by simpa [nodeScript, fileChunkStmts] using hx⟩

omit [DecidableEq δ] in
theorem directory_mem_script_iff {dir : CaDirectory} : Stmt.directory dir ∈ script ext t.postorder ↔
    ∃ entries, NarNode.directory entries ∈ t.postorder ∧ dir = ⟨caEntries ext entries⟩ := by
  unfold script
  rw [List.mem_flatMap]
  constructor
  · rintro ⟨node, hnode, hdir⟩
    cases node with
    | symlink target => cases hdir
    | directory entries => exact ⟨entries, hnode, by simpa [nodeScript] using hdir⟩
    | regular executable data => simp [nodeScript, fileChunkStmts] at hdir
  · rintro ⟨entries, hnode, rfl⟩
    exact ⟨_, hnode, by simp [nodeScript]⟩

omit [DecidableEq δ] in
theorem fileChunk_mem_script_iff {file chunk : δ} {i size : Nat} : Stmt.fileChunk file i chunk size ∈ script ext t.postorder ↔
    ∃ executable data, NarNode.regular executable data ∈ t.postorder ∧ file = ext.blake3 data ∧ (chunkRefs ext data)[i]? = some (chunk, size) := by
  unfold script
  rw [List.mem_flatMap]
  constructor
  · rintro ⟨node, hnode, hstmt⟩
    cases node with
    | symlink target => cases hstmt
    | directory entries => simp [nodeScript] at hstmt
    | regular executable data =>
      rcases List.mem_append.mp hstmt with hchunk | hstmt
      · simp at hchunk
      · obtain ⟨j, v, hv, heq⟩ := mem_fileChunkStmts.mp hstmt
        cases heq
        exact ⟨executable, data, hnode, rfl, hv⟩
  · rintro ⟨executable, data, hnode, rfl, hv⟩
    exact ⟨_, hnode, List.mem_append_right _ (mem_fileChunkStmts.mpr ⟨i, (chunk, size), hv, rfl⟩)⟩

section
variable (laws : ext.Laws)
include laws

theorem chunks_decomposeNar {c : δ × Bytes} : c ∈ (decomposeNar ext t).2.chunks ↔
    ∃ x, Stmt.chunk x ∈ script ext t.postorder ∧ c = (ext.blake3 x, x) := by
  unfold decomposeNar
  rw [decomposeNode_eq laws]
  refine (DecomposeResult.mem_chunks_foldl laws (c := c) t.postorder (r := ⟨[], [], []⟩) nofun).2.trans ?_
  simp only [chunk_mem_script_iff]
  constructor
  · rintro (h | ⟨executable, data, hnode, x, hx, rfl⟩)
    · cases h
    · exact ⟨x, ⟨executable, data, hnode, hx⟩, rfl⟩
  · rintro ⟨x, ⟨executable, data, hnode, hx⟩, rfl⟩
    exact .inr ⟨executable, data, hnode, x, hx, rfl⟩

theorem directories_decomposeNar {c : δ × CaDirectory} : c ∈ (decomposeNar ext t).2.directories ↔
    Stmt.directory c.2 ∈ script ext t.postorder ∧ c.1 = ext.blake3 (ext.encodeDirectory c.2) := by
  unfold decomposeNar
  rw [decomposeNode_eq laws]
  refine (DecomposeResult.directories_foldl t.postorder ⟨[], [], []⟩ c).trans ?_
  rw [directory_mem_script_iff]
  constructor
  · rintro (h | ⟨entries, hnode, rfl⟩)
    · cases h
    · exact ⟨⟨entries, hnode, rfl⟩, rfl⟩
  · rintro ⟨⟨entries, hnode, hdir⟩, hdigest⟩
    refine .inr ⟨entries, hnode, Prod.ext ?_ hdir⟩
    rw [hdigest, hdir]
    rfl

/-- A directory is found by its digest. -/
theorem directoryAt_decomposeNar {digest : δ} {bytes : Bytes} : (decomposeNar ext t).2.directoryAt ext digest = some bytes ↔
    ∃ dir, Stmt.directory dir ∈ script ext t.postorder ∧ ext.blake3 (ext.encodeDirectory dir) = digest ∧ ext.encodeDirectory dir = bytes := by
  unfold DecomposeResult.directoryAt
  constructor
  · intro h
    obtain ⟨c, hfind, rfl⟩ := Option.map_eq_some_iff.mp h
    obtain ⟨hstmt, hdigest⟩ := (directories_decomposeNar laws).mp (List.mem_of_find?_eq_some hfind)
    have hkey : c.1 = digest := by simpa using List.find?_some hfind
    exact ⟨c.2, hstmt, hdigest ▸ hkey, rfl⟩
  · rintro ⟨dir, hstmt, hdigest, rfl⟩
    have hmem : (digest, dir) ∈ (decomposeNar ext t).2.directories := (directories_decomposeNar laws).mpr ⟨hstmt, hdigest.symm⟩
    cases hfind : (decomposeNar ext t).2.directories.find? fun c => c.1 = digest with
    | none => exact absurd (by simp) (List.find?_eq_none.mp hfind _ hmem)
    | some c =>
      have hkey : c.1 = digest := by simpa using List.find?_some hfind
      have hc := ((directories_decomposeNar laws).mp (List.mem_of_find?_eq_some hfind)).2
      rw [Option.map_some, laws.blake3_injective (hc.symm.trans (hkey.trans hdigest.symm))]

/-- The chunks of a file are found by its digest; a file without chunks is not there. -/
theorem chunksAt_decomposeNar {file : δ} {i : Nat} {v : δ × Nat} : ((decomposeNar ext t).2.chunksAt ext file)[i]? = some v ↔
    Stmt.fileChunk file i v.1 v.2 ∈ script ext t.postorder := by
  have hmappings : ∀ mapping, mapping ∈ (decomposeNar ext t).2.fileChunkMappings ↔
      ∃ executable data, NarNode.regular executable data ∈ t.postorder ∧ ext.chunks data ≠ [] ∧ mapping = fileMapping ext data := by
    intro mapping
    unfold decomposeNar
    rw [decomposeNode_eq laws]
    refine (DecomposeResult.mappings_foldl laws t.postorder ⟨[], [], []⟩ mapping).trans ?_
    simp
  have hdigest : ∀ data, fieldDigest ext (fileMapping ext data).fileDigest = some (ext.blake3 data) := fun data => fieldDigest_toVec laws _
  have hlisted : ∀ data, listedChunks ext (fileMapping ext data) = chunkRefs ext data := fun data => listedChunks_map laws _ _
  rw [fileChunk_mem_script_iff]
  unfold DecomposeResult.chunksAt
  cases hfind : (decomposeNar ext t).2.fileChunkMappings.find? fun mapping => fieldDigest ext mapping.fileDigest = some file with
  | some mapping =>
    obtain ⟨executable, data, hnode, -, rfl⟩ := (hmappings mapping).mp (List.mem_of_find?_eq_some hfind)
    have hkey : some (ext.blake3 data) = some file := by simpa [hdigest] using List.find?_some hfind
    obtain rfl := Option.some.inj hkey
    rw [Option.map_some, Option.getD_some, hlisted]
    constructor
    · exact fun hv => ⟨executable, data, hnode, rfl, hv⟩
    · rintro ⟨executable', data', -, hfile, hv⟩
      rwa [laws.blake3_injective hfile]
  | none =>
    rw [Option.map_none, Option.getD_none, List.getElem?_nil]
    refine iff_of_false nofun ?_
    rintro ⟨executable, data, hnode, rfl, hv⟩
    have hne : ext.chunks data ≠ [] := by
      intro hempty
      have hrefs : chunkRefs ext data = [] := by
        unfold Ext.chunks at hempty
        unfold chunkRefs
        rw [List.map_eq_nil_iff.mp hempty]
        rfl
      rw [hrefs] at hv
      cases hv
    have hmem := (hmappings (fileMapping ext data)).mpr ⟨executable, data, hnode, hne, rfl⟩
    exact absurd (by simp [hdigest]) (List.find?_eq_none.mp hfind _ hmem)

theorem ingested_chunkRows (level : Int) (st : Store δ) (t : NarNode) (digest : δ) : (ingested ext level st t).db.chunks.contains digest = true ↔
    st.db.chunks.contains digest = true ∨ ∃ x, (digest, x) ∈ (decomposeNar ext t).2.chunks := by
  constructor
  · refine ingested_keeps (P := fun u => u.db.chunks.contains digest = true → _) t (fun u stmt hstmt hu => ?_) .inl
    cases stmt with
    | chunk x =>
      intro hcontains
      rcases Table.contains_insertOrIgnore.mp hcontains with hold | rfl
      · exact hu hold
      · exact .inr ⟨x, (chunks_decomposeNar laws).mpr ⟨x, hstmt, rfl⟩⟩
    | fileChunk file index chunk size => exact hu
    | directory dir => exact hu
  · rintro (hold | ⟨x, hx⟩)
    · refine ingested_keeps (P := fun u => u.db.chunks.contains digest = true) t (fun u stmt _ hu => ?_) hold
      cases stmt with
      | chunk x => exact Table.contains_insertOrIgnore.mpr (.inl hu)
      | fileChunk file index chunk size => exact hu
      | directory dir => exact hu
    · obtain ⟨y, hstmt, heq⟩ := (chunks_decomposeNar laws).mp hx
      cases heq
      obtain ⟨row, hrow⟩ := ingested_done level st t _ hstmt
      rw [Table.contains_eq_isSome, hrow]
      rfl

/-- A chunk that is new to the store is read back as it was collected. -/
theorem ingested_chunkData (level : Int) {st : Store δ} {t : NarNode} {c : δ × Bytes} (hc : c ∈ (decomposeNar ext t).2.chunks)
    (hrow : st.db.chunks.get? c.1 = none) (hfile : st.files c.1 = none) :
    readStored ext (ingested ext level st t).db (ingested ext level st t).files c.1 = .ok (some c.2) := by
  obtain ⟨x, hstmt, rfl⟩ := (chunks_decomposeNar laws).mp hc
  have hstored : (ingested ext level st t).db.chunks.get? (ext.blake3 x) = none ∧ (ingested ext level st t).files (ext.blake3 x) = none ∨
      (∃ row, (ingested ext level st t).db.chunks.get? (ext.blake3 x) = some row) ∧
        readStored ext (ingested ext level st t).db (ingested ext level st t).files (ext.blake3 x) = .ok (some x) := by
    refine ingested_keeps (P := fun u => u.db.chunks.get? (ext.blake3 x) = none ∧ u.files (ext.blake3 x) = none ∨
      (∃ row, u.db.chunks.get? (ext.blake3 x) = some row) ∧ readStored ext u.db u.files (ext.blake3 x) = .ok (some x)) t
      (fun u stmt hstmt hu => ?_) (.inl ⟨hrow, hfile⟩)
    cases stmt with
    | fileChunk file index chunk size => exact hu
    | directory dir => exact hu
    | chunk y =>
      by_cases hy : ext.blake3 x = ext.blake3 y
      · obtain rfl := laws.blake3_injective hy
        have hfits := (chunk_mem_script laws hstmt).2
        refine .inr ⟨⟨_, (Table.get?_insertOrIgnore ..).trans (if_pos rfl)⟩, ?_⟩
        rcases hu with ⟨hnone, hnofile⟩ | ⟨⟨row, hrow⟩, hread⟩
        · have hnew : readStored ext (u.db.withChunk ext level u.files x) (written ext level u.files x).1 (ext.blake3 x) = _ :=
            readStored_withChunk_new laws level (by omega) hnone
          rw [readsAs, hnofile] at hnew
          refine hnew.trans ?_
          split
          · rfl
          · rfl
        · exact readStored_withChunk_of_row laws level hrow hread
      · have hsame : (Stmt.apply ext level u (.chunk y)).db.chunks.get? (ext.blake3 x) = u.db.chunks.get? (ext.blake3 x) :=
          (Table.get?_insertOrIgnore ..).trans (if_neg hy)
        have hfiles : (Stmt.apply ext level u (.chunk y)).files (ext.blake3 x) = u.files (ext.blake3 x) := written_of_ne laws level u.files hy
        have hread : readStored ext (Stmt.apply ext level u (.chunk y)).db (Stmt.apply ext level u (.chunk y)).files (ext.blake3 x) =
          readStored ext u.db u.files (ext.blake3 x) := readStored_withChunk_of_ne laws level hy
        rw [hsame, hfiles, hread]
        exact hu
  rcases hstored with ⟨hnone, -⟩ | ⟨-, hread⟩
  · obtain ⟨row, hrow⟩ := ingested_done level st t _ hstmt
    rw [hnone] at hrow
    cases hrow
  · exact hread

theorem ingested_directoryAt (level : Int) (st : Store δ) (t : NarNode) (digest : δ) : (ingested ext level st t).db.directories.get? digest =
    (st.db.directories.get? digest).or ((decomposeNar ext t).2.directoryAt ext digest) := by
  have hrows : OldOrHonest st.db.directories (ingested ext level st t).db.directories digest
      fun bytes => (decomposeNar ext t).2.directoryAt ext digest = some bytes := by
    refine ingested_keeps (P := fun u => OldOrHonest st.db.directories u.db.directories digest _) t (fun u stmt hstmt hu => ?_)
      ⟨fun _ h => h, fun _ => .inl⟩
    cases stmt with
    | chunk x => exact hu
    | fileChunk file index chunk size => exact hu
    | directory dir => exact hu.insert fun hdigest => (directoryAt_decomposeNar laws).mpr ⟨dir, hstmt, hdigest.symm, rfl⟩
  refine hrows.get?_eq fun bytes hbytes => ?_
  obtain ⟨dir, hstmt, rfl, -⟩ := (directoryAt_decomposeNar laws).mp hbytes
  exact Option.isSome_iff_exists.mpr (ingested_done level st t _ hstmt)

theorem ingested_chunksAt (level : Int) (st : Store δ) (t : NarNode) (file : δ) (i : Nat) :
    (ingested ext level st t).db.fileChunks.get? (file, i) =
      (st.db.fileChunks.get? (file, i)).or ((decomposeNar ext t).2.chunksAt ext file)[i]? := by
  have hrows : OldOrHonest st.db.fileChunks (ingested ext level st t).db.fileChunks (file, i)
      fun v => ((decomposeNar ext t).2.chunksAt ext file)[i]? = some v := by
    refine ingested_keeps (P := fun u => OldOrHonest st.db.fileChunks u.db.fileChunks (file, i) _) t (fun u stmt hstmt hu => ?_)
      ⟨fun _ h => h, fun _ => .inl⟩
    cases stmt with
    | chunk x => exact hu
    | directory dir => exact hu
    | fileChunk file' index chunk size =>
      refine hu.insert fun hkey => (chunksAt_decomposeNar laws).mpr ?_
      cases hkey
      exact hstmt
  refine hrows.get?_eq fun v hv => ?_
  exact Option.isSome_iff_exists.mpr (ingested_done level st t _ ((chunksAt_decomposeNar laws).mp hv))

/-- In any store, an ingestion that returns gives the root that the client computes and stores what the client collects. -/
theorem ingestNode_decomposed {root : CaNode} (h : ingestNode ext level t st = .ok root st') :
    root = (decomposeNar ext t).1 ∧ StoredAs ext st st' (decomposeNar ext t).2 := by
  obtain ⟨rfl, hdb, hfiles⟩ := ingestNode_ok h
  constructor
  · unfold decomposeNar
    rw [decomposeNode_eq laws]
  · constructor
    · intro digest
      rw [hdb]
      exact ingested_chunkRows laws level st t digest
    · intro c hc hrow hfile
      rw [hdb, hfiles]
      exact ingested_chunkData laws level hc hrow hfile
    · intro digest
      rw [hdb]
      exact ingested_directoryAt laws level st t digest
    · intro file i
      rw [hdb]
      exact ingested_chunksAt laws level st t file i

end

/-- Two files with one content, a link and a directory. -/
def linkedTree : NarNode := .directory [("a", .regular false [1, 2]), ("b", .directory [("c", .regular true [1, 2]), ("d", .symlink "c")])]

theorem ingestNode_decomposed_linkedTree : ∃ root st', ingestNode sampleExt 3 linkedTree Store.empty = .ok root st' ∧
    root = (decomposeNar sampleExt linkedTree).1 ∧ StoredAs sampleExt Store.empty st' (decomposeNar sampleExt linkedTree).2 := by
  have hquiet : (Store.empty : Store Bytes).faults = [] := rfl
  have hrun : ingestNode sampleExt 3 linkedTree Store.empty = .ok _ _ := ingestNode_quiet sampleExt_laws hquiet linkedTree
  exact ⟨_, _, hrun, ingestNode_decomposed sampleExt_laws hrun⟩

end Ekapkgs
