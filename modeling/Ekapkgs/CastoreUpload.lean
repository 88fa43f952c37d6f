import Ekapkgs.StoredTree

/-!
# Uploads

What `put_nar` leaves in the store when nothing fails: the ingested tree, the
files of the path, and a `cas_paths` row with the root.
-/

namespace Ekapkgs
open Keyed Fallible

variable {δ : Type} [DecidableEq δ]

/-! ## Collecting the files of a tree -/

def insertAll (l acc : List δ) : List δ := l.foldl (fun acc d => acc.insert d) acc

theorem mem_insertAll {d : δ} : ∀ (l acc : List δ), d ∈ insertAll l acc ↔ d ∈ l ∨ d ∈ acc
  | [], acc => by simp [insertAll]
  | e :: l, acc => by
    have ih := mem_insertAll (d := d) l (acc.insert e)
    unfold insertAll at ih ⊢
    rw [List.foldl_cons, ih, List.mem_insert_iff, List.mem_cons]; tauto

theorem nodup_insertAll : ∀ (l : List δ) {acc : List δ}, acc.Nodup → (insertAll l acc).Nodup
  | [], _, h => h
  | _ :: l, _, h => nodup_insertAll l h.insert

theorem insertAll_append (l m acc : List δ) : insertAll (l ++ m) acc = insertAll m (insertAll l acc) := List.foldl_append

variable {ext : Ext δ} {level : Int} {st : Store δ}

theorem collectFileDigestsFromTree_quiet (laws : ext.Laws) (hf : st.faults = []) (t : NarNode) :
    ∀ fuel acc, t.depth ≤ fuel → HasDirectories ext st.db t →
      collectFileDigestsFromTree ext fuel (caNode ext t) acc st = .ok (insertAll (t.files.map ext.blake3) acc) st := by
  induction t using NarNode.tree_induction with
  | regular executable data =>
    intro fuel acc hfuel _
    obtain ⟨fuel, rfl⟩ : ∃ n, fuel = n + 1 := ⟨fuel - 1, by rw [NarNode.depth] at hfuel; omega⟩
    simp only [collectFileDigestsFromTree, caNode, fileNode, fieldDigest, Option.bind_some, laws.tryFrom_toVec]
    rfl
  | symlink target =>
    intro fuel acc hfuel _
    obtain ⟨fuel, rfl⟩ : ∃ n, fuel = n + 1 := ⟨fuel - 1, by rw [NarNode.depth] at hfuel; omega⟩
    rfl
  | directory entries ih =>
    intro fuel acc hfuel hdirs
    rw [NarNode.depth] at hfuel
    obtain ⟨fuel, rfl⟩ : ∃ n, fuel = n + 1 := ⟨fuel - 1, by omega⟩
    have hentries : ∀ (l : List (String × NarNode)) (acc : List δ), (∀ e ∈ l, e ∈ entries) →
        (l.map (caEntry ext)).foldlM (forChild (collectFileDigestsFromTree ext fuel)) acc st =
          .ok (insertAll ((entriesFiles l).map ext.blake3) acc) st := by
      intro l
      induction l with
      | nil => exact fun _ _ => rfl
      | cons e l ihl =>
        intro acc hl
        have he := hl e (List.mem_cons_self ..)
        have hdepth := depth_le_depthEntries he
        have hnode := ih e he fuel acc (by omega) fun es hes => hdirs es (child_mem_postorder he hes)
        rw [List.map_cons, List.foldlM_cons]
        refine (bind_of_ok hnode).trans ?_
        rw [ihl _ fun e he => hl e (List.mem_cons_of_mem _ he), ← insertAll_append, ← List.map_append]; rfl
    simp only [collectFileDigestsFromTree, caNode, directoryNode, fieldDigest, Option.bind_some, laws.tryFrom_toVec]
    have hrow := hdirs entries (self_mem_postorder _)
    rw [bind_of_ok (queryRow_quiet hf), show ext.blake3 (ext.encodeDirectory ⟨caEntries ext entries⟩) = _ from rfl]
    rw [show st.db.directories.get? (ext.blake3 (ext.encodeDirectory ⟨caEntries ext entries⟩)) = _ from hrow]
    simp only [Option.bind_some, laws.decode_encodeDirectory]
    rw [caEntries_eq_map, hentries entries acc fun _ he => he, files_directory]

/-! ## The rows of a digest are those of its content -/

structure ContentRows (ext : Ext δ) (db : Db δ) : Prop where
  fileChunks : ∀ data i v, db.fileChunks.get? (ext.blake3 data, i) = some v → (chunkRefs ext data)[i]? = some v
  directories : ∀ d bytes, db.directories.get? d = some bytes → ext.blake3 bytes = d

/-- The rows a statement inserts are there. -/
def Stmt.Done (ext : Ext δ) (db : Db δ) : Stmt δ → Prop
  | .chunk x => ∃ row, db.chunks.get? (ext.blake3 x) = some row
  | .fileChunk file index _ _ => ∃ v, db.fileChunks.get? (file, index) = some v
  | .directory dir => ∃ bytes, db.directories.get? (ext.blake3 (ext.encodeDirectory dir)) = some bytes

theorem get?_insertOrIgnore_isSome {κ ρ : Type} [DecidableEq κ] {t : Table κ ρ} {k k' : κ} {v : ρ}
    (h : (∃ w, t.get? k' = some w) ∨ k' = k) : ∃ w, (t.insertOrIgnore k v).get? k' = some w := by
  rw [Table.get?_insertOrIgnore]
  by_cases hk : k' = k
  · exact ⟨_, by rw [if_pos hk]⟩
  · rw [if_neg hk]; exact h.resolve_right hk

theorem Stmt.apply_done (stmt : Stmt δ) : (stmt.Done ext (stmt.apply ext level st).db) := by
  cases stmt <;> exact get?_insertOrIgnore_isSome (.inr rfl)

theorem Stmt.apply_keeps_done (stmt : Stmt δ) {other : Stmt δ} (h : other.Done ext st.db) :
    other.Done ext (stmt.apply ext level st).db := by
  cases stmt <;> cases other <;> first
    | exact h
    | exact get?_insertOrIgnore_isSome (.inl h)

theorem foldl_keeps_done {stmt : Stmt δ} : ∀ (stmts : List (Stmt δ)) {st : Store δ}, stmt.Done ext st.db →
    stmt.Done ext (stmts.foldl (Stmt.apply ext level) st).db
  | [], _, h => h
  | s :: stmts, _, h => foldl_keeps_done stmts (s.apply_keeps_done h)

theorem foldl_done : ∀ (stmts : List (Stmt δ)) (st : Store δ),
    ∀ stmt ∈ stmts, stmt.Done ext (stmts.foldl (Stmt.apply ext level) st).db
  | [], _, _, h => nomatch h
  | s :: stmts, st, stmt, h => by
    rcases List.mem_cons.mp h with rfl | h
    · exact foldl_keeps_done stmts (stmt.apply_done)
    · exact foldl_done stmts _ stmt h

theorem ingested_done (level : Int) (st : Store δ) (t : NarNode) :
    ∀ stmt ∈ script ext t.postorder, stmt.Done ext (ingested ext level st t).db := foldl_done _ st

/-- What is there stays there. -/
theorem ingested_keeps_done (level : Int) (t : NarNode) {stmt : Stmt δ} (h : stmt.Done ext st.db) :
    stmt.Done ext (ingested ext level st t).db := foldl_keeps_done _ h

omit [DecidableEq δ] in
theorem mem_fileChunkStmts {file : δ} {refs : List (δ × Nat)} {stmt : Stmt δ} :
    stmt ∈ fileChunkStmts file 0 refs ↔ ∃ i v, refs[i]? = some v ∧ stmt = .fileChunk file i v.1 v.2 := by
  unfold fileChunkStmts
  simp only [List.mem_map, Prod.exists, List.mem_zipIdx_iff_getElem?]
  constructor
  · rintro ⟨c, n, i, h, rfl⟩; exact ⟨i, c, n, h, rfl⟩
  · rintro ⟨i, c, n, h, rfl⟩; exact ⟨c, n, i, h, rfl⟩

theorem ContentRows.apply {stmt : Stmt δ} {t : NarNode} (laws : ext.Laws) (h : ContentRows ext st.db)
    (hstmt : stmt ∈ script ext t.postorder) : ContentRows ext (stmt.apply ext level st).db := by
  obtain ⟨node, -, hnode⟩ := List.mem_flatMap.mp hstmt
  cases stmt with
  | chunk x => exact ⟨h.fileChunks, h.directories⟩
  | directory dir =>
    refine ⟨h.fileChunks, fun d bytes hget => ?_⟩
    simp only [Stmt.apply, Table.get?_insertOrIgnore] at hget
    by_cases hd : d = ext.blake3 (ext.encodeDirectory dir)
    · subst hd
      rw [if_pos rfl] at hget
      cases hold : st.db.directories.get? (ext.blake3 (ext.encodeDirectory dir)) with
      | none => rw [hold] at hget; cases hget; rfl
      | some old => rw [hold] at hget; cases hget; exact h.directories _ _ hold
    · rw [if_neg hd] at hget; exact h.directories d bytes hget
  | fileChunk file index digest size =>
    refine ⟨fun data i v hget => ?_, h.directories⟩
    simp only [Stmt.apply, Table.get?_insertOrIgnore] at hget
    by_cases hk : (ext.blake3 data, i) = (file, index)
    · cases hk
      rw [if_pos rfl] at hget
      cases hold : st.db.fileChunks.get? (ext.blake3 data, index) with
      | some old => rw [hold] at hget; cases hget; exact h.fileChunks _ _ _ hold
      | none =>
        rw [hold] at hget; cases hget
        cases node with
        | symlink target => cases hnode
        | directory entries => simp [nodeScript] at hnode
        | regular executable data' =>
          rcases List.mem_append.mp hnode with hchunk | hfile
          · simp at hchunk
          obtain ⟨i', v, hv, heq⟩ := mem_fileChunkStmts.mp hfile
          simp only [Stmt.fileChunk.injEq] at heq
          obtain ⟨hdata, rfl, rfl, rfl⟩ := heq
          rw [laws.blake3_injective hdata, hv]; rfl
    · rw [if_neg hk] at hget; exact h.fileChunks data i v hget

theorem ContentRows.ingested (laws : ext.Laws) (level : Int) (h : ContentRows ext st.db) (t : NarNode) :
    ContentRows ext (ingested ext level st t).db :=
  ingested_keeps (P := fun st => ContentRows ext st.db) t (fun _ _ hs h => h.apply laws hs) h

omit [DecidableEq δ] in
theorem mem_script_directory {t : NarNode} {entries : List (String × NarNode)} (h : NarNode.directory entries ∈ t.postorder) :
    Stmt.directory ⟨caEntries ext entries⟩ ∈ script ext t.postorder :=
  List.mem_flatMap.mpr ⟨_, h, List.mem_singleton.mpr rfl⟩

omit [DecidableEq δ] in
theorem mem_script_file {t : NarNode} {data : Bytes} (h : data ∈ t.files) {stmt : Stmt δ}
    (hstmt : stmt ∈ nodeScript ext (.regular false data)) : stmt ∈ script ext t.postorder := by
  obtain ⟨node, hnode, hdata⟩ := List.mem_filterMap.mp h
  refine List.mem_flatMap.mpr ⟨node, hnode, ?_⟩
  cases node with
  | regular executable data' => cases hdata; exact hstmt
  | directory entries => cases hdata
  | symlink target => cases hdata

/-- A store that has run the script has the directories of the tree. -/
theorem hasDirectories_of_done (laws : ext.Laws) {db : Db δ} (h : ContentRows ext db) {t : NarNode}
    (hdone : ∀ stmt ∈ script ext t.postorder, stmt.Done ext db) : HasDirectories ext db t := by
  intro entries hentries
  obtain ⟨bytes, hbytes⟩ := hdone _ (mem_script_directory hentries)
  exact hbytes.trans (congrArg some (laws.blake3_injective (h.directories _ _ hbytes)))

/-- The chunk list of a file is there, and the chunks in it. -/
def FileStored (ext : Ext δ) (db : Db δ) (data : Bytes) : Prop :=
  ∀ stmt ∈ nodeScript ext (.regular false data), stmt.Done ext db

theorem fileStored_of_done {db : Db δ} {t : NarNode} (hdone : ∀ stmt ∈ script ext t.postorder, stmt.Done ext db) {data : Bytes}
    (hdata : data ∈ t.files) : FileStored ext db data := fun stmt hstmt => hdone stmt (mem_script_file hdata hstmt)

theorem fileChunks_of_stored {db : Db δ} (h : ContentRows ext db) {data : Bytes} (hstored : FileStored ext db data) (i : Nat) :
    db.fileChunks.get? (ext.blake3 data, i) = (chunkRefs ext data)[i]? := by
  cases hget : db.fileChunks.get? (ext.blake3 data, i) with
  | some v => exact (h.fileChunks data i v hget).symm
  | none =>
    cases href : (chunkRefs ext data)[i]? with
    | none => rfl
    | some v =>
      obtain ⟨w, hw⟩ := hstored _ (List.mem_append_right _ (mem_fileChunkStmts.mpr ⟨i, v, href, rfl⟩))
      rw [hget] at hw; cases hw

/-! ## The whole upload -/

section
variable (ext level)

/-- The metadata an upload stores: what is there, or a placeholder. -/
def narinfoFor (db : Db δ) (hash : String) (data : Bytes) : NarInfo :=
  ((db.casPaths.get? hash).map (narinfoOfRow hash)).getD (placeholderInfo ext hash data)

def Db.withPathFiles (db : Db δ) (hash : String) (fileDigests : List δ) : Db δ :=
  { db with pathFiles := fileDigests.foldl (fun t d => t.insertOrIgnore (hash, d) ()) db.pathFiles }

def Db.withRoot (db : Db δ) (now : Nat) (hash : String) (narinfo : NarInfo) (root : CaNode) : Db δ :=
  { db with casPaths := db.casPaths.insertOrReplace hash (pathRow ext now narinfo root) }

/-- The files of a tree, each once. -/
def treeFileDigests (t : NarNode) : List δ := insertAll (t.files.map ext.blake3) []

/-- The store once a tree is ingested and recorded under a path. -/
def recorded (now : Nat) (hash : String) (data : Bytes) (t : NarNode) (fileDigests : List δ) (st : Store δ) : Store δ :=
  let st' := ingested ext level st t
  let db := st'.db.withPathFiles hash fileDigests
  { st' with db := db.withRoot ext now hash (narinfoFor ext st.db hash data) (caNode ext t) }

/-- The store once a NAR is uploaded. -/
def uploaded (now : Nat) (hash : String) (data : Bytes) (t : NarNode) (st : Store δ) : Store δ :=
  recorded ext level now hash data t (treeFileDigests ext t) st

end

theorem get?_withPathFiles (hash hash' : String) (file : δ) : ∀ (fileDigests : List δ) (db : Db δ),
    (db.withPathFiles hash fileDigests).pathFiles.get? (hash', file) = some () ↔
      hash' = hash ∧ file ∈ fileDigests ∨ db.pathFiles.get? (hash', file) = some ()
  | [], _ => by simp [Db.withPathFiles]
  | d :: fileDigests, db => by
    have ih := get?_withPathFiles hash hash' file fileDigests { db with pathFiles := db.pathFiles.insertOrIgnore (hash, d) () }
    unfold Db.withPathFiles at ih ⊢
    rw [List.foldl_cons, ih, Table.get?_insertOrIgnore, List.mem_cons]
    by_cases hk : (hash', file) = (hash, d)
    · cases hk; simp
    · simp only [if_neg hk]
      simp only [Prod.mk.injEq] at hk
      tauto

theorem forM_insertPathFile_quiet (hash : String) : ∀ (fileDigests : List δ) {st : Store δ}, st.faults = [] →
    fileDigests.forM (insertPathFile hash) st = .ok () { st with db := st.db.withPathFiles hash fileDigests }
  | [], _, _ => rfl
  | d :: fileDigests, st, hf => by
    refine (bind_of_ok (exec_quiet hf)).trans ?_
    exact forM_insertPathFile_quiet hash fileDigests hf

omit [DecidableEq δ] in
theorem storeRoot_quiet (hf : st.faults = []) (now : Nat) (hash : String) (data : Bytes) (root : CaNode) :
    storeRoot ext now hash data root st =
      .ok () { st with db := st.db.withRoot ext now hash (narinfoFor ext st.db hash data) root } := by
  have hload : loadMetadata hash st = .ok ((st.db.casPaths.get? hash).map (narinfoOfRow hash)) st :=
    (bind_of_ok (attempt_quiet hf)).trans ((bind_of_ok (queryRow_quiet hf)).trans rfl)
  refine (bind_of_ok hload).trans ?_
  unfold narinfoFor
  cases st.db.casPaths.get? hash <;> exact exec_quiet hf

theorem ingestNar_of_collect (laws : ext.Laws) (level : Int) (hf : st.faults = []) (now : Nat) (hash : String) (data : Bytes)
    (t : NarNode) {fileDigests : List δ}
    (hcollect : collectFileDigestsFromTree ext (ingested ext level st t).db.depth (caNode ext t) [] (ingested ext level st t) =
      .ok fileDigests (ingested ext level st t)) :
    ingestNar ext level now hash data t st = .ok () (recorded ext level now hash data t fileDigests st) := by
  obtain ⟨-, hpaths, -, hfaults⟩ := ingested_frame ext level st t
  have hquiet := hfaults.trans hf
  have hinfo : narinfoFor ext ((ingested ext level st t).db.withPathFiles hash fileDigests) hash data =
      narinfoFor ext st.db hash data := by
    unfold narinfoFor Db.withPathFiles; rw [hpaths]
  unfold ingestNar
  refine (bind_of_ok (ingestNode_quiet laws hf t)).trans ?_
  refine (bind_of_ok (show (get : CasM δ (Store δ)) _ = .ok _ _ from rfl)).trans ?_
  refine (bind_of_ok hcollect).trans ?_
  refine (bind_of_ok (forM_insertPathFile_quiet _ _ hquiet)).trans ?_
  refine (storeRoot_quiet (by exact hquiet) now hash data (caNode ext t)).trans ?_
  dsimp only
  rw [hinfo]; rfl

theorem putNar_quiet (laws : ext.Laws) (level : Int) (hf : st.faults = []) (hrows : ContentRows ext st.db) (now : Nat) (filePath : String)
    {data : Bytes} {t : NarNode} (hparse : parseNar data = .ok t) :
    putNar ext level now filePath data st =
      .ok true (uploaded ext level now (hashOfFilePath filePath) data t st) := by
  obtain ⟨-, -, -, hfaults⟩ := ingested_frame ext level st t
  have hquiet := hfaults.trans hf
  have hdirs := hasDirectories_of_done laws (hrows.ingested laws level t) (ingested_done level st t)
  have hcollect := collectFileDigestsFromTree_quiet laws hquiet t _ [] (hdirs.depth_le laws) hdirs
  have hingest := ingestNar_of_collect laws level hf now (hashOfFilePath filePath) data t hcollect
  unfold putNar
  simp only [hparse]
  exact (bind_of_ok (withTransaction_quiet hf hingest hquiet)).trans rfl

/-- In any store the walk for the files of a tree returns something. -/
theorem collectFileDigestsFromTree_returns (ext : Ext δ) (hf : st.faults = []) : ∀ (fuel : Nat) (caNode : CaNode) (acc : List δ),
    ∃ fileDigests, collectFileDigestsFromTree ext fuel caNode acc st = .ok fileDigests st
  | 0, _, acc => ⟨acc, rfl⟩
  | fuel + 1, caNode, acc => by
    have hentries : ∀ (entries : List CaDirectoryEntry) (acc : List δ), ∃ fileDigests,
        entries.foldlM (forChild (collectFileDigestsFromTree ext fuel)) acc st = .ok fileDigests st := by
      intro entries
      induction entries with
      | nil => exact fun acc => ⟨acc, rfl⟩
      | cons entry entries ih =>
        intro acc
        have hchild : ∃ acc', forChild (collectFileDigestsFromTree ext fuel) acc entry st = .ok acc' st := by
          unfold forChild
          cases entry.node with
          | some child => exact collectFileDigestsFromTree_returns ext hf fuel child acc
          | none => exact ⟨acc, rfl⟩
        obtain ⟨acc', hacc'⟩ := hchild
        obtain ⟨fileDigests, hrest⟩ := ih acc'
        exact ⟨fileDigests, (bind_of_ok hacc').trans hrest⟩
    unfold collectFileDigestsFromTree
    rcases caNode with ⟨_ | file | dir | symlink⟩
    · exact ⟨acc, rfl⟩
    · simp only
      cases fieldDigest ext file.digest <;> exact ⟨_, rfl⟩
    · simp only
      cases fieldDigest ext dir.digest with
      | none => exact ⟨acc, rfl⟩
      | some d =>
        simp only [bind_of_ok (queryRow_quiet hf)]
        cases (st.db.directories.get? d).bind ext.decodeDirectory with
        | none => exact ⟨acc, rfl⟩
        | some caDir => exact hentries caDir.entries acc
    · exact ⟨acc, rfl⟩

theorem ingestNar_quiet (laws : ext.Laws) (level : Int) (hf : st.faults = []) (now : Nat) (hash : String) (data : Bytes)
    (t : NarNode) : ∃ fileDigests,
      ingestNar ext level now hash data t st = .ok () (recorded ext level now hash data t fileDigests st) := by
  obtain ⟨-, -, -, hfaults⟩ := ingested_frame ext level st t
  obtain ⟨fileDigests, hcollect⟩ := collectFileDigestsFromTree_returns ext (hfaults.trans hf) _ (caNode ext t) []
  exact ⟨fileDigests, ingestNar_of_collect laws level hf now hash data t hcollect⟩

theorem uploaded_hasRoot (now : Nat) (hash : String) (data : Bytes) (t : NarNode) :
    HasRoot ext (uploaded ext level now hash data t st).db hash t :=
  ⟨_, (Table.get?_insertOrReplace ..).trans (if_pos rfl), rfl⟩

/-! ## Narinfo uploads -/

section
variable {hash : String} {st' : Store δ} {narinfo : NarInfo} {t : NarNode}

omit [DecidableEq δ] in
theorem caNode_ne_placeholderRoot : caNode ext t ≠ placeholderRoot := by
  cases t <;> simp [caNode, fileNode, directoryNode, placeholderRoot]

omit [DecidableEq δ] in
theorem rootFor_quiet {b : Bool} {root : Option CaNode} (hf : st.faults = []) (h : rootFor ext hash b st = .ok root st') :
    st' = st ∧ (b = false ∧ root = some placeholderRoot ∨
      b = true ∧ root = (st.db.casPaths.get? hash).bind fun row => ext.decodeNode row.rootNode) ∧
    (b = true → ∀ row, st.db.casPaths.get? hash = some row → root ≠ none) := by
  unfold rootFor at h
  cases b with
  | false =>
    rw [if_neg (by decide)] at h
    cases h
    exact ⟨rfl, .inl ⟨rfl, rfl⟩, nofun⟩
  | true =>
    rw [if_pos rfl] at h
    unfold getRootNode at h
    rw [bind_of_ok (attempt_quiet hf), bind_of_ok (queryRow_quiet hf)] at h
    cases hrow : st.db.casPaths.get? hash with
    | none => rw [hrow] at h; cases h; exact ⟨rfl, .inr ⟨rfl, rfl⟩, nofun⟩
    | some row =>
      rw [hrow] at h
      simp only [Option.map_some] at h
      cases hdecode : ext.decodeNode row.rootNode with
      | none => rw [hdecode] at h; cases h
      | some node => rw [hdecode] at h; cases h; exact ⟨rfl, .inr ⟨rfl, hdecode.symm⟩, nofun⟩

omit [DecidableEq δ] in
theorem get?_withRoot (db : Db δ) (now : Nat) (narinfo : NarInfo) (root : CaNode) :
    (db.withRoot ext now hash narinfo root).casPaths.get? hash = some (pathRow ext now narinfo root) :=
  (Table.get?_insertOrReplace ..).trans (if_pos rfl)

omit [DecidableEq δ] in
theorem writeNarinfo_quiet (hf : st.faults = []) (now : Nat) (root : CaNode) :
    writeNarinfo ext now hash narinfo (some root) st = .ok () { st with db := st.db.withRoot ext now hash narinfo root } := by
  unfold writeNarinfo storeMetadata
  exact exec_quiet hf

/-- The root that `put_narinfo` keeps: the one of the row, or a placeholder. -/
def CurrentRoot (ext : Ext δ) (db : Db δ) (hash : String) (root : CaNode) : Prop :=
  db.casPaths.get? hash = none ∧ root = placeholderRoot ∨
    ∃ row, db.casPaths.get? hash = some row ∧ ext.decodeNode row.rootNode = some root

omit [DecidableEq δ] in
theorem readRoot_quiet (hf : st.faults = []) {root : CaNode} (hroot : CurrentRoot ext st.db hash root) :
    readRoot ext hash st = .ok (some root) st := by
  refine (bind_of_ok (query_quiet hf)).trans ?_
  rw [Table.contains_eq_isSome]
  rcases hroot with ⟨hnone, rfl⟩ | ⟨row, hrow, hdecode⟩
  · rw [hnone]; rfl
  · rw [hrow]
    refine (bind_of_ok (attempt_quiet hf)).trans ((bind_of_ok (queryRow_quiet hf)).trans ?_)
    simp only [hrow, Option.map_some, hdecode]
    rfl

omit [DecidableEq δ] in
theorem putNarinfo_quiet (hf : st.faults = []) {root : CaNode} (hroot : CurrentRoot ext st.db hash root) (now : Nat)
    {content : String} (hparse : NarInfo.parse content = some narinfo) :
    putNarinfo ext now hash content st = .ok true { st with db := st.db.withRoot ext now hash narinfo root } := by
  unfold putNarinfo
  rw [hparse]
  exact (bind_of_ok (readRoot_quiet hf hroot)).trans ((bind_of_ok (writeNarinfo_quiet hf now root)).trans rfl)

end

/-! ## Metadata survives a reload -/

omit [DecidableEq δ] in
theorem not_mem_split_basenames {references : List String} {p : String} (hp : p ∈ split ' ' (join ' ' (basenames references))) :
    '/' ∉ p.toList := by
  intro hslash
  obtain ⟨name, hname, hmem⟩ := (mem_join (by decide) _).mp (mem_of_mem_split (by decide) hp hslash)
  obtain ⟨r, -, rfl⟩ := List.mem_map.mp hname
  exact not_mem_rsplitNext _ _ hmem

omit [DecidableEq δ] in
theorem references_reload (references : List String) :
    join ' ' (basenames (if join ' ' (basenames references) = "" then [] else split ' ' (join ' ' (basenames references)))) =
      join ' ' (basenames references) := by
  by_cases hempty : join ' ' (basenames references) = ""
  · rw [if_pos hempty, hempty]; rfl
  rw [if_neg hempty]
  have hnames : basenames (split ' ' (join ' ' (basenames references))) = split ' ' (join ' ' (basenames references)) :=
    (List.map_congr_left fun p hp => rsplitNext_of_not_mem (not_mem_split_basenames hp)).trans (List.map_id _)
  rw [hnames, join_split]

theorem option_reload (o : Option String) : (if o.getD "" = "" then none else some (o.getD "")).getD "" = o.getD "" := by
  by_cases h : o.getD "" = ""
  · rw [if_pos h, h]; rfl
  · rw [if_neg h]; rfl

omit [DecidableEq δ] in
/-- Metadata that is loaded from a row and stored again is the same. -/
theorem pathRow_narinfoOfRow (hash : String) (now now' : Nat) (narinfo : NarInfo) (root root' : CaNode) :
    pathRow ext now' (narinfoOfRow hash (pathRow ext now narinfo root)) root' = pathRow ext now' narinfo root' := by
  have hsignatures : join '\n' (if join '\n' narinfo.signatures = "" then [] else
      split '\n' (join '\n' narinfo.signatures)) = join '\n' narinfo.signatures := by
    by_cases h : join '\n' narinfo.signatures = ""
    · rw [if_pos h, h]; rfl
    · rw [if_neg h, join_split]
  dsimp only [pathRow, narinfoOfRow]
  rw [references_reload, hsignatures, option_reload, option_reload]

end Ekapkgs
