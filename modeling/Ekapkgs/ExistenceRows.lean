import Ekapkgs.Existence
import Ekapkgs.CastoreUpload

/-!
# The rows behind the filters

Which keys an act adds to the tables, whatever fails in it, and what a rebuilt
filter finds.
-/

namespace Ekapkgs
open Keyed Fallible

variable {δ : Type} [DecidableEq δ]

/-! ## Keys of the tables -/

def RowsAre (R : StoreKey δ → Prop) : View δ := fun db _ => ∀ k, db.hasRow k = true ↔ R k

/-- No fewer rows than `R`, and no more than `S`. -/
structure RowsBetween (R S : StoreKey δ → Prop) (db : Db δ) : Prop where
  lower : ∀ k, R k → db.hasRow k = true
  upper : ∀ k, db.hasRow k = true → S k

variable {R S : StoreKey δ → Prop} {db : Db δ}

theorem RowsAre.congr {R' : StoreKey δ → Prop} {files : δ → Option Bytes} (h : RowsAre R db files) (hR : ∀ k, R k ↔ R' k) :
    RowsAre R' db files := fun k => (h k).trans (hR k)

/-- The other tables hold no keys. -/
theorem RowsAre.of_tables {db' : Db δ} {files : δ → Option Bytes} (h : RowsAre R db files) (hchunks : db'.chunks = db.chunks)
    (hpaths : db'.casPaths = db.casPaths) : RowsAre R db' files := by
  intro k
  rw [← h k]
  cases k <;> simp only [Db.hasRow, hchunks, hpaths]

theorem hasRow_insertChunk {digest : δ} {row : ChunkRow} {k : StoreKey δ} :
    ({ db with chunks := db.chunks.insertOrIgnore digest row } : Db δ).hasRow k = true ↔
      db.hasRow k = true ∨ k = .chunk digest := by
  cases k with
  | chunk d => simp only [Db.hasRow, Table.contains_insertOrIgnore, StoreKey.chunk.injEq]
  | path hash => simp [Db.hasRow]

theorem hasRow_insertPath {hash : String} {row : PathRow} {k : StoreKey δ} :
    ({ db with casPaths := db.casPaths.insertOrReplace hash row } : Db δ).hasRow k = true ↔
      db.hasRow k = true ∨ k = .path hash := by
  cases k with
  | chunk d => simp [Db.hasRow]
  | path h => simp only [Db.hasRow, Table.contains_insertOrReplace, StoreKey.path.injEq]

theorem hasRow_recoverPath {hash : String} {row : PathRow} {k : StoreKey δ} :
    ({ db with casPaths := db.casPaths.insertOrIgnore hash row } : Db δ).hasRow k = true ↔
      db.hasRow k = true ∨ k = .path hash := by
  cases k with
  | chunk d => simp [Db.hasRow]
  | path h => simp only [Db.hasRow, Table.contains_insertOrIgnore, StoreKey.path.injEq]

theorem mem_keysOf {kind : StoreKind} {k : StoreKey δ} : k ∈ db.keysOf kind ↔ k.kind = kind ∧ db.hasRow k = true := by
  cases kind <;> cases k <;> simp [Db.keysOf, StoreKey.kind, Db.hasRow, Table.contains_iff_mem]

/-! ## Uploads -/

variable {ext : Ext δ} {level : Int}

def Stmt.keys (ext : Ext δ) : Stmt δ → List (StoreKey δ)
  | .chunk x => [.chunk (ext.blake3 x)]
  | _ => []

theorem storeChunk_rows (x : Bytes) : Triple (on (RowsAre R)) (storeChunk ext level x)
    (fun _ => on (RowsAre fun k => R k ∨ k = .chunk (ext.blake3 x))) (fun _ => on (RowsAre R)) :=
  storeChunk_on (fun _ _ h => h) (fun _ _ h => h) fun _ _ h _ => hasRow_insertChunk.trans (or_congr_left (h _))

theorem Stmt.exec_rows (stmt : Stmt δ) : Triple (on (RowsAre R)) (stmt.exec ext level)
    (fun _ => on (RowsAre fun k => R k ∨ k ∈ stmt.keys ext)) (fun _ => on (RowsAre R)) := by
  cases stmt with
  | chunk x =>
    exact .bind (storeChunk_rows x) fun _ => .pure fun _ h => RowsAre.congr h fun k => by rw [Stmt.keys, List.mem_singleton]
  | fileChunk file index chunk size =>
    rw [Stmt.exec, insertFileChunkRow]
    exact exec_on (fun _ _ h => (h.of_tables rfl rfl).congr fun k => by simp [Stmt.keys]) fun _ _ h => h
  | directory dir =>
    rw [Stmt.exec, insertDirectory]
    exact .bind (.bind (exec_on (J := RowsAre fun k => R k ∨ k ∈ Stmt.keys ext (.directory dir))
      (fun _ _ h => (h.of_tables rfl rfl).congr fun k => by simp [Stmt.keys]) fun _ _ h => h) fun _ => .pure fun _ h => h)
      fun _ => .pure fun _ h => h

theorem runScript_rows : ∀ (stmts : List (Stmt δ)) (R : StoreKey δ → Prop), Triple (on (RowsAre R)) (runScript ext level stmts)
    (fun _ => on (RowsAre fun k => R k ∨ k ∈ stmts.flatMap (Stmt.keys ext))) (fun _ _ => True)
  | [], R => by rw [runScript_nil]; exact .pure fun _ h k => by simpa using h k
  | stmt :: stmts, R => by
    rw [runScript_cons]
    refine .bind ((stmt.exec_rows).conseq (fun _ h => h) (fun _ _ h => h) fun _ _ _ => trivial) fun _ => ?_
    exact (runScript_rows stmts _).post fun _ _ h => RowsAre.congr h fun k => by rw [List.flatMap_cons, List.mem_append, or_assoc]

omit [DecidableEq δ] in
theorem mem_scriptKeys (laws : ext.Laws) {t : NarNode} {k : StoreKey δ} :
    k ∈ (script ext t.postorder).flatMap (Stmt.keys ext) ↔ k ∈ narChunks ext t := by
  rw [List.mem_flatMap, narChunks, List.mem_map]
  constructor
  · rintro ⟨stmt, hstmt, hk⟩
    cases stmt with
    | chunk x => exact ⟨x, (chunk_mem_script laws hstmt).1, (List.mem_singleton.mp hk).symm⟩
    | fileChunk file index chunk size => cases hk
    | directory dir => cases hk
  · rintro ⟨x, hx, rfl⟩
    obtain ⟨data, hdata, hx⟩ := List.mem_flatMap.mp hx
    exact ⟨_, mem_script_file hdata (List.mem_append_left _ (List.mem_map_of_mem hx)), List.mem_singleton.mpr rfl⟩

theorem storeMetadata_rows (now : Nat) (hash : String) (narinfo : NarInfo) (root : CaNode) :
    Triple (on (RowsAre R)) (storeMetadata ext now hash narinfo root)
      (fun _ => on (RowsAre fun k => R k ∨ k = .path hash)) (fun _ => on (RowsAre R)) := by
  unfold storeMetadata
  exact exec_on (fun _ _ h _ => hasRow_insertPath.trans (or_congr_left (h _))) fun _ _ h => h

theorem storeRoot_rows (now : Nat) (hash : String) (data : Bytes) (root : CaNode) :
    Triple (on (RowsAre R)) (storeRoot ext now hash data root)
      (fun _ => on (RowsAre fun k => R k ∨ k = .path hash)) (fun _ => on (RowsAre R)) := by
  refine .bind (loadMetadata_keeps _) fun existing => ?_
  cases existing with
  | some existing => exact storeMetadata_rows now hash existing root
  | none => exact storeMetadata_rows now hash _ root

theorem putNar_rows (laws : ext.Laws) (now : Nat) (filePath : String) (data : Bytes) :
    Triple (on (RowsAre R)) (putNar ext level now filePath data)
      (fun _ => on (RowsAre fun k => R k ∨ k ∈ (Commit.putNar now filePath data).keys ext)) (fun _ => on (RowsAre R)) := by
  unfold putNar
  cases hparse : parseNar data with
  | error e => exact .throw fun _ h => h
  | ok t =>
    have hkeys : (Commit.putNar now filePath data).keys ext = narChunks ext t ++ [.path (hashOfFilePath filePath)] := by
      rw [Commit.keys, hparse]
    rw [hkeys]
    refine .bind ?_ fun _ => .pure fun _ h => h
    refine (withTransaction_on (D := fun db => ∀ k, db.hasRow k = true ↔ R k) (F := fun _ => True) (I := RowsAre R)
      (Q := fun _ => RowsAre fun k => R k ∨ k ∈ narChunks ext t ++ [.path (hashOfFilePath filePath)])
      ?_ (fun _ _ _ => trivial) fun _ _ _ _ => trivial).conseq (fun _ h => ⟨h, h⟩) (fun _ _ h => h) fun _ _ h => h.1
    rw [ingestNar, ingestNode_eq]
    let R' := fun k => R k ∨ k ∈ narChunks ext t
    have hscript : Triple (on (RowsAre R)) (runScript ext level (script ext t.postorder)) (fun _ => on (RowsAre R'))
        (fun _ => on fun _ _ => True) :=
      (runScript_rows _ R).post fun _ _ h => RowsAre.congr h fun k => or_congr_right (mem_scriptKeys laws)
    refine .bind (R := fun _ => on (RowsAre R')) (.bind hscript fun _ => .pure fun _ h => h) fun root => ?_
    refine .bind (.get (Q := fun _ => on (RowsAre R')) fun _ h => h) fun st => ?_
    refine .bind ((collectFileDigestsFromTree_keeps ext _ _ _).conseq (fun _ h => h) (fun _ _ h => h) fun _ _ _ => trivial)
      fun fileDigests => ?_
    refine .bind (R := fun _ => on (RowsAre R')) (.forM _ fun fd _ => exec_on (fun _ _ h => h) fun _ _ _ => trivial) fun _ => ?_
    refine (storeRoot_rows now _ data root).conseq (fun _ h => h) (fun _ _ h => RowsAre.congr h fun k => ?_) fun _ _ _ => trivial
    rw [List.mem_append, List.mem_singleton, or_assoc]

theorem Commit.exec_rows (laws : ext.Laws) (c : Commit) : Triple (on (RowsAre R)) (c.exec ext level)
    (fun _ => on (RowsAre fun k => R k ∨ k ∈ c.keys ext)) (fun _ => on (RowsAre R)) := by
  cases c with
  | storeChunk data =>
    exact .bind (storeChunk_rows data) fun _ => .pure fun _ h => RowsAre.congr h fun k => by rw [Commit.keys, List.mem_singleton]
  | putNar now filePath data => exact .bind (putNar_rows laws now filePath data) fun _ => .pure fun _ h => h
  | storeMetadata now hash narinfo root =>
    exact (storeMetadata_rows now hash narinfo root).post fun _ _ h => RowsAre.congr h fun k => by
      rw [Commit.keys, List.mem_singleton]

/-! ## Recovery -/

omit [DecidableEq δ] in
theorem tryExec_on {I J : View δ} {f : Db δ → Db δ} {E : CasError δ → Store δ → Prop} (h : ∀ db files, I db files → J (f db) files)
    (h' : ∀ db files, I db files → J db files) : Triple (on I) (tryExec f) (fun _ => on J) E := by
  refine .bind fails_on fun fault => ?_
  cases fault with
  | true => exact .pure fun st => h' st.db st.files
  | false => exact .bind (.modify (Q := fun _ => on J) fun st => h st.db st.files) fun _ => .pure fun _ h => h

omit [DecidableEq δ] in
theorem discard_tryExec_on {I : View δ} {f : Db δ → Db δ} {E : CasError δ → Store δ → Prop}
    (h : ∀ db files, I db files → I (f db) files) : Triple (on I) (discard (tryExec f)) (fun _ => on I) E :=
  .bind (tryExec_on h fun _ _ h => h) fun _ => .pure fun _ h => h

theorem RowsBetween.insert {db' : Db δ} {key : StoreKey δ} (h : RowsBetween R S db) (hkey : S key)
    (hrows : ∀ k, db'.hasRow k = true ↔ db.hasRow k = true ∨ k = key) : RowsBetween R S db' where
  lower k hk := (hrows k).mpr (.inl (h.lower k hk))
  upper k hk := ((hrows k).mp hk).elim (h.upper k) fun e => e ▸ hkey

abbrev rowsBetween (R S : StoreKey δ → Prop) : View δ := fun db _ => RowsBetween R S db

theorem recoverPath_rows {row : String × PathRow} (hkey : S (.path row.1)) :
    Keeps (rowsBetween R S) (recoverPath ext row) := by
  refine .bind (tryExec_on (J := rowsBetween R S) (fun _ _ h => h.insert hkey fun k => hasRow_recoverPath) fun _ _ h => h)
    fun inserted => ?_
  cases inserted with
  | false => exact .pure fun _ h => h
  | true =>
    cases ext.decodeNode row.2.rootNode with
    | none => exact .pure fun _ h => h
    | some root =>
      refine .bind (.get (Q := fun _ => on (rowsBetween R S)) fun _ h => h) fun st => ?_
      refine .bind (collectFileDigestsFromTree_keeps ext _ _ _) fun fds => ?_
      exact .forM _ fun fd _ => discard_tryExec_on fun _ _ h => ⟨h.lower, h.upper⟩

theorem Batch.write_rows (batch : Batch δ) : Triple (on (RowsAre R)) (batch.write ext)
    (fun _ => on (rowsBetween R fun k => R k ∨ k ∈ batch.keys)) (fun _ => on (RowsAre R)) := by
  have htransaction : ∀ {body : CasM δ Unit} {keys : List (StoreKey δ)}, Keeps (rowsBetween R fun k => R k ∨ k ∈ keys) body →
      Triple (on (RowsAre R)) (withTransaction body) (fun _ => on (rowsBetween R fun k => R k ∨ k ∈ keys))
        (fun _ => on (RowsAre R)) := by
    intro body keys hbody
    refine (withTransaction_on (D := fun db => ∀ k, db.hasRow k = true ↔ R k) (F := fun _ => True)
      (I := rowsBetween R fun k => R k ∨ k ∈ keys) (Q := fun _ => rowsBetween R fun k => R k ∨ k ∈ keys)
      (hbody.conseq (fun _ h => h) (fun _ _ h => h) fun _ _ _ => trivial) (fun _ _ _ => trivial)
      fun _ _ _ _ => trivial).conseq (fun _ h => ⟨h, ?_⟩) (fun _ _ h => h) fun _ _ h => h.1
    exact ⟨fun k hk => (h k).mpr hk, fun k hk => .inl ((h k).mp hk)⟩
  cases batch with
  | chunks rows =>
    refine htransaction (.forM rows fun row hrow => discard_tryExec_on fun _ _ h => ?_)
    exact h.insert (.inr (List.mem_map.mpr ⟨row, hrow, rfl⟩)) fun k => hasRow_insertChunk
  | fileChunks rows => exact htransaction (.forM rows fun row _ => discard_tryExec_on fun _ _ h => ⟨h.lower, h.upper⟩)
  | directories rows => exact htransaction (.forM rows fun row _ => discard_tryExec_on fun _ _ h => ⟨h.lower, h.upper⟩)
  | casPaths rows =>
    exact htransaction (.forM rows fun row hrow => recoverPath_rows (.inr (List.mem_map.mpr ⟨row, hrow, rfl⟩)))

omit [DecidableEq δ] in
theorem Salvage.next_keys {left left' : Salvage δ} {batch : Batch δ} (h : left.next = some (batch, left')) :
    batch.keys ⊆ left.keys ∧ left'.keys ⊆ left.keys := by
  have htake : ∀ {ρ : Type} {f : ρ → StoreKey δ} {rows : List ρ}, (rows.take RECOVERY_BATCH_SIZE).map f ⊆ rows.map f := @fun _ _ _ =>
    (List.take_sublist _ _).map _ |>.subset
  have hdrop : ∀ {ρ : Type} {f : ρ → StoreKey δ} {rows : List ρ}, (rows.drop RECOVERY_BATCH_SIZE).map f ⊆ rows.map f := @fun _ _ _ =>
    (List.drop_sublist _ _).map _ |>.subset
  unfold Salvage.next at h
  split_ifs at h <;> cases h
  · exact ⟨fun _ hk => List.mem_append_left _ (htake hk), List.append_subset.mpr
      ⟨fun _ hk => List.mem_append_left _ (hdrop hk), List.subset_append_right ..⟩⟩
  · exact ⟨List.nil_subset _, List.Subset.refl _⟩
  · exact ⟨List.nil_subset _, List.Subset.refl _⟩
  · exact ⟨fun _ hk => List.mem_append_right _ (htake hk), List.append_subset.mpr
      ⟨List.subset_append_left .., fun _ hk => List.mem_append_right _ (hdrop hk)⟩⟩

/-! ## Eviction -/

def rowsWithin (R : StoreKey δ → Prop) : View δ := fun db _ => ∀ k, db.hasRow k = true → R k

theorem releaseFiles_rows : ∀ files chunkDigests : List δ, Keeps (rowsWithin R) (releaseFiles files chunkDigests)
  | [], _ => .pure fun _ h => h
  | file :: files, chunkDigests => by
    refine .bind query_keeps fun stillReferenced => ?_
    cases stillReferenced with
    | true => exact releaseFiles_rows files chunkDigests
    | false => exact .bind query_keeps fun chunks => .bind (exec_keeps fun _ _ h => h) fun _ => releaseFiles_rows files _

theorem releaseChunks_rows : ∀ (chunks : List δ) (bytesFreed : Nat), Keeps (rowsWithin R) (releaseChunks chunks bytesFreed)
  | [], _ => .pure fun _ h => h
  | chunk :: chunks, bytesFreed => by
    refine .bind query_keeps fun stillReferenced => ?_
    cases stillReferenced with
    | true => exact releaseChunks_rows chunks bytesFreed
    | false =>
      refine .bind queryRow_keeps fun size => .bind (exec_keeps fun db _ h k hk => h k ?_) fun _ => ?_
      · cases k with
        | chunk d => exact Table.contains_of_deleteWhere hk
        | path hash => exact hk
      · exact .bind (removeFile_on (fun _ _ h => h) fun _ _ h => h) fun _ => releaseChunks_rows chunks _

theorem evictPath_rows (hash : String) : Keeps (rowsWithin R) (evictPath hash) := by
  refine (withTransaction_on (D := fun db => ∀ k, db.hasRow k = true → R k) (F := fun _ => True) (I := rowsWithin R)
    (Q := fun _ => rowsWithin R) ?_ (fun _ _ _ => trivial) fun _ _ _ _ => trivial).conseq (fun _ h => ⟨h, h⟩) (fun _ _ h => h)
      fun _ _ h => h.1
  refine Triple.conseq (show Keeps (rowsWithin R) _ from ?_) (fun _ h => h) (fun _ _ h => h) fun _ _ _ => trivial
  refine .bind query_keeps fun fileDigests => .bind (.bind (exec_keeps fun _ _ h k hk => h k ?_) fun _ => exec_keeps fun _ _ h => h)
    fun _ => ?_
  · cases k with
    | chunk d => exact hk
    | path hash => exact Table.contains_of_deleteWhere hk
  by_cases hempty : fileDigests.isEmpty
  · rw [if_pos hempty]; exact .pure fun _ h => h
  · rw [if_neg hempty]
    exact .bind (releaseFiles_rows _ _) fun _ => releaseChunks_rows _ _

end Ekapkgs
