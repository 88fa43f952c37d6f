import Ekapkgs.CasGc
import Ekapkgs.ExistenceRows
import Ekapkgs.FsGc
import Ekapkgs.Lib.Recency
import Ekapkgs.Lib.Runs
import Ekapkgs.Sample

/-!
# When a path was last read

An upload stamps its row with the second, an access with the start of the hour.
So an access in the hour in which the row was written takes the row back in time.
-/

namespace Ekapkgs
open Keyed Fallible Recency Runs

/-! ## Accesses -/

def PathRow.accessed (now : Nat) (row : PathRow) : PathRow := { row with lastAccess := now - now % 3600 }

section
variable {δ : Type}

/-- What `if let Ok(..)` and `let _` make of an error. -/
def ignoreError (m : CasM δ Unit) : CasM δ Unit := fun st => .ok () (finalState (m st))

def updateAccess (now : Nat) (hashes : List String) : CasM δ Unit :=
  ignoreError <| withTransaction <| hashes.dedup.forM fun hash =>
    discard <| tryExec fun db => { db with casPaths := db.casPaths.update hash (PathRow.accessed now) }

end

/-- What uploads and accesses do to the rows of paths. -/
inductive AccessOp where
  | putNar (now : Nat) (filePath : String) (data : Bytes)
  | putNarinfo (now : Nat) (hash content : String)
  | updateAccess (now : Nat) (hashes : List String)

/-- The paths whose rows are stamped. -/
def AccessOp.stamped : AccessOp → List String
  | .putNar _ filePath _ => [hashOfFilePath filePath]
  | .putNarinfo _ hash _ => [hash]
  | .updateAccess _ hashes => hashes

/-- The time they are stamped with. -/
def AccessOp.stamp : AccessOp → Nat
  | .putNar now _ _ => now
  | .putNarinfo now _ _ => now
  | .updateAccess now _ => now - now % 3600

variable {δ : Type} [DecidableEq δ] (ext : Ext δ) (level : Int)

def applyAccess : AccessOp → Store δ → Store δ
  | .putNar now filePath data, st => finalState (putNar ext level now filePath data st)
  | .putNarinfo now hash content, st => finalState (putNarinfo ext now hash content st)
  | .updateAccess now hashes, st => finalState (updateAccess now hashes st)

/-- No row is stamped with an earlier time than it has. -/
def OnTime (st : Store δ) (op : AccessOp) : Prop :=
  ∀ hash ∈ op.stamped, ∀ row, st.db.casPaths.get? hash = some row → row.lastAccess ≤ op.stamp

def accessStep (st : Store δ) (op : AccessOp) (st' : Store δ) : Prop := st' = applyAccess ext level op st

variable {ext level}

/-! ## Uploads -/

/-- The rows of paths are these. -/
abbrev PathsAre (t : Table String PathRow) : View δ := fun db _ => db.casPaths = t

/-- The rows of paths are these or later ones. -/
abbrev PathsLater (t : Table String PathRow) : View δ := fun db _ => Later PathRow.lastAccess t db.casPaths

variable {t : Table String PathRow}

omit [DecidableEq δ] in
theorem pathsLater_of_eq {db : Db δ} (h : db.casPaths = t) : Later PathRow.lastAccess t db.casPaths := by
  rw [h]
  exact .refl t

theorem runScript_paths (stmts : List (Stmt δ)) : Keeps (PathsAre t) (runScript ext level stmts) := by
  refine .forM _ fun stmt _ => ?_
  cases stmt with
  | chunk x => exact .bind (storeChunk_on (fun _ _ h => h) (fun _ _ h => h) fun _ _ h => h) fun _ => .pure fun _ h => h
  | fileChunk file index chunk size =>
    rw [Stmt.exec, insertFileChunkRow]
    exact exec_keeps fun _ _ h => h
  | directory dir => exact .bind (.bind (exec_keeps fun _ _ h => h) fun _ => .pure fun _ h => h) fun _ => .pure fun _ h => h

omit [DecidableEq δ] in
theorem storeMetadata_paths {now : Nat} {hash : String} (h : ∀ row, t.get? hash = some row → row.lastAccess ≤ now) (narinfo : NarInfo)
    (root : CaNode) : Triple (on (PathsAre t)) (storeMetadata ext now hash narinfo root) (fun _ => on (PathsLater t)) (fun _ => on (PathsLater t)) := by
  refine exec_on (fun db files hpaths => ?_) fun _ _ hpaths => pathsLater_of_eq hpaths
  show Later PathRow.lastAccess t (db.casPaths.insertOrReplace hash (pathRow ext now narinfo root))
  rw [show db.casPaths = t from hpaths]
  exact .insertOrReplace h

theorem putNar_paths {now : Nat} {filePath : String} (h : ∀ row, t.get? (hashOfFilePath filePath) = some row → row.lastAccess ≤ now)
    (data : Bytes) : Triple (on (PathsAre t)) (putNar ext level now filePath data) (fun _ => on (PathsLater t)) (fun _ => on (PathsLater t)) := by
  unfold putNar
  cases parseNar data with
  | error e => exact .throw fun _ hpaths => pathsLater_of_eq hpaths
  | ok narNode =>
    refine .bind (R := fun _ => on (PathsLater t)) ?_ fun _ => .pure fun _ h => h
    refine (withTransaction_on (D := fun db => db.casPaths = t) (F := fun _ => True) (I := PathsAre t) (Q := fun _ => PathsLater t)
      ?_ (fun _ _ _ => trivial) fun _ _ _ _ => trivial).conseq (fun _ h => ⟨h, h⟩) (fun _ _ h => h) fun _ _ h =>
        pathsLater_of_eq h.1
    rw [ingestNar, ingestNode_eq]
    suffices hbody : Triple (on (PathsAre t)) _ (fun _ => on (PathsLater t)) (fun _ => on (PathsLater t)) from
      hbody.conseq (fun _ h => h) (fun _ _ h => h) fun _ _ _ => trivial
    have hkeep : ∀ {α : Type} {m : CasM δ α}, Keeps (PathsAre t) m → Triple (on (PathsAre t)) m (fun _ => on (PathsAre t)) (fun _ => on (PathsLater t)) :=
      fun hm => hm.conseq (fun _ h => h) (fun _ _ h => h) fun _ _ h => pathsLater_of_eq h
    refine .bind (R := fun _ => on (PathsAre t)) (.bind (hkeep (runScript_paths _)) fun _ => .pure fun _ h => h) fun root => ?_
    refine .bind (.get (Q := fun _ => on (PathsAre t)) fun _ h => h) fun st => ?_
    refine .bind (hkeep (collectFileDigestsFromTree_keeps ext _ _ _)) fun fileDigests => ?_
    refine .bind (hkeep (.forM _ fun fd _ => exec_keeps fun _ _ h => h)) fun _ => ?_
    refine .bind (hkeep (loadMetadata_keeps _)) fun existing => ?_
    cases existing with
    | some existing => exact storeMetadata_paths h existing root
    | none => exact storeMetadata_paths h _ root

omit [DecidableEq δ] in
theorem putNarinfo_paths {now : Nat} {hash : String} (h : ∀ row, t.get? hash = some row → row.lastAccess ≤ now) (content : String) :
    Triple (on (PathsAre t)) (putNarinfo ext now hash content) (fun _ => on (PathsLater t)) (fun _ => on (PathsLater t)) := by
  unfold putNarinfo
  cases NarInfo.parse content with
  | none => exact .throw fun _ hpaths => pathsLater_of_eq hpaths
  | some narinfo =>
    refine .bind ((readRoot_keeps ext hash).conseq (fun _ h => h) (fun _ _ h => h) fun _ _ h => pathsLater_of_eq h) fun root => ?_
    refine .bind (R := fun _ => on (PathsLater t)) ?_ fun _ => .pure fun _ h => h
    cases root with
    | none => exact .pure fun _ hpaths => pathsLater_of_eq hpaths
    | some root => exact storeMetadata_paths h narinfo root

/-! ## Accesses -/

omit [DecidableEq δ] in
theorem finalState_ignoreError (m : CasM δ Unit) (st : Store δ) : finalState (ignoreError m st) = finalState (m st) := rfl

omit [DecidableEq δ] in
/-- Of the rows that are to be stamped, those are whose statement succeeds. -/
theorem updateAccess_paths (now : Nat) (hashes : List String) (st : Store δ) : ∃ keys ⊆ hashes,
    (finalState (updateAccess now hashes st)).db.casPaths = updateAll st.db.casPaths keys (PathRow.accessed now) := by
  let written : View δ := fun db _ => ∃ keys ⊆ hashes, db.casPaths = updateAll st.db.casPaths keys (PathRow.accessed now)
  have hinit : written st.db st.files := ⟨[], List.nil_subset _, (updateAll_nil _ _).symm⟩
  have hloop : Keeps written (hashes.dedup.forM fun hash =>
      discard <| tryExec fun db => { db with casPaths := db.casPaths.update hash (PathRow.accessed now) }) := by
    refine .forM _ fun hash hmem => discard_tryExec_on ?_
    rintro db files ⟨keys, hkeys, hpaths⟩
    refine ⟨hash :: keys, List.cons_subset.mpr ⟨List.mem_dedup.mp hmem, hkeys⟩, ?_⟩
    show db.casPaths.update hash (PathRow.accessed now) = _
    rw [hpaths]
    exact update_updateAll (f := PathRow.accessed now) (fun _ => rfl) st.db.casPaths hash keys
  have htransaction : Keeps written (withTransaction (hashes.dedup.forM fun hash =>
      discard <| tryExec fun db => { db with casPaths := db.casPaths.update hash (PathRow.accessed now) })) :=
    (withTransaction_on (D := fun db => written db st.files) (F := fun _ => True) (Q := fun _ => written)
      (hloop.conseq (fun _ h => h) (fun _ _ h => h) fun _ _ _ => trivial) (fun _ _ _ => trivial) fun _ _ _ _ => trivial).conseq
      (fun _ h => ⟨h, h⟩) (fun _ _ h => h) fun _ _ h => h.1
  rw [updateAccess, finalState_ignoreError]
  exact finalState_on htransaction hinit

/-- An operation that is on time takes no row back. -/
theorem applyAccess_later {st : Store δ} {op : AccessOp} (h : OnTime st op) :
    Later PathRow.lastAccess st.db.casPaths (applyAccess ext level op st).db.casPaths := by
  cases op with
  | putNar now filePath data =>
    exact finalState_on (putNar_paths (h _ (List.mem_singleton_self _)) data) rfl
  | putNarinfo now hash content =>
    exact finalState_on (putNarinfo_paths (h _ (List.mem_singleton_self _)) content) rfl
  | updateAccess now hashes =>
    obtain ⟨keys, hkeys, hpaths⟩ := updateAccess_paths now hashes st
    show Later PathRow.lastAccess _ (finalState (updateAccess now hashes st)).db.casPaths
    rw [hpaths]
    exact .updateAll fun hash hmem => h hash (hkeys hmem)

theorem updateAccess_order {st : Store δ} {now : Nat} {hashes : List String} (h : OnTime st (.updateAccess now hashes)) {p q : String}
    (hq : q ∉ hashes) (hbefore : [q, p].Sublist st.db.pathsByAccessAsc) :
    [q, p].Sublist (applyAccess ext level (.updateAccess now hashes) st).db.pathsByAccessAsc := by
  obtain ⟨keys, hkeys, hpaths⟩ := updateAccess_paths now hashes st
  show Before PathRow.lastAccess (finalState (updateAccess now hashes st)).db.casPaths q p
  rw [hpaths]
  exact Before.updateAll (fun hash hmem => h hash (hkeys hmem)) hbefore fun hmem => hq (hkeys hmem)

/-! ## The tables of the filesystem storage -/

/-- What a start of the server and accesses do; `fails` says which updates fail. -/
inductive GcAccessOp where
  | initialScan (now : Nat) (disk : Disk)
  | flushAccesses (now : Nat) (hashes : List String) (fails : String → Bool)

def applyGcAccess : GcAccessOp → GcDb → GcDb
  | .initialScan now disk, db => (initialScan now (db, disk)).1
  | .flushAccesses now hashes fails, db => flushAccesses now (hashes.filter fun hash => !fails hash) db

def GcOnTime (db : GcDb) : GcAccessOp → Prop
  | .initialScan _ _ => True
  | .flushAccesses now hashes _ => ∀ hash ∈ hashes, ∀ row, db.storePaths.get? hash = some row → row.lastAccess ≤ now - now % 3600

def gcAccessStep (db : GcDb) (op : GcAccessOp) (db' : GcDb) : Prop := db' = applyGcAccess op db

theorem flushAccesses_storePaths (now : Nat) (hashes : List String) (db : GcDb) : (flushAccesses now hashes db).storePaths =
    updateAll db.storePaths hashes fun row => { row with lastAccess := now - now % 3600 } := by
  refine Table.ext_rows (List.map_congr_left fun r _ => ?_)
  by_cases hr : r.1 ∈ hashes
  · simp [hr]
  · simp [hr]

theorem scanEntry_later (now : Nat) (disk : Disk) (name : String) (bytes : Bytes) (db : GcDb) :
    Later StorePathRow.lastAccess db.storePaths (scanEntry now disk name bytes db).storePaths := by
  unfold scanEntry
  split
  · exact .refl _
  next hash _ =>
    split
    · exact .refl _
    · split
      · exact .refl _
      · exact .insertOrIgnore _ _ _

theorem initialScan_later (now : Nat) (disk : Disk) (db : GcDb) :
    Later StorePathRow.lastAccess db.storePaths (initialScan now (db, disk)).1.storePaths := by
  have hrows : ∀ (rows : List (String × Bytes)) (db : GcDb), Later StorePathRow.lastAccess db.storePaths
      (rows.foldl (fun db r => scanEntry now disk r.1 r.2 db) db).storePaths := by
    intro rows
    induction rows with
    | nil => exact fun db => .refl _
    | cons r rows ih => exact fun db => (scanEntry_later now disk r.1 r.2 db).trans (ih _)
  exact hrows disk.rows db

theorem applyGcAccess_later {db : GcDb} {op : GcAccessOp} (h : GcOnTime db op) :
    Later StorePathRow.lastAccess db.storePaths (applyGcAccess op db).storePaths := by
  cases op with
  | initialScan now disk => exact initialScan_later now disk db
  | flushAccesses now hashes fails =>
    rw [applyGcAccess, flushAccesses_storePaths]
    exact .updateAll fun hash hmem => h hash (List.mem_of_mem_filter hmem)

theorem flushAccesses_order {db : GcDb} {now : Nat} {hashes : List String} {fails : String → Bool}
    (h : GcOnTime db (.flushAccesses now hashes fails)) {p q : String} (hq : q ∉ hashes)
    (hbefore : [q, p].Sublist (db.pathEntries.map PathEntry.hash)) :
    [q, p].Sublist ((applyGcAccess (.flushAccesses now hashes fails) db).pathEntries.map PathEntry.hash) := by
  have hentries : ∀ db : GcDb, db.pathEntries.map PathEntry.hash = oldestFirst StorePathRow.lastAccess db.storePaths := by
    intro db
    rw [GcDb.pathEntries, List.map_map]
    rfl
  rw [hentries] at hbefore ⊢
  rw [applyGcAccess, flushAccesses_storePaths]
  exact Before.updateAll (fun hash hmem => h hash (List.mem_of_mem_filter hmem)) hbefore fun hmem => hq (List.mem_of_mem_filter hmem)

/-! ## Runs -/

def readText (name : String) : String :=
  "StorePath: /nix/store/" ++ name ++ "\nURL: nar/" ++ name ++ ".nar\nNarHash: sha256:0\nNarSize: 0\n"

/-- The path a, uploaded at the full hour. -/
def onTheHour : Store Bytes := applyAccess sampleExt 3 (.putNarinfo 3600 "a" (readText "a")) .empty

def AccessOp.now : AccessOp → Nat
  | .putNar now _ _ => now
  | .putNarinfo now _ _ => now
  | .updateAccess now _ => now

/-- The paths a and b, uploaded a hundred seconds after the full hour. -/
def pastTheHour : Store Bytes :=
  applyAccess sampleExt 3 (.putNarinfo 3700 "b" (readText "b")) (applyAccess sampleExt 3 (.putNarinfo 3700 "a" (readText "a")) .empty)

end Ekapkgs
