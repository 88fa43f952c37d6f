import Ekapkgs.GcSafety
import Ekapkgs.RecoverySafe

/-!
# Backfilling `path_files`

`spawn_backfill` in `storage/castore.rs`: a database from before the table is
scanned in batches by position, and the files of every path are recorded, while
uploads go on. A row that an upload replaces goes to the end of the table, and
whether there is anything to backfill is decided anew at every start.
-/

namespace Ekapkgs
open Keyed Fallible Runs

def BACKFILL_BATCH_SIZE : Nat := 1000

/-- The thread: where its scan is, and the rows it has read and not yet written. -/
structure Backfill where
  offset : Nat
  batch : List (String × Bytes)

/-- A `put_narinfo` between its reads of the row and its write. -/
inductive NarinfoCall where
  | idle
  | found (hash : String) (narinfo : NarInfo) (hasRoot : Bool)
  | read (hash : String) (narinfo : NarInfo) (rootNode : Option CaNode)

structure BackfillServer (δ : Type) where
  store : Store δ
  pathFilesReady : Bool
  backfill : Option Backfill
  calls : Nat → NarinfoCall

inductive BackfillStep where
  | readBatch
  | writeBatch
  /-- The process stops and is started again. -/
  | restart
  | putNar (now : Nat) (filePath : String) (data : Bytes)
  | putNarinfo (call : Nat) (hash content : String)
  | readRoot (call : Nat)
  | writeRow (call now : Nat)

variable {δ : Type}

/-- `SELECT hash, root_node FROM cas_paths LIMIT ?1 OFFSET ?2`. -/
def Db.pathsFrom (db : Db δ) (offset : Nat) : List (String × Bytes) :=
  ((db.casPaths.rows.drop offset).take BACKFILL_BATCH_SIZE).map fun r => (r.1, r.2.rootNode)

def BackfillServer.opened (store : Store δ) : BackfillServer δ :=
  let needsBackfill := store.db.pathFilesNeedsBackfill
  { store := { store with dirCache := .empty }
    pathFilesReady := !needsBackfill
    backfill := if needsBackfill then some ⟨0, []⟩ else none
    calls := fun _ => .idle }

variable [DecidableEq δ] (ext : Ext δ) (level : Int)

/-- `let _ = tx.execute(..)` for every file of the tree. -/
def backfillPath (row : String × Bytes) : CasM δ Unit :=
  match ext.decodeNode row.2 with
  | none => pure ()
  | some rootNode => do
    let st ← get
    let fileDigests ← collectFileDigestsFromTree ext st.db.depth rootNode []
    fileDigests.forM (recoverPathFile row.1)

def backfillNext (s : BackfillServer δ) : BackfillStep → Option (BackfillServer δ)
  | .readBatch =>
    match s.backfill with
    | none => none
    | some run =>
      if run.batch ≠ [] then none
      else if s.store.db.pathsFrom run.offset = [] then some { s with pathFilesReady := true, backfill := none }
      else some { s with backfill := some { run with batch := s.store.db.pathsFrom run.offset } }
  | .writeBatch =>
    match s.backfill with
    | none => none
    | some run =>
      if run.batch = [] then none
      else onReturn (withTransaction (run.batch.forM (backfillPath ext)) s.store) fun _ st =>
        if run.batch.length < BACKFILL_BATCH_SIZE then { s with store := st, pathFilesReady := true, backfill := none }
        else { s with store := st, backfill := some ⟨run.offset + run.batch.length, []⟩ }
  | .restart => some (.opened s.store)
  | .putNar now filePath data => some { s with store := finalState (putNar ext level now filePath data s.store) }
  | .putNarinfo call hash content =>
    match NarInfo.parse content, s.calls call with
    | some narinfo, .idle => onReturn (hasRoot hash s.store) fun b st =>
        { s with store := st, calls := Function.update s.calls call (.found hash narinfo b) }
    | _, _ => none
  | .readRoot call =>
    match s.calls call with
    | .found hash narinfo b => onReturn (rootFor ext hash b s.store) fun rootNode st =>
        { s with store := st, calls := Function.update s.calls call (.read hash narinfo rootNode) }
    | _ => none
  | .writeRow call now =>
    match s.calls call with
    | .read hash narinfo rootNode => onReturn (writeNarinfo ext now hash narinfo rootNode s.store) fun _ st =>
        { s with store := st, calls := Function.update s.calls call .idle }
    | _ => none

abbrev backfillStep : BackfillServer δ → BackfillStep → BackfillServer δ → Prop := stepOf (backfillNext ext level)

/-! ## What has to be recorded -/

/-- Every file of every path is in `path_files`. -/
def PathFilesComplete (db : Db δ) : Prop := ∀ hash f, PathReaches ext db hash f → db.pathFiles.get? (hash, f) = some ()

/-- A root whose tree was uploaded, or none yet. -/
def Rooted (db : Db δ) (rootNode : Bytes) : Prop :=
  ∃ nar, rootNode = ext.encodeNode (rootOf ext nar) ∧ ∀ t, nar = some t → HasDirectories ext db t

/-- A database of the time before `path_files`. -/
structure PrePathFiles (db : Db δ) : Prop where
  empty : db.pathFiles.rows = []
  rows : ContentRows ext db
  rooted : ∀ hash row, db.casPaths.get? hash = some row → Rooted ext db row.rootNode

def Recorded (db : Db δ) (hash : String) (rootNode : Bytes) : Prop :=
  ∀ root f, ext.decodeNode rootNode = some root → Reaches ext db root f → db.pathFiles.get? (hash, f) = some ()

def Backfill.scanned (run : Backfill) : Nat := run.offset + run.batch.length

/-- The scan ends with this batch. -/
def Backfill.last (run : Backfill) : Prop := run.batch ≠ [] ∧ run.batch.length < BACKFILL_BATCH_SIZE

instance (run : Backfill) : Decidable run.last := inferInstanceAs (Decidable (_ ∧ _))

/-- The rows that no later batch is for. -/
def BackfillServer.passed (s : BackfillServer δ) : List (String × PathRow) :=
  match s.backfill with
  | none => s.store.db.casPaths.rows
  | some run => if run.last then s.store.db.casPaths.rows else s.store.db.casPaths.rows.take run.scanned

/-- The files of the path are recorded, or this batch is about to do it. -/
def BackfillServer.Covered (s : BackfillServer δ) (hash : String) (rootNode : Bytes) : Prop :=
  Recorded ext s.store.db hash rootNode ∨ ∃ run, s.backfill = some run ∧ (hash, rootNode) ∈ run.batch

/-- A row that the scan has passed makes room at its place only for a row that
needs no backfill. -/
def NoSkip (s : BackfillServer δ) (hash : String) : Prop :=
  hash ∈ s.passed.map Prod.fst → ∀ r, s.store.db.casPaths.rows[s.passed.length]? = some r → s.Covered ext r.1 r.2.rootNode

/-- `put_narinfo` writes back the root the row still has, or one that needs no
backfill, or a row that the scan comes to. -/
def WritesCovered (s : BackfillServer δ) (hash : String) (rootNode : CaNode) : Prop :=
  s.passed.length < s.store.db.casPaths.rows.length ∨ s.Covered ext hash (ext.encodeNode rootNode) ∨
    ∃ row, s.store.db.casPaths.get? hash = some row ∧ row.rootNode = ext.encodeNode rootNode

def BackfillSafe (s : BackfillServer δ) : BackfillStep → Prop
  | .restart => s.store.db.pathFiles.rows = [] ∨ PathFilesComplete ext s.store.db
  | .putNar _ filePath _ => NoSkip ext s (hashOfFilePath filePath)
  | .writeRow call _ => ∀ hash narinfo rootNode, s.calls call = .read hash narinfo (some rootNode) →
      NoSkip ext s hash ∧ WritesCovered ext s hash rootNode
  | _ => True

variable {ext level} {db db' : Db δ}

/-! ## What stays recorded -/

/-- Nothing that matters here is lost. -/
structure Grows (ext : Ext δ) (db db' : Db δ) : Prop where
  directories : ∀ t, HasDirectories ext db t → HasDirectories ext db' t
  pathFiles : ∀ hash f, db.pathFiles.get? (hash, f) = some () → db'.pathFiles.get? (hash, f) = some ()

theorem Grows.of_eq (hdirectories : db'.directories = db.directories) (hpathFiles : db'.pathFiles = db.pathFiles) :
    Grows ext db db' := by
  refine ⟨fun t h entries hentries => ?_, fun hash f h => ?_⟩
  · rw [hdirectories]; exact h entries hentries
  · rw [hpathFiles]; exact h

theorem Rooted.grows {rootNode : Bytes} (hgrows : Grows ext db db') (h : Rooted ext db rootNode) : Rooted ext db' rootNode := by
  obtain ⟨nar, hroot, hdirs⟩ := h
  exact ⟨nar, hroot, fun t ht => hgrows.directories t (hdirs t ht)⟩

theorem rooted_placeholder : Rooted ext db (ext.encodeNode placeholderRoot) := ⟨none, rfl, nofun⟩

/-- What has to be recorded for a root is the files of its tree. -/
theorem recorded_iff (laws : ext.Laws) {hash : String} {nar : Option NarNode} (hdirs : ∀ t, nar = some t → HasDirectories ext db t) :
    Recorded ext db hash (ext.encodeNode (rootOf ext nar)) ↔
      ∀ t, nar = some t → ∀ f ∈ t.files.map ext.blake3, db.pathFiles.get? (hash, f) = some () := by
  unfold Recorded
  constructor
  · intro h t ht f hf
    subst ht
    exact h _ f (laws.decode_encodeNode _) ((reaches_caNode laws t (hdirs t rfl)).mpr hf)
  · intro h root f hdecode hreach
    rw [laws.decode_encodeNode] at hdecode
    cases hdecode
    cases nar with
    | none => cases hreach
    | some t => exact h t rfl f ((reaches_caNode laws t (hdirs t rfl)).mp hreach)

theorem Recorded.grows (laws : ext.Laws) {hash : String} {rootNode : Bytes} (hgrows : Grows ext db db') (hrooted : Rooted ext db rootNode)
    (h : Recorded ext db hash rootNode) : Recorded ext db' hash rootNode := by
  obtain ⟨nar, rfl, hdirs⟩ := hrooted
  rw [recorded_iff laws hdirs] at h
  rw [recorded_iff laws fun t ht => hgrows.directories t (hdirs t ht)]
  intro t ht f hf
  exact hgrows.pathFiles hash f (h t ht f hf)

/-! ## A batch -/

variable {st : Store δ}

/-- A path of the batch gains the files of its tree. -/
theorem backfillPath_quiet (laws : ext.Laws) (row : String × Bytes) (hf : st.faults = []) : ∃ fds,
    backfillPath ext row st = .ok () { st with db := st.db.withPathFiles row.1 fds } ∧
      (Rooted ext st.db row.2 → Recorded ext (st.db.withPathFiles row.1 fds) row.1 row.2) := by
  unfold backfillPath
  cases hdecode : ext.decodeNode row.2 with
  | none =>
    refine ⟨[], rfl, fun _ root f hroot => ?_⟩
    rw [hdecode] at hroot; cases hroot
  | some root =>
    obtain ⟨fds, hcollect⟩ := collectFileDigestsFromTree_returns ext hf st.db.depth root []
    refine ⟨fds, ?_, fun hrooted => ?_⟩
    · refine (bind_of_ok (show (get : CasM δ (Store δ)) st = .ok st st from rfl)).trans ?_
      exact (bind_of_ok hcollect).trans (forM_recoverPathFile row.1 fds hf)
    · obtain ⟨nar, hroot, hdirs⟩ := hrooted
      rw [hroot, laws.decode_encodeNode] at hdecode
      cases hdecode
      rw [hroot]
      have hdirs' : ∀ t, nar = some t → HasDirectories ext (st.db.withPathFiles row.1 fds) t := hdirs
      refine (recorded_iff laws hdirs').mpr fun t ht f hmem => ?_
      subst ht
      cases hcollect.symm.trans (collectFileDigestsFromTree_quiet laws hf t st.db.depth [] ((hdirs t rfl).depth_le laws) (hdirs t rfl))
      exact (get?_withPathFiles ..).mpr (.inl ⟨rfl, (mem_insertAll _ _).mpr (.inl hmem)⟩)

theorem grows_withPathFiles (hash : String) (fds : List δ) : Grows ext db (db.withPathFiles hash fds) :=
  ⟨fun _ h => h, fun _ _ h => (get?_withPathFiles ..).mpr (.inr h)⟩

theorem Grows.trans {db'' : Db δ} (h : Grows ext db db') (h' : Grows ext db' db'') : Grows ext db db'' :=
  ⟨fun t ht => h'.directories t (h.directories t ht), fun hash f hf => h'.pathFiles hash f (h.pathFiles hash f hf)⟩

theorem forM_backfillPath (laws : ext.Laws) : ∀ (batch : List (String × Bytes)) {st : Store δ}, st.faults = [] → ∃ st',
    batch.forM (backfillPath ext) st = .ok () st' ∧ st'.faults = [] ∧ Grows ext st.db st'.db ∧
      st'.db.casPaths = st.db.casPaths ∧ (ContentRows ext st.db → ContentRows ext st'.db) ∧
      ∀ row ∈ batch, Rooted ext st.db row.2 → Recorded ext st'.db row.1 row.2
  | [], st, hf => ⟨st, rfl, hf, ⟨fun _ h => h, fun _ _ h => h⟩, rfl, id, nofun⟩
  | row :: batch, st, hf => by
    obtain ⟨fds, hrow, hrecorded⟩ := backfillPath_quiet laws row hf
    have hgrows : Grows ext st.db (st.db.withPathFiles row.1 fds) := grows_withPathFiles row.1 fds
    obtain ⟨st', hbatch, hf', hgrows', hpaths, hrows, hrest⟩ :=
      forM_backfillPath laws batch (by exact hf : ({ st with db := st.db.withPathFiles row.1 fds } : Store δ).faults = [])
    refine ⟨st', (bind_of_ok hrow).trans hbatch, hf', hgrows.trans hgrows', hpaths, fun h => hrows ⟨h.fileChunks, h.directories⟩, ?_⟩
    intro r hr hrooted
    rcases List.mem_cons.mp hr with rfl | hr
    · exact (hrecorded hrooted).grows laws hgrows' (hrooted.grows hgrows)
    · exact hrest r hr (hrooted.grows hgrows)

/-! ## The invariant -/

structure BackfillInv (ext : Ext δ) (s : BackfillServer δ) : Prop where
  quiet : s.store.faults = []
  rows : ContentRows ext s.store.db
  rooted : ∀ r ∈ s.store.db.casPaths.rows, Rooted ext s.store.db r.2.rootNode
  calls : ∀ call hash narinfo rootNode, s.calls call = .read hash narinfo (some rootNode) →
    Rooted ext s.store.db (ext.encodeNode rootNode)
  batch : ∀ run, s.backfill = some run → run.scanned ≤ s.store.db.casPaths.rows.length ∧
    ∀ row ∈ run.batch, Rooted ext s.store.db row.2
  covered : ∀ r ∈ s.passed, s.Covered ext r.1 r.2.rootNode
  ready : s.pathFilesReady = true → s.backfill = none

variable {s s' : BackfillServer δ}

omit [DecidableEq δ] in
theorem BackfillServer.passed_subset (s : BackfillServer δ) : ∀ r ∈ s.passed, r ∈ s.store.db.casPaths.rows := by
  intro r hr
  unfold BackfillServer.passed at hr
  split at hr
  · exact hr
  · split at hr
    · exact hr
    · exact List.mem_of_mem_take hr

theorem BackfillInv.complete (h : BackfillInv ext s) (hready : s.pathFilesReady = true) : PathFilesComplete ext s.store.db := by
  rintro hash f ⟨row, root, hrow, hdecode, hreach⟩
  have hnone := h.ready hready
  have hpassed : s.passed = s.store.db.casPaths.rows := by unfold BackfillServer.passed; rw [hnone]
  rcases h.covered (hash, row) (hpassed ▸ Table.get?_eq_some.mp hrow) with hrec | ⟨run, hrun, -⟩
  · exact hrec root f hdecode hreach
  · rw [hnone] at hrun; cases hrun

/-- Nothing is passed at a start, unless nothing needs a backfill. -/
theorem backfillInv_opened {store : Store δ} (hf : store.faults = []) (hrows : ContentRows ext store.db)
    (hrooted : ∀ r ∈ store.db.casPaths.rows, Rooted ext store.db r.2.rootNode)
    (hfiles : store.db.pathFiles.rows = [] ∨ PathFilesComplete ext store.db) : BackfillInv ext (.opened store) := by
  refine ⟨hf, hrows, hrooted, nofun, ?_, ?_, ?_⟩
  · intro run hrun
    simp only [BackfillServer.opened] at hrun
    obtain ⟨-, hrun⟩ := Option.ite_none_right_eq_some.mp hrun
    cases hrun
    exact ⟨Nat.zero_le _, nofun⟩
  · intro r hr
    by_cases hneeds : store.db.pathFilesNeedsBackfill = true
    · simp [BackfillServer.passed, BackfillServer.opened, hneeds, Backfill.last, Backfill.scanned] at hr
    · have hr : r ∈ store.db.casPaths.rows := BackfillServer.passed_subset _ r hr
      have hcomplete : PathFilesComplete ext store.db := hfiles.resolve_left fun hempty => by
        unfold Db.pathFilesNeedsBackfill at hneeds
        rw [hempty] at hneeds
        cases hpaths : store.db.casPaths.rows with
        | nil => rw [hpaths] at hr; cases hr
        | cons row rows => rw [hpaths] at hneeds; exact hneeds rfl
      exact .inl fun root f hdecode hreach => hcomplete r.1 f ⟨r.2, root, Table.get?_eq_some.mpr hr, hdecode, hreach⟩
  · intro hready
    simp only [BackfillServer.opened] at hready ⊢
    cases hneeds : store.db.pathFilesNeedsBackfill with
    | true => rw [hneeds] at hready; cases hready
    | false => rfl

/-! ## One step -/

theorem BackfillInv.withCalls (h : BackfillInv ext s) {calls : Nat → NarinfoCall} (hcalls : ∀ call hash narinfo rootNode,
    calls call = .read hash narinfo (some rootNode) → Rooted ext s.store.db (ext.encodeNode rootNode)) :
    BackfillInv ext { s with calls } :=
  ⟨h.quiet, h.rows, h.rooted, hcalls, h.batch, h.covered, h.ready⟩

/-- A scanned batch takes the rows that follow those that are recorded. -/
theorem BackfillInv.readBatch (h : BackfillInv ext s) {run : Backfill} (hrun : s.backfill = some run) (hbatch : run.batch = [])
    (hmore : s.store.db.pathsFrom run.offset ≠ []) :
    BackfillInv ext { s with backfill := some { run with batch := s.store.db.pathsFrom run.offset } } := by
  have hlength : (s.store.db.pathsFrom run.offset).length =
      min BACKFILL_BATCH_SIZE (s.store.db.casPaths.rows.length - run.offset) := by
    unfold Db.pathsFrom
    rw [List.length_map, List.length_take, List.length_drop]
  have hpos := List.length_pos_iff.mpr hmore
  have hscanned : ({ run with batch := s.store.db.pathsFrom run.offset } : Backfill).scanned ≤ s.store.db.casPaths.rows.length := by
    unfold Backfill.scanned
    dsimp only
    omega
  have hpassed₀ : s.passed = s.store.db.casPaths.rows.take run.offset := by
    unfold BackfillServer.passed
    rw [hrun]
    simp [Backfill.last, Backfill.scanned, hbatch]
  refine ⟨h.quiet, h.rows, h.rooted, h.calls, ?_, ?_, fun hready => ?_⟩
  · rintro _ ⟨⟩
    refine ⟨hscanned, fun row hrow => ?_⟩
    obtain ⟨r, hr, rfl⟩ := List.mem_map.mp hrow
    exact h.rooted r (List.mem_of_mem_drop (List.mem_of_mem_take hr))
  · intro r hr
    have hr : r ∈ s.store.db.casPaths.rows.take (run.offset + (s.store.db.pathsFrom run.offset).length) := by
      unfold BackfillServer.passed at hr
      dsimp only at hr
      split at hr
      next hlast =>
        have hlt : (s.store.db.pathsFrom run.offset).length < BACKFILL_BATCH_SIZE := hlast.2
        rwa [List.take_of_length_le (by omega)]
      · exact hr
    rw [List.take_add, List.mem_append] at hr
    rcases hr with hr | hr
    · rcases h.covered r (hpassed₀ ▸ hr) with hrec | ⟨run', hrun', hmem⟩
      · exact .inl hrec
      · cases hrun.symm.trans hrun'
        rw [hbatch] at hmem; cases hmem
    · refine .inr ⟨_, rfl, List.mem_map.mpr ⟨r, ?_, rfl⟩⟩
      rw [hlength] at hr
      exact (List.take_subset_take_left _ (Nat.min_le_left ..)) hr
  · rw [h.ready hready] at hrun; cases hrun

/-- The end of the table is reached when there is nothing left to read. -/
theorem BackfillInv.finish (h : BackfillInv ext s) {run : Backfill} (hrun : s.backfill = some run) (hbatch : run.batch = [])
    (hmore : s.store.db.pathsFrom run.offset = []) : BackfillInv ext { s with pathFilesReady := true, backfill := none } := by
  have hend : s.store.db.casPaths.rows.length ≤ run.offset := by
    unfold Db.pathsFrom at hmore
    simpa [BACKFILL_BATCH_SIZE] using hmore
  have hpassed : s.passed = s.store.db.casPaths.rows := by
    unfold BackfillServer.passed
    rw [hrun]
    dsimp only
    split
    · rfl
    · exact List.take_of_length_le (by unfold Backfill.scanned; omega)
  refine ⟨h.quiet, h.rows, h.rooted, h.calls, nofun, fun r hr => ?_, fun _ => rfl⟩
  rcases h.covered r (hpassed ▸ hr) with hrec | ⟨run', hrun', hmem⟩
  · exact .inl hrec
  · cases hrun.symm.trans hrun'
    rw [hbatch] at hmem; cases hmem

/-- Once a batch is written, the passed rows are recorded. -/
theorem BackfillInv.written (laws : ext.Laws) (h : BackfillInv ext s) {run : Backfill} (hrun : s.backfill = some run) {st : Store δ}
    (hquiet : st.faults = []) (hgrows : Grows ext s.store.db st.db) (hpaths : st.db.casPaths = s.store.db.casPaths)
    (hrows : ContentRows ext st.db) (hrecorded : ∀ row ∈ run.batch, Rooted ext s.store.db row.2 → Recorded ext st.db row.1 row.2)
    {backfill : Option Backfill} {pathFilesReady : Bool} (hready : pathFilesReady = true → backfill = none)
    (hbackfill : ∀ run', backfill = some run' → run'.batch = [] ∧ run'.offset = run.scanned ∧ ¬ run.last)
    (hnone : backfill = none → run.last) : BackfillInv ext { s with store := st, backfill, pathFilesReady } := by
  have hpassed : ({ s with store := st, backfill, pathFilesReady } : BackfillServer δ).passed = s.passed := by
    unfold BackfillServer.passed
    rw [hrun]
    dsimp only
    cases hb : backfill with
    | none => rw [if_pos (hnone hb)]; dsimp only; rw [hpaths]
    | some run' =>
      obtain ⟨hbatch, hoffset, hlast⟩ := hbackfill run' hb
      dsimp only
      rw [if_neg hlast, if_neg fun hlast => hlast.1 hbatch, hpaths]
      simp [Backfill.scanned, hbatch, hoffset]
  refine ⟨hquiet, hrows, fun r hr => ?_, fun call hash narinfo root hcall => (h.calls call hash narinfo root hcall).grows hgrows,
    fun run' hrun' => ?_, fun r hr => ?_, hready⟩
  · rw [hpaths] at hr
    exact (h.rooted r hr).grows hgrows
  · obtain ⟨hbatch, hoffset, -⟩ := hbackfill run' hrun'
    refine ⟨?_, by rw [hbatch]; exact nofun⟩
    simpa [Backfill.scanned, hbatch, hoffset, hpaths] using (h.batch run hrun).1
  · rw [hpassed] at hr
    left
    rcases h.covered r hr with hrec | ⟨run', hrun', hmem⟩
    · exact hrec.grows laws hgrows (h.rooted r (s.passed_subset r hr))
    · cases hrun.symm.trans hrun'
      exact hrecorded _ hmem (h.rooted r (s.passed_subset r hr))

/-- A row may be replaced where `NoSkip` holds and the new one is covered or
behind the scan. -/
theorem BackfillInv.replaced (laws : ext.Laws) (h : BackfillInv ext s) {hash : String} {row : PathRow} {st : Store δ}
    (hquiet : st.faults = []) (hrows : ContentRows ext st.db) (hgrows : Grows ext s.store.db st.db)
    (hpaths : st.db.casPaths = s.store.db.casPaths.insertOrReplace hash row) (hrooted : Rooted ext st.db row.rootNode)
    (hskip : NoSkip ext s hash) (hnew : s.passed.length < s.store.db.casPaths.rows.length ∨
      ({ s with store := st } : BackfillServer δ).Covered ext hash row.rootNode) : BackfillInv ext { s with store := st } := by
  have hmem : ∀ r ∈ ({ s with store := st } : BackfillServer δ).passed, r ∈ s.passed ∨
      (hash ∈ s.passed.map Prod.fst ∧ s.store.db.casPaths.rows[s.passed.length]? = some r) ∨
      r = (hash, row) ∧ s.passed.length = s.store.db.casPaths.rows.length := by
    intro r hr
    unfold BackfillServer.passed at hr ⊢
    dsimp only at hr
    rw [hpaths] at hr
    cases hrun : s.backfill with
    | none =>
      rw [hrun] at hr
      exact (Table.mem_insertOrReplace hr).imp id fun hr => .inr ⟨hr, rfl⟩
    | some run =>
      rw [hrun] at hr
      dsimp only at hr ⊢
      by_cases hlast : run.last
      · rw [if_pos hlast] at hr ⊢
        exact (Table.mem_insertOrReplace hr).imp id fun hr => .inr ⟨hr, rfl⟩
      · have hscanned := (h.batch run hrun).1
        rw [if_neg hlast] at hr ⊢
        rw [List.length_take, Nat.min_eq_left hscanned]
        exact Table.mem_take_insertOrReplace hscanned hr
  have hcovered : ∀ r ∈ s.store.db.casPaths.rows, s.Covered ext r.1 r.2.rootNode →
      ({ s with store := st } : BackfillServer δ).Covered ext r.1 r.2.rootNode := fun r hr hc =>
    hc.imp (fun hrec => hrec.grows laws hgrows (h.rooted r hr)) id
  refine ⟨hquiet, hrows, fun r hr => ?_, fun call hash narinfo root hcall => (h.calls call hash narinfo root hcall).grows hgrows,
    fun run hrun => ⟨?_, fun r hr => ((h.batch run hrun).2 r hr).grows hgrows⟩, fun r hr => ?_, h.ready⟩
  · rw [hpaths] at hr
    rcases Table.mem_insertOrReplace hr with hr | rfl
    · exact (h.rooted r hr).grows hgrows
    · exact hrooted
  · dsimp only
    rw [hpaths]
    exact (h.batch run hrun).1.trans (Table.length_insertOrReplace ..)
  · rcases hmem r hr with hr | ⟨hkey, hnext⟩ | ⟨rfl, hall⟩
    · exact hcovered r (s.passed_subset r hr) (h.covered r hr)
    · exact hcovered r (List.mem_of_getElem? hnext) (hskip hkey r hnext)
    · exact hnew.resolve_left (by omega)

theorem BackfillInv.putNar (laws : ext.Laws) (level : Int) (h : BackfillInv ext s) (now : Nat) (filePath : String) (data : Bytes)
    (hskip : NoSkip ext s (hashOfFilePath filePath)) :
    BackfillInv ext { s with store := finalState (putNar ext level now filePath data s.store) } := by
  cases hparse : parseNar data with
  | error e =>
    have hput : finalState (Ekapkgs.putNar ext level now filePath data s.store) = s.store := by
      unfold Ekapkgs.putNar
      simp only [hparse]
      rfl
    rw [hput]; exact h
  | ok t =>
    rw [putNar_quiet laws level h.quiet h.rows now filePath hparse]
    dsimp only [finalState]
    obtain ⟨hpathFiles, hcasPaths, -, hfaults⟩ := ingested_frame ext level s.store t
    have hrows := h.rows.ingested laws level t
    have hdirs : HasDirectories ext (uploaded ext level now (hashOfFilePath filePath) data t s.store).db t :=
      hasDirectories_of_done laws hrows (ingested_done level s.store t)
    have hnar : ∀ t', some t = some t' → HasDirectories ext (uploaded ext level now (hashOfFilePath filePath) data t s.store).db t' := by
      rintro _ ⟨⟩; exact hdirs
    have hfiles : ∀ hash f, (uploaded ext level now (hashOfFilePath filePath) data t s.store).db.pathFiles.get? (hash, f) = some () ↔
        hash = hashOfFilePath filePath ∧ f ∈ treeFileDigests ext t ∨ s.store.db.pathFiles.get? (hash, f) = some () := by
      intro hash f
      rw [← hpathFiles]
      exact get?_withPathFiles (hashOfFilePath filePath) hash f (treeFileDigests ext t) _
    have hpaths : (uploaded ext level now (hashOfFilePath filePath) data t s.store).db.casPaths =
        s.store.db.casPaths.insertOrReplace (hashOfFilePath filePath)
          (pathRow ext now (narinfoFor ext s.store.db (hashOfFilePath filePath) data) (caNode ext t)) := by
      rw [← hcasPaths]; rfl
    refine h.replaced laws (hfaults.trans h.quiet) ⟨hrows.fileChunks, hrows.directories⟩
      ⟨fun t' ht' => ht'.ingested level t, fun hash f hf => (hfiles hash f).mpr (.inr hf)⟩ hpaths ⟨some t, rfl, hnar⟩ hskip (.inr (.inl ?_))
    refine (recorded_iff laws hnar).mpr ?_
    rintro _ ⟨⟩ f hf
    exact (hfiles _ f).mpr (.inl ⟨rfl, mem_treeFileDigests.mpr hf⟩)

/-- The metadata may be written with the root that was read where `WritesCovered`
says so. -/
theorem BackfillInv.writeRow (laws : ext.Laws) (h : BackfillInv ext s) (now : Nat) {hash : String} (narinfo : NarInfo) {root : CaNode}
    (hrooted : Rooted ext s.store.db (ext.encodeNode root)) (hskip : NoSkip ext s hash) (hcovered : WritesCovered ext s hash root) :
    BackfillInv ext { s with store := { s.store with db := s.store.db.withRoot ext now hash narinfo root } } := by
  have hgrows : Grows ext s.store.db (s.store.db.withRoot ext now hash narinfo root) := .of_eq rfl rfl
  have hkeeps : s.Covered ext hash (ext.encodeNode root) → ({ s with store := { s.store with
      db := s.store.db.withRoot ext now hash narinfo root } } : BackfillServer δ).Covered ext hash (ext.encodeNode root) :=
    fun hc => hc.imp (fun hrec => hrec.grows laws hgrows hrooted) id
  refine h.replaced laws h.quiet ⟨h.rows.fileChunks, h.rows.directories⟩ hgrows rfl (hrooted.grows hgrows) hskip ?_
  rcases hcovered with hlt | hc | ⟨row, hrow, hroot⟩
  · exact .inl hlt
  · exact .inr (hkeeps hc)
  · -- the row is behind the scan, or it is passed and so covered
    by_cases hmem : (hash, row) ∈ s.passed
    · exact .inr (hkeeps (hroot ▸ h.covered _ hmem))
    · left
      have hmem' := Table.get?_eq_some.mp hrow
      unfold BackfillServer.passed at hmem ⊢
      split at hmem
      · exact absurd hmem' hmem
      · split at hmem
        · exact absurd hmem' hmem
        · next run _ hlast =>
          rw [if_neg hlast, List.length_take]
          refine Nat.lt_of_le_of_ne (Nat.min_le_right ..) fun heq => hmem ?_
          rwa [List.take_of_length_le (by omega)]

theorem BackfillInv.update_calls (h : BackfillInv ext s) (call : Nat) {c : NarinfoCall}
    (hc : ∀ hash narinfo rootNode, c = .read hash narinfo (some rootNode) → Rooted ext s.store.db (ext.encodeNode rootNode)) :
    BackfillInv ext { s with calls := Function.update s.calls call c } := by
  refine h.withCalls fun call' hash narinfo rootNode hcall => ?_
  by_cases heq : call' = call
  · subst heq
    rw [Function.update_self] at hcall
    exact hc hash narinfo rootNode hcall
  · rw [Function.update_of_ne heq] at hcall
    exact h.calls call' hash narinfo rootNode hcall

theorem BackfillInv.batch_step (laws : ext.Laws) (h : BackfillInv ext s) {run : Backfill} (hrun : s.backfill = some run)
    (hstep : backfillNext ext level s .writeBatch = some s') : BackfillInv ext s' := by
  simp only [backfillNext, hrun] at hstep
  obtain ⟨hbatch, hstep⟩ := Option.ite_none_left_eq_some.mp hstep
  obtain ⟨st, hforM, hf, hgrows, hpaths, hrows, hrecorded⟩ := forM_backfillPath laws run.batch h.quiet
  rw [withTransaction_quiet h.quiet hforM hf] at hstep
  simp only [onReturn] at hstep
  by_cases hlast : run.batch.length < BACKFILL_BATCH_SIZE
  · rw [if_pos hlast] at hstep
    cases hstep
    refine h.written laws hrun hf hgrows hpaths (hrows h.rows) hrecorded (fun _ => rfl) (fun run' hrun' => ?_) fun _ => ⟨hbatch, hlast⟩
    cases hrun'
  · rw [if_neg hlast] at hstep
    cases hstep
    refine h.written laws hrun hf hgrows hpaths (hrows h.rows) hrecorded (fun hready => ?_) (fun run' hrun' => ?_) fun hready => ?_
    · rw [h.ready hready] at hrun; cases hrun
    · cases hrun'
      exact ⟨rfl, rfl, fun hl => hlast hl.2⟩
    · cases hready

/-- The root that a call reads was uploaded, or is the placeholder. -/
theorem BackfillInv.root_read (laws : ext.Laws) (h : BackfillInv ext s) {hash : String} {b : Bool} {root : CaNode} {st : Store δ}
    (hroot : rootFor ext hash b s.store = .ok (some root) st) : Rooted ext s.store.db (ext.encodeNode root) := by
  obtain ⟨-, hcases, -⟩ := rootFor_quiet h.quiet hroot
  rcases hcases with ⟨-, hplaceholder⟩ | ⟨-, hdecode⟩
  · cases hplaceholder; exact rooted_placeholder
  · obtain ⟨row, hrow, hdecode⟩ := Option.bind_eq_some_iff.mp hdecode.symm
    obtain ⟨nar, heq, hdirs⟩ := h.rooted _ (Table.get?_eq_some.mp hrow)
    dsimp only at heq
    rw [heq, laws.decode_encodeNode] at hdecode
    cases hdecode
    exact ⟨nar, rfl, hdirs⟩

theorem backfillInv_step (laws : ext.Laws) {step : BackfillStep} (h : BackfillInv ext s) (hsafe : BackfillSafe ext s step)
    (hstep : backfillStep ext level s step s') : BackfillInv ext s' := by
  unfold backfillStep stepOf at hstep
  cases step with
  | readBatch =>
    simp only [backfillNext] at hstep
    cases hrun : s.backfill with
    | none => rw [hrun] at hstep; cases hstep
    | some run =>
      rw [hrun] at hstep
      dsimp only at hstep
      by_cases hbatch : run.batch = []
      · rw [if_neg (not_not.mpr hbatch)] at hstep
        by_cases hmore : s.store.db.pathsFrom run.offset = []
        · rw [if_pos hmore] at hstep
          cases hstep
          exact h.finish hrun hbatch hmore
        · rw [if_neg hmore] at hstep
          cases hstep
          exact h.readBatch hrun hbatch hmore
      · rw [if_pos hbatch] at hstep; cases hstep
  | writeBatch =>
    cases hrun : s.backfill with
    | none => simp only [backfillNext, hrun] at hstep; cases hstep
    | some run => exact h.batch_step laws hrun hstep
  | restart =>
    cases hstep
    exact backfillInv_opened h.quiet h.rows h.rooted hsafe
  | putNar now filePath data =>
    cases hstep
    exact h.putNar laws level now filePath data hsafe
  | putNarinfo call hash content =>
    simp only [backfillNext] at hstep
    cases hparse : NarInfo.parse content with
    | none => simp only [hparse] at hstep; cases hstep
    | some narinfo =>
      cases hcall : s.calls call with
      | idle =>
        simp only [hparse, hcall] at hstep
        obtain ⟨b, st, hhas, rfl⟩ := onReturn_eq_some.mp hstep
        cases (query_quiet h.quiet).symm.trans hhas
        exact h.update_calls call nofun
      | found _ _ _ => simp only [hparse, hcall] at hstep; cases hstep
      | read _ _ _ => simp only [hparse, hcall] at hstep; cases hstep
  | readRoot call =>
    simp only [backfillNext] at hstep
    cases hcall : s.calls call with
    | found hash narinfo b =>
      rw [hcall] at hstep
      obtain ⟨root, st, hroot, rfl⟩ := onReturn_eq_some.mp hstep
      obtain ⟨rfl, -, -⟩ := rootFor_quiet h.quiet hroot
      refine h.update_calls call fun hash' narinfo' root' hc => ?_
      cases hc
      exact h.root_read laws hroot
    | idle => rw [hcall] at hstep; cases hstep
    | read _ _ _ => rw [hcall] at hstep; cases hstep
  | writeRow call now =>
    simp only [backfillNext] at hstep
    cases hcall : s.calls call with
    | read hash narinfo root =>
      rw [hcall] at hstep
      obtain ⟨u, st, hwrite, rfl⟩ := onReturn_eq_some.mp hstep
      cases root with
      | none => cases hwrite; exact h.update_calls call nofun
      | some root =>
        cases (writeNarinfo_quiet h.quiet now root).symm.trans hwrite
        obtain ⟨hskip, hcovered⟩ := hsafe hash narinfo root hcall
        exact (h.writeRow laws now narinfo (h.calls call hash narinfo root hcall) hskip hcovered).update_calls call nofun
    | idle => rw [hcall] at hstep; cases hstep
    | found _ _ _ => rw [hcall] at hstep; cases hstep

/-! ## Runs -/

theorem backfillInv_run (laws : ext.Laws) {steps : List BackfillStep}
    (hrun : Run (guarded (backfillStep ext level) (BackfillSafe ext)) s steps s') (h : BackfillInv ext s) : BackfillInv ext s' :=
  hrun.invariant (fun _ _ _ hs hstep => backfillInv_step laws hs hstep.1 hstep.2) h

theorem PrePathFiles.opened {store : Store δ} (hf : store.faults = []) (h : PrePathFiles ext store.db) :
    BackfillInv ext (.opened store) :=
  backfillInv_opened hf h.rows (fun r hr => h.rooted r.1 r.2 (Table.get?_eq_some.mpr hr)) (.inl h.empty)

/-- The table is complete when it is said to be, if no scan skips a row and no
start finds it half filled. -/
theorem pathFiles_complete (laws : ext.Laws) {store : Store δ} {steps : List BackfillStep} (hf : store.faults = [])
    (hpre : PrePathFiles ext store.db) (hrun : Run (guarded (backfillStep ext level) (BackfillSafe ext)) (.opened store) steps s)
    (hready : s.pathFilesReady = true) : PathFilesComplete ext s.store.db :=
  (backfillInv_run laws hrun (hpre.opened hf)).complete hready

/-- The store of before `path_files`, with one path. -/
def preStore : Store Bytes :=
  { oneUpload.store with db := { oneUpload.store.db with pathFiles := .empty } }

theorem preStore_prePathFiles : PrePathFiles sampleExt preStore.db := by
  refine ⟨rfl, ⟨oneUpload_inv.rows.fileChunks, oneUpload_inv.rows.directories⟩, fun hash row hrow => ?_⟩
  exact ⟨oneUpload.nars hash, oneUpload_inv.root hash row hrow, oneUpload_inv.directories hash⟩

theorem pathFiles_complete_of_preStore : ∃ s, Run (backfillStep sampleExt 3) (.opened preStore) [.readBatch, .writeBatch] s ∧
    s.pathFilesReady = true ∧ PathFilesComplete sampleExt s.store.db := by
  have hsteps : ((backfillNext sampleExt 3 (.opened preStore) .readBatch).bind fun s =>
      backfillNext sampleExt 3 s .writeBatch).any (·.pathFilesReady) = true := by decide
  obtain ⟨s, hs, hready⟩ := (Option.any_eq_true _ _).mp hsteps
  obtain ⟨s₁, hread, hwrite⟩ := Option.bind_eq_some_iff.mp hs
  have hrun : Run (guarded (backfillStep sampleExt 3) (BackfillSafe sampleExt)) (.opened preStore) [.readBatch, .writeBatch] s :=
    .cons ⟨trivial, hread⟩ (.cons ⟨trivial, hwrite⟩ (.nil s))
  exact ⟨s, hrun.unguarded, hready, pathFiles_complete sampleExt_laws rfl preStore_prePathFiles hrun hready⟩

/-- A path is uploaded before the first batch, and then the process starts
again: something is recorded, so the rest never is. -/
theorem restart_skips_backfill : ¬ ∀ (store : Store Bytes) (steps : List BackfillStep) (s : BackfillServer Bytes), store.faults = [] →
    PrePathFiles sampleExt store.db → Run (backfillStep sampleExt 3) (.opened store) steps s → s.pathFilesReady = true →
      PathFilesComplete sampleExt s.store.db := by
  intro h
  have hsteps : (List.foldlM (backfillNext sampleExt 3) (.opened preStore) [.putNar 1 "nar/b.nar" (writeNar sampleFile), .restart]).any
      (fun s => s.pathFilesReady && (s.store.db.casPaths.get? "a").any (fun row => row.rootNode = sampleExt.encodeNode (caNode sampleExt sampleFile)) &&
        !s.store.db.pathFiles.contains ("a", [1])) = true := by decide +kernel
  obtain ⟨s, hs, hout⟩ := (Option.any_eq_true _ _).mp hsteps
  simp only [Bool.and_eq_true, Bool.not_eq_true'] at hout
  obtain ⟨⟨hready, hrow⟩, hmissing⟩ := hout
  obtain ⟨row, hrow, hroot⟩ := (Option.any_eq_true _ _).mp hrow
  have hroot : row.rootNode = sampleExt.encodeNode (caNode sampleExt sampleFile) := of_decide_eq_true hroot
  have hcomplete := h preStore _ s rfl preStore_prePathFiles (run_of_foldlM hs) hready
  have hreach : PathReaches sampleExt s.store.db "a" [1] :=
    ⟨row, _, hrow, by rw [hroot]; exact sampleExt_laws.decode_encodeNode _, .file rfl⟩
  have hfile := hcomplete "a" [1] hreach
  rw [Table.contains_eq_isSome, hfile] at hmissing
  cases hmissing

end Ekapkgs
