import Ekapkgs.CasGc
import Ekapkgs.CastoreEvict
import Ekapkgs.CastoreRoundTrip
import Ekapkgs.GcSafety
import Ekapkgs.Recovery
import Ekapkgs.Sample

/-!
# Collecting during a recovery

The server serves while rows are copied from the old database. `finish` is the
database that copying the rest would give: what an old path needs is in it, and
stays in it, unless a collection takes files whose path has not been copied yet,
or an upload records a chunk anew before the row that says how its file is
compressed.
-/

namespace Ekapkgs
open Keyed Fallible Runs

variable {δ : Type} [DecidableEq δ]

/-! ## The copy, and what is left of it -/

def insertRows {κ ρ : Type} [DecidableEq κ] (t : Table κ ρ) (rows : List (κ × ρ)) : Table κ ρ :=
  rows.foldl (fun t r => t.insertOrIgnore r.1 r.2) t

theorem insertRows_append {κ ρ : Type} [DecidableEq κ] (t : Table κ ρ) (rows rows' : List (κ × ρ)) :
    insertRows t (rows ++ rows') = insertRows (insertRows t rows) rows' := List.foldl_append

theorem insertRows_take_drop {κ ρ : Type} [DecidableEq κ] (t : Table κ ρ) (n : Nat) (rows : List (κ × ρ)) :
    insertRows (insertRows t (rows.take n)) (rows.drop n) = insertRows t rows := by
  rw [← insertRows_append, List.take_append_drop]

/-- Copied rows stand behind the rows there are. -/
theorem get?_insertRows {κ ρ : Type} [DecidableEq κ] (rows : List (κ × ρ)) (k : κ) : ∀ t : Table κ ρ,
    (insertRows t rows).get? k = (t.get? k).or ((insertRows .empty rows).get? k) := by
  induction rows with
  | nil => intro t; simp [insertRows]
  | cons r rows ih =>
    intro t
    have hcons : ∀ t : Table κ ρ, insertRows t (r :: rows) = insertRows (t.insertOrIgnore r.1 r.2) rows := fun _ => rfl
    rw [hcons, hcons, ih, ih (Table.empty.insertOrIgnore r.1 r.2)]
    simp only [Table.get?_insertOrIgnore, Table.get?_empty, Option.getD_none]
    by_cases hk : k = r.1
    · subst hk
      cases t.get? r.1 <;> simp
    · simp [hk]

/-- The database once the rest of the copy is done. -/
def Db.finish (db : Db δ) (left : Salvage δ) : Db δ where
  chunks := insertRows db.chunks left.chunks
  fileChunks := insertRows db.fileChunks left.fileChunks
  directories := insertRows db.directories left.directories
  pathFiles := db.pathFiles
  casPaths := db.casPaths

/-- The tables that the rows of the old database make. -/
def Salvage.tables (old : Salvage δ) : Db δ := Db.empty.finish old

def Batch.paths : Batch δ → List String
  | .casPaths rows => rows.map Prod.fst
  | _ => []

/-! ## The server -/

/-- A server that recovers: what is left to copy, and the paths whose rows are
copies. -/
structure RecoveryServer (δ : Type) where
  store : Store δ
  left : Salvage δ
  pathFilesReady : Bool
  gc : GcRun
  recovered : String → Bool

inductive RecoveryStep where
  | recover
  /-- The recovery fails, and the rest is never copied. -/
  | giveUp
  | putNar (now : Nat) (filePath : String) (data : Bytes)
  | startGc (maxSize targetSize : Nat)
  | evictNext

variable (ext : Ext δ) (level : Int)

def RecoveryServer.init (db : Db δ) (corrupt : CorruptDb δ) (files : δ → Option Bytes) : RecoveryServer δ :=
  let opened := openDb false db corrupt
  { store := ⟨opened.db, files, .empty, []⟩
    left := (opened.corrupt.map CorruptDb.salvage).getD .empty
    pathFilesReady := !opened.needsBackfill
    gc := .idle
    recovered := fun _ => false }

def recoveryNext (s : RecoveryServer δ) : RecoveryStep → Option (RecoveryServer δ)
  | .recover => s.left.next.bind fun next => onReturn (next.1.write ext s.store) fun _ st =>
      { s with
        store := st
        left := next.2
        recovered := fun hash => s.recovered hash || (decide (hash ∈ next.1.paths) && !s.store.db.casPaths.contains hash) }
  | .giveUp => some { s with left := .empty }
  | .putNar now filePath data => onReturn (putNar ext level now filePath data s.store) fun _ st =>
      { s with store := st, recovered := Function.update s.recovered (hashOfFilePath filePath) false }
  | .startGc maxSize targetSize => onReturn (casMaybeRunGc s.pathFilesReady maxSize targetSize s.store) fun gc st =>
      { s with store := st, gc }
  | .evictNext => s.gc.next.bind fun next => onReturn (evictPath next.1 s.store) fun bytes st =>
      { s with
        store := st
        gc := { next.2 with freed := next.2.freed + bytes }
        recovered := Function.update s.recovered next.1 false }

abbrev recoveryStep : RecoveryServer δ → RecoveryStep → RecoveryServer δ → Prop := stepOf (recoveryNext ext level)

/-! ## What is kept of an old path -/

/-- The chunk list of a file, and the chunks of it that could be read. -/
def FileKept (old : Db δ) (oldFiles : δ → Option Bytes) (db : Db δ) (files : δ → Option Bytes) (data : Bytes) : Prop :=
  (∀ i, old.fileChunks.get? (ext.blake3 data, i) = (chunkRefs ext data)[i]?) →
    (∀ i, db.fileChunks.get? (ext.blake3 data, i) = (chunkRefs ext data)[i]?) ∧
    ∀ x ∈ ext.chunks data, readStored ext old oldFiles (ext.blake3 x) = .ok (some x) →
      readStored ext db files (ext.blake3 x) = .ok (some x)

/-- Everything of a tree that the old database had. -/
structure Kept (old : Db δ) (oldFiles : δ → Option Bytes) (db : Db δ) (files : δ → Option Bytes) (t : NarNode) : Prop where
  directories : HasDirectories ext db t
  files : ∀ data ∈ t.files, FileKept ext old oldFiles db files data

/-- The row is copied, or is going to be. -/
def RecoveryServer.Tracked (s : RecoveryServer δ) (hash : String) (row : PathRow) : Prop :=
  (hash, row) ∈ s.left.casPaths ∨ s.recovered hash = true ∧ s.store.db.casPaths.get? hash = some row

/-- The tree of an old path, with all its directories. -/
def OldTree (old : Db δ) (row : PathRow) (t : NarNode) : Prop :=
  row.rootNode = ext.encodeNode (caNode ext t) ∧ HasDirectories ext old t

/-- A path whose rows are still to be copied loses no file and no chunk to the
eviction, and an upload stores a chunk whose row is still to be copied only where
its file, if there is one, holds the chunk as it is. -/
def SafeStep (s : RecoveryServer δ) : RecoveryStep → Prop
  | .evictNext => ∀ next, s.gc.next = some next → ∀ hash row t, (hash, row) ∈ s.left.casPaths →
      row.rootNode = ext.encodeNode (caNode ext t) → ∀ data ∈ t.files, s.store.db.deadFile next.1 (ext.blake3 data) = false ∧
        ∀ x ∈ ext.chunks data, s.store.db.deadChunk next.1 (ext.blake3 x) = false
  | .putNar _ _ data => ∀ t, parseNar data = .ok t → ∀ x ∈ t.files.flatMap ext.chunks,
      ext.blake3 x ∈ s.left.chunks.map Prod.fst → INLINE_THRESHOLD ≤ x.length → s.store.db.chunks.get? (ext.blake3 x) = none →
        ∀ bytes, s.store.files (ext.blake3 x) = some bytes → bytes = x
  | _ => True

structure RecoveryInv (old : Db δ) (oldFiles : δ → Option Bytes) (s : RecoveryServer δ) : Prop where
  quiet : s.store.faults = []
  cache : CacheCoherent ext s.store.dirCache
  /-- Paths come last. -/
  order : ∀ hash, s.recovered hash = true → s.left.chunks = [] ∧ s.left.fileChunks = [] ∧ s.left.directories = []
  kept : ∀ hash row t, s.Tracked hash row → OldTree ext old row t →
    Kept ext old oldFiles (s.store.db.finish s.left) s.store.files t
  recorded : ∀ hash row t, s.recovered hash = true → s.store.db.casPaths.get? hash = some row → OldTree ext old row t →
    ∀ data ∈ t.files, s.store.db.pathFiles.get? (hash, ext.blake3 data) = some ()

variable {ext level} {old db db' : Db δ} {oldFiles files files' : δ → Option Bytes} {t : NarNode} {left : Salvage δ}

/-! ## The tables of a finished copy -/

variable (db) in
theorem readStored_congr {d : δ} (h : db'.chunks.get? d = db.chunks.get? d) (hfile : files' d = files d) :
    readStored ext db' files' d = readStored ext db files d := by
  unfold readStored
  rw [h, hfile]

theorem Kept.of_tables (h : Kept ext old oldFiles db files t) (hdirectories : db'.directories = db.directories)
    (hfileChunks : db'.fileChunks = db.fileChunks) (hchunks : db'.chunks = db.chunks) : Kept ext old oldFiles db' files t where
  directories entries hentries := by rw [hdirectories]; exact h.directories entries hentries
  files data hdata hlisted := by
    obtain ⟨hlist, hread⟩ := h.files data hdata hlisted
    refine ⟨fun i => by rw [hfileChunks]; exact hlist i, fun x hx hold => ?_⟩
    rw [readStored_congr db (by rw [hchunks]) rfl]; exact hread x hx hold

theorem finish_chunks (c : δ) : (db.finish left).chunks.get? c =
    (db.chunks.get? c).or ((insertRows .empty left.chunks).get? c) := get?_insertRows ..

theorem finish_fileChunks (k : δ × Nat) : (db.finish left).fileChunks.get? k =
    (db.fileChunks.get? k).or ((insertRows .empty left.fileChunks).get? k) := get?_insertRows ..

theorem finish_directories (d : δ) : (db.finish left).directories.get? d =
    (db.directories.get? d).or ((insertRows .empty left.directories).get? d) := get?_insertRows ..

theorem mem_of_get?_insertRows {κ ρ : Type} [DecidableEq κ] {k : κ} {v : ρ} : ∀ {rows : List (κ × ρ)} {t : Table κ ρ},
    (insertRows t rows).get? k = some v → t.get? k = none → k ∈ rows.map Prod.fst
  | [], _, h, hnone => by cases hnone.symm.trans h
  | r :: rows, t, h, hnone => by
    rw [List.map_cons, List.mem_cons]
    by_cases hk : k = r.1
    · exact .inl hk
    · exact .inr (mem_of_get?_insertRows (t := t.insertOrIgnore r.1 r.2) h
        (by rw [Table.get?_insertOrIgnore, if_neg hk]; exact hnone))

/-- An inserted row that is the one a key has in the end changes nothing. -/
theorem or_insertOrIgnore {κ ρ : Type} [DecidableEq κ] {t : Table κ ρ} {k k' : κ} {v w : ρ} {o : Option ρ}
    (h : (t.get? k').or o = some w) (hkey : k' = k → v = w) : ((t.insertOrIgnore k v).get? k').or o = some w := by
  rw [Table.get?_insertOrIgnore]
  by_cases hk : k' = k
  · subst hk
    rw [if_pos rfl, Option.some_or]
    cases hget : t.get? k' with
    | none => rw [hkey rfl]; rfl
    | some old => rw [hget, Option.some_or] at h; exact h
  · rw [if_neg hk]; exact h

/-! ## Uploads -/

variable {st : Store δ}

/-- A chunk whose row is still to be copied has no file in another form. -/
def AwaitsRaw (ext : Ext δ) (left : Salvage δ) (st : Store δ) (x : Bytes) : Prop :=
  ext.blake3 x ∈ left.chunks.map Prod.fst → INLINE_THRESHOLD ≤ x.length → st.db.chunks.get? (ext.blake3 x) = none →
    ∀ bytes, st.files (ext.blake3 x) = some bytes → bytes = x

theorem AwaitsRaw.apply (laws : ext.Laws) (level : Int) {x y : Bytes} (h : AwaitsRaw ext left st y) :
    AwaitsRaw ext left (Stmt.apply ext level st (.chunk x)) y := by
  intro hmem hlong hrow bytes hfile
  simp only [Stmt.apply, Db.withChunk, Table.get?_insertOrIgnore] at hrow hfile
  by_cases hy : ext.blake3 y = ext.blake3 x
  · rw [if_pos hy] at hrow; cases hrow
  · rw [if_neg hy] at hrow
    rw [written_of_ne laws level st.files hy] at hfile
    exact h hmem hlong hrow bytes hfile

theorem Kept.withChunk (laws : ext.Laws) (level : Int) {x : Bytes} (hfits : x.length ≤ CHUNK_MAX)
    (hawaits : AwaitsRaw ext left st x) (h : Kept ext old oldFiles (st.db.finish left) st.files t) :
    Kept ext old oldFiles ((Stmt.apply ext level st (.chunk x)).db.finish left) (Stmt.apply ext level st (.chunk x)).files t where
  directories := h.directories
  files data hdata hlisted := by
    obtain ⟨hlist, hread⟩ := h.files data hdata hlisted
    refine ⟨hlist, fun y hy hold => ?_⟩
    have hy := hread y hy hold
    by_cases hne : ext.blake3 y = ext.blake3 x
    · obtain rfl := laws.blake3_injective hne
      have hnew : (Stmt.apply ext level st (.chunk y)).db.chunks.get? (ext.blake3 y) =
          some ((st.db.chunks.get? (ext.blake3 y)).getD (chunkRow ext level st.files y)) :=
        (Table.get?_insertOrIgnore ..).trans (if_pos rfl)
      rw [readStored_congr (Stmt.apply ext level st (.chunk y)).db (by rw [finish_chunks, hnew, Option.some_or]) rfl]
      cases hrow : st.db.chunks.get? (ext.blake3 y) with
      | some row =>
        rw [readStored_congr st.db (by rw [finish_chunks, hrow, Option.some_or]) rfl] at hy
        exact readStored_withChunk_of_row laws level hrow hy
      | none =>
        -- the row is still to be copied, and the new one takes its place
        refine (readStored_withChunk_new laws level (by omega) hrow).trans (congrArg (fun b => Except.ok (some b)) ?_)
        have hmem : ext.blake3 y ∈ left.chunks.map Prod.fst := by
          cases hold : (st.db.finish left).chunks.get? (ext.blake3 y) with
          | none => simp [readStored, hold] at hy
          | some row => exact mem_of_get?_insertRows hold hrow
        unfold readsAs
        split_ifs with hinline
        · rfl
        · have hlong : INLINE_THRESHOLD ≤ y.length := by
            have := not_or.mp hinline; omega
          cases hfile : st.files (ext.blake3 y) with
          | none => rfl
          | some bytes => exact hawaits hmem hlong hrow bytes hfile
    · rw [← hy]
      refine readStored_congr _ ?_ (written_of_ne laws level st.files hne)
      rw [finish_chunks, finish_chunks]
      congr 1
      exact (Table.get?_insertOrIgnore ..).trans (if_neg hne)

theorem Kept.apply (laws : ext.Laws) (level : Int) {t' : NarNode} {stmt : Stmt δ} (hstmt : stmt ∈ script ext t'.postorder)
    (hawaits : ∀ x, stmt = .chunk x → AwaitsRaw ext left st x) (h : Kept ext old oldFiles (st.db.finish left) st.files t) :
    Kept ext old oldFiles ((stmt.apply ext level st).db.finish left) (stmt.apply ext level st).files t := by
  cases stmt with
  | chunk x => exact h.withChunk laws level (chunk_mem_script laws hstmt).2 (hawaits x rfl)
  | directory dir =>
    refine ⟨fun entries hentries => ?_, h.files⟩
    rw [finish_directories]
    refine or_insertOrIgnore ((finish_directories _).symm.trans (h.directories entries hentries)) fun hd => ?_
    exact (laws.blake3_injective hd).symm
  | fileChunk file index chunk size =>
    refine ⟨h.directories, fun data hdata hlisted => ?_⟩
    obtain ⟨hlist, hread⟩ := h.files data hdata hlisted
    refine ⟨fun i => ?_, hread⟩
    have hi := hlist i
    rw [finish_fileChunks] at hi ⊢
    by_cases hk : (ext.blake3 data, i) = (file, index)
    · obtain ⟨node, -, hnode⟩ := List.mem_flatMap.mp hstmt
      cases hk
      cases node with
      | symlink target => cases hnode
      | directory entries => simp [nodeScript] at hnode
      | regular executable data' =>
        rcases List.mem_append.mp hnode with hchunk | hfile
        · simp at hchunk
        obtain ⟨i', v, hv, heq⟩ := mem_fileChunkStmts.mp hfile
        simp only [Stmt.fileChunk.injEq] at heq
        obtain ⟨hdata', rfl, rfl, rfl⟩ := heq
        obtain rfl := laws.blake3_injective hdata'
        rw [hv] at hi ⊢
        exact or_insertOrIgnore hi fun _ => rfl
    · rw [← hi]
      congr 1
      exact (Table.get?_insertOrIgnore ..).trans (if_neg hk)

theorem Kept.ingested (laws : ext.Laws) (level : Int) {t' : NarNode}
    (hawaits : ∀ x ∈ t'.files.flatMap ext.chunks, AwaitsRaw ext left st x)
    (h : Kept ext old oldFiles (st.db.finish left) st.files t) :
    Kept ext old oldFiles ((ingested ext level st t').db.finish left) (ingested ext level st t').files t := by
  refine (ingested_keeps (P := fun st => Kept ext old oldFiles (st.db.finish left) st.files t ∧
    ∀ x ∈ t'.files.flatMap ext.chunks, AwaitsRaw ext left st x) t' (fun st stmt hstmt hst => ⟨?_, ?_⟩) ⟨h, hawaits⟩).1
  · refine hst.1.apply laws level hstmt fun x he => ?_
    subst he; exact hst.2 x (chunk_mem_script laws hstmt).1
  · intro x hx
    cases stmt with
    | chunk y => exact (hst.2 x hx).apply laws level
    | fileChunk file index chunk size => exact hst.2 x hx
    | directory dir => exact hst.2 x hx

/-! ## Evictions -/

theorem finish_evicted_chunks {hash : String} {c : δ} (h : st.db.deadChunk hash c = false) :
    ((evicted hash st).db.finish left).chunks.get? c = (st.db.finish left).chunks.get? c := by
  rw [finish_chunks, finish_chunks, evicted_chunks, h]; rfl

theorem evicted_files {hash : String} {c : δ} (h : st.db.deadChunk hash c = false) : (evicted hash st).files c = st.files c := by
  simp only [evicted, withoutChunks, h]; rfl

/-- A tree loses nothing to an eviction that spares its files and their chunks. -/
theorem Kept.evicted {hash : String} (h : Kept ext old oldFiles (st.db.finish left) st.files t)
    (halive : ∀ data ∈ t.files, FileKept ext old oldFiles (st.db.finish left) st.files data →
      st.db.deadFile hash (ext.blake3 data) = false ∧
      ((∀ i, old.fileChunks.get? (ext.blake3 data, i) = (chunkRefs ext data)[i]?) →
        ∀ x ∈ ext.chunks data, st.db.deadChunk hash (ext.blake3 x) = false)) :
    Kept ext old oldFiles ((Ekapkgs.evicted hash st).db.finish left) (Ekapkgs.evicted hash st).files t where
  directories := h.directories
  files data hdata hlisted := by
    obtain ⟨hfile, hchunks⟩ := halive data hdata (h.files data hdata)
    obtain ⟨hlist, hread⟩ := h.files data hdata hlisted
    refine ⟨fun i => ?_, fun x hx hold => ?_⟩
    · rw [← hlist i, finish_fileChunks, finish_fileChunks, evicted_fileChunks, hfile]; rfl
    · rw [← hread x hx hold]
      have hdead := hchunks hlisted x hx
      exact readStored_congr _ (finish_evicted_chunks hdead) (evicted_files hdead)

/-! ## Batches -/

omit [DecidableEq δ] in
theorem tryExec_quiet {f : Db δ → Db δ} (hf : st.faults = []) : tryExec f st = .ok true { st with db := f st.db } := by
  have h : fails st = .ok false st := by unfold fails; rw [hf]
  exact (bind_of_ok h).trans rfl

omit [DecidableEq δ] in
theorem forM_tryExec_quiet {ρ : Type} (f : ρ → Db δ → Db δ) : ∀ (rows : List ρ) {st : Store δ}, st.faults = [] →
    rows.forM (fun r => discard (tryExec (f r))) st = .ok () { st with db := rows.foldl (fun db r => f r db) st.db }
  | [], _, _ => rfl
  | r :: rows, st, hf => by
    have hrow : discard (tryExec (f r)) st = .ok () { st with db := f r st.db } :=
      (bind_of_ok (tryExec_quiet hf)).trans rfl
    exact (bind_of_ok hrow).trans (forM_tryExec_quiet f rows (by exact hf))

theorem forM_recoverChunk (rows : List (δ × ChunkRow)) (hf : st.faults = []) : rows.forM recoverChunk st =
    .ok () { st with db := { st.db with chunks := insertRows st.db.chunks rows } } := by
  refine (forM_tryExec_quiet (fun r db => { db with chunks := db.chunks.insertOrIgnore r.1 r.2 }) rows hf).trans ?_
  congr 2
  generalize st.db = db
  induction rows generalizing db with
  | nil => rfl
  | cons r rows ih => rw [List.foldl_cons, ih]; rfl

theorem forM_recoverFileChunk (rows : List ((δ × Nat) × (δ × Nat))) (hf : st.faults = []) : rows.forM recoverFileChunk st =
    .ok () { st with db := { st.db with fileChunks := insertRows st.db.fileChunks rows } } := by
  refine (forM_tryExec_quiet (fun r db => { db with fileChunks := db.fileChunks.insertOrIgnore r.1 r.2 }) rows hf).trans ?_
  congr 2
  generalize st.db = db
  induction rows generalizing db with
  | nil => rfl
  | cons r rows ih => rw [List.foldl_cons, ih]; rfl

theorem forM_recoverDirectory (rows : List (δ × Bytes)) (hf : st.faults = []) : rows.forM recoverDirectory st =
    .ok () { st with db := { st.db with directories := insertRows st.db.directories rows } } := by
  refine (forM_tryExec_quiet (fun r db => { db with directories := db.directories.insertOrIgnore r.1 r.2 }) rows hf).trans ?_
  congr 2
  generalize st.db = db
  induction rows generalizing db with
  | nil => rfl
  | cons r rows ih => rw [List.foldl_cons, ih]; rfl

theorem forM_recoverPathFile (hash : String) (fds : List δ) (hf : st.faults = []) : fds.forM (recoverPathFile hash) st =
    .ok () { st with db := st.db.withPathFiles hash fds } := by
  refine (forM_tryExec_quiet (fun d db => { db with pathFiles := db.pathFiles.insertOrIgnore (hash, d) () }) fds hf).trans ?_
  congr 2
  generalize st.db = db
  induction fds generalizing db with
  | nil => rfl
  | cons d fds ih => rw [List.foldl_cons, ih]; rfl

/-- A path row is copied with some files, among them those of its tree. -/
theorem recoverPath_quiet (laws : ext.Laws) (row : String × PathRow) (hf : st.faults = []) : ∃ fds,
    recoverPath ext row st = .ok () { st with
      db := ({ st.db with casPaths := st.db.casPaths.insertOrIgnore row.1 row.2 } : Db δ).withPathFiles row.1 fds } ∧
    ∀ t, row.2.rootNode = ext.encodeNode (caNode ext t) → HasDirectories ext st.db t → ∀ data ∈ t.files, ext.blake3 data ∈ fds := by
  unfold recoverPath
  rw [bind_of_ok (tryExec_quiet hf)]
  let st₁ : Store δ := { st with db := { st.db with casPaths := st.db.casPaths.insertOrIgnore row.1 row.2 } }
  have hf₁ : st₁.faults = [] := hf
  cases hdecode : ext.decodeNode row.2.rootNode with
  | none =>
    refine ⟨[], rfl, fun t hroot => ?_⟩
    rw [hroot, laws.decode_encodeNode] at hdecode; cases hdecode
  | some root =>
    obtain ⟨fds, hcollect⟩ := collectFileDigestsFromTree_returns ext hf₁ st₁.db.depth root []
    refine ⟨fds, ?_, fun t hroot hdirs data hdata => ?_⟩
    · refine (bind_of_ok (show (get : CasM δ (Store δ)) st₁ = .ok st₁ st₁ from rfl)).trans ?_
      exact (bind_of_ok hcollect).trans (forM_recoverPathFile row.1 fds hf₁)
    · rw [hroot, laws.decode_encodeNode] at hdecode
      cases hdecode
      have hdirs₁ : HasDirectories ext st₁.db t := hdirs
      have hall := collectFileDigestsFromTree_quiet laws hf₁ t st₁.db.depth [] (hdirs₁.depth_le laws) hdirs₁
      cases hcollect.symm.trans hall
      exact (mem_insertAll _ _).mpr (.inl (List.mem_map_of_mem hdata))

variable {s s' : RecoveryServer δ} {oldFiles : δ → Option Bytes}

/-- A server with one path row fewer to copy. -/
def RecoveryServer.copied (s : RecoveryServer δ) (st : Store δ) (hash : String) (rest : List (String × PathRow)) : RecoveryServer δ :=
  { s with
    store := st
    left := { s.left with casPaths := rest }
    recovered := fun hash' => s.recovered hash' || (decide (hash' = hash) && !s.store.db.casPaths.contains hash') }

theorem recoverPath_inv (laws : ext.Laws) {row : String × PathRow} {rest : List (String × PathRow)}
    (hinv : RecoveryInv ext old oldFiles s) (hleft : s.left.casPaths = row :: rest)
    (hlast : s.left.chunks = [] ∧ s.left.fileChunks = [] ∧ s.left.directories = []) : ∃ st,
      recoverPath ext row s.store = .ok () st ∧ RecoveryInv ext old oldFiles (s.copied st row.1 rest) := by
  obtain ⟨hash, row⟩ := row
  obtain ⟨fds, hrun, hfds⟩ := recoverPath_quiet laws (hash, row) hinv.quiet
  refine ⟨_, hrun, hinv.quiet, hinv.cache, fun _ _ => hlast, fun hash' row' t htracked hold => ?_, fun hash' row' t hrec hrow hold => ?_⟩
  · refine Kept.of_tables (hinv.kept hash' row' t ?_ hold) rfl rfl rfl
    unfold RecoveryServer.Tracked
    rw [hleft]
    rcases htracked with hmem | ⟨hrec, hrow⟩
    · exact .inl (List.mem_cons_of_mem _ hmem)
    · have hrow : (s.store.db.casPaths.insertOrIgnore hash row).get? hash' = some row' := hrow
      rw [Table.get?_insertOrIgnore] at hrow
      by_cases hne : hash' = hash
      · subst hne
        rw [if_pos rfl] at hrow
        cases hget : s.store.db.casPaths.get? hash' with
        | none => rw [hget] at hrow; cases hrow; exact .inl (List.mem_cons_self ..)
        | some held =>
          rw [hget] at hrow
          cases hrow
          have hcontains : s.store.db.casPaths.contains hash' = true := by rw [Table.contains_eq_isSome, hget]; rfl
          simp only [RecoveryServer.copied, hcontains, Bool.not_true, Bool.and_false, Bool.or_false] at hrec
          exact .inr ⟨hrec, rfl⟩
      · rw [if_neg hne] at hrow
        simp only [RecoveryServer.copied, hne, decide_false, Bool.false_and, Bool.or_false] at hrec
        exact .inr ⟨hrec, hrow⟩
  · intro data hdata
    refine (get?_withPathFiles ..).mpr ?_
    have hrow : (s.store.db.casPaths.insertOrIgnore hash row).get? hash' = some row' := hrow
    rw [Table.get?_insertOrIgnore] at hrow
    by_cases hne : hash' = hash
    · subst hne
      rw [if_pos rfl] at hrow
      cases hget : s.store.db.casPaths.get? hash' with
      | none =>
        rw [hget] at hrow
        cases hrow
        -- the directories are all copied, so the walk sees the whole tree
        have hkept := hinv.kept hash' row t (.inl (by rw [hleft]; exact List.mem_cons_self ..)) hold
        have hdirs : HasDirectories ext s.store.db t := by
          intro entries hentries
          have := hkept.directories entries hentries
          rw [finish_directories, hlast.2.2] at this
          simpa [insertRows] using this
        exact .inl ⟨rfl, hfds t hold.1 hdirs data hdata⟩
      | some held =>
        rw [hget] at hrow
        cases hrow
        have hcontains : s.store.db.casPaths.contains hash' = true := by rw [Table.contains_eq_isSome, hget]; rfl
        simp only [RecoveryServer.copied, hcontains, Bool.not_true, Bool.and_false, Bool.or_false] at hrec
        exact .inr (hinv.recorded hash' _ t hrec hget hold data hdata)
    · rw [if_neg hne] at hrow
      simp only [RecoveryServer.copied, hne, decide_false, Bool.false_and, Bool.or_false] at hrec
      exact .inr (hinv.recorded hash' row' t hrec hrow hold data hdata)

theorem forM_recoverPath_inv (laws : ext.Laws) : ∀ {rows rest : List (String × PathRow)} {s : RecoveryServer δ},
    RecoveryInv ext old oldFiles s → s.left.casPaths = rows ++ rest →
    s.left.chunks = [] ∧ s.left.fileChunks = [] ∧ s.left.directories = [] → ∃ st,
      rows.forM (recoverPath ext) s.store = .ok () st ∧ RecoveryInv ext old oldFiles { s with
        store := st
        left := { s.left with casPaths := rest }
        recovered := fun hash => s.recovered hash || (decide (hash ∈ rows.map Prod.fst) && !s.store.db.casPaths.contains hash) }
  | [], rest, s, hinv, hleft, _ => by
    refine ⟨s.store, rfl, ?_⟩
    simp only [List.map_nil, List.not_mem_nil, decide_false, Bool.false_and, Bool.or_false]
    rw [List.nil_append] at hleft
    rw [← hleft]; exact hinv
  | row :: rows, rest, s, hinv, hleft, hlast => by
    obtain ⟨st, hrun, hinv'⟩ := recoverPath_inv laws hinv hleft hlast
    obtain ⟨st', hrest, hinv''⟩ := forM_recoverPath_inv laws hinv' rfl hlast
    refine ⟨st', (bind_of_ok hrun).trans hrest, ?_⟩
    have hcontains : ∀ hash, st.db.casPaths.contains hash =
        (s.store.db.casPaths.contains hash || decide (hash = row.1)) := by
      obtain ⟨fds, hrun', -⟩ := recoverPath_quiet laws row hinv.quiet
      cases hrun.symm.trans hrun'
      intro hash
      rw [Bool.eq_iff_iff, Bool.or_eq_true, decide_eq_true_eq]
      exact Table.contains_insertOrIgnore
    have hrecovered : (fun hash => s.recovered hash ||
        (decide (hash ∈ (row :: rows).map Prod.fst) && !s.store.db.casPaths.contains hash)) = fun hash =>
          (s.recovered hash || (decide (hash = row.1) && !s.store.db.casPaths.contains hash)) ||
            (decide (hash ∈ rows.map Prod.fst) && !st.db.casPaths.contains hash) := by
      funext hash
      rw [hcontains, List.map_cons]
      by_cases hrow : hash = row.1
      · simp [hrow]
      · have hbeq : (hash == row.1) = false := beq_eq_false_iff_ne.mpr hrow
        simp [hrow, hbeq]
    rw [hrecovered]
    exact hinv''

theorem recover_inv (laws : ext.Laws) {next : Batch δ × Salvage δ} (hinv : RecoveryInv ext old oldFiles s)
    (hnext : s.left.next = some next) : ∃ st, next.1.write ext s.store = .ok () st ∧ RecoveryInv ext old oldFiles { s with
      store := st
      left := next.2
      recovered := fun hash => s.recovered hash || (decide (hash ∈ next.1.paths) && !s.store.db.casPaths.contains hash) } := by
  have hnone : ∀ {P : Prop}, (s.left.chunks ≠ [] ∨ s.left.fileChunks ≠ [] ∨ s.left.directories ≠ []) → ∀ hash,
      s.recovered hash = true → P := by
    intro P hmore hash hrec
    obtain ⟨hchunks, hfileChunks, hdirectories⟩ := hinv.order hash hrec
    exact absurd hmore (by simp [hchunks, hfileChunks, hdirectories])
  -- a batch of another table leaves the finished copy as it is
  have hother : ∀ {db' : Db δ} {left' : Salvage δ}, (s.left.chunks ≠ [] ∨ s.left.fileChunks ≠ [] ∨ s.left.directories ≠ []) →
      left'.casPaths = s.left.casPaths → db'.finish left' = s.store.db.finish s.left →
      RecoveryInv ext old oldFiles { s with
        store := { s.store with db := db' }
        left := left'
        recovered := fun hash => s.recovered hash || (decide (hash ∈ ([] : List String)) && !s.store.db.casPaths.contains hash) } := by
    intro db' left' hmore hpaths hfinish
    simp only [List.not_mem_nil, decide_false, Bool.false_and, Bool.or_false]
    refine ⟨hinv.quiet, hinv.cache, fun hash hrec => hnone hmore hash hrec, fun hash row t htracked hold => ?_,
      fun hash row t hrec => hnone hmore hash hrec⟩
    dsimp only
    rw [hfinish]
    refine hinv.kept hash row t ?_ hold
    rcases htracked with hmem | ⟨hrec, -⟩
    · exact .inl (hpaths ▸ hmem)
    · exact hnone hmore hash hrec
  unfold Salvage.next at hnext
  split_ifs at hnext with hchunks hfileChunks hdirectories hcasPaths <;> cases hnext
  · refine ⟨_, withTransaction_quiet hinv.quiet (forM_recoverChunk _ hinv.quiet) hinv.quiet, hother (.inl hchunks) rfl ?_⟩
    simp only [Db.finish, insertRows_take_drop]
  · refine ⟨_, withTransaction_quiet hinv.quiet (forM_recoverFileChunk _ hinv.quiet) hinv.quiet,
      hother (.inr (.inl hfileChunks)) rfl ?_⟩
    simp only [Db.finish, insertRows_take_drop]
  · refine ⟨_, withTransaction_quiet hinv.quiet (forM_recoverDirectory _ hinv.quiet) hinv.quiet,
      hother (.inr (.inr hdirectories)) rfl ?_⟩
    simp only [Db.finish, insertRows_take_drop]
  · obtain ⟨st, hrun, hinv'⟩ := forM_recoverPath_inv laws hinv (List.take_append_drop RECOVERY_BATCH_SIZE _).symm
      ⟨not_not.mp hchunks, not_not.mp hfileChunks, not_not.mp hdirectories⟩
    exact ⟨st, withTransaction_quiet hinv.quiet hrun hinv'.quiet, hinv'⟩

/-! ## Every step -/

theorem recoveryInv_init (db : Db δ) (corrupt : CorruptDb δ) (files : δ → Option Bytes) :
    RecoveryInv ext corrupt.salvage.tables files (.init db corrupt files) where
  quiet := rfl
  cache := cacheCoherent_empty
  order _ h := nomatch h
  kept _ _ _ _ hold := ⟨hold.2, fun _ _ hlisted => ⟨hlisted, fun _ _ hread => hread⟩⟩
  recorded _ _ _ h := nomatch h

/-- A step that keeps the rows and the files of the recovered paths, and what is
kept of them. -/
theorem RecoveryInv.of_store (hinv : RecoveryInv ext old oldFiles s) {gc : GcRun} {recovered : String → Bool}
    (hquiet : st.faults = []) (hcache : st.dirCache = s.store.dirCache)
    (hrec : ∀ hash, recovered hash = true → s.recovered hash = true ∧
      (∀ row, st.db.casPaths.get? hash = some row → s.store.db.casPaths.get? hash = some row) ∧
      ∀ f, s.store.db.pathFiles.get? (hash, f) = some () → st.db.pathFiles.get? (hash, f) = some ())
    (hkept : ∀ hash row t, (hash, row) ∈ s.left.casPaths ∨ recovered hash = true ∧ s.store.db.casPaths.get? hash = some row →
      OldTree ext old row t → Kept ext old oldFiles (s.store.db.finish s.left) s.store.files t →
        Kept ext old oldFiles (st.db.finish s.left) st.files t) :
    RecoveryInv ext old oldFiles { s with store := st, gc, recovered } where
  quiet := hquiet
  cache := hcache ▸ hinv.cache
  order hash h := hinv.order hash (hrec hash h).1
  kept hash row t htracked hold := by
    have htracked' : (hash, row) ∈ s.left.casPaths ∨ recovered hash = true ∧ s.store.db.casPaths.get? hash = some row :=
      htracked.imp_right fun ⟨h, hrow⟩ => ⟨h, (hrec hash h).2.1 row hrow⟩
    exact hkept hash row t htracked' hold (hinv.kept hash row t (htracked'.imp_right fun h => ⟨(hrec hash h.1).1, h.2⟩) hold)
  recorded hash row t h hrow hold data hdata := by
    obtain ⟨hrecovered, hrows, hfiles⟩ := hrec hash h
    exact hfiles _ (hinv.recorded hash row t hrecovered (hrows row hrow) hold data hdata)

theorem update_false {recovered : String → Bool} {hash hash' : String} (h : Function.update recovered hash false hash' = true) :
    hash' ≠ hash ∧ recovered hash' = true := by
  rw [Function.update_apply] at h
  split_ifs at h with hne
  exact ⟨hne, h⟩

/-- What an upload leaves, with the files its walk found. -/
theorem putNar_recorded (laws : ext.Laws) (hf : st.faults = []) {now : Nat} {filePath : String} {data : Bytes} {b : Bool}
    {st' : Store δ} (hput : putNar ext level now filePath data st = .ok b st') : ∃ t' fds, parseNar data = .ok t' ∧
      st' = recorded ext level now (hashOfFilePath filePath) data t' fds st := by
  unfold putNar at hput
  cases hparse : parseNar data with
  | error e => rw [hparse] at hput; cases hput
  | ok t' =>
    rw [hparse] at hput
    obtain ⟨fds, hingest⟩ := ingestNar_quiet laws level hf now (hashOfFilePath filePath) data t'
    obtain ⟨-, -, -, hfaults⟩ := ingested_frame ext level st t'
    have hrun := withTransaction_quiet hf hingest (hfaults.trans hf)
    obtain ⟨_, _, hrun', hpure⟩ := bind_ok.mp hput
    cases hrun.symm.trans hrun'
    cases hpure
    exact ⟨t', fds, rfl, rfl⟩

theorem putNar_inv (laws : ext.Laws) (hinv : RecoveryInv ext old oldFiles s) {now : Nat} {filePath : String} {data : Bytes}
    (hok : SafeStep ext s (.putNar now filePath data)) {b : Bool} {st : Store δ}
    (hput : putNar ext level now filePath data s.store = .ok b st) : RecoveryInv ext old oldFiles
      { s with store := st, recovered := Function.update s.recovered (hashOfFilePath filePath) false } := by
  obtain ⟨t', fds, hparse, rfl⟩ := putNar_recorded laws hinv.quiet hput
  obtain ⟨hpathFiles, hcasPaths, hcache, hfaults⟩ := ingested_frame ext level s.store t'
  refine hinv.of_store (hfaults.trans hinv.quiet) hcache (fun hash hrec => ?_) fun hash row t _ _ hkept => ?_
  · obtain ⟨hne, hrec⟩ := update_false hrec
    refine ⟨hrec, fun row hrow => ?_, fun f hf => (get?_withPathFiles ..).mpr (.inr (by rw [hpathFiles]; exact hf))⟩
    rw [← hcasPaths]
    exact ((Table.get?_insertOrReplace ..).trans (if_neg hne)).symm.trans hrow
  · exact (hkept.ingested laws level fun x hx => hok t' hparse x hx).of_tables rfl rfl rfl

theorem evictNext_inv (hinv : RecoveryInv ext old oldFiles s) {next : String × GcRun} (hnext : s.gc.next = some next)
    (hok : SafeStep ext s .evictNext) (gc : GcRun) : RecoveryInv ext old oldFiles
      { s with store := evicted next.1 s.store, gc, recovered := Function.update s.recovered next.1 false } := by
  refine hinv.of_store hinv.quiet rfl (fun hash hrec => ?_) fun hash row t htracked hold hkept => ?_
  · obtain ⟨hne, hrec⟩ := update_false hrec
    refine ⟨hrec, fun row hrow => ?_, fun f hf => get?_withoutPath.mpr ⟨hne, hf⟩⟩
    rw [evicted_casPaths] at hrow
    exact (Option.ite_none_left_eq_some.mp hrow).2
  · rcases htracked with hmem | ⟨hrec, hrow⟩
    · refine hkept.evicted fun data hdata _ => ?_
      obtain ⟨hfile, hchunks⟩ := hok next hnext hash row t hmem hold.1 data hdata
      exact ⟨hfile, fun _ => hchunks⟩
    · obtain ⟨hne, hrec⟩ := update_false hrec
      refine hkept.evicted fun data hdata hfileKept => ?_
      have hfile := not_deadFile hne (hinv.recorded hash row t hrec hrow hold data hdata)
      refine ⟨hfile, fun hlisted x hx => ?_⟩
      -- the list of the file is copied, so it names the chunk
      have hmem : ext.blake3 x ∈ (chunkRefs ext data).map Prod.fst := by
        rw [chunkRefs_digests]; exact List.mem_map_of_mem hx
      obtain ⟨⟨c, size⟩, href, hc⟩ := List.mem_map.mp hmem
      obtain ⟨i, hi⟩ := List.mem_iff_getElem?.mp href
      have hget := (hfileKept hlisted).1 i
      rw [finish_fileChunks, (hinv.order hash hrec).2.1, hi] at hget
      simp only [insertRows, List.foldl_nil, Table.get?_empty, Option.or_none] at hget
      have hdead := not_deadChunk hfile hget
      rwa [show c = ext.blake3 x from hc] at hdead

theorem recoveryStep_inv (laws : ext.Laws) {step : RecoveryStep} (hinv : RecoveryInv ext old oldFiles s)
    (hok : SafeStep ext s step) (hstep : recoveryStep ext level s step s') : RecoveryInv ext old oldFiles s' := by
  cases step with
  | recover =>
    obtain ⟨next, hnext, hreturn⟩ := Option.bind_eq_some_iff.mp hstep
    obtain ⟨_, st, hwrite, rfl⟩ := onReturn_eq_some.mp hreturn
    obtain ⟨st', hwrite', hinv'⟩ := recover_inv laws hinv hnext
    cases hwrite.symm.trans hwrite'
    exact hinv'
  | giveUp =>
    cases hstep
    refine ⟨hinv.quiet, hinv.cache, fun _ _ => ⟨rfl, rfl, rfl⟩, fun hash row t htracked hold => ?_, hinv.recorded⟩
    rcases htracked with hmem | ⟨hrec, hrow⟩
    · cases hmem
    · obtain ⟨hchunks, hfileChunks, hdirectories⟩ := hinv.order hash hrec
      refine Kept.of_tables (hinv.kept hash row t (.inr ⟨hrec, hrow⟩) hold) ?_ ?_ ?_
      · simp only [Db.finish, hdirectories]; rfl
      · simp only [Db.finish, hfileChunks]; rfl
      · simp only [Db.finish, hchunks]; rfl
  | putNar now filePath data =>
    obtain ⟨_, st, hput, rfl⟩ := onReturn_eq_some.mp hstep
    exact putNar_inv laws hinv hok hput
  | startGc maxSize targetSize =>
    obtain ⟨gc, st, hstart, rfl⟩ := onReturn_eq_some.mp hstep
    have hst : st = s.store := by
      have hquiet := hinv.quiet
      unfold casMaybeRunGc totalChunkBytes at hstart
      rw [bind_of_ok (query_quiet hquiet)] at hstart
      split_ifs at hstart
      · cases hstart; rfl
      · cases hstart; rfl
      · rw [bind_of_ok (query_quiet hquiet)] at hstart
        cases hstart; rfl
    subst hst
    exact ⟨hinv.quiet, hinv.cache, hinv.order, hinv.kept, hinv.recorded⟩
  | evictNext =>
    obtain ⟨next, hnext, hreturn⟩ := Option.bind_eq_some_iff.mp hstep
    obtain ⟨_, st, hevict, rfl⟩ := onReturn_eq_some.mp hreturn
    obtain ⟨bytesFreed, hevict', -⟩ := evictPath_quiet hinv.quiet next.1
    cases hevict.symm.trans hevict'
    exact evictNext_inv hinv hnext hok _

theorem RecoveryInv.downloads (laws : ext.Laws) (hinv : RecoveryInv ext old oldFiles s) {hash : String} {row : PathRow}
    (hrec : s.recovered hash = true) (hrow : s.store.db.casPaths.get? hash = some row)
    (hroot : row.rootNode = ext.encodeNode (caNode ext t)) (hold : Holds ext old oldFiles id t) :
    Downloads ext s.store hash (writeNar t.sorted) := by
  obtain ⟨hchunks, hfileChunks, hdirectories⟩ := hinv.order hash hrec
  have hkept : Kept ext old oldFiles s.store.db s.store.files t := by
    refine Kept.of_tables (hinv.kept hash row t (.inr ⟨hrec, hrow⟩) ⟨hroot, hold.directories⟩) ?_ ?_ ?_
    · simp only [Db.finish, hdirectories]; rfl
    · simp only [Db.finish, hfileChunks]; rfl
    · simp only [Db.finish, hchunks]; rfl
  have hholds : Holds ext s.store.db s.store.files id t :=
    ⟨hkept.directories, fun data hdata => (hkept.files data hdata (hold.fileChunks data hdata)).1,
      fun data hdata x hx => (hkept.files data hdata (hold.fileChunks data hdata)).2 x hx (hold.chunks data hdata x hx)⟩
  have hdown := hholds.downloads laws ⟨row, hrow, hroot⟩ ⟨rfl, rfl, hinv.quiet, hinv.cache⟩
  have hid : fileContent ext id = id := funext fun data => fileContent_id laws data
  rwa [hid, show writeNarWith id t.sorted = writeNar t.sorted by rw [writeNarWith, writeNarObjWith_id]; rfl] at hdown

/-- **A collection during a recovery.** What the old database had of a path that is
copied, or still to be copied, is never deleted, and a copied path whose files
were whole serves its NAR. -/
theorem recoveryRun_safe (laws : ext.Laws) {db : Db δ} {corrupt : CorruptDb δ} {files : δ → Option Bytes}
    {steps : List RecoveryStep}
    (hrun : Run (guarded (recoveryStep ext level) (SafeStep ext)) (.init db corrupt files) steps s) :
    (∀ hash row t, s.Tracked hash row → OldTree ext corrupt.salvage.tables row t →
      Kept ext corrupt.salvage.tables files (s.store.db.finish s.left) s.store.files t) ∧
    ∀ hash row t, s.recovered hash = true → s.store.db.casPaths.get? hash = some row →
      row.rootNode = ext.encodeNode (caNode ext t) → Holds ext corrupt.salvage.tables files id t →
        Downloads ext s.store hash (writeNar t.sorted) := by
  have hinv : RecoveryInv ext corrupt.salvage.tables files s := hrun.invariant
    (fun s step s' h hstep => recoveryStep_inv laws h hstep.1 hstep.2) (recoveryInv_init db corrupt files)
  exact ⟨fun hash row t => hinv.kept hash row t, fun hash row t hrec hrow hroot hold => hinv.downloads laws hrec hrow hroot hold⟩

/-- A step after the copy, or of it. -/
def afterCopy (s : RecoveryServer δ) : RecoveryStep → Bool
  | .recover => true
  | _ => s.left.chunks.isEmpty && s.left.casPaths.isEmpty

theorem safeStep_of_afterCopy {step : RecoveryStep} (h : afterCopy s step = true) : SafeStep ext s step := by
  cases step with
  | recover => trivial
  | giveUp => trivial
  | startGc maxSize targetSize => trivial
  | putNar now filePath data =>
    intro t _ x _ hmem
    rw [List.isEmpty_iff.mp (Bool.and_eq_true_iff.mp h).1] at hmem
    cases hmem
  | evictNext =>
    intro next _ hash row t hmem
    rw [List.isEmpty_iff.mp (Bool.and_eq_true_iff.mp h).2] at hmem
    cases hmem

def oldFile : NarNode := .regular false [1]

/-- A database with one path, and a chunk row that cannot be read before its own. -/
def oneOldPath : CorruptDb Bytes where
  chunks := [.error, .row ⟨some [1], some 1, some none, some 0, some (some [1])⟩]
  fileChunks := [.row ⟨some [1], some 0, some [1], some 1⟩]
  directories := []
  casPaths := [.row ⟨some "p", none, none, none, some (sampleExt.encodeNode (caNode sampleExt oldFile)), none, none, none, none,
    none, some 5⟩]

theorem oneOldPath_holds : Holds sampleExt oneOldPath.salvage.tables (fun _ => none) id oldFile where
  directories entries h := by simp [oldFile, NarNode.postorder] at h
  fileChunks data hdata i := by
    obtain rfl : data = [1] := by simpa [oldFile, NarNode.files, NarNode.postorder] using hdata
    cases i with
    | zero => decide
    | succ i =>
      have hrefs : (chunkRefs sampleExt [1]).length = 1 := by decide
      rw [List.getElem?_eq_none (by omega)]
      have hrows : oneOldPath.salvage.tables.fileChunks.rows = [(([1], 0), ([1], 1))] := by decide
      unfold Table.get?
      rw [hrows]
      simp [sampleExt]
  chunks data hdata x hx := by
    obtain rfl : data = [1] := by simpa [oldFile, NarNode.files, NarNode.postorder] using hdata
    obtain rfl : x = [1] := by
      have hchunks : sampleExt.chunks [1] = [[1]] := by decide
      rw [hchunks] at hx; exact List.mem_singleton.mp hx
    rfl

def downloaded {ε σ : Type} : EStateM.Result ε σ (Option Bytes) → Option Bytes
  | .ok nar _ => nar
  | .error _ _ => none

/-- A collection between two passes of the copy. -/
def collectBetweenPasses : List RecoveryStep :=
  [.recover, .recover, .putNar 0 "nar/x.nar" (writeNar oldFile), .startGc 0 0, .evictNext, .recover]

/-- The same collection after the copy. -/
def collectAfterCopy : List RecoveryStep :=
  [.recover, .recover, .recover, .putNar 0 "nar/x.nar" (writeNar oldFile), .startGc 0 0, .evictNext]

theorem recoveryRun_safe_collectAfterCopy : ∃ s : RecoveryServer Bytes, s.recovered "p" = true ∧
    Downloads sampleExt s.store "p" (writeNar oldFile) := by
  obtain ⟨s, hrun, htest⟩ := (Option.any_eq_true ..).mp (show (collectAfterCopy.foldlM (fun s step =>
      if afterCopy s step = true then recoveryNext sampleExt 3 s step else none) (.init .empty oneOldPath fun _ => none)).any
        (fun s => s.recovered "p" && (s.store.db.casPaths.get? "p").any fun row =>
          row.rootNode = sampleExt.encodeNode (caNode sampleExt oldFile)) = true by decide +kernel)
  obtain ⟨hrec, hrow⟩ := Bool.and_eq_true_iff.mp htest
  obtain ⟨row, hrow, hroot⟩ := (Option.any_eq_true ..).mp hrow
  have hrun : Run (guarded (recoveryStep sampleExt 3) (SafeStep sampleExt)) _ _ s :=
    (run_of_foldlM_guarded hrun).mono fun s step s' h => ⟨safeStep_of_afterCopy h.1, h.2⟩
  have hdown := (recoveryRun_safe sampleExt_laws hrun).2 "p" row oldFile hrec hrow (of_decide_eq_true hroot) oneOldPath_holds
  exact ⟨s, hrec, hdown⟩

theorem collectBetweenPasses_loses : ¬ ∀ (steps : List RecoveryStep) (s : RecoveryServer Bytes),
    Run (recoveryStep sampleExt 3) (.init .empty oneOldPath fun _ => none) steps s →
      ∀ hash row t, s.recovered hash = true → s.store.db.casPaths.get? hash = some row →
        row.rootNode = sampleExt.encodeNode (caNode sampleExt t) →
          Holds sampleExt oneOldPath.salvage.tables (fun _ => none) id t → Downloads sampleExt s.store hash (writeNar t.sorted) := by
  intro h
  obtain ⟨s, hrun, htest⟩ := (Option.any_eq_true ..).mp (show (collectBetweenPasses.foldlM (recoveryNext sampleExt 3)
      (.init .empty oneOldPath fun _ => none)).any (fun s => s.recovered "p" && ((s.store.db.casPaths.get? "p").any fun row =>
          row.rootNode = sampleExt.encodeNode (caNode sampleExt oldFile)) &&
        decide (downloaded (getNar sampleExt "nar/p.nar" s.store) ≠ some (writeNar oldFile))) = true by decide +kernel)
  obtain ⟨hrest, hlost⟩ := Bool.and_eq_true_iff.mp htest
  obtain ⟨hrec, hrow⟩ := Bool.and_eq_true_iff.mp hrest
  obtain ⟨row, hrow, hroot⟩ := (Option.any_eq_true ..).mp hrow
  have hdown := h _ s (run_of_foldlM hrun) "p" row oldFile hrec hrow (of_decide_eq_true hroot) oneOldPath_holds
  obtain ⟨st, hget⟩ := hdown.getNar "nar/p.nar" (by decide)
  refine of_decide_eq_true hlost ?_
  rw [hget]; rfl

end Ekapkgs
