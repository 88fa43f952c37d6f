import Ekapkgs.CasGc
import Ekapkgs.GcSafety

/-!
# What a collection frees

The loop of `cas_maybe_run_gc` without anyone else at the store: it stops with
enough freed or with no path left to evict, and what it adds up is what the
chunk table lost.
-/

namespace Ekapkgs
open Keyed Fallible

/-- `freed` and `evicted`, and the paths that a warning was logged for. -/
structure GcReport where
  freed : Nat
  evicted : Nat
  warnings : List String

variable {δ : Type} [DecidableEq δ]

/-- `match backend.evict_path(hash)`. -/
def tryEvict (hash : String) : CasM δ (Option Nat) := fun st =>
  match evictPath hash st with
  | .ok bytes st' => .ok (some bytes) st'
  | .error _ st' => .ok none st'

def evictUntil (toFree : Nat) : List String → GcReport → CasM δ GcReport
  | [], report => pure report
  | hash :: paths, report =>
    if toFree ≤ report.freed then pure report
    else do
      match ← tryEvict hash with
      | some bytes =>
        evictUntil toFree paths { report with freed := report.freed + bytes, evicted := report.evicted + 1 }
      | none => evictUntil toFree paths { report with warnings := report.warnings ++ [hash] }

/-- `cas_maybe_run_gc` to its end. -/
def runCasGc (pathFilesReady : Bool) (maxSize targetSize : Nat) : CasM δ GcReport := do
  let gc ← casMaybeRunGc pathFilesReady maxSize targetSize
  evictUntil gc.toFree gc.paths ⟨gc.freed, 0, []⟩

def chunkBytesTotal (db : Db δ) : Nat := db.chunks.total ChunkRow.size

variable {st : Store δ}

/-! ## One eviction, whatever fails -/

/-- The paths of the store are these, and with `freed` its chunks were at most `total`. -/
def AtMost (total : Nat) (paths : Table String PathRow) (freed : Nat) : View δ := fun db _ =>
  freed + chunkBytesTotal db ≤ total ∧ db.casPaths = paths

omit [DecidableEq δ] in
theorem query_loose {α : Type} {I : View δ} {f : Db δ → α} :
    Triple (on I) (query f) (fun _ => on I) (fun _ => on fun _ _ => True) :=
  (query_on fun _ _ _ => trivial).post fun _ _ h => h.2

theorem releaseFiles_atMost {total freed : Nat} {paths : Table String PathRow} : ∀ (files chunkDigests : List δ),
    Triple (on (AtMost total paths freed)) (releaseFiles files chunkDigests) (fun _ => on (AtMost total paths freed))
      (fun _ => on fun _ _ => True)
  | [], _ => .pure fun _ h => h
  | file :: files, chunkDigests => by
    refine .bind query_loose fun stillReferenced => ?_
    cases stillReferenced with
    | true => exact releaseFiles_atMost files chunkDigests
    | false =>
      refine .bind (query_loose (I := AtMost total paths freed)) fun chunks => ?_
      exact .bind (R := fun _ => on (AtMost total paths freed)) (exec_on (fun _ _ h => h) fun _ _ _ => trivial) fun _ => releaseFiles_atMost files _

theorem releaseChunks_atMost {total : Nat} {paths : Table String PathRow} : ∀ (chunks : List δ) (freed : Nat),
    Triple (on (AtMost total paths freed)) (releaseChunks chunks freed) (fun freed => on (AtMost total paths freed))
      (fun _ => on fun _ _ => True)
  | [], _ => .pure fun _ h => h
  | chunk :: chunks, freed => by
    refine .bind query_loose fun stillReferenced => ?_
    cases stillReferenced with
    | true => exact releaseChunks_atMost chunks freed
    | false =>
      refine .bind (queryRow_on (I := AtMost total paths freed)) fun size => ?_
      refine .bind (R := fun _ => on (AtMost total paths (freed + size.getD 0)))
        (exec_on (fun db files ⟨hsize, h⟩ => ⟨?_, h.2⟩) fun _ _ _ => trivial) fun _ => ?_
      · have hdelete := Table.total_delete db.chunks ChunkRow.size chunk
        have hbound : size.getD 0 ≤ ((db.chunks.get? chunk).map ChunkRow.size).getD 0 := by
          cases size with
          | none => exact Nat.zero_le _
          | some bytes => rw [hsize bytes rfl]
        have htotal : freed + db.chunks.total ChunkRow.size ≤ total := h.1
        show freed + size.getD 0 + (db.chunks.delete chunk).total ChunkRow.size ≤ total
        omega
      · exact .bind (removeFile_on (fun _ _ h => h) fun _ _ h => h) fun _ => releaseChunks_atMost chunks _

/-- An eviction that returns takes the path out and frees at least what it says. -/
theorem evictPath_frees {hash : String} {bytes : Nat} {st' : Store δ} (hrun : evictPath hash st = .ok bytes st') :
    bytes + chunkBytesTotal st'.db ≤ chunkBytesTotal st.db ∧ st'.db.casPaths = st.db.casPaths.delete hash := by
  have hbody : Triple (on (AtMost (chunkBytesTotal st.db) st.db.casPaths 0)) (evictPath hash : CasM δ Nat)
      (fun bytes => on (AtMost (chunkBytesTotal st.db) (st.db.casPaths.delete hash) bytes))
      (fun _ => on fun _ _ => True) := by
    refine (withTransaction_on (D := fun _ => True) (F := fun _ => True)
      (I := AtMost (chunkBytesTotal st.db) st.db.casPaths 0) ?_ (fun _ _ _ => trivial) fun _ _ _ _ => trivial).conseq
      (fun _ h => ⟨trivial, h⟩) (fun _ _ h => h) fun _ _ _ => trivial
    refine .bind query_loose fun fileDigests => ?_
    refine .bind (R := fun _ => on (AtMost (chunkBytesTotal st.db) (st.db.casPaths.delete hash) 0)) ?_ fun _ => ?_
    · refine .bind (R := fun _ => on (AtMost (chunkBytesTotal st.db) (st.db.casPaths.delete hash) 0))
        (exec_on (fun db _ h => ⟨h.1, ?_⟩) fun _ _ _ => trivial) fun _ => exec_on (fun _ _ h => h) fun _ _ _ => trivial
      rw [← h.2]
    by_cases hempty : fileDigests.isEmpty
    · rw [if_pos hempty]; exact .pure fun _ h => h
    · rw [if_neg hempty]
      exact .bind (releaseFiles_atMost _ _) fun _ => releaseChunks_atMost _ _
  exact hbody.ok_of ⟨by omega, rfl⟩ hrun

theorem evictPath_error {hash : String} {e : CasError δ} {st' : Store δ} (hrun : evictPath hash st = .error e st') :
    st'.db = st.db := by
  unfold evictPath withTransaction rollback at hrun
  split at hrun
  · cases hrun
  · cases hrun; rfl

/-! ## The loop -/

theorem tryEvict_cases (hash : String) (st : Store δ) :
    (∃ bytes st', tryEvict hash st = .ok (some bytes) st' ∧ bytes + chunkBytesTotal st'.db ≤ chunkBytesTotal st.db ∧
      st'.db.casPaths = st.db.casPaths.delete hash) ∨
    ∃ st', tryEvict hash st = .ok none st' ∧ st'.db = st.db := by
  unfold tryEvict
  cases hrun : evictPath hash st with
  | ok bytes st' => exact .inl ⟨bytes, st', rfl, evictPath_frees hrun⟩
  | error e st' => exact .inr ⟨st', rfl, evictPath_error hrun⟩

theorem tryEvict_quiet (hf : st.faults = []) (hash : String) : ∃ bytes, tryEvict hash st = .ok (some bytes) (evicted hash st) ∧
    bytes + chunkBytesTotal (evicted hash st).db = chunkBytesTotal st.db := by
  obtain ⟨bytes, hrun, htotal⟩ := evictPath_quiet hf hash
  exact ⟨bytes, by unfold tryEvict; rw [hrun], htotal⟩

/-- Where a pass stops: enough is freed, or every path left is one it could not evict. -/
def Collected (toFree : Nat) (db : Db δ) (report : GcReport) : Prop :=
  toFree ≤ report.freed ∨ ∀ hash, db.casPaths.contains hash = true → hash ∈ report.warnings

/-- The loop returns. It frees at least what it adds up, and it looks at every
path before it gives up. -/
theorem evictUntil_collects (toFree total : Nat) : ∀ (paths : List String) (report : GcReport) {st : Store δ},
    report.freed + chunkBytesTotal st.db ≤ total →
    (∀ hash, st.db.casPaths.contains hash = true → hash ∈ paths ∨ hash ∈ report.warnings) →
    ∃ report' st', evictUntil toFree paths report st = .ok report' st' ∧ report'.freed + chunkBytesTotal st'.db ≤ total ∧
      Collected toFree st'.db report'
  | [], report, st, htotal, hpaths =>
    ⟨report, st, rfl, htotal, .inr fun hash h => (hpaths hash h).resolve_left List.not_mem_nil⟩
  | hash :: paths, report, st, htotal, hpaths => by
    unfold evictUntil
    by_cases henough : toFree ≤ report.freed
    · rw [if_pos henough]
      exact ⟨report, st, rfl, htotal, .inl henough⟩
    rw [if_neg henough]
    rcases tryEvict_cases hash st with ⟨bytes, st', hrun, hfreed, hrows⟩ | ⟨st', hrun, hdb⟩
    · rw [bind_of_ok hrun]
      refine evictUntil_collects toFree total paths _ (by dsimp only; omega) fun hash' h => ?_
      rw [hrows, Table.contains_eq_isSome, Table.get?_delete] at h
      by_cases hhash : hash' = hash
      · rw [if_pos hhash] at h; cases h
      · rw [if_neg hhash, ← Table.contains_eq_isSome] at h
        exact (hpaths hash' h).imp_left fun hmem => (List.mem_cons.mp hmem).resolve_left hhash
    · rw [bind_of_ok hrun]
      refine evictUntil_collects toFree total paths _ (by rw [hdb]; exact htotal) fun hash' h => ?_
      rw [hdb] at h
      rcases hpaths hash' h with hmem | hmem
      · rcases List.mem_cons.mp hmem with rfl | hmem
        · exact .inr (by simp)
        · exact .inl hmem
      · exact .inr (List.mem_append_left _ hmem)

/-- Without failures the loop adds up exactly what the chunk table loses, and
warns of nothing. -/
theorem evictUntil_quiet (toFree : Nat) : ∀ (paths : List String) (report : GcReport) {st : Store δ}, st.faults = [] →
    ∃ report' st', evictUntil toFree paths report st = .ok report' st' ∧
      report'.freed + chunkBytesTotal st'.db = report.freed + chunkBytesTotal st.db ∧ report'.warnings = report.warnings
  | [], report, st, _ => ⟨report, st, rfl, rfl, rfl⟩
  | hash :: paths, report, st, hf => by
    unfold evictUntil
    by_cases henough : toFree ≤ report.freed
    · rw [if_pos henough]
      exact ⟨report, st, rfl, rfl, rfl⟩
    obtain ⟨bytes, hrun, htotal⟩ := tryEvict_quiet hf hash
    have hf' : (evicted hash st).faults = [] := hf
    obtain ⟨report', st', hrest, hfreed, hwarnings⟩ := evictUntil_quiet toFree paths
      { report with freed := report.freed + bytes, evicted := report.evicted + 1 } hf'
    rw [if_neg henough, bind_of_ok hrun]
    refine ⟨report', st', hrest, ?_, hwarnings⟩
    dsimp only at hfreed
    omega

/-! ## A whole pass -/

omit [DecidableEq δ] in
theorem mem_pathsByAccessAsc {db : Db δ} {hash : String} :
    hash ∈ db.pathsByAccessAsc ↔ db.casPaths.contains hash = true := by
  rw [Table.contains_iff_mem, Db.pathsByAccessAsc]
  exact ((List.perm_insertionSort _ _).map _).mem_iff

omit [DecidableEq δ] in
theorem query_ok {α : Type} {f : Db δ → α} {a : α} {st' : Store δ} (hrun : query f st = .ok a st') :
    a = f st.db ∧ st'.db = st.db := by
  have hquery : Triple (on fun db _ => db = st.db) (query f) (fun a => on fun db _ => f db = a ∧ db = st.db)
      (fun _ => on fun _ _ => True) := query_on fun _ _ _ => trivial
  obtain ⟨ha, hdb⟩ := hquery.ok_of rfl hrun
  exact ⟨by rw [← ha, hdb], hdb⟩

omit [DecidableEq δ] in
/-- A pass that decides to collect looks at every path. -/
theorem casMaybeRunGc_over {maxSize targetSize : Nat} (hover : maxSize < chunkBytesTotal st.db) {gc : GcRun} {st' : Store δ}
    (hrun : casMaybeRunGc true maxSize targetSize st = .ok gc st') :
    gc = ⟨st.db.pathsByAccessAsc, chunkBytesTotal st.db - targetSize, 0⟩ ∧ st'.db = st.db := by
  obtain ⟨total, st₁, htotal, hrun⟩ := bind_ok.mp hrun
  obtain ⟨rfl, hdb⟩ := query_ok htotal
  have hnot : ¬ st.db.chunks.total ChunkRow.size ≤ maxSize := Nat.not_le.mpr hover
  rw [if_neg hnot, if_neg (by decide)] at hrun
  obtain ⟨paths, st₂, hpaths, hrun⟩ := bind_ok.mp hrun
  obtain ⟨rfl, hdb'⟩ := query_ok hpaths
  cases hrun
  rw [hdb] at hdb' ⊢
  exact ⟨rfl, hdb'⟩

omit [DecidableEq δ] in
theorem casMaybeRunGc_quiet {maxSize targetSize : Nat} (hover : maxSize < chunkBytesTotal st.db) (hf : st.faults = []) :
    casMaybeRunGc true maxSize targetSize st =
      .ok ⟨st.db.pathsByAccessAsc, chunkBytesTotal st.db - targetSize, 0⟩ st := by
  have hnot : ¬ st.db.chunks.total ChunkRow.size ≤ maxSize := Nat.not_le.mpr hover
  unfold casMaybeRunGc totalChunkBytes
  rw [bind_of_ok (query_quiet hf), if_neg hnot, if_neg (by decide), bind_of_ok (query_quiet hf)]
  rfl

omit [DecidableEq δ] in
theorem Collected.target {targetSize total : Nat} {db : Db δ} {report : GcReport}
    (h : Collected (total - targetSize) db report) (hfreed : report.freed + chunkBytesTotal db ≤ total) :
    chunkBytesTotal db ≤ targetSize ∨ ∀ hash, db.casPaths.contains hash = true → hash ∈ report.warnings :=
  h.imp_left fun henough => by omega

/-- A pass over a store that is too large. Whatever fails, it ends at the target
or with no path left but those it has warned of, and it frees at least what it
adds up; when nothing fails it frees just that, and no path is left. -/
theorem runCasGc_meets_target {maxSize targetSize : Nat} {st : Store δ} (hover : maxSize < chunkBytesTotal st.db) :
    (∀ report st', runCasGc true maxSize targetSize st = .ok report st' →
      report.freed + chunkBytesTotal st'.db ≤ chunkBytesTotal st.db ∧
        (chunkBytesTotal st'.db ≤ targetSize ∨ ∀ hash, st'.db.casPaths.contains hash = true → hash ∈ report.warnings)) ∧
    (st.faults = [] → ∃ report st', runCasGc true maxSize targetSize st = .ok report st' ∧
      report.freed + chunkBytesTotal st'.db = chunkBytesTotal st.db ∧
        (chunkBytesTotal st'.db ≤ targetSize ∨ st'.db.casPaths.rows = [])) := by
  have hloop : ∀ {st₁ : Store δ}, st₁.db = st.db → ∃ report st',
      evictUntil (chunkBytesTotal st.db - targetSize) st.db.pathsByAccessAsc ⟨0, 0, []⟩ st₁ = .ok report st' ∧
        report.freed + chunkBytesTotal st'.db ≤ chunkBytesTotal st.db ∧
        Collected (chunkBytesTotal st.db - targetSize) st'.db report := by
    intro st₁ hdb
    refine evictUntil_collects _ _ _ _ (by rw [hdb]; dsimp only; omega) fun hash h => .inl ?_
    rw [hdb] at h
    exact mem_pathsByAccessAsc.mpr h
  constructor
  · intro report st' hrun
    obtain ⟨gc, st₁, hgc, hrun⟩ := bind_ok.mp hrun
    obtain ⟨rfl, hdb⟩ := casMaybeRunGc_over hover hgc
    obtain ⟨report', st'', hrun', hfreed, hcollected⟩ := hloop hdb
    cases hrun'.symm.trans hrun
    exact ⟨hfreed, hcollected.target hfreed⟩
  · intro hf
    obtain ⟨report, st', hrun, hfreed, hcollected⟩ := hloop rfl
    obtain ⟨report', st'', hrun', hexact, hwarnings⟩ := evictUntil_quiet (chunkBytesTotal st.db - targetSize)
      st.db.pathsByAccessAsc ⟨0, 0, []⟩ hf
    cases hrun'.symm.trans hrun
    refine ⟨report, st', (bind_of_ok (casMaybeRunGc_quiet hover hf)).trans hrun, by rw [hexact, Nat.zero_add], ?_⟩
    refine (hcollected.target hfreed).imp_right fun hnone => ?_
    rw [hwarnings] at hnone
    refine List.eq_nil_iff_forall_not_mem.mpr fun row hrow => ?_
    exact absurd (hnone row.1 (Table.contains_iff_mem.mpr (List.mem_map.mpr ⟨row, hrow, rfl⟩))) List.not_mem_nil

/-- Two paths with one file: the first eviction frees nothing, the second all. -/
theorem runCasGc_twoUploads : ∃ report st', runCasGc true 0 0 twoUploads.store = .ok report st' ∧
    report.freed + chunkBytesTotal st'.db = chunkBytesTotal twoUploads.store.db ∧
      (chunkBytesTotal st'.db ≤ 0 ∨ st'.db.casPaths.rows = []) :=
  (runCasGc_meets_target (show 0 < chunkBytesTotal twoUploads.store.db by decide)).2 (by decide)

end Ekapkgs
