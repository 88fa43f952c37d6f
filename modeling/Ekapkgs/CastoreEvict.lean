import Ekapkgs.CastoreUpload

/-!
# Eviction

What `evict_path` leaves in the store when nothing fails: the files of the path
that no other path refers to lose their chunk lists, and the chunks of those
that no remaining list names lose their rows and files.
-/

namespace Ekapkgs
open Keyed Fallible

variable {δ : Type} [DecidableEq δ]

def Db.refersFile (db : Db δ) (file : δ) : Bool := db.pathFiles.rows.any fun r => r.1.2 = file

def Db.refersChunk (db : Db δ) (chunk : δ) : Bool := db.fileChunks.rows.any fun r => r.2.1 = chunk

def Db.withoutPath (db : Db δ) (hash : String) : Db δ :=
  { db with casPaths := db.casPaths.delete hash, pathFiles := db.pathFiles.deleteWhere fun k _ => k.1 = hash }

def Db.withoutFiles (db : Db δ) (dead : δ → Bool) : Db δ :=
  { db with fileChunks := db.fileChunks.deleteWhere fun k _ => dead k.1 }

def withoutChunks (st : Store δ) (dead : δ → Bool) : Store δ :=
  { st with
    db := { st.db with chunks := st.db.chunks.deleteWhere fun c _ => dead c }
    files := fun c => if dead c then none else st.files c }

/-- A file of the path that no other path has. -/
def Db.deadFile (db : Db δ) (hash : String) (file : δ) : Bool :=
  file ∈ db.filesOfPath hash && !(db.withoutPath hash).refersFile file

/-- A chunk of a dead file that no other file has. -/
def Db.deadChunk (db : Db δ) (hash : String) (chunk : δ) : Bool :=
  db.fileChunks.rows.any (fun r => db.deadFile hash r.1.1 && r.2.1 = chunk) &&
    !(db.withoutFiles (db.deadFile hash)).refersChunk chunk

/-- The store once a path is evicted. -/
def evicted (hash : String) (st : Store δ) : Store δ :=
  withoutChunks { st with db := (st.db.withoutPath hash).withoutFiles (st.db.deadFile hash) } (st.db.deadChunk hash)

variable {st : Store δ} {db : Db δ}

/-! ## What refers to what -/

theorem refersFile_iff {file : δ} : db.refersFile file = true ↔ ∃ hash, db.pathFiles.get? (hash, file) = some () := by
  unfold Db.refersFile
  simp only [List.any_eq_true, decide_eq_true_eq]
  constructor
  · rintro ⟨⟨⟨hash, _⟩, _⟩, hr, rfl⟩; exact ⟨hash, Table.get?_eq_some.mpr hr⟩
  · rintro ⟨hash, h⟩; exact ⟨_, Table.get?_eq_some.mp h, rfl⟩

theorem refersChunk_iff {chunk : δ} :
    db.refersChunk chunk = true ↔ ∃ file i size, db.fileChunks.get? (file, i) = some (chunk, size) := by
  unfold Db.refersChunk
  simp only [List.any_eq_true, decide_eq_true_eq]
  constructor
  · rintro ⟨⟨⟨file, i⟩, _, size⟩, hr, rfl⟩; exact ⟨file, i, size, Table.get?_eq_some.mpr hr⟩
  · rintro ⟨file, i, size, h⟩; exact ⟨_, Table.get?_eq_some.mp h, rfl⟩

theorem mem_filesOfPath {hash : String} {file : δ} :
    file ∈ db.filesOfPath hash ↔ db.pathFiles.get? (hash, file) = some () := by
  unfold Db.filesOfPath
  simp only [List.mem_map, List.mem_filter, decide_eq_true_eq]
  constructor
  · rintro ⟨⟨⟨_, _⟩, _⟩, ⟨hr, rfl⟩, rfl⟩; exact Table.get?_eq_some.mpr hr
  · intro h; exact ⟨_, ⟨Table.get?_eq_some.mp h, rfl⟩, rfl⟩

theorem mem_chunksOfFile {file chunk : δ} :
    chunk ∈ db.chunksOfFile file ↔ ∃ i size, db.fileChunks.get? (file, i) = some (chunk, size) := by
  unfold Db.chunksOfFile
  simp only [List.mem_map, List.mem_filter, decide_eq_true_eq]
  constructor
  · rintro ⟨⟨⟨_, i⟩, _, size⟩, ⟨hr, rfl⟩, rfl⟩; exact ⟨i, size, Table.get?_eq_some.mpr hr⟩
  · rintro ⟨i, size, h⟩; exact ⟨_, ⟨Table.get?_eq_some.mp h, rfl⟩, rfl⟩

theorem get?_withoutPath {hash hash' : String} {file : δ} :
    (db.withoutPath hash).pathFiles.get? (hash', file) = some () ↔
      hash' ≠ hash ∧ db.pathFiles.get? (hash', file) = some () := by
  unfold Db.withoutPath
  rw [Table.get?_deleteWhere, Option.filter_eq_some_iff, and_comm]
  simp

theorem get?_withoutFiles {dead : δ → Bool} (file : δ) (i : Nat) : (db.withoutFiles dead).fileChunks.get? (file, i) =
    if dead file then none else db.fileChunks.get? (file, i) := by
  unfold Db.withoutFiles
  rw [Table.get?_deleteWhere]
  cases dead file <;> cases db.fileChunks.get? (file, i) <;> rfl

theorem get?_withoutChunks {dead : δ → Bool} (chunk : δ) : (withoutChunks st dead).db.chunks.get? chunk =
    if dead chunk then none else st.db.chunks.get? chunk := by
  unfold withoutChunks
  rw [Table.get?_deleteWhere]
  cases dead chunk <;> cases st.db.chunks.get? chunk <;> rfl

/-! ## The two sweeps -/

omit [DecidableEq δ] in
theorem withoutFiles_withoutFiles (db : Db δ) (dead dead' : δ → Bool) :
    (db.withoutFiles dead).withoutFiles dead' = db.withoutFiles fun f => dead f || dead' f := by
  unfold Db.withoutFiles
  rw [Table.deleteWhere_deleteWhere]

omit [DecidableEq δ] in
theorem withoutFiles_congr {dead dead' : δ → Bool} (h : ∀ f, dead f = dead' f) : db.withoutFiles dead = db.withoutFiles dead' := by
  rw [funext h]

theorem releaseFiles_quiet : ∀ (files acc : List δ) {st : Store δ}, st.faults = [] → ∃ acc',
    releaseFiles files acc st = .ok acc' { st with db := st.db.withoutFiles fun f => f ∈ files && !st.db.refersFile f } ∧
      ∀ c, c ∈ acc' ↔ c ∈ acc ∨ ∃ f ∈ files, st.db.refersFile f = false ∧ c ∈ st.db.chunksOfFile f
  | [], acc, st, hf => by
    have hnone : (st.db.withoutFiles fun f => decide (f ∈ ([] : List δ)) && !st.db.refersFile f) = st.db := by
      unfold Db.withoutFiles
      rw [Table.deleteWhere_false _ fun k v => by simp]
    exact ⟨acc, by rw [hnone]; rfl, fun c => by simp⟩
  | file :: files, acc, st, hf => by
    cases href : st.db.refersFile file with
    | true =>
      obtain ⟨acc', hrun, hmem⟩ := releaseFiles_quiet files acc hf
      refine ⟨acc', ?_, fun c => ?_⟩
      · have hdead : ∀ f, (decide (f ∈ file :: files) && !st.db.refersFile f) = (decide (f ∈ files) && !st.db.refersFile f) := by
          intro f
          by_cases hfile : f = file
          · subst hfile; simp [href]
          · simp [hfile]
        rw [withoutFiles_congr hdead]
        exact (bind_of_ok (query_quiet hf)).trans ((congrFun (if_pos href) st).trans hrun)
      · rw [hmem]
        simp [href]
    | false =>
      let db := st.db.withoutFiles fun f => f = file
      have hdb : ({ st with db } : Store δ).faults = [] := hf
      obtain ⟨acc', hrun, hmem⟩ := releaseFiles_quiet files (insertAll (st.db.chunksOfFile file) acc) hdb
      refine ⟨acc', ?_, fun c => ?_⟩
      · have hdead : db.withoutFiles (fun f => decide (f ∈ files) && !db.refersFile f) =
            st.db.withoutFiles fun f => decide (f ∈ file :: files) && !st.db.refersFile f := by
          rw [withoutFiles_withoutFiles]
          refine withoutFiles_congr fun f => ?_
          by_cases hfile : f = file
          · subst hfile; simp [href]
          · simp [hfile, db, Db.withoutFiles, Db.refersFile]
        have hnot : ¬ st.db.refersFile file = true := by rw [href]; decide
        refine (bind_of_ok (query_quiet hf)).trans ((congrFun (if_neg hnot) st).trans ?_)
        refine (bind_of_ok (query_quiet hf)).trans ((bind_of_ok (exec_quiet hf)).trans ?_)
        rw [← hdead]
        exact hrun
      · rw [hmem, mem_insertAll]
        have hchunks : ∀ f, c ∈ db.chunksOfFile f ↔ f ≠ file ∧ c ∈ st.db.chunksOfFile f := by
          intro f
          simp only [mem_chunksOfFile, db, get?_withoutFiles]
          by_cases hfile : f = file <;> simp [hfile]
        have hrefs : ∀ f, db.refersFile f = st.db.refersFile f := fun _ => rfl
        simp only [hchunks, hrefs, List.mem_cons, exists_eq_or_imp, href, true_and]
        constructor
        · rintro ((h | h) | ⟨f, hmem, href', -, h⟩)
          · exact .inr (.inl h)
          · exact .inl h
          · exact .inr (.inr ⟨f, hmem, href', h⟩)
        · rintro (h | h | ⟨f, hmem, href', h⟩)
          · exact .inl (.inr h)
          · exact .inl (.inl h)
          · by_cases hfile : f = file
            · subst hfile; exact .inl (.inl h)
            · exact .inr ⟨f, hmem, href', hfile, h⟩

omit [DecidableEq δ] in
theorem withoutChunks_withoutChunks (st : Store δ) (dead dead' : δ → Bool) :
    withoutChunks (withoutChunks st dead) dead' = withoutChunks st fun c => dead c || dead' c := by
  unfold withoutChunks
  have hfiles : (fun c => if dead' c then none else if dead c then none else st.files c) =
      fun c => if (dead c || dead' c) then none else st.files c := by
    funext c
    cases dead c <;> cases dead' c <;> rfl
  simp only [Table.deleteWhere_deleteWhere, hfiles]

omit [DecidableEq δ] in
theorem withoutChunks_congr {dead dead' : δ → Bool} (h : ∀ c, dead c = dead' c) : withoutChunks st dead = withoutChunks st dead' := by
  rw [funext h]

theorem removeFile_quiet (hf : st.faults = []) (digest : δ) :
    removeFile digest st = .ok () { st with files := Function.update st.files digest none } := by
  have h : fails st = .ok false st := by unfold fails; rw [hf]
  exact (bind_of_ok h).trans rfl

theorem withoutChunk_eq (st : Store δ) (chunk : δ) : (withoutChunks st fun c => c = chunk) = { st with
    db := { st.db with chunks := st.db.chunks.delete chunk }
    files := Function.update st.files chunk none } := by
  unfold withoutChunks
  congr 1
  funext c
  by_cases hc : c = chunk
  · subst hc; simp
  · simp [hc]

theorem releaseChunks_quiet : ∀ (chunks : List δ) (bytesFreed : Nat) {st : Store δ}, st.faults = [] → ∃ bytesFreed',
    releaseChunks chunks bytesFreed st =
      .ok bytesFreed' (withoutChunks st fun c => c ∈ chunks && !st.db.refersChunk c) ∧
      bytesFreed' + (withoutChunks st fun c => c ∈ chunks && !st.db.refersChunk c).db.chunks.total ChunkRow.size =
        bytesFreed + st.db.chunks.total ChunkRow.size
  | [], bytesFreed, st, hf => by
    have hnone : (withoutChunks st fun c => decide (c ∈ ([] : List δ)) && !st.db.refersChunk c) = st := by
      unfold withoutChunks
      rw [Table.deleteWhere_false _ fun k v => by simp]
      simp
    exact ⟨bytesFreed, by rw [hnone]; rfl, by rw [hnone]⟩
  | chunk :: chunks, bytesFreed, st, hf => by
    cases href : st.db.refersChunk chunk with
    | true =>
      obtain ⟨bytesFreed', hrun, htotal⟩ := releaseChunks_quiet chunks bytesFreed hf
      have hdead : ∀ c, (decide (c ∈ chunk :: chunks) && !st.db.refersChunk c) = (decide (c ∈ chunks) && !st.db.refersChunk c) := by
        intro c
        by_cases hc : c = chunk
        · subst hc; simp [href]
        · simp [hc]
      rw [withoutChunks_congr hdead]
      exact ⟨bytesFreed', (bind_of_ok (query_quiet hf)).trans ((congrFun (if_pos href) st).trans hrun), htotal⟩
    | false =>
      let size := ((st.db.chunks.get? chunk).map ChunkRow.size).getD 0
      have hquiet : (withoutChunks st fun c => c = chunk).faults = [] := hf
      obtain ⟨bytesFreed', hrun, htotal⟩ := releaseChunks_quiet chunks (bytesFreed + size) hquiet
      have hdead : withoutChunks (withoutChunks st fun c => c = chunk) (fun c => decide (c ∈ chunks) && !st.db.refersChunk c) =
          withoutChunks st fun c => decide (c ∈ chunk :: chunks) && !st.db.refersChunk c := by
        rw [withoutChunks_withoutChunks]
        refine withoutChunks_congr fun c => ?_
        by_cases hc : c = chunk
        · subst hc; simp [href]
        · simp [hc]
      have hrefs : (withoutChunks st fun c => c = chunk).db.refersChunk = st.db.refersChunk := rfl
      rw [hrefs, hdead] at hrun htotal
      rw [withoutChunk_eq] at hrun
      have hnot : ¬ st.db.refersChunk chunk = true := by rw [href]; decide
      refine ⟨bytesFreed', ?_, ?_⟩
      · refine (bind_of_ok (query_quiet hf)).trans ((congrFun (if_neg hnot) st).trans ?_)
        refine (bind_of_ok (queryRow_quiet hf)).trans ?_
        exact (bind_of_ok (exec_quiet hf)).trans ((bind_of_ok (removeFile_quiet (by exact hf) chunk)).trans hrun)
      · have hone := Table.total_delete st.db.chunks ChunkRow.size chunk
        have hsize : (withoutChunks st fun c => c = chunk).db.chunks.total ChunkRow.size + size =
            st.db.chunks.total ChunkRow.size := hone
        omega

/-! ## The whole eviction -/

theorem deadChunk_eq (hash : String) {chunks : List δ} (hmem : ∀ c, c ∈ chunks ↔ ∃ f ∈ db.filesOfPath hash,
      (db.withoutPath hash).refersFile f = false ∧ c ∈ (db.withoutPath hash).chunksOfFile f) (c : δ) :
    (decide (c ∈ chunks) && !(db.withoutFiles (db.deadFile hash)).refersChunk c) = db.deadChunk hash c := by
  unfold Db.deadChunk
  congr 1
  rw [Bool.eq_iff_iff, decide_eq_true_eq, hmem]
  simp only [mem_chunksOfFile, List.any_eq_true, Db.deadFile, Bool.and_eq_true, decide_eq_true_eq, Bool.not_eq_true']
  constructor
  · rintro ⟨f, hf, href, i, size, hget⟩
    exact ⟨_, Table.get?_eq_some.mp hget, ⟨hf, href⟩, rfl⟩
  · rintro ⟨⟨⟨f, i⟩, _, size⟩, hrow, ⟨hf, href⟩, rfl⟩
    exact ⟨f, hf, href, i, size, Table.get?_eq_some.mpr hrow⟩

theorem evictPath_quiet (hf : st.faults = []) (hash : String) : ∃ bytesFreed,
    evictPath hash st = .ok bytesFreed (evicted hash st) ∧
      bytesFreed + (evicted hash st).db.chunks.total ChunkRow.size = st.db.chunks.total ChunkRow.size := by
  let st₁ : Store δ := { st with db := st.db.withoutPath hash }
  let st₂ : Store δ := { st₁ with db := st₁.db.withoutFiles (st.db.deadFile hash) }
  have hf₁ : st₁.faults = [] := hf
  have hf₂ : st₂.faults = [] := hf
  obtain ⟨chunks, hfiles, hmem⟩ := releaseFiles_quiet (st.db.filesOfPath hash) [] hf₁
  obtain ⟨bytesFreed, hchunks, htotal⟩ := releaseChunks_quiet chunks 0 hf₂
  have hdead : ∀ c, (decide (c ∈ chunks) && !st₂.db.refersChunk c) = st.db.deadChunk hash c :=
    deadChunk_eq hash (by simpa using hmem)
  rw [withoutChunks_congr hdead] at hchunks htotal
  refine ⟨bytesFreed, ?_, by rw [← Nat.zero_add (st.db.chunks.total _)]; exact htotal⟩
  refine withTransaction_quiet hf ?_ hf
  refine (bind_of_ok (query_quiet hf)).trans ?_
  have hdelete : deletePath hash st = .ok () st₁ := (bind_of_ok (exec_quiet hf)).trans (exec_quiet (by exact hf))
  refine (bind_of_ok hdelete).trans ?_
  by_cases hempty : (st.db.filesOfPath hash).isEmpty
  · -- without files the two sweeps do nothing
    refine (congrFun (if_pos hempty) st₁).trans ?_
    have hnone : releaseFiles (st.db.filesOfPath hash) [] st₁ = .ok [] st₁ := by rw [List.isEmpty_iff.mp hempty]; rfl
    obtain ⟨rfl, hst⟩ := EStateM.Result.ok.inj (hnone.symm.trans hfiles)
    exact (congrArg (EStateM.Result.ok 0) hst).trans hchunks
  · refine (congrFun (if_neg hempty) st₁).trans ?_
    exact (bind_of_ok hfiles).trans hchunks

end Ekapkgs
