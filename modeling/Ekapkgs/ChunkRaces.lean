import Ekapkgs.ChunkSafety

/-!
# Concurrent chunk stores and evictions

`store_chunk` checks for the file and writes it before it takes the database
lock, and an eviction deletes the row before it removes the file. Between the
two halves of one operation any others may run.
-/

namespace Ekapkgs
open Keyed Fallible

/-- An operation between its two halves. -/
inductive InFlight (δ : Type) where
  | storing (data : Bytes) (zstdLevel : Option Int) (diskSize : Nat)
  | removing (digest : δ)
  deriving DecidableEq

structure Race (δ : Type) where
  store : Store δ
  inFlight : List (InFlight δ)

inductive RaceStep (δ : Type) where
  | writeChunkFile (data : Bytes)
  | insertChunkRow (data : Bytes) (zstdLevel : Option Int) (diskSize : Nat)
  | deleteChunkRow (digest : δ)
  | removeFile (digest : δ)

variable {δ : Type} [DecidableEq δ] (ext : Ext δ) (level : Int)

/-- A half that fails ends its operation. -/
def raceNext (r : Race δ) (step : RaceStep δ × List Bool) : Option (Race δ) :=
  let st := { r.store with faults := step.2 }
  match step.1 with
  | .writeChunkFile data =>
    match writeChunkFile ext level data st with
    | .ok (_, zstdLevel, diskSize) st' => some ⟨st', .storing data zstdLevel diskSize :: r.inFlight⟩
    | .error _ st' => some ⟨st', r.inFlight⟩
  | .insertChunkRow data zstdLevel diskSize =>
    if .storing data zstdLevel diskSize ∈ r.inFlight then
      some ⟨finalState (insertChunkRow (ext.blake3 data) data.length zstdLevel diskSize (inlineData data) st),
        r.inFlight.erase (.storing data zstdLevel diskSize)⟩
    else none
  | .deleteChunkRow digest =>
    match deleteChunkRow digest st with
    | .ok _ st' => some ⟨st', .removing digest :: r.inFlight⟩
    | .error _ st' => some ⟨st', r.inFlight⟩
  | .removeFile digest =>
    if .removing digest ∈ r.inFlight then
      some ⟨finalState (removeFile digest st), r.inFlight.erase (.removing digest)⟩
    else none

abbrev raceStep : Race δ → RaceStep δ × List Bool → Race δ → Prop := Runs.stepOf (raceNext ext level)

def Race.empty : Race δ := ⟨.empty, []⟩

/-- The first row of a chunk on disk is inserted while the chunk's file is there,
by the operation that compressed it if it is compressed, and no file is removed
under a row inserted since. -/
def NoLostRace (r : Race δ) (step : RaceStep δ × List Bool) : Prop :=
  match step.1 with
  | .insertChunkRow data zstdLevel _ =>
    INLINE_THRESHOLD ≤ data.length → r.store.db.chunks.get? (ext.blake3 data) = none →
      (r.store.files (ext.blake3 data)).isSome ∧
        (compressible ext level data = true → zstdLevel.isSome ∧ data.length ≤ CHUNK_MAX * 2)
  | .removeFile digest => (r.store.db.chunks.get? digest).all (fun row => row.data.isSome) = true
  | _ => True

instance (r : Race δ) (step : RaceStep δ × List Bool) : Decidable (NoLostRace ext level r step) :=
  match step with
  | (.writeChunkFile _, _) | (.deleteChunkRow _, _) => inferInstanceAs (Decidable True)
  | (.insertChunkRow data zstdLevel _, _) => inferInstanceAs (Decidable (
      INLINE_THRESHOLD ≤ data.length → r.store.db.chunks.get? (ext.blake3 data) = none →
        (r.store.files (ext.blake3 data)).isSome ∧
          (compressible ext level data = true → zstdLevel.isSome ∧ data.length ≤ CHUNK_MAX * 2)))
  | (.removeFile digest, _) =>
    inferInstanceAs (Decidable ((r.store.db.chunks.get? digest).all (fun row => row.data.isSome) = true))

/-- Every row that is not inline has its file, and is read as bytes with its digest. -/
def DiskChunksReadable (st : Store δ) : Prop :=
  ∀ d row, st.db.chunks.get? d = some row → row.data = none →
    (st.files d).isSome ∧
      ∃ bytes, getChunkByDigest ext d { st with faults := [] } = .ok (some bytes) { st with faults := [] } ∧
        ext.blake3 bytes = d

/-! ## The invariant -/

structure RaceInv (r : Race δ) : Prop where
  rows : RowForm ext level r.store.db
  files : FileForm ext level r.store.files
  present : ∀ d row, r.store.db.chunks.get? d = some row → row.data = none → (r.store.files d).isSome
  /-- A level in flight is the one the file was written with. -/
  flying : ∀ data zstdLevel diskSize, .storing data zstdLevel diskSize ∈ r.inFlight → zstdLevel.isSome →
    ∃ bytes, storedForm ext level data = some (bytes, zstdLevel)

variable {ext level}

theorem written_isSome (laws : ext.Laws) {files : δ → Option Bytes} {d : δ} (x : Bytes) (h : (files d).isSome) :
    ((written ext level files x).1 d).isSome := by
  by_cases hd : d = ext.blake3 x
  · subst hd
    rcases written_cases laws level files x with ⟨_, hw⟩ | ⟨_, ⟨_, _, hw⟩ | ⟨hnone, _⟩⟩
    · rw [hw]; exact h
    · rw [hw]; exact h
    · rw [hnone] at h; cases h
  · rw [written_of_ne laws level files hd]; exact h

/-- A level that `write_chunk_file` returns is that of the file it wrote. -/
theorem written_level (laws : ext.Laws) {files : δ → Option Bytes} {x : Bytes}
    (h : (written ext level files x).2.1.isSome) :
    ∃ bytes, storedForm ext level x = some (bytes, (written ext level files x).2.1) := by
  rcases written_cases laws level files x with ⟨_, hw⟩ | ⟨_, ⟨_, _, hw⟩ | ⟨_, bytes, _, hform, hw⟩⟩
  · rw [hw] at h; cases h
  · rw [hw] at h; cases h
  · exact ⟨bytes, by rw [hw]; exact hform⟩

theorem raceInv_write (laws : ext.Laws) {r r' : Race δ} {data : Bytes} {faults : List Bool} (hinv : RaceInv ext level r)
    (hstep : raceStep ext level r (.writeChunkFile data, faults) r') : RaceInv ext level r' := by
  have hwrite : Triple (on fun db files => db = r.store.db ∧ files = r.store.files) (writeChunkFile ext level data)
      (fun w => on fun db files => db = r.store.db ∧ files = (written ext level r.store.files data).1 ∧
        w = (ext.blake3 data, (written ext level r.store.files data).2))
      (fun _ => on fun db files => db = r.store.db ∧ files = r.store.files) :=
    writeChunkFile_on (fun _ _ h => h) fun _ _ ⟨hdb, hf⟩ => ⟨hdb, by rw [hf], by rw [hf]⟩
  have hrun := hwrite { r.store with faults } ⟨rfl, rfl⟩
  simp only [Runs.stepOf, raceNext] at hstep
  cases hw : writeChunkFile ext level data { r.store with faults } with
  | ok w st' =>
    rw [hw] at hrun hstep
    obtain ⟨hdb, hf, rfl⟩ := hrun
    cases hstep
    refine ⟨?_, ?_, ?_, ?_⟩
    · rw [hdb]; exact hinv.rows
    · rw [hf]; exact written_form laws hinv.files
    · intro d row hrow hdata
      rw [hdb] at hrow
      rw [hf]; exact written_isSome laws data (hinv.present d row hrow hdata)
    · intro x zstdLevel diskSize hmem hlevel
      rcases List.mem_cons.mp hmem with heq | hmem
      · obtain ⟨rfl, rfl, rfl⟩ := InFlight.storing.inj heq
        exact written_level laws hlevel
      · exact hinv.flying x zstdLevel diskSize hmem hlevel
  | error e st' =>
    rw [hw] at hrun hstep
    obtain ⟨hdb, hf⟩ := hrun
    cases hstep
    exact ⟨by rw [hdb]; exact hinv.rows, by rw [hf]; exact hinv.files, by rw [hdb, hf]; exact hinv.present, hinv.flying⟩

theorem raceInv_insert (laws : ext.Laws) {r r' : Race δ} {data : Bytes} {zstdLevel : Option Int} {diskSize : Nat} {faults : List Bool}
    (hinv : RaceInv ext level r)
    (hok : NoLostRace ext level r (.insertChunkRow data zstdLevel diskSize, faults))
    (hstep : raceStep ext level r (.insertChunkRow data zstdLevel diskSize, faults) r') : RaceInv ext level r' := by
  obtain ⟨hmem, hr'⟩ := Option.ite_none_right_eq_some.mp hstep
  obtain rfl := Option.some.inj hr'
  have hflying : ∀ x l n, .storing x l n ∈ r.inFlight.erase (.storing data zstdLevel diskSize) → l.isSome →
      ∃ bytes, storedForm ext level x = some (bytes, l) :=
    fun x l n hx => hinv.flying x l n (List.mem_of_mem_erase hx)
  let row : ChunkRow := ⟨data.length, zstdLevel, diskSize, inlineData data⟩
  have hrun := finalState_exec
    (fun db => { db with chunks := db.chunks.insertOrIgnore (ext.blake3 data) row }) { r.store with faults }
  change RaceInv ext level ⟨finalState (exec _ _), _⟩
  generalize finalState (exec _ _) = st' at hrun ⊢
  obtain ⟨hf, hdb | hdb⟩ := hrun
  case inr =>
    exact ⟨by rw [hdb]; exact hinv.rows, by rw [hf]; exact hinv.files, by rw [hdb, hf]; exact hinv.present, hflying⟩
  -- the row is new exactly when there was none, and then `hok` vouches for the file
  have hnew : r.store.db.chunks.get? (ext.blake3 data) = none → RowOf ext level data row ∧
      (row.data = none → (r.store.files (ext.blake3 data)).isSome) := by
    intro hnone
    by_cases hinline : data.length < INLINE_THRESHOLD
    · have hdata : row.data = some data := if_pos hinline
      exact ⟨.inl hdata, fun h => by rw [hdata] at h; cases h⟩
    obtain ⟨hfile, hcompressible⟩ := hok (by omega) hnone
    have hform : ∃ bytes, storedForm ext level data = some (bytes, zstdLevel) := by
      by_cases hlevel : zstdLevel.isSome
      · exact hinv.flying data zstdLevel diskSize hmem hlevel
      -- an operation that found the file: the chunk is not compressible
      obtain ⟨bytes, l, hform⟩ := storedForm_isSome laws level data
      have hinc : compressible ext level data = false := by
        by_contra hc
        exact hlevel (hcompressible (by simpa using hc)).1
      rw [storedForm_of_incompressible hinc hform] at hform
      rw [Option.not_isSome_iff_eq_none.mp hlevel]
      exact ⟨bytes, hform⟩
    refine ⟨.inr ⟨if_neg hinline, hform, fun hlevel => ?_⟩, fun _ => hfile⟩
    obtain ⟨bytes, hform⟩ := hform
    exact (hcompressible (by rw [compressible, hform]; exact hlevel)).2
  refine ⟨by rw [hdb]; exact rowForm_insert hinv.rows fun h => (hnew h).1, by rw [hf]; exact hinv.files, ?_, hflying⟩
  intro d row' hrow hdata
  rw [hdb, Table.get?_insertOrIgnore] at hrow
  rw [hf]
  by_cases hd : d = ext.blake3 data
  · rw [if_pos hd] at hrow
    cases hget : r.store.db.chunks.get? (ext.blake3 data) with
    | some old =>
      rw [hget] at hrow; cases hrow
      exact hinv.present d _ (hd ▸ hget) hdata
    | none =>
      rw [hget] at hrow; cases hrow
      exact hd ▸ (hnew hget).2 hdata
  · rw [if_neg hd] at hrow
    exact hinv.present d row' hrow hdata

theorem raceInv_delete {r r' : Race δ} {digest : δ} {faults : List Bool} (hinv : RaceInv ext level r)
    (hstep : raceStep ext level r (.deleteChunkRow digest, faults) r') : RaceInv ext level r' := by
  have hrun := exec_on (I := fun db files => db = r.store.db ∧ files = r.store.files)
    (J := fun db files => db = { r.store.db with chunks := r.store.db.chunks.delete digest } ∧ files = r.store.files)
    (f := fun db => { db with chunks := db.chunks.delete digest })
    (fun _ _ ⟨hdb, hf⟩ => ⟨by rw [hdb], hf⟩) (fun _ _ h => h) { r.store with faults } ⟨rfl, rfl⟩
  simp only [Runs.stepOf, raceNext, deleteChunkRow] at hstep
  cases hd : exec (fun db => { db with chunks := db.chunks.delete digest }) { r.store with faults } with
  | ok _ st' =>
    rw [hd] at hrun hstep
    obtain ⟨hdb, hf⟩ := hrun
    cases hstep
    refine ⟨by rw [hdb]; exact rowForm_delete hinv.rows digest, by rw [hf]; exact hinv.files, ?_, ?_⟩
    · intro d row hrow hdata
      rw [hdb, Table.get?_delete] at hrow
      by_cases he : d = digest
      · rw [if_pos he] at hrow; cases hrow
      · rw [if_neg he] at hrow
        rw [hf]; exact hinv.present d row hrow hdata
    · intro x l n hmem
      rcases List.mem_cons.mp hmem with heq | hmem
      · cases heq
      · exact hinv.flying x l n hmem
  | error e st' =>
    rw [hd] at hrun hstep
    obtain ⟨hdb, hf⟩ := hrun
    cases hstep
    exact ⟨by rw [hdb]; exact hinv.rows, by rw [hf]; exact hinv.files, by rw [hdb, hf]; exact hinv.present, hinv.flying⟩

theorem raceInv_remove {r r' : Race δ} {digest : δ} {faults : List Bool} (hinv : RaceInv ext level r)
    (hok : NoLostRace ext level r (.removeFile digest, faults))
    (hstep : raceStep ext level r (.removeFile digest, faults) r') : RaceInv ext level r' := by
  obtain ⟨_, hr'⟩ := Option.ite_none_right_eq_some.mp hstep
  obtain rfl := Option.some.inj hr'
  have hrun := finalState_removeFile digest { r.store with faults }
  have hflying := fun x l n hx => hinv.flying x l n (List.mem_of_mem_erase (b := .removing digest) hx)
  change RaceInv ext level ⟨finalState (removeFile digest { r.store with faults }), _⟩
  generalize finalState (removeFile digest { r.store with faults }) = st' at hrun ⊢
  obtain ⟨hdb, hf | hf⟩ := hrun
  · refine ⟨by rw [hdb]; exact hinv.rows, by rw [hf]; exact fileForm_remove hinv.files digest, ?_, hflying⟩
    intro d row hrow hdata
    rw [hdb] at hrow
    have hd : d ≠ digest := by
      rintro rfl
      have hinline : row.data.isSome := by
        have := hok
        simp only [NoLostRace, hrow, Option.all_some] at this
        exact this
      rw [hdata] at hinline; cases hinline
    rw [hf, Function.update_of_ne hd]
    exact hinv.present d row hrow hdata
  · exact ⟨by rw [hdb]; exact hinv.rows, by rw [hf]; exact hinv.files, by rw [hdb, hf]; exact hinv.present, hflying⟩

theorem raceInv_step (laws : ext.Laws) {r r' : Race δ} {step : RaceStep δ × List Bool} (hinv : RaceInv ext level r)
    (hok : NoLostRace ext level r step) (hstep : raceStep ext level r step r') : RaceInv ext level r' := by
  obtain ⟨step, faults⟩ := step
  cases step with
  | writeChunkFile data => exact raceInv_write laws hinv hstep
  | insertChunkRow data zstdLevel diskSize => exact raceInv_insert laws hinv hok hstep
  | deleteChunkRow digest => exact raceInv_delete hinv hstep
  | removeFile digest => exact raceInv_remove hinv hok hstep

/-! ## Interleavings -/

/-- **Chunks read back under interleaving.** As long as no row is inserted for a file
that another operation compressed or removed meanwhile, every row on disk has its
file and reads back, in every state between the steps. -/
theorem race_diskChunksReadable (laws : ext.Laws) {steps : List (RaceStep δ × List Bool)} {r : Race δ}
    (hrun : Runs.Run (Runs.guarded (raceStep ext level) (NoLostRace ext level)) Race.empty steps r) :
    DiskChunksReadable ext r.store := by
  have hinit : RaceInv ext level (Race.empty : Race δ) := ⟨nofun, nofun, nofun, nofun⟩
  have hinv := hrun.invariant (I := RaceInv ext level)
    (fun _ _ _ h hstep => raceInv_step laws h hstep.1 hstep.2) hinit
  intro d row hrow hdata
  have hfile := hinv.present d row hrow hdata
  exact ⟨hfile, chunksReadable_of_forms laws hinv.rows hinv.files d row hrow (.inr hfile)⟩

/-- A chunk is stored twice, evicted and stored again, one operation after the other. -/
def sequentialSteps : List (RaceStep Bytes × List Bool) :=
  [(.writeChunkFile zeros, []), (.insertChunkRow zeros (some 3) 10, []), (.writeChunkFile zeros, []),
    (.insertChunkRow zeros none 10, []), (.deleteChunkRow zeros, []), (.removeFile zeros, []),
    (.writeChunkFile zeros, []), (.insertChunkRow zeros (some 3) 10, [])]

theorem race_diskChunksReadable_sequential : ∃ r : Race Bytes,
    (r.store.db.chunks.get? zeros).isSome ∧ DiskChunksReadable sampleExt r.store := by
  have hfold : (sequentialSteps.foldlM (fun r step =>
      if NoLostRace sampleExt 3 r step then raceNext sampleExt 3 r step else none) Race.empty).any
        (fun r => (r.store.db.chunks.get? zeros).isSome) = true := by decide +kernel
  obtain ⟨r, hr, hrow⟩ := (Option.any_eq_true ..).mp hfold
  exact ⟨r, hrow, race_diskChunksReadable sampleExt_laws (Runs.run_of_foldlM_guarded hr)⟩

/-- Two stores of one chunk: the second finds the file of the first and inserts its
row before it. -/
def overtakenSteps : List (RaceStep Bytes × List Bool) :=
  [(.writeChunkFile zeros, []), (.writeChunkFile zeros, []), (.insertChunkRow zeros none 10, []),
    (.insertChunkRow zeros (some 3) 10, [])]

theorem overtaken_store_unreadable :
    ¬ ∀ (steps : List (RaceStep Bytes × List Bool)) (r : Race Bytes),
      Runs.Run (raceStep sampleExt 3) Race.empty steps r → r.inFlight = [] → DiskChunksReadable sampleExt r.store := by
  intro h
  have hfold : (overtakenSteps.foldlM (raceNext sampleExt 3) Race.empty).any (fun r =>
      r.inFlight = [] ∧ r.store.db.chunks.get? zeros = some ⟨1024, none, 10, none⟩ ∧
        r.store.files zeros = some (packRun zeros)) = true := by decide +kernel
  obtain ⟨r, hr, hfinal⟩ := (Option.any_eq_true ..).mp hfold
  obtain ⟨hquiet, hrow, hfile⟩ := of_decide_eq_true hfinal
  exact zeros_unreadable hrow hfile (h _ _ (Runs.run_of_foldlM hr) hquiet zeros _ hrow rfl).2

end Ekapkgs
