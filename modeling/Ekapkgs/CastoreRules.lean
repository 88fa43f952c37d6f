import Ekapkgs.Castore

/-!
# Rules for the operations of the store

A `View` is a property of the tables and the chunk files, which is all that the
invariants of the store speak about. The rules hold whatever fails.
-/

namespace Ekapkgs
open Keyed Fallible

variable {δ α β : Type}

abbrev View (δ : Type) := Db δ → (δ → Option Bytes) → Prop

def on (I : View δ) (st : Store δ) : Prop := I st.db st.files

abbrev Keeps (I : View δ) (m : CasM δ α) : Prop := Triple (on I) m (fun _ => on I) (fun _ => on I)

variable {I J E : View δ}

theorem fails_on {E : CasError δ → Store δ → Prop} : Triple (on I) fails (fun _ => on I) E := by
  intro st hst
  unfold fails
  cases st.faults <;> exact hst

theorem attempt_on (hE : ∀ db files, I db files → E db files) :
    Triple (on I) attempt (fun _ => on I) (fun _ => on E) := by
  refine .bind fails_on fun fault => ?_
  cases fault with
  | true => exact .throw fun st => hE st.db st.files
  | false => exact .pure fun _ h => h

theorem exec_on {f : Db δ → Db δ} (h : ∀ db files, I db files → J (f db) files)
    (hE : ∀ db files, I db files → E db files) : Triple (on I) (exec f) (fun _ => on J) (fun _ => on E) :=
  .bind (attempt_on hE) fun _ => .modify fun st => h st.db st.files

theorem query_on {f : Db δ → α} (hE : ∀ db files, I db files → E db files) :
    Triple (on I) (query f) (fun a => on fun db files => f db = a ∧ I db files) (fun _ => on E) :=
  .bind (attempt_on hE) fun _ => .bind (.get (Q := fun a st => a = st ∧ on I st) fun _ h => ⟨rfl, h⟩) fun _ =>
    .pure fun _ h => ⟨congrArg (f ∘ Store.db) h.1.symm, h.2⟩

theorem queryRow_on {f : Db δ → Option α} {E : CasError δ → Store δ → Prop} :
    Triple (on I) (queryRow f) (fun o => on fun db files => (∀ a, o = some a → f db = some a) ∧ I db files) E := by
  refine .bind fails_on fun fault => ?_
  cases fault with
  | true => exact .pure fun _ h => ⟨nofun, h⟩
  | false =>
    refine .bind (.get (Q := fun a st => a = st ∧ on I st) fun _ h => ⟨rfl, h⟩) fun st => ?_
    exact .pure fun _ h => ⟨fun a ha => by rw [← h.1]; exact ha, h.2⟩

theorem exec_keeps {f : Db δ → Db δ} (h : ∀ db files, I db files → I (f db) files) : Keeps I (exec f) :=
  exec_on h fun _ _ h => h

theorem query_keeps {f : Db δ → α} : Keeps I (query f) :=
  (query_on fun _ _ h => h).post fun _ _ h => h.2

theorem queryRow_keeps {f : Db δ → Option α} : Keeps I (queryRow f) :=
  queryRow_on.post fun _ _ h => h.2

theorem attempt_keeps : Keeps I (attempt : CasM δ Unit) := attempt_on fun _ _ h => h

theorem writeFile_on [DecidableEq δ] {digest : δ} {bytes : Bytes}
    (h : ∀ db files, I db files → J db (Function.update files digest (some bytes)))
    (hE : ∀ db files, I db files → E db files) :
    Triple (on I) (writeFile digest bytes) (fun _ => on J) (fun _ => on E) :=
  .bind (attempt_on hE) fun _ => .bind (attempt_on hE) fun _ => .bind (attempt_on hE) fun _ =>
    .modify fun st => h st.db st.files

theorem removeFile_on [DecidableEq δ] {digest : δ} {E : CasError δ → Store δ → Prop}
    (h : ∀ db files, I db files → J db (Function.update files digest none))
    (h' : ∀ db files, I db files → J db files) :
    Triple (on I) (removeFile digest) (fun _ => on J) E := by
  refine .bind fails_on fun fault => ?_
  cases fault with
  | true => exact .pure fun st => h' st.db st.files
  | false => exact .modify fun st => h st.db st.files

/-- A failed transaction leaves the tables as they were and the files as they
became: what it says of the two, `D` and `F`, is kept apart. -/
theorem withTransaction_on {body : CasM δ α} {Q : α → View δ} {D : Db δ → Prop} {F : (δ → Option Bytes) → Prop}
    (h : Triple (on I) body (fun a => on (Q a)) (fun _ => on fun _ files => F files))
    (hI : ∀ db files, I db files → F files) (hQ : ∀ a db files, Q a db files → F files) :
    Triple (on fun db files => D db ∧ I db files) (withTransaction body) (fun a => on (Q a))
      (fun _ => on fun db files => D db ∧ F files) := by
  rintro st ⟨hD, hst⟩
  have hbody : Triple (on I) (inTransaction body) (fun a => on (Q a)) (fun _ => on fun _ files => F files) :=
    .bind (attempt_on hI) fun _ => .bind h fun a => .bind (attempt_on (hQ a)) fun _ => .pure fun _ h => h
  have hrun := hbody st hst
  unfold withTransaction
  cases heq : inTransaction body st with
  | ok a st' => rw [heq] at hrun; exact hrun
  | error e st' => rw [heq] at hrun; exact ⟨hD, hrun⟩

/-- What holds whether an operation returns or raises. -/
theorem finalState_on {m : CasM δ α} (h : Triple (on I) m (fun _ => on J) (fun _ => on J)) {st : Store δ}
    (hst : on I st) : on J (finalState (m st)) := by
  have hrun := h st hst
  cases hm : m st with
  | ok a st' => rw [hm] at hrun; exact hrun
  | error e st' => rw [hm] at hrun; exact hrun

theorem finalState_exec (f : Db δ → Db δ) (st : Store δ) : (finalState (exec f st)).files = st.files ∧
    ((finalState (exec f st)).db = f st.db ∨ (finalState (exec f st)).db = st.db) :=
  finalState_on (I := fun db files => db = st.db ∧ files = st.files)
    (J := fun db files => files = st.files ∧ (db = f st.db ∨ db = st.db))
    (exec_on (fun _ _ ⟨hdb, hf⟩ => ⟨hf, .inl (by rw [hdb])⟩) fun _ _ ⟨hdb, hf⟩ => ⟨hf, .inr hdb⟩) ⟨rfl, rfl⟩

theorem finalState_removeFile [DecidableEq δ] (digest : δ) (st : Store δ) :
    (finalState (removeFile digest st)).db = st.db ∧
      ((finalState (removeFile digest st)).files = Function.update st.files digest none ∨
        (finalState (removeFile digest st)).files = st.files) :=
  finalState_on (I := fun db files => db = st.db ∧ files = st.files)
    (J := fun db files => db = st.db ∧ (files = Function.update st.files digest none ∨ files = st.files))
    (removeFile_on (fun _ _ ⟨hdb, hf⟩ => ⟨hdb, .inl (by rw [hf])⟩) fun _ _ ⟨hdb, hf⟩ => ⟨hdb, .inr hf⟩) ⟨rfl, rfl⟩

/-! ## Storing a chunk -/

section
variable [DecidableEq δ] (ext : Ext δ) (level : Int)

/-- The files once a chunk is written, with the level and disk size that
`write_chunk_file` returns. -/
def written (files : δ → Option Bytes) (x : Bytes) : (δ → Option Bytes) × Option Int × Nat :=
  if x.length < INLINE_THRESHOLD then (files, none, 0)
  else
    match files (ext.blake3 x), storedForm ext level x with
    | some bytes, _ => (files, none, bytes.length)
    | none, some (bytes, zstdLevel) => (Function.update files (ext.blake3 x) (some bytes), zstdLevel, bytes.length)
    | none, none => (files, none, 0)

/-- The row `store_chunk` inserts. -/
def chunkRow (files : δ → Option Bytes) (x : Bytes) : ChunkRow :=
  ⟨x.length, (written ext level files x).2.1, (written ext level files x).2.2, inlineData x⟩

def Db.withChunk (db : Db δ) (files : δ → Option Bytes) (x : Bytes) : Db δ :=
  { db with chunks := db.chunks.insertOrIgnore (ext.blake3 x) (chunkRow ext level files x) }

variable {ext level}

omit [DecidableEq δ] in
theorem storedForm_isSome (laws : ext.Laws) (level : Int) (x : Bytes) : ∃ bytes zstdLevel,
    storedForm ext level x = some (bytes, zstdLevel) := by
  obtain ⟨compressed, hc⟩ := Option.isSome_iff_exists.mp (laws.compress_isSome level x)
  exact ⟨_, _, by rw [storedForm, hc]; rfl⟩

/-- The three ways a chunk is written: inline, already on disk, or new on disk. -/
theorem written_cases (laws : ext.Laws) (level : Int) (files : δ → Option Bytes) (x : Bytes) :
    x.length < INLINE_THRESHOLD ∧ written ext level files x = (files, none, 0) ∨
    INLINE_THRESHOLD ≤ x.length ∧
      ((∃ bytes, files (ext.blake3 x) = some bytes ∧ written ext level files x = (files, none, bytes.length)) ∨
        files (ext.blake3 x) = none ∧ ∃ bytes zstdLevel, storedForm ext level x = some (bytes, zstdLevel) ∧
          written ext level files x = (Function.update files (ext.blake3 x) (some bytes), zstdLevel, bytes.length)) := by
  by_cases hinline : x.length < INLINE_THRESHOLD
  · exact .inl ⟨hinline, if_pos hinline⟩
  refine .inr ⟨by omega, ?_⟩
  simp only [written, if_neg hinline]
  cases files (ext.blake3 x) with
  | some bytes => exact .inl ⟨bytes, rfl, rfl⟩
  | none =>
    obtain ⟨bytes, zstdLevel, hform⟩ := storedForm_isSome laws level x
    rw [hform]
    exact .inr ⟨rfl, bytes, zstdLevel, rfl, rfl⟩

/-- A write touches the file of its own chunk only. -/
theorem written_of_ne (laws : ext.Laws) (level : Int) (files : δ → Option Bytes) {x : Bytes} {d : δ} (hd : d ≠ ext.blake3 x) :
    (written ext level files x).1 d = files d := by
  rcases written_cases laws level files x with ⟨_, hw⟩ | ⟨_, ⟨_, _, hw⟩ | ⟨_, _, _, _, hw⟩⟩
  · rw [hw]
  · rw [hw]
  · rw [hw]; exact Function.update_of_ne hd ..

theorem writeChunkFile_on {x : Bytes} {J : δ × Option Int × Nat → View δ} (hE : ∀ db files, I db files → E db files)
    (hJ : ∀ db files, I db files →
      J (ext.blake3 x, (written ext level files x).2) db (written ext level files x).1) :
    Triple (on I) (writeChunkFile ext level x) (fun r => on (J r)) (fun _ => on E) := by
  unfold writeChunkFile
  by_cases hinline : x.length < INLINE_THRESHOLD
  · rw [if_pos hinline]
    exact .pure fun st h => by simpa only [on, written, if_pos hinline] using hJ st.db st.files h
  rw [if_neg hinline]
  refine .bind (.get (Q := fun a => on fun db files => a.files = files ∧ I db files) fun _ h => ⟨rfl, h⟩) fun st => ?_
  cases hfile : st.files (ext.blake3 x) with
  | some bytes =>
    refine .pure fun st' ⟨hf, h⟩ => ?_
    rw [hf] at hfile
    simpa only [on, written, if_neg hinline, hfile] using hJ st'.db st'.files h
  | none =>
    refine .bind (attempt_on fun db files h => hE db files h.2) fun _ => ?_
    cases hform : storedForm ext level x with
    | none => exact .throw fun st' h => hE st'.db st'.files h.2
    | some form =>
      refine .bind (writeFile_on (J := J (ext.blake3 x, form.2, form.1.length)) (fun db files ⟨hf, h⟩ => ?_)
        fun db files h => hE db files h.2) fun _ => .pure fun _ h => h
      rw [hf] at hfile
      simpa only [written, if_neg hinline, hfile, hform] using hJ db files h

/-- The row goes in after the file: a failure in between leaves the file alone. -/
theorem storeChunk_on {x : Bytes} (hE : ∀ db files, I db files → E db files)
    (hfile : ∀ db files, I db files → E db (written ext level files x).1)
    (hJ : ∀ db files, I db files → J (db.withChunk ext level files x) (written ext level files x).1) :
    Triple (on I) (storeChunk ext level x) (fun _ => on J) (fun _ => on E) := by
  refine .bind (writeChunkFile_on (J := fun r db files' => ∃ files, I db files ∧ files' = (written ext level files x).1 ∧
    r = (ext.blake3 x, (written ext level files x).2)) hE fun db files h => ⟨files, h, rfl, rfl⟩) fun r => ?_
  refine .bind (exec_on (J := J) ?_ ?_) fun _ => .pure fun _ h => h
  · rintro db _ ⟨files, h, rfl, rfl⟩; exact hJ db files h
  · rintro db _ ⟨files, h, rfl, rfl⟩; exact hfile db files h

end

/-! ## Operations that only read -/

section
variable [DecidableEq δ] (ext : Ext δ)

theorem collectFileDigestsFromTree_keeps : ∀ (fuel : Nat) (caNode : CaNode) (fileDigests : List δ),
    Keeps I (collectFileDigestsFromTree ext fuel caNode fileDigests)
  | 0, _, _ => .pure fun _ h => h
  | fuel + 1, caNode, fileDigests => by
    unfold collectFileDigestsFromTree
    have hentries : ∀ (entries : List CaDirectoryEntry) (acc : List δ),
        Keeps I (entries.foldlM (forChild (collectFileDigestsFromTree ext fuel)) acc) := by
      intro entries
      induction entries with
      | nil => exact fun acc => .pure fun _ h => h
      | cons entry entries ih =>
        intro acc
        refine .bind (R := fun _ => on I) ?_ ih
        unfold forChild
        cases entry.node with
        | some child => exact collectFileDigestsFromTree_keeps fuel child acc
        | none => exact .pure fun _ h => h
    rcases caNode with ⟨_ | file | dir | symlink⟩
    · exact .pure fun _ h => h
    · simp only
      cases fieldDigest ext file.digest <;> exact .pure fun _ h => h
    · simp only
      cases fieldDigest ext dir.digest with
      | none => exact .pure fun _ h => h
      | some d =>
        refine .bind queryRow_keeps fun data => ?_
        cases data.bind ext.decodeDirectory with
        | none => exact .pure fun _ h => h
        | some caDir => exact hentries caDir.entries fileDigests
    · exact .pure fun _ h => h

omit [DecidableEq δ] in
theorem getRootNode_keeps (hash : String) : Keeps I (getRootNode ext hash) := by
  refine .bind attempt_keeps fun _ => .bind queryRow_keeps fun bytes => ?_
  cases bytes with
  | none => exact .pure fun _ h => h
  | some bytes =>
    simp only
    cases ext.decodeNode bytes with
    | none => exact .throw fun _ h => h
    | some node => exact .pure fun _ h => h

omit [DecidableEq δ] in
theorem loadMetadata_keeps (hash : String) : Keeps I (loadMetadata hash : CasM δ _) :=
  .bind attempt_keeps fun _ => .bind queryRow_keeps fun _ => .pure fun _ h => h

omit [DecidableEq δ] in
theorem readRoot_keeps (hash : String) : Keeps I (readRoot ext hash) := by
  refine .bind query_keeps fun hasRoot => ?_
  cases hasRoot with
  | true => exact getRootNode_keeps ext hash
  | false => exact .pure fun _ h => h

end

end Ekapkgs
