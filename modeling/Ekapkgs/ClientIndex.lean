import Ekapkgs.ChunkStore
import Ekapkgs.GcSafety
import Ekapkgs.Sample
import Ekapkgs.StoredTree

/-!
# What the client's chunk store keeps

`store_chunk` and `index_response` of `chunk_store.rs`. A chunk file that exists
is never written again, and a row that exists is never replaced, so what an
interrupted write or an earlier server left decides what a later call achieves.
-/

namespace Ekapkgs
open Keyed Fallible

variable {δ : Type} [DecidableEq δ] {fails : Call δ → Bool}

/-! ## A chunk -/

/-- The chunk reads back, and the client says that it has it. -/
structure Effective (store : ChunkStore δ) (digest : δ) (data : Bytes) : Prop where
  chunk : store.getChunk (fun _ => false) digest = .ok (some data)
  listed : ∃ digests, store.allChunkDigests (fun _ => false) = .ok digests ∧ digest ∈ digests

/-- A crash while the file is written leaves a part of it and no row. -/
def ChunkStore.interruptedWrite (store : ChunkStore δ) (digest : δ) (data : Bytes) (written : Nat) : ChunkStore δ :=
  { store with files := Function.update store.files digest (some (data.take written)) }

omit [DecidableEq δ] in
theorem getChunk_eq {store : ChunkStore δ} {digest : δ} {data : Bytes} :
    store.getChunk (fun _ => false) digest = .ok (some data) ↔ store.files digest = some data := by
  unfold ChunkStore.getChunk
  cases store.files digest with
  | none => exact iff_of_false nofun nofun
  | some bytes => simp [tryCall, bind, Except.bind, pure, Except.pure]

theorem effective_iff {store : ChunkStore δ} {digest : δ} {data : Bytes} :
    Effective store digest data ↔ store.files digest = some data ∧ store.chunks.contains digest = true := by
  rw [Table.contains_iff_mem]
  constructor
  · rintro ⟨hchunk, digests, hlist, hmem⟩
    cases hlist
    exact ⟨getChunk_eq.mp hchunk, hmem⟩
  · exact fun ⟨hfile, hmem⟩ => ⟨getChunk_eq.mpr hfile, _, rfl, hmem⟩

omit [DecidableEq δ] in
theorem performCall_ok {call : Call δ} {store store' : ChunkStore δ} (h : performCall fails call store = .ok () store') : store' = store := by
  unfold performCall at h
  split at h
  · cases h
  · cases h
    rfl

/-- Storing a chunk works when there was no file of its digest, or the whole file and its row. -/
theorem storeChunkFile_effective_iff {store store' : ChunkStore δ} {digest : δ} {data : Bytes}
    (h : storeChunkFile fails digest data store = .ok () store') : Effective store' digest data ↔
      store.files digest = none ∨ store.files digest = some data ∧ store.chunks.contains digest = true := by
  unfold storeChunkFile at h
  rw [bind_get] at h
  rw [effective_iff]
  cases hfile : store.files digest with
  | some bytes =>
    rw [hfile] at h
    cases h
    rw [hfile]
    simp
  | none =>
    rw [hfile] at h
    dsimp only at h
    obtain ⟨_, t, hwrite, hrest⟩ := bind_ok.mp h
    rw [performCall_ok hwrite, bind_modify] at hrest
    obtain ⟨_, t', hinsert, hrow⟩ := bind_ok.mp hrest
    rw [performCall_ok hinsert] at hrow
    cases hrow
    exact iff_of_true ⟨Function.update_self .., Table.contains_insertOrIgnore.mpr (.inr rfl)⟩ (.inl rfl)

theorem storeChunkFile_effective_empty : ∃ store', storeChunkFile (fun _ => false) [1, 2] [1, 2] ChunkStore.empty = .ok () store' ∧
    Effective store' ([1, 2] : Bytes) [1, 2] := by
  have hrun : storeChunkFile (fun _ => false) [1, 2] [1, 2] (ChunkStore.empty : ChunkStore Bytes) = .ok () _ := rfl
  exact ⟨_, hrun, (storeChunkFile_effective_iff hrun).mpr (.inl rfl)⟩

theorem interruptedWrite_stays : ¬ ∀ (fails : Call Bytes → Bool) (store store' : ChunkStore Bytes) (data : Bytes),
    storeChunkFile fails (sampleExt.blake3 data) data store = .ok () store' → Effective store' (sampleExt.blake3 data) data := by
  intro h
  have heffective := h (fun _ => false) (ChunkStore.empty.interruptedWrite [1, 2] [1, 2] 1) _ [1, 2] rfl
  have hfile := (effective_iff.mp heffective).1
  revert hfile
  decide

/-! ## The rows of a file -/

/-- The rows of a file are the items of a list, by position. -/
def ListedAs (t : Table (δ × Nat) (δ × Nat)) (file : δ) (l : List (δ × Nat)) : Prop := ∀ i, t.get? (file, i) = l[i]?

/-- No file has a gap in its rows. -/
def Gapless (store : ChunkStore δ) : Prop := ∀ file, ∃ l, ListedAs store.fileChunks file l

theorem ListedAs.insert {t : Table (δ × Nat) (δ × Nat)} {file file' : δ} {l : List (δ × Nat)} (h : ListedAs t file' l) {n : Nat}
    {v : δ × Nat} (hn : file' = file → n ≤ l.length) :
    ∃ l', ListedAs (t.insertOrIgnore (file, n) v) file' l' ∧ (file' = file → n < l'.length) := by
  by_cases hfile : file' = file
  · subst hfile
    have hn := hn rfl
    by_cases hlast : n = l.length
    · refine ⟨l ++ [v], fun i => ?_, fun _ => by simp [hlast]⟩
      rw [Table.get?_insertOrIgnore, h, h]
      by_cases hi : i = n
      · subst hi
        simp [hlast]
      · rw [if_neg fun e => hi (Prod.mk.inj e).2]
        rcases Nat.lt_or_ge i l.length with hlt | hge
        · rw [List.getElem?_append_left hlt]
        · have hlt : l.length + 1 ≤ i := by omega
          rw [List.getElem?_eq_none hge, List.getElem?_eq_none (by simpa using hlt)]
    · refine ⟨l, fun i => ?_, fun _ => by omega⟩
      rw [Table.get?_insertOrIgnore, h, h]
      split
      next heq =>
        obtain rfl := (Prod.mk.inj heq).2
        rw [List.getElem?_eq_getElem (by omega)]
        rfl
      next => rfl
  · refine ⟨l, fun i => ?_, fun e => absurd e hfile⟩
    rw [Table.get?_insertOrIgnore, if_neg fun e => hfile (Prod.mk.inj e).1, h]

theorem gapless_empty : Gapless (ChunkStore.empty : ChunkStore δ) := fun _ => ⟨[], fun _ => rfl⟩

/-! ## Rules for the writes of an index -/

section
variable {I J E : ChunkStore δ → Prop}

omit [DecidableEq δ] in
theorem performCall_on {call : Call δ} (hE : ∀ s, I s → E s) : Triple I (performCall fails call) (fun _ => I) (fun _ => E) := by
  unfold performCall
  split
  · exact .throw hE
  · exact .pure fun _ h => h

theorem storeDirectory_on {digest : δ} {data : Bytes} (h : ∀ s, I s → J { s with directories := s.directories.insertOrIgnore digest data })
    (hE : ∀ s, I s → E s) : Triple I (storeDirectory fails digest data) (fun _ => J) (fun _ => E) :=
  .bind (performCall_on hE) fun _ => .modify h

def ChunkStore.withFileChunk (store : ChunkStore δ) (file : δ) (index : Nat) (chunk : δ × Nat) : ChunkStore δ :=
  { store with fileChunks := store.fileChunks.insertOrIgnore (file, index) chunk }

theorem storeFileChunks_keeps {file : δ} {chunks : List (δ × Nat)}
    (h : ∀ s i v, chunks[i]? = some v → I s → I (s.withFileChunk file i v)) :
    Triple I (storeFileChunks fails file chunks) (fun _ => I) (fun _ => I) :=
  .forM _ fun chunk hmem => .bind (performCall_on fun _ h => h) fun _ =>
    .modify fun s hs => h s chunk.2 chunk.1 (List.mem_zipIdx_iff_getElem?.mp hmem) hs

theorem storeFileChunks_stored {file : δ} {chunks : List (δ × Nat)} : Triple (fun _ => True) (storeFileChunks fails file chunks)
    (fun _ s => ∀ i < chunks.length, (s.fileChunks.get? (file, i)).isSome = true) (fun _ _ => True) := by
  refine (Triple.forM_all (R := fun chunk s => (s.fileChunks.get? (file, chunk.2)).isSome = true) (fun chunk => ?_) (fun chunk chunk' => ?_)
    chunks.zipIdx).post fun _ s h i hi => ?_
  · refine .bind (performCall_on fun _ h => h) fun _ => .modify fun s _ => ?_
    rw [Table.get?_insertOrIgnore, if_pos rfl]
    rfl
  · refine .bind (performCall_on fun _ _ => trivial) fun _ => .modify fun s hs => ?_
    rw [Table.get?_insertOrIgnore]
    split
    · rfl
    · exact hs
  · exact h (chunks[i], i) (List.mem_zipIdx_iff_getElem?.mpr (List.getElem?_eq_getElem hi))

/-- The rows of a file go in from the first on, so they leave no gap even when one fails. -/
theorem storeFileChunks_gapless {file : δ} {chunks : List (δ × Nat)} :
    Triple Gapless (storeFileChunks fails file chunks) (fun _ => Gapless) (fun _ => Gapless) := by
  suffices hloop : ∀ (chunks : List (δ × Nat)) (n : Nat),
      Triple (fun s => ∀ file', ∃ l, ListedAs s.fileChunks file' l ∧ (file' = file → n ≤ l.length))
        ((chunks.zipIdx n).forM fun chunk => do
          performCall fails (.insertFileChunk file chunk.2)
          modify fun store => { store with fileChunks := store.fileChunks.insertOrIgnore (file, chunk.2) chunk.1 })
        (fun _ => Gapless) (fun _ => Gapless) from
    (hloop chunks 0).pre fun s hs file' => (hs file').imp fun l hl => ⟨hl, fun _ => Nat.zero_le _⟩
  intro chunks
  induction chunks with
  | nil => exact fun n => .pure fun s hs file' => (hs file').imp fun l hl => hl.1
  | cons chunk chunks ih =>
    intro n
    refine .bind (.bind (performCall_on fun s hs file' => (hs file').imp fun l hl => hl.1) fun _ => .modify (Q := fun _ (s : ChunkStore δ) =>
      ∀ file', ∃ l, ListedAs s.fileChunks file' l ∧ (file' = file → n + 1 ≤ l.length)) fun s hs file' => ?_) fun _ => ih (n + 1)
    obtain ⟨l, hl, hn⟩ := hs file'
    exact hl.insert hn

variable {ext : Ext δ}

/-- The chunks of a mapping whose digests are well formed. -/
def listedChunks (ext : Ext δ) (mapping : FileChunkMapping) : List (δ × Nat) :=
  mapping.chunks.filterMap fun cm => (fieldDigest ext cm.digest).map fun digest => (digest, cm.size)

theorem indexFileChunks_of_digest {mapping : FileChunkMapping} {file : δ} (h : fieldDigest ext mapping.fileDigest = some file) :
    indexFileChunks fails ext mapping = storeFileChunks fails file (listedChunks ext mapping) := by
  unfold indexFileChunks
  rw [h]
  show (if (listedChunks ext mapping).isEmpty then _ else _) = _
  split
  next hempty =>
    rw [List.isEmpty_iff.mp hempty]
    rfl
  next => rfl

theorem indexFileChunks_of_none {mapping : FileChunkMapping} (h : fieldDigest ext mapping.fileDigest = none) :
    indexFileChunks fails ext mapping = pure () := by
  unfold indexFileChunks
  rw [h]

/-- The response gives this directory for the digest. -/
def NamesDirectory (ext : Ext δ) (response : ChunkNegotiateResponse) (digest : δ) (dir : CaDirectory) : Prop :=
  ∃ dirData ∈ response.directories, fieldDigest ext dirData.digest = some digest ∧ dirData.directory = some dir

/-- The response gives these chunks for the file. -/
def NamesFile (ext : Ext δ) (response : ChunkNegotiateResponse) (file : δ) (chunks : List (δ × Nat)) : Prop :=
  ∃ mapping ∈ response.fileChunkMappings, fieldDigest ext mapping.fileDigest = some file ∧ listedChunks ext mapping = chunks

theorem indexResponse_keeps {response : ChunkNegotiateResponse}
    (hdir : ∀ s digest dir, NamesDirectory ext response digest dir → I s →
      I { s with directories := s.directories.insertOrIgnore digest (ext.encodeDirectory dir) })
    (hfile : ∀ s file chunks i v, NamesFile ext response file chunks → chunks[i]? = some v → I s → I (s.withFileChunk file i v)) :
    Triple I (indexResponse fails ext response) (fun _ => I) (fun _ => I) := by
  refine .bind (.forM _ fun dirData hmem => ?_) fun _ => .forM _ fun mapping hmem => ?_
  · unfold indexDirectory
    split
    next digest dir hdigest hdirectory => exact storeDirectory_on (fun s => hdir s digest dir ⟨dirData, hmem, hdigest, hdirectory⟩) fun _ h => h
    next => exact .pure fun _ h => h
  · cases hdigest : fieldDigest ext mapping.fileDigest with
    | none =>
      rw [indexFileChunks_of_none hdigest]
      exact .pure fun _ h => h
    | some file =>
      rw [indexFileChunks_of_digest hdigest]
      exact storeFileChunks_keeps fun s i v => hfile s file _ i v ⟨mapping, hmem, hdigest, rfl⟩

theorem indexResponse_gapless {response : ChunkNegotiateResponse} :
    Triple Gapless (indexResponse fails ext response) (fun _ => Gapless) (fun _ => Gapless) := by
  refine .bind (.forM _ fun dirData _ => ?_) fun _ => .forM _ fun mapping _ => ?_
  · unfold indexDirectory
    split
    · exact storeDirectory_on (fun _ h => h) fun _ h => h
    · exact .pure fun _ h => h
  · cases hdigest : fieldDigest ext mapping.fileDigest with
    | none =>
      rw [indexFileChunks_of_none hdigest]
      exact .pure fun _ h => h
    | some file =>
      rw [indexFileChunks_of_digest hdigest]
      exact storeFileChunks_gapless

/-- A response that is indexed to its end leaves a row for all that it names. -/
theorem indexResponse_stored {response : ChunkNegotiateResponse} : Triple (fun _ => True) (indexResponse fails ext response)
    (fun _ s => (∀ digest dir, NamesDirectory ext response digest dir → s.directories.contains digest = true) ∧
      ∀ file chunks, NamesFile ext response file chunks → ∀ i < chunks.length, (s.fileChunks.get? (file, i)).isSome = true)
    (fun _ _ => True) := by
  have hdirs : Triple (fun _ => True) (response.directories.forM (indexDirectory fails ext)) (fun _ s => ∀ dirData ∈ response.directories,
      ∀ digest dir, fieldDigest ext dirData.digest = some digest → dirData.directory = some dir → s.directories.contains digest = true)
      (fun _ _ => True) := by
    refine .forM_all (fun dirData => ?_) (fun dirData dirData' => ?_) _
    · unfold indexDirectory
      split
      next digest dir hdigest hdirectory =>
        refine storeDirectory_on (fun s _ digest' dir' hdigest' _ => ?_) fun _ h => h
        rw [hdigest] at hdigest'
        exact Table.contains_insertOrIgnore.mpr (.inr (Option.some.inj hdigest').symm)
      next hnone => exact .pure fun s _ digest dir hdigest hdirectory => absurd hdirectory (hnone digest dir hdigest)
    · unfold indexDirectory
      split
      · exact storeDirectory_on (fun s hs digest dir hdigest hdirectory =>
          Table.contains_insertOrIgnore.mpr (.inl (hs digest dir hdigest hdirectory))) fun _ _ => trivial
      · exact .pure fun _ h => h
  refine .bind hdirs fun _ => ?_
  have hkeep : Triple (fun s => ∀ dirData ∈ response.directories, ∀ digest dir, fieldDigest ext dirData.digest = some digest →
      dirData.directory = some dir → s.directories.contains digest = true) (response.fileChunkMappings.forM (indexFileChunks fails ext))
      (fun _ s => ∀ dirData ∈ response.directories, ∀ digest dir, fieldDigest ext dirData.digest = some digest →
        dirData.directory = some dir → s.directories.contains digest = true) (fun _ _ => True) := by
    refine .forM _ fun mapping _ => ?_
    cases hdigest : fieldDigest ext mapping.fileDigest with
    | none =>
      rw [indexFileChunks_of_none hdigest]
      exact .pure fun _ h => h
    | some file =>
      rw [indexFileChunks_of_digest hdigest]
      exact (storeFileChunks_keeps fun s i v _ h => h).conseq (fun _ h => h) (fun _ _ h => h) fun _ _ _ => trivial
  have hfiles : Triple (fun _ => True) (response.fileChunkMappings.forM (indexFileChunks fails ext)) (fun _ s =>
      ∀ mapping ∈ response.fileChunkMappings, ∀ file, fieldDigest ext mapping.fileDigest = some file →
        ∀ i < (listedChunks ext mapping).length, (s.fileChunks.get? (file, i)).isSome = true) (fun _ _ => True) := by
    refine .forM_all (fun mapping => ?_) (fun mapping mapping' => ?_) _
    · cases hdigest : fieldDigest ext mapping.fileDigest with
      | none =>
        rw [indexFileChunks_of_none hdigest]
        exact .pure fun _ _ => nofun
      | some file =>
        rw [indexFileChunks_of_digest hdigest]
        exact storeFileChunks_stored.post fun _ s h file' hfile => Option.some.inj hfile ▸ h
    · cases hdigest : fieldDigest ext mapping'.fileDigest with
      | none =>
        rw [indexFileChunks_of_none hdigest]
        exact .pure fun _ h => h
      | some file =>
        rw [indexFileChunks_of_digest hdigest]
        refine (storeFileChunks_keeps fun s i v _ h file' hfile j hj => ?_).conseq (fun _ h => h) (fun _ _ h => h) fun _ _ _ => trivial
        unfold ChunkStore.withFileChunk
        rw [Table.get?_insertOrIgnore]
        split
        · rfl
        · exact h file' hfile j hj
  refine ((hkeep.and hfiles).pre fun s h => ⟨h, trivial⟩).conseq (fun _ h => h) (fun _ s h => ⟨?_, ?_⟩) fun _ _ _ => trivial
  · rintro digest dir ⟨dirData, hmem, hdigest, hdirectory⟩
    exact h.1 dirData hmem digest dir hdigest hdirectory
  · rintro file chunks ⟨mapping, hmem, hdigest, rfl⟩
    exact h.2 mapping hmem file hdigest

end

/-! ## An honest response -/

variable {ext : Ext δ}

/-- Directories and chunk lists stand under their own digests. -/
structure Truthful (ext : Ext δ) (response : ChunkNegotiateResponse) : Prop where
  directory : ∀ digest dir, NamesDirectory ext response digest dir → ext.blake3 (ext.encodeDirectory dir) = digest
  file : ∀ file chunks, NamesFile ext response file chunks → ∃ data, ext.blake3 data = file ∧ chunks = chunkRefs ext data

/-- What an honest server says when a path with this tree is wanted. It says
nothing of a file without chunks. -/
structure HonestFor (ext : Ext δ) (response : ChunkNegotiateResponse) (t : NarNode) : Prop extends Truthful ext response where
  directories : ∀ entries, NarNode.directory entries ∈ t.postorder →
    NamesDirectory ext response (dirDigest ext entries) ⟨caEntries ext entries⟩
  files : ∀ data ∈ t.files, chunkRefs ext data ≠ [] → NamesFile ext response (ext.blake3 data) (chunkRefs ext data)

/-- The row of a key is an old one, or there was none and it is honest. -/
structure OldOrHonest {κ ρ : Type} [DecidableEq κ] (old t : Table κ ρ) (k : κ) (honest : ρ → Prop) : Prop where
  kept : ∀ v, old.get? k = some v → t.get? k = some v
  added : ∀ v, t.get? k = some v → old.get? k = some v ∨ honest v

theorem OldOrHonest.insert {κ ρ : Type} [DecidableEq κ] {old t : Table κ ρ} {k : κ} {honest : ρ → Prop} (h : OldOrHonest old t k honest)
    {k' : κ} {v : ρ} (hv : k = k' → honest v) : OldOrHonest old (t.insertOrIgnore k' v) k honest := by
  by_cases hkey : k = k'
  · subst hkey
    constructor
    · intro w hw
      rw [Table.get?_insertOrIgnore, if_pos rfl, h.kept w hw]
      rfl
    · intro w hw
      rw [Table.get?_insertOrIgnore, if_pos rfl] at hw
      cases hrow : t.get? k with
      | none =>
        rw [hrow] at hw
        exact .inr (Option.some.inj hw ▸ hv rfl)
      | some w' =>
        rw [hrow] at hw
        exact h.added w (hrow.trans hw)
  · constructor
    · intro w hw
      rw [Table.get?_insertOrIgnore, if_neg hkey]
      exact h.kept w hw
    · intro w hw
      rw [Table.get?_insertOrIgnore, if_neg hkey] at hw
      exact h.added w hw

theorem OldOrHonest.get?_eq {κ ρ : Type} [DecidableEq κ] {old t : Table κ ρ} {k : κ} {o : Option ρ}
    (h : OldOrHonest old t k fun v => o = some v) (hdone : ∀ v, o = some v → (t.get? k).isSome = true) : t.get? k = (old.get? k).or o := by
  cases hold : old.get? k with
  | some v => exact h.kept v hold
  | none =>
    rw [Option.none_or]
    cases hnew : t.get? k with
    | some v => exact ((h.added v hnew).resolve_left (by rw [hold]; nofun)).symm
    | none =>
      symm
      rw [Option.eq_none_iff_forall_ne_some]
      intro v hv
      have hstored := hdone v hv
      rw [hnew] at hstored
      cases hstored

section
variable {response : ChunkNegotiateResponse} {s s' : ChunkStore δ}

/-- An old row stays, and a new one is the honest one. -/
theorem Truthful.fileChunks_get? (laws : ext.Laws) (h : Truthful ext response) (hok : indexResponse fails ext response s = .ok () s')
    {data : Bytes} (hnamed : chunkRefs ext data ≠ [] → NamesFile ext response (ext.blake3 data) (chunkRefs ext data)) (i : Nat) :
    s'.fileChunks.get? (ext.blake3 data, i) = (s.fileChunks.get? (ext.blake3 data, i)).or (chunkRefs ext data)[i]? := by
  have hkeeps : Triple _ (indexResponse fails ext response) _ _ := indexResponse_keeps (I := fun u => OldOrHonest s.fileChunks u.fileChunks (ext.blake3 data, i) fun v => (chunkRefs ext data)[i]? = some v)
    (fun _ _ _ _ hu => hu) fun u file chunks j v hnames hv hu => hu.insert fun heq => by
      obtain ⟨rfl, rfl⟩ := Prod.mk.inj heq
      obtain ⟨data', hdigest, rfl⟩ := h.file _ _ hnames
      obtain rfl := laws.blake3_injective hdigest
      exact hv
  refine (hkeeps.ok_of ⟨fun _ h => h, fun _ => .inl⟩ hok).get?_eq fun v hv => ?_
  obtain ⟨hi, -⟩ := List.getElem?_eq_some_iff.mp hv
  have hne : chunkRefs ext data ≠ [] := List.ne_nil_of_length_pos (Nat.zero_lt_of_lt hi)
  exact (indexResponse_stored.ok_of trivial hok).2 _ _ (hnamed hne) i hi

theorem Truthful.directories_get? (h : Truthful ext response) (hok : indexResponse fails ext response s = .ok () s') {digest : δ}
    {dir : CaDirectory} (hnamed : NamesDirectory ext response digest dir) :
    (∃ bytes, s'.directories.get? digest = some bytes ∧ ext.blake3 bytes = digest) ↔
      ∀ bytes, s.directories.get? digest = some bytes → ext.blake3 bytes = digest := by
  have hkeeps : Triple _ (indexResponse fails ext response) _ _ := indexResponse_keeps (I := fun u => OldOrHonest s.directories u.directories digest fun bytes => ext.blake3 bytes = digest)
    (fun u digest' dir' hnames hu => hu.insert fun heq => by
      subst heq
      exact h.directory _ _ hnames) fun _ _ _ _ _ _ _ hu => hu
  have hrow := hkeeps.ok_of ⟨fun _ h => h, fun _ => .inl⟩ hok
  have hstored := (indexResponse_stored.ok_of trivial hok).1 digest dir hnamed
  rw [Table.contains_eq_isSome] at hstored
  obtain ⟨bytes, hbytes⟩ := Option.isSome_iff_exists.mp hstored
  constructor
  · rintro ⟨bytes', hbytes', hhash⟩ old hold
    have := hrow.kept old hold
    rw [hbytes'] at this
    rwa [← Option.some.inj this]
  · intro hold
    exact ⟨bytes, hbytes, (hrow.added bytes hbytes).elim (hold bytes) id⟩

/-- The rows of a file are the honest ones when the old ones are the first of them. -/
theorem Truthful.ordered_iff (laws : ext.Laws) (h : Truthful ext response) (hok : indexResponse fails ext response s = .ok () s')
    (hgap : Gapless s) {data : Bytes} (hnamed : chunkRefs ext data ≠ [] → NamesFile ext response (ext.blake3 data) (chunkRefs ext data)) :
    s'.fileChunks.ordered (ext.blake3 data) = chunkRefs ext data ↔
      s.fileChunks.ordered (ext.blake3 data) <+: chunkRefs ext data := by
  obtain ⟨l, hl⟩ := hgap (ext.blake3 data)
  have hafter : ListedAs s'.fileChunks (ext.blake3 data) (l ++ (chunkRefs ext data).drop l.length) := by
    intro i
    rw [h.fileChunks_get? laws hok hnamed, hl]
    rcases Nat.lt_or_ge i l.length with hlt | hge
    · rw [List.getElem?_append_left hlt, List.getElem?_eq_getElem hlt]
      rfl
    · rw [List.getElem?_eq_none hge, List.getElem?_append_right hge, List.getElem?_drop, Option.none_or, Nat.add_sub_cancel' hge]
  rw [Table.ordered_eq hafter, Table.ordered_eq hl]
  constructor
  · exact fun heq => ⟨_, heq⟩
  · rintro ⟨rest, heq⟩
    rw [← heq, List.drop_left]

end

/-! ## Reassembling a path -/

/-- The index of earlier responses, each on a machine of its own luck. -/
def indexAll (ext : Ext δ) (steps : List ((Call δ → Bool) × ChunkNegotiateResponse)) (store : ChunkStore δ) : ChunkStore δ :=
  steps.foldl (fun store step => finalState (indexResponse step.1 ext step.2 store)) store

theorem indexAll_gapless (steps : List ((Call δ → Bool) × ChunkNegotiateResponse)) : ∀ {store : ChunkStore δ}, Gapless store →
    Gapless (indexAll ext steps store) := by
  induction steps with
  | nil => exact id
  | cons step steps ih =>
    intro store hstore
    refine ih ?_
    have hstep : Triple Gapless (indexResponse step.1 ext step.2) _ _ := indexResponse_gapless
    show Gapless (finalState (indexResponse step.1 ext step.2 store))
    cases hrun : indexResponse step.1 ext step.2 store with
    | ok u s' => exact hstep.ok_of hstore hrun
    | error e s' => exact hstep.error_of hstore hrun

/-- The directories hash to their digests, the files have their chunk lists, and
with the chunks in place the path is written as its server would write it. -/
structure PathIntact (ext : Ext δ) (store : ChunkStore δ) (t : NarNode) : Prop where
  directories : ∀ entries, NarNode.directory entries ∈ t.postorder →
    ∃ bytes, store.directories.get? (dirDigest ext entries) = some bytes ∧ ext.blake3 bytes = dirDigest ext entries
  fileChunks : ∀ data ∈ t.files, store.fileChunks.ordered (ext.blake3 data) = chunkRefs ext data
  nar : ∀ files : δ → Option Bytes, (∀ x ∈ t.files.flatMap ext.chunks, files (ext.blake3 x) = some x) →
    writeNarStreaming ext ({ store with files := files }.reader (fun _ => false) ext) store.depth (caNode ext t) ((), []) =
      .ok () ((), writeNar t.sorted)

/-- What the store had under the digests of the path was right as far as it went. -/
structure Agrees (ext : Ext δ) (store : ChunkStore δ) (t : NarNode) : Prop where
  directories : ∀ entries, NarNode.directory entries ∈ t.postorder →
    ∀ bytes, store.directories.get? (dirDigest ext entries) = some bytes → ext.blake3 bytes = dirDigest ext entries
  fileChunks : ∀ data ∈ t.files, store.fileChunks.ordered (ext.blake3 data) <+: chunkRefs ext data

omit [DecidableEq δ] in
theorem readChunks_eq {store : ChunkStore δ} : ∀ xs : List Bytes, (∀ x ∈ xs, store.files (ext.blake3 x) = some x) →
    store.readChunks (fun _ => false) (xs.map ext.blake3) = .ok xs.flatten
  | [], _ => rfl
  | x :: xs, h => by
    rw [List.map_cons, ChunkStore.readChunks, getChunk_eq.mpr (h x (List.mem_cons_self ..))]
    show (store.readChunks (fun _ => false) (xs.map ext.blake3) >>= fun rest => pure (x ++ rest)) = _
    rw [readChunks_eq xs fun y hy => h y (List.mem_cons_of_mem _ hy)]
    rfl

theorem reader_serves (laws : ext.Laws) {store : ChunkStore δ} {t : NarNode}
    (hdirs : ∀ entries, NarNode.directory entries ∈ t.postorder →
      store.directories.get? (dirDigest ext entries) = some (ext.encodeDirectory ⟨caEntries ext entries⟩))
    (hfiles : ∀ data ∈ t.files, store.fileChunks.ordered (ext.blake3 data) = chunkRefs ext data)
    (hchunks : ∀ x ∈ t.files.flatMap ext.chunks, store.files (ext.blake3 x) = some x) :
    (store.reader (fun _ => false) ext).Serves ext (fun _ => True) id t where
  file data hdata := by
    have hread : store.readFileData (fun _ => false) (ext.blake3 data) = .ok data := by
      show store.readChunks (fun _ => false) ((store.fileChunks.ordered (ext.blake3 data)).map Prod.fst) = _
      rw [hfiles data hdata, chunkRefs_digests, readChunks_eq _ fun x hx => hchunks x (List.mem_flatMap.mpr ⟨data, hdata, hx⟩),
        laws.chunks_flatten]
    unfold ChunkStore.reader
    refine .bind_ok ?_ (.emit data)
    rw [hread]
    rfl
  directory entries hentries k _ := by
    refine ⟨k, ?_, trivial⟩
    unfold ChunkStore.reader ChunkStore.loadDirectory
    simp only [hdirs entries hentries, laws.decode_encodeDirectory]
    rfl

/-- After an honest response a path is intact exactly when nothing else was there before. -/
theorem indexResponse_intact_iff (laws : ext.Laws) (steps : List ((Call δ → Bool) × ChunkNegotiateResponse))
    {response : ChunkNegotiateResponse} {t : NarNode} {store' : ChunkStore δ} (hhonest : HonestFor ext response t)
    (hok : indexResponse fails ext response (indexAll ext steps .empty) = .ok () store') :
    PathIntact ext store' t ↔ Agrees ext (indexAll ext steps .empty) t := by
  have hgap : Gapless (indexAll ext steps .empty) := indexAll_gapless steps gapless_empty
  have hdirs := fun entries hentries => hhonest.toTruthful.directories_get? hok (hhonest.directories entries hentries)
  have hfiles := fun data hdata => hhonest.toTruthful.ordered_iff laws hok hgap (hhonest.files data hdata)
  constructor
  · intro h
    exact ⟨fun entries hentries => (hdirs entries hentries).mp (h.directories entries hentries),
      fun data hdata => (hfiles data hdata).mp (h.fileChunks data hdata)⟩
  · intro h
    have hrows := fun entries hentries => (hdirs entries hentries).mpr (h.directories entries hentries)
    have hchunks := fun data hdata => (hfiles data hdata).mpr (h.fileChunks data hdata)
    refine ⟨hrows, hchunks, fun files hpresent => ?_⟩
    have hencoded : ∀ entries, NarNode.directory entries ∈ t.postorder →
        store'.directories.get? (dirDigest ext entries) = some (ext.encodeDirectory ⟨caEntries ext entries⟩) := by
      intro entries hentries
      obtain ⟨bytes, hbytes, hhash⟩ := hrows entries hentries
      rw [hbytes, laws.blake3_injective hhash]
    have hdepth : t.depth ≤ store'.depth := by
      have htables : HasDirectories ext ⟨.empty, store'.fileChunks, store'.directories, .empty, .empty⟩ t := hencoded
      exact htables.depth_le laws
    have hserves : ({ store' with files := files }.reader (fun _ => false) ext).Serves ext (fun _ => True) id t :=
      reader_serves laws hencoded hchunks hpresent
    obtain ⟨_, hrun, _⟩ := writeNarStreaming_serves laws hdepth hserves () [] trivial
    rw [hrun]
    show EStateM.Result.ok () ((), [] ++ writeNarWith id t.sorted) = _
    rw [List.nil_append, writeNarWith, writeNarObjWith_id]
    rfl

/-- The answer for a path to a client that has its chunks. -/
def honestResponse (ext : Ext δ) (hash : String) (t : NarNode) : ChunkNegotiateResponse where
  pathMappings := [⟨hash, some (caNode ext t)⟩]
  missingChunks := []
  totalChunkSize := 0
  directories := t.postorder.filterMap fun
    | .directory entries => some ⟨some ⟨ext.toVec (dirDigest ext entries)⟩, some ⟨caEntries ext entries⟩⟩
    | _ => none
  fileChunkMappings := t.files.map fun data =>
    ⟨some ⟨ext.toVec (ext.blake3 data)⟩, (chunkRefs ext data).map fun c => ⟨some ⟨ext.toVec c.1⟩, c.2⟩⟩

omit [DecidableEq δ] in
theorem listedChunks_map (laws : ext.Laws) (fileDigest : Option B3Digest) (refs : List (δ × Nat)) :
    listedChunks ext ⟨fileDigest, refs.map fun c => ⟨some ⟨ext.toVec c.1⟩, c.2⟩⟩ = refs := by
  unfold listedChunks
  induction refs with
  | nil => rfl
  | cons c refs ih =>
    rw [List.map_cons, List.filterMap_cons, fieldDigest_toVec laws]
    simp [ih]

omit [DecidableEq δ] in
theorem honestResponse_honest (laws : ext.Laws) (hash : String) (t : NarNode) : HonestFor ext (honestResponse ext hash t) t where
  directory digest dir := by
    rintro ⟨dirData, hmem, hdigest, hdirectory⟩
    obtain ⟨node, hnode, hdata⟩ := List.mem_filterMap.mp hmem
    cases node with
    | regular executable data => cases hdata
    | symlink target => cases hdata
    | directory entries =>
      cases hdata
      cases hdirectory
      exact Option.some.inj ((fieldDigest_toVec laws _).symm.trans hdigest)
  file file chunks := by
    rintro ⟨mapping, hmem, hdigest, rfl⟩
    obtain ⟨data, hdata, rfl⟩ := List.mem_map.mp hmem
    exact ⟨data, Option.some.inj ((fieldDigest_toVec laws _).symm.trans hdigest), listedChunks_map laws _ _⟩
  directories entries hentries :=
    ⟨_, List.mem_filterMap.mpr ⟨_, hentries, rfl⟩, fieldDigest_toVec laws _, rfl⟩
  files data hdata _ := ⟨_, List.mem_map.mpr ⟨data, hdata, rfl⟩, fieldDigest_toVec laws _, listedChunks_map laws _ _⟩

theorem indexResponse_intact_sample : ∃ store', indexResponse (fun _ => false) sampleExt
    (honestResponse sampleExt "a" (.directory [("b", .regular false [1, 2])])) (indexAll sampleExt [] .empty) = .ok () store' ∧
      PathIntact sampleExt store' (.directory [("b", .regular false [1, 2])]) := by
  have hrun : indexResponse (fun _ => false) sampleExt (honestResponse sampleExt "a" (.directory [("b", .regular false [1, 2])]))
    (indexAll sampleExt [] .empty) = .ok () _ := rfl
  refine ⟨_, hrun, (indexResponse_intact_iff sampleExt_laws [] (honestResponse_honest sampleExt_laws _ _) hrun).mpr ⟨?_, ?_⟩⟩
  · intro entries hentries bytes hbytes
    cases hbytes
  · intro data _
    have hnone : (indexAll sampleExt [] .empty).fileChunks.ordered (sampleExt.blake3 data) = [] := Table.ordered_eq fun _ => rfl
    rw [hnone]
    exact List.nil_prefix

/-- Names the empty directory and gives another. -/
def dishonestResponse : ChunkNegotiateResponse where
  pathMappings := []
  missingChunks := []
  totalChunkSize := 0
  directories := [⟨some ⟨dirDigest sampleExt []⟩, some ⟨[⟨"x", none⟩]⟩⟩]
  fileChunkMappings := []

theorem dishonestResponse_stays : ¬ ∀ (steps : List ((Call Bytes → Bool) × ChunkNegotiateResponse)) (response : ChunkNegotiateResponse)
    (t : NarNode) (store' : ChunkStore Bytes), HonestFor sampleExt response t →
    indexResponse (fun _ => false) sampleExt response (indexAll sampleExt steps .empty) = .ok () store' → PathIntact sampleExt store' t := by
  intro h
  have hrun : indexResponse (fun _ => false) sampleExt (honestResponse sampleExt "a" (.directory []))
    (indexAll sampleExt [(fun _ => false, dishonestResponse)] .empty) = .ok () _ := rfl
  obtain ⟨bytes, hbytes, hhash⟩ := (h _ _ _ _ (honestResponse_honest sampleExt_laws _ _) hrun).directories [] (self_mem_postorder _)
  have hrow : some (sampleExt.encodeDirectory ⟨[⟨"x", none⟩]⟩) = some bytes := hbytes
  obtain rfl := Option.some.inj hrow
  cases sampleExt_laws.encodeDirectory_injective (sampleExt_laws.blake3_injective hhash)

end Ekapkgs
