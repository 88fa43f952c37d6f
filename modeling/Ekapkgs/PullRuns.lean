import Ekapkgs.ChunkNegotiationSound
import Ekapkgs.ClientEvict

/-!
# A client that pulls from a server

The server takes uploads and evictions, the client pulls again and again, with
calls that fail and downloads that arrive damaged. `ClientSound` says that the
client's store stays right as far as it goes, so the next pull that nothing
disturbs gives every wanted path.
-/

namespace Ekapkgs
open Keyed Fallible Runs

variable {δ : Type} [DecidableEq δ] {ext : Ext δ} {fails : Call δ → Bool}

/-! ## The client's store -/

/-- Everything stands under its own digest, each row of a chunk has its file, and
the rows of a file are the first ones of its chunk list. -/
structure ClientSound (ext : Ext δ) (store : ChunkStore δ) : Prop where
  gapless : Gapless store
  files : ∀ d bytes, store.files d = some bytes → ext.blake3 bytes = d
  rows : ∀ d n, store.chunks.get? d = some n → (store.files d).isSome = true
  directories : ∀ d bytes, store.directories.get? d = some bytes → ext.blake3 bytes = d
  fileChunks : ∀ data i v, store.fileChunks.get? (ext.blake3 data, i) = some v → (chunkRefs ext data)[i]? = some v

theorem clientSound_empty : ClientSound ext .empty := ⟨gapless_empty, nofun, nofun, nofun, nofun⟩

theorem ClientSound.ordered {store : ChunkStore δ} (h : ClientSound ext store) (data : Bytes) :
    store.fileChunks.ordered (ext.blake3 data) <+: chunkRefs ext data := by
  obtain ⟨l, hl⟩ := h.gapless (ext.blake3 data)
  rw [Table.ordered_eq hl, List.prefix_iff_getElem?]
  intro i hi
  exact h.fileChunks data i _ ((hl i).trans (List.getElem?_eq_getElem hi))

theorem indexResponse_sound (laws : ext.Laws) {response : ChunkNegotiateResponse} (hresponse : Truthful ext response) :
    Triple (ClientSound ext) (indexResponse fails ext response) (fun _ => ClientSound ext) (fun _ => ClientSound ext) := by
  have hothers : Triple (fun s => (∀ d bytes, s.files d = some bytes → ext.blake3 bytes = d) ∧
      (∀ d n, s.chunks.get? d = some n → (s.files d).isSome = true) ∧
      (∀ d bytes, s.directories.get? d = some bytes → ext.blake3 bytes = d) ∧
      ∀ data i v, s.fileChunks.get? (ext.blake3 data, i) = some v → (chunkRefs ext data)[i]? = some v)
      (indexResponse fails ext response) _ _ := indexResponse_keeps
    (fun s digest dir hnames ⟨hfiles, hrows, hdirs, hchunks⟩ => ⟨hfiles, hrows, fun d bytes hget => ?_, hchunks⟩)
    (fun s file chunks i v hnames hv ⟨hfiles, hrows, hdirs, hchunks⟩ => ⟨hfiles, hrows, hdirs, fun data j w hget => ?_⟩)
  · have hgapless : Triple Gapless (indexResponse fails ext response) _ _ := indexResponse_gapless
    refine (hgapless.and hothers).conseq (fun s h => ⟨h.gapless, h.files, h.rows, h.directories, h.fileChunks⟩)
      (fun _ s h => ?_) (fun _ s h => ?_)
    · exact ⟨h.1, h.2.1, h.2.2.1, h.2.2.2.1, h.2.2.2.2⟩
    · exact ⟨h.1, h.2.1, h.2.2.1, h.2.2.2.1, h.2.2.2.2⟩
  · rcases Table.of_get?_insertOrIgnore hget with hold | ⟨rfl, rfl⟩
    · exact hdirs d bytes hold
    · exact hresponse.directory d dir hnames
  · obtain ⟨data', hdata', rfl⟩ := hresponse.file file chunks hnames
    rcases Table.of_get?_insertOrIgnore hget with hold | ⟨hkey, rfl⟩
    · exact hchunks data j w hold
    · obtain ⟨hfile, rfl⟩ := Prod.mk.inj hkey
      obtain rfl := laws.blake3_injective (hdata'.trans hfile.symm)
      exact hv

theorem storeChunkFile_sound {digest : δ} {data : Bytes} (hdigest : ext.blake3 data = digest) :
    Triple (ClientSound ext) (storeChunkFile fails digest data) (fun _ => ClientSound ext) (fun _ => ClientSound ext) := by
  have hwritten : ∀ s, ClientSound ext s → ClientSound ext { s with files := Function.update s.files digest (some data) } := by
    intro s h
    refine ⟨h.gapless, fun d bytes hget => ?_, fun d n hget => ?_, h.directories, h.fileChunks⟩
    · dsimp only at hget
      by_cases hd : d = digest
      · rw [hd, Function.update_self] at hget
        rw [hd, ← Option.some.inj hget, hdigest]
      · rw [Function.update_of_ne hd] at hget
        exact h.files d bytes hget
    · dsimp only
      by_cases hd : d = digest
      · rw [hd, Function.update_self]
        rfl
      · rw [Function.update_of_ne hd]
        exact h.rows d n hget
  refine .bind (.get (Q := fun store s => s = store ∧ ClientSound ext s) fun s h => ⟨rfl, h⟩) fun store => ?_
  cases store.files digest with
  | some old => exact .pure fun s h => h.2
  | none =>
    refine .bind (performCall_on fun s h => h.2) fun _ => .bind (R := fun _ s => ClientSound ext s ∧ (s.files digest).isSome = true) ?_ fun _ =>
      .bind (performCall_on fun s h => h.1) fun _ => ?_
    · refine .modify fun s h => ⟨hwritten s h.2, ?_⟩
      dsimp only
      rw [Function.update_self]
      rfl
    · refine .modify fun s h => ⟨h.1.gapless, h.1.files, fun d n hget => ?_, h.1.directories, h.1.fileChunks⟩
      rcases Table.of_get?_insertOrIgnore hget with hold | ⟨rfl, -⟩
      · exact h.1.rows d n hold
      · exact h.2

/-! ## Evicting -/

/-- No call fails between the first file that an eviction removes and its commit.
A later failure would bring the rows back and not the files. -/
def Commits (fails : Call δ → Bool) : Prop :=
  (∀ d, fails (.chunkReferenced d) = false) ∧ (∀ d, fails (.deleteChunk d) = false) ∧ ∀ hash, fails (.commit hash) = false

omit [DecidableEq δ] in
theorem performCall_returns {call : Call δ} (h : fails call = false) {I : ChunkStore δ → Prop} {E : CasError δ → ChunkStore δ → Prop} :
    Triple I (performCall fails call) (fun _ => I) E := by
  unfold performCall
  rw [h]
  exact .pure fun _ hs => hs

theorem ClientSound.withoutFile {s : ChunkStore δ} (h : ClientSound ext s) (file : δ) :
    ClientSound ext { s with fileChunks := s.fileChunks.deleteWhere fun key _ => key.1 = file } := by
  have hget : ∀ f i, (s.fileChunks.deleteWhere fun key _ => decide (key.1 = file)).get? (f, i) =
      if f = file then none else s.fileChunks.get? (f, i) := by
    intro f i
    by_cases hf : f = file
    · rw [if_pos hf]
      exact Table.get?_deleteWhere_of_pos fun _ => decide_eq_true hf
    · rw [if_neg hf]
      exact Table.get?_deleteWhere_of_neg fun _ => decide_eq_false hf
  refine ⟨fun f => ?_, h.files, h.rows, h.directories, fun data i v hv => ?_⟩
  · by_cases hf : f = file
    · exact ⟨[], fun i => by rw [hget, if_pos hf]; rfl⟩
    · obtain ⟨l, hl⟩ := h.gapless f
      exact ⟨l, fun i => by rw [hget, if_neg hf]; exact hl i⟩
  · rw [hget] at hv
    exact h.fileChunks data i v (Option.ite_none_left_eq_some.mp hv).2

theorem dropOrphan_sound (hcommits : Commits fails) (n : Nat) (c : δ) :
    Triple (ClientSound ext) (dropOrphan fails n c) (fun _ => ClientSound ext) (fun _ _ => False) := by
  refine .bind (performCall_returns (hcommits.1 c)) fun _ => .bind (.get (Q := fun store s => s = store ∧ ClientSound ext s)
    fun s h => ⟨rfl, h⟩) fun store => ?_
  split
  · exact .pure fun s h => h.2
  · refine .bind (performCall_returns (hcommits.2.1 c)) fun _ => .bind (R := fun _ => ClientSound ext) (fun s h => ?_) fun _ => .pure fun _ h => h
    obtain ⟨rfl, h⟩ := h
    refine ⟨h.gapless, fun d bytes hget => ?_, fun d m hget => ?_, h.directories, h.fileChunks⟩
    · dsimp only at hget
      split at hget
      · exact h.files d bytes hget
      · by_cases hd : d = c
        · rw [hd, Function.update_self] at hget
          cases hget
        · rw [Function.update_of_ne hd] at hget
          exact h.files d bytes hget
    · rw [Table.get?_delete] at hget
      obtain ⟨hd, hget⟩ := Option.ite_none_left_eq_some.mp hget
      dsimp only
      split
      · exact h.rows d m hget
      · rw [Function.update_of_ne hd]
        exact h.rows d m hget

theorem evictCachedPath_sound (hcommits : Commits fails) (hash : String) (totalFreed : Nat) :
    Triple (ClientSound ext) (evictCachedPath fails ext hash totalFreed) (fun _ => ClientSound ext) (fun _ => ClientSound ext) := by
  intro s₀ hs₀
  -- until the first chunk is dropped, all files are still there
  let J : ChunkStore δ → Prop := fun s => ClientSound ext s ∧ s.files = s₀.files
  have hundo : ∀ s : ChunkStore δ, s.files = s₀.files → ClientSound ext { s₀ with files := s.files } := fun s h => h ▸ hs₀
  have hcall : ∀ call, Triple J (performCall fails call) (fun _ => J) fun _ s => ClientSound ext { s₀ with files := s.files } :=
    fun call => performCall_on fun s h => hundo s h.2
  have hfiles : ∀ fileDigests : List δ, Triple J (fileDigests.foldlM (chunksOfEvicted fails hash) []) (fun _ => J)
      fun _ s => ClientSound ext { s₀ with files := s.files } := by
    refine fun fileDigests => .foldlM _ _ fun digests file _ => .bind (hcall _) fun _ => .bind (.get (Q := fun _ => J) fun s h => h) fun store =>
      .bind (hcall _) fun _ => ?_
    split
    · exact .bind (hcall _) fun _ => .bind (R := fun _ => J) (.modify fun s h => ⟨h.1.withoutFile file, h.2⟩) fun _ => .pure fun s h => h
    · exact .pure fun s h => h
  have hchunks : ∀ chunkDigests : List δ, Triple J (chunkDigests.foldlM (dropOrphan fails) totalFreed) (fun _ => ClientSound ext)
      fun _ s => ClientSound ext { s₀ with files := s.files } := fun chunkDigests =>
    (Triple.foldlM _ _ fun n c _ => dropOrphan_sound hcommits n c).conseq (fun s h => h.1) (fun _ s h => h) fun _ _ h => h.elim
  have hrest : ∀ fileDigests, Triple J (removePath fails hash totalFreed fileDigests) (fun _ => ClientSound ext)
      fun _ s => ClientSound ext { s₀ with files := s.files } := by
    refine fun fileDigests => .bind (hcall _) fun _ => .bind (R := fun _ => J) (.modify fun s h => ⟨?_, h.2⟩) fun _ =>
      .bind (hfiles _) fun chunkDigests => .bind (hchunks _) fun _ => .bind (performCall_returns (hcommits.2.2 hash)) fun _ => .pure fun _ h => h
    exact ⟨h.1.gapless, h.1.files, h.1.rows, h.1.directories, h.1.fileChunks⟩
  unfold evictCachedPath
  dsimp only
  generalize hbody : (Bind.bind _ _ : ChunkM δ Nat) = body
  have hkeeps : Triple J body (fun _ => ClientSound ext) fun _ s => ClientSound ext { s₀ with files := s.files } := by
    rw [← hbody]
    refine .bind (hcall _) fun _ => .bind (.get (Q := fun _ => J) fun s h => h) fun store => ?_
    split
    · exact .pure fun s h => h.1
    · split
      · exact .bind (.pure fun s h => h) hrest
      · refine .bind (fun s h => ?_) hrest
        cases hcollect : collectFileDigests fails ext store store.depth _ [] with
        | ok fileDigests => exact h
        | error e => exact hundo s h.2
  have hrun := hkeeps s₀ ⟨hs₀, rfl⟩
  cases hresult : body s₀ with
  | ok freed s => rw [hresult] at hrun; exact hrun
  | error e s => rw [hresult] at hrun; exact hrun

theorem evictToSize_sound (hcommits : Commits fails) (targetBytes : Nat) :
    Triple (ClientSound ext) (evictToSize fails ext targetBytes) (fun _ => ClientSound ext) (fun _ => ClientSound ext) := by
  refine .bind (performCall_on fun _ h => h) fun _ => .bind (.get (Q := fun _ => ClientSound ext) fun _ h => h) fun store => ?_
  dsimp only
  split
  · exact .pure fun _ h => h
  · refine .bind (performCall_on fun _ h => h) fun _ => .foldlM _ _ fun totalFreed hash _ => ?_
    split
    · exact .pure fun _ h => h
    · exact evictCachedPath_sound hcommits hash totalFreed

/-! ## A pull keeps it -/

section
variable {α : Type} {I : ChunkStore δ → Prop} {m : ChunkM δ α}

omit [DecidableEq δ] in
theorem onStore_keeps (h : Triple I m (fun _ => I) (fun _ => I)) :
    Triple (fun client => I client.store) (onStore m) (fun _ client => I client.store) (fun _ client => I client.store) := by
  intro client hclient
  have hm := h client.store hclient
  unfold onStore
  cases hrun : m client.store with
  | ok a store => rw [hrun] at hm; exact hm
  | error e store => rw [hrun] at hm; exact hm

omit [DecidableEq δ] in
theorem ignoring_keeps (h : Triple I m (fun _ => I) (fun _ => I)) :
    Triple (fun client => I client.store) (ignoring m) (fun _ client => I client.store) (fun _ client => I client.store) := by
  intro client hclient
  have hm := h client.store hclient
  unfold ignoring
  cases hrun : m client.store with
  | ok a store => rw [hrun] at hm; exact hm
  | error e store =>
    rw [hrun] at hm
    cases e <;> exact hm

omit [DecidableEq δ] in
theorem onStore_performCall_keeps (call : Call δ) :
    Triple (fun client => I client.store) (onStore (performCall fails call)) (fun _ client => I client.store) (fun _ client => I client.store) :=
  onStore_keeps (performCall_on fun _ h => h)

omit [DecidableEq δ] in
theorem write_keeps (path : String) (bytes : Bytes) :
    Triple (fun client => I client.store) (write fails path bytes) (fun _ client => I client.store) (fun _ client => I client.store) :=
  .bind (onStore_performCall_keeps _) fun _ => .modify fun _ h => h

theorem stageMapping_keeps (available : List ManifestEntry) (mapping : CaPathMapping) :
    Triple (fun client => I client.store) (stageMapping ext fails available mapping) (fun _ client => I client.store)
      (fun _ client => I client.store) := by
  unfold stageMapping
  split
  · exact .pure fun _ h => h
  · split
    · exact .pure fun _ h => h
    · refine .bind (onStore_performCall_keeps _) fun _ => .bind (.get (Q := fun _ client => I client.store) fun _ h => h) fun client => ?_
      split
      · exact .throw fun _ h => h
      · exact .pure fun _ h => h
      · dsimp only
        split
        · exact .pure fun _ h => h
        · exact .bind (write_keeps _ _) fun _ => .bind (write_keeps _ _) fun _ => .pure fun _ h => h

theorem stageMappings_keeps (available : List ManifestEntry) : ∀ mappings : List CaPathMapping,
    Triple (fun client => I client.store) (stageMappings ext fails available mappings) (fun _ client => I client.store)
      (fun _ client => I client.store)
  | [] => .pure fun _ h => h
  | mapping :: mappings => .bind (stageMapping_keeps available mapping) fun _ => .bind (stageMappings_keeps available mappings) fun _ =>
      .pure fun _ h => h

end

variable {peers : Peers δ}

omit [DecidableEq δ] in
/-- A download is kept only under its own digest. -/
theorem downloadChunk_digest (laws : ext.Laws) {chunk : ChunkDownload} {digest : δ} {data : Bytes}
    (h : downloadChunk ext peers chunk = some (digest, data)) : ext.blake3 data = digest := by
  unfold downloadChunk at h
  dsimp only at h
  split at h
  · cases h
  · split at h
    · cases h
    next hexpected =>
      rw [← not_not.mp hexpected, laws.tryFrom_toVec] at h
      cases h
      rfl

/-- What the server says may be old by the time the chunks are fetched. -/
theorem fetchResponse_sound (laws : ext.Laws) (hpeers : ∀ want haveHashes haveChunks response,
    peers.negotiateChunks want haveHashes haveChunks = .ok response → Truthful ext response) (want haveHashes : List String) :
    Triple (fun client => ClientSound ext client.store) (fetchResponse ext fails peers want haveHashes)
      (fun _ client => ClientSound ext client.store) (fun _ client => ClientSound ext client.store) := by
  refine .bind (onStore_performCall_keeps _) fun _ => .bind (onStore_keeps fun store h => ?_) fun haveChunks => ?_
  · cases store.allChunkDigests fails <;> exact h
  · split
    · exact .pure fun _ h => h
    · exact .throw fun _ h => h
    next response hresponse =>
      split
      · exact .pure fun _ h => h
      · refine .bind (onStore_keeps (indexResponse_sound laws (hpeers _ _ _ _ hresponse))) fun _ => .bind (.forM _ fun result hresult => ?_) fun _ => ?_
        · cases result with
          | none => exact .pure fun _ h => h
          | some downloaded =>
            obtain ⟨chunk, -, hchunk⟩ := List.mem_map.mp hresult
            exact onStore_keeps (storeChunkFile_sound (downloadChunk_digest laws hchunk))
        · split
          · exact .pure fun _ h => h
          · exact .pure fun _ h => h

theorem casPull_sound (laws : ext.Laws) (hcommits : Commits fails) (hpeers : ∀ want haveHashes haveChunks response,
    peers.negotiateChunks want haveHashes haveChunks = .ok response → Truthful ext response) (now : Nat) (want haveHashes : List String)
    (available : List ManifestEntry) : Triple (fun client => ClientSound ext client.store)
      (casPull ext fails peers now want haveHashes available) (fun _ client => ClientSound ext client.store)
      (fun _ client => ClientSound ext client.store) := by
  refine .bind (fetchResponse_sound laws hpeers want haveHashes) fun fetched => ?_
  split
  · exact .pure fun _ h => h
  next response =>
    refine .bind (.bind (onStore_performCall_keeps _) fun _ => .bind (.modify fun _ h => h) fun _ => write_keeps _ _) fun _ =>
      .bind (stageMappings_keeps available _) fun reassembled => ?_
    split
    · exact .pure fun _ h => h
    · refine .bind (.bind (.get (Q := fun _ client => ClientSound ext client.store) fun _ h => h) fun client => ?_) fun _ => .pure fun _ h => h
      have hrest : Triple (fun client => ClientSound ext client.store) (do
          response.pathMappings.forM (recordMapping ext fails now)
          ignoring (evictToSize fails ext (DEFAULT_MAX_CACHE_BYTES * 4 / 5)))
          (fun _ client => ClientSound ext client.store) (fun _ client => ClientSound ext client.store) := by
        refine .bind (.forM _ fun mapping _ => ?_) fun _ => ignoring_keeps (evictToSize_sound hcommits _)
        unfold recordMapping
        split
        · refine ignoring_keeps (.bind (performCall_on fun _ h => h) fun _ => .modify fun s h => ?_)
          exact ⟨h.gapless, h.files, h.rows, h.directories, h.fileChunks⟩
        · exact .pure fun _ h => h
      dsimp only
      split
      · exact hrest
      · exact .bind (.throw fun _ h => h) fun _ => hrest

end Ekapkgs
