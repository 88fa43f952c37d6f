import Ekapkgs.PullRuns

/-!
# What a pull gives

Uploads, evictions and pulls in any order, with pulls whose calls fail and whose
downloads arrive damaged. A pull that nothing disturbs then leaves the client
with every wanted path: it writes the NAR that the server serves.
-/

namespace Ekapkgs
open Keyed Fallible Runs

variable {δ : Type} [DecidableEq δ] (ext : Ext δ) (level : Int)

/-- A pull as it goes: which calls fail, what the URLs give, and what is asked for. -/
structure Pull (δ : Type) where
  fails : Call δ → Bool
  newFilter : Nat → BloomFilter
  get : String → Option Bytes
  arrivals : (chunks : List ChunkDownload) → {arrived : List ChunkDownload // arrived.Perm chunks}
  importFromLocalCache : List (String × Bytes) → Bool
  now : Nat
  want : List String
  haveHashes : List String
  available : List ManifestEntry

/-- The server answers the negotiation; a chunk may be gone or damaged when it is fetched. -/
def Pull.peers (p : Pull δ) (st : Store δ) : Peers δ :=
  { storePeers ext p.newFilter st p.arrivals p.importFromLocalCache with get := p.get }

structure Pulling (δ : Type) where
  server : Served δ
  client : ChunkStore δ

def Pulling.init : Pulling δ := ⟨.init, .empty⟩

inductive PullEvent (δ : Type) where
  | serve (op : StoreOp)
  | pull (p : Pull δ)

def PullEvent.Commits : PullEvent δ → Prop
  | .serve _ => True
  | .pull p => Ekapkgs.Commits p.fails

def pullStep (s : Pulling δ) : PullEvent δ → Pulling δ → Prop
  | .serve op, s' => serveStep ext level s.server op s'.server ∧ s'.client = s.client
  | .pull p, s' => s'.server = s.server ∧ s'.client =
      (finalState (casPull ext p.fails (p.peers ext s.server.store) p.now p.want p.haveHashes p.available ⟨s.client, []⟩)).store

variable {ext level}

/-! ## Every run -/

theorem storePeers_truthful (laws : ext.Laws) {st : Store δ} {nars : String → Option NarNode} (h : GcInv ext st nars)
    (newFilter : Nat → BloomFilter) (arrivals : (chunks : List ChunkDownload) → {arrived : List ChunkDownload // arrived.Perm chunks})
    (importFromLocalCache : List (String × Bytes) → Bool) {want haveHashes : List String} {haveChunks : List δ} {response : ChunkNegotiateResponse}
    (hresponse : (storePeers ext newFilter st arrivals importFromLocalCache).negotiateChunks want haveHashes haveChunks = .ok response) :
    Truthful ext response := by
  unfold storePeers at hresponse
  dsimp only at hresponse
  split at hresponse
  next answer st' hrun =>
    cases hresponse
    exact negotiateChunks_truthful laws (h.storedTrees laws) h.serving hrun
  next => cases hresponse

structure PullInv (ext : Ext δ) (s : Pulling δ) : Prop where
  server : GcInv ext s.server.store s.server.nars
  client : ClientSound ext s.client

theorem pullStep_inv (laws : ext.Laws) {s s' : Pulling δ} {e : PullEvent δ} (h : PullInv ext s) (hcommits : e.Commits)
    (hstep : pullStep ext level s e s') : PullInv ext s' := by
  cases e with
  | serve op =>
    obtain ⟨hserve, hclient⟩ := hstep
    exact ⟨(serveStep_gcInv laws h.server hserve).1, hclient ▸ h.client⟩
  | pull p =>
    obtain ⟨hserver, hclient⟩ := hstep
    refine ⟨hserver ▸ h.server, ?_⟩
    have hpeers : ∀ want haveHashes haveChunks response,
        (p.peers ext s.server.store).negotiateChunks want haveHashes haveChunks = .ok response → Truthful ext response :=
      fun _ _ _ _ hresponse => storePeers_truthful laws h.server p.newFilter p.arrivals p.importFromLocalCache hresponse
    have hpull := casPull_sound laws hcommits hpeers p.now p.want p.haveHashes p.available
    rw [hclient]
    cases hrun : casPull ext p.fails (p.peers ext s.server.store) p.now p.want p.haveHashes p.available ⟨s.client, []⟩ with
    | ok pulled client => exact hpull.ok_of h.client hrun
    | error e client => exact hpull.error_of h.client hrun

theorem pull_run_inv (laws : ext.Laws) {es : List (PullEvent δ)} {s : Pulling δ}
    (hrun : Run (guarded (pullStep ext level) fun _ e => e.Commits) .init es s) : PullInv ext s :=
  hrun.invariant (fun _ _ _ h hstep => pullStep_inv laws h hstep.1 hstep.2) ⟨gcInv_init, clientSound_empty⟩

/-! ## Calls that succeed -/

theorem indexResponse_returns (ext : Ext δ) (response : ChunkNegotiateResponse) (store : ChunkStore δ) :
    ∃ store', indexResponse (fun _ => false) ext response store = .ok () store' := by
  have hindex : Triple (fun _ => True) (indexResponse (fun _ => false) ext response) (fun _ _ => True) (fun _ _ => False) := by
    refine .bind (.forM _ fun dirData _ => ?_) fun _ => .forM _ fun mapping _ => ?_
    · unfold indexDirectory
      split
      · exact .bind (performCall_returns rfl) fun _ => .modify fun _ h => h
      · exact .pure fun _ h => h
    · cases hdigest : fieldDigest ext mapping.fileDigest with
      | none =>
        rw [indexFileChunks_of_none hdigest]
        exact .pure fun _ h => h
      | some file =>
        rw [indexFileChunks_of_digest hdigest]
        exact .forM _ fun chunk _ => .bind (performCall_returns rfl) fun _ => .modify fun _ h => h
  obtain ⟨_, store', hrun, -⟩ := hindex.returns (s := store) trivial
  exact ⟨store', hrun⟩

theorem indexResponse_files {response : ChunkNegotiateResponse} {s s' : ChunkStore δ}
    (hrun : indexResponse (fun _ => false) ext response s = .ok () s') : s'.files = s.files := by
  have hkeeps : Triple (fun u => u.files = s.files) (indexResponse (fun _ => false) ext response) _ _ :=
    indexResponse_keeps (fun _ _ _ _ h => h) fun _ _ _ _ _ _ _ h => h
  exact hkeeps.ok_of rfl hrun

/-- More files, and the same directories and chunk lists. -/
structure Adds (s s' : ChunkStore δ) : Prop where
  directories : s'.directories = s.directories
  fileChunks : s'.fileChunks = s.fileChunks
  files : ∀ d, (s.files d).isSome = true → (s'.files d).isSome = true

omit [DecidableEq δ] in
theorem Adds.refl (s : ChunkStore δ) : Adds s s := ⟨rfl, rfl, fun _ h => h⟩

omit [DecidableEq δ] in
theorem Adds.trans {s s' s'' : ChunkStore δ} (h : Adds s s') (h' : Adds s' s'') : Adds s s'' :=
  ⟨h'.directories.trans h.directories, h'.fileChunks.trans h.fileChunks, fun d hd => h'.files d (h.files d hd)⟩

theorem storeChunkFile_adds (digest : δ) (data : Bytes) (s : ChunkStore δ) :
    ∃ s', storeChunkFile (fun _ => false) digest data s = .ok () s' ∧ Adds s s' ∧ (s'.files digest).isSome = true := by
  unfold storeChunkFile
  rw [bind_get]
  cases hfile : s.files digest with
  | some old => exact ⟨s, rfl, .refl s, by rw [hfile]; rfl⟩
  | none =>
    refine ⟨_, rfl, ⟨rfl, rfl, fun d hd => ?_⟩, ?_⟩
    · show (Function.update s.files digest (some data) d).isSome = true
      by_cases heq : d = digest
      · rw [heq, Function.update_self]
        rfl
      · rwa [Function.update_of_ne heq]
    · show (Function.update s.files digest (some data) digest).isSome = true
      rw [Function.update_self]
      rfl

theorem storeDownloads_adds (results : List (Option (δ × Bytes))) (client : Client δ) :
    ∃ client', results.forM (storeDownloaded (fun _ => false)) client = .ok () client' ∧ Adds client.store client'.store ∧
      ∀ digest data, some (digest, data) ∈ results → (client'.store.files digest).isSome = true := by
  induction results generalizing client with
  | nil => exact ⟨client, rfl, .refl _, fun _ _ hin => absurd hin List.not_mem_nil⟩
  | cons result results ih =>
    cases result with
    | none =>
      obtain ⟨client', hrun, hadds, hall⟩ := ih client
      refine ⟨client', hrun, hadds, fun digest data hin => hall digest data ?_⟩
      simpa using hin
    | some downloaded =>
      obtain ⟨s₁, hstore, hadds₁, hfile⟩ := storeChunkFile_adds downloaded.1 downloaded.2 client.store
      have hfirst : storeDownloaded (fun _ => false) (some downloaded) client = .ok () { client with store := s₁ } := by
        show onStore (storeChunkFile (fun _ => false) downloaded.1 downloaded.2) client = _
        unfold onStore
        rw [hstore]
      obtain ⟨client', hrun, hadds, hall⟩ := ih { client with store := s₁ }
      refine ⟨client', (bind_of_ok hfirst).trans hrun, hadds₁.trans hadds, fun digest data hin => ?_⟩
      rcases List.mem_cons.mp hin with heq | hin
      · obtain rfl := Option.some.inj heq
        exact hadds.files digest hfile
      · exact hall digest data hin

/-- A fetch of which nothing fails. -/
theorem fetchResponse_whole {peers : Peers δ} {want haveHashes : List String} {response : ChunkNegotiateResponse} {client : ChunkStore δ}
    (hnegotiate : peers.negotiateChunks want haveHashes (client.chunks.rows.map Prod.fst) = .ok response) (hmapped : response.pathMappings ≠ [])
    (hdownloads : ∀ chunk ∈ response.missingChunks, (downloadChunk ext peers chunk).isSome = true) (staging : List (String × Bytes)) :
    ∃ indexed client', indexResponse (fun _ => false) ext response client = .ok () indexed ∧
      fetchResponse ext (fun _ => false) peers want haveHashes ⟨client, staging⟩ = .ok (some response) client' ∧ Adds indexed client'.store ∧
      ∀ chunk ∈ response.missingChunks, ∀ digest data, downloadChunk ext peers chunk = some (digest, data) →
        (client'.store.files digest).isSome = true := by
  obtain ⟨indexed, hindex⟩ := indexResponse_returns ext response client
  obtain ⟨client', hstore, hadds, hstored⟩ :=
    storeDownloads_adds ((peers.arrivals response.missingChunks).val.map (downloadChunk ext peers)) ⟨indexed, staging⟩
  have harrive {chunk : ChunkDownload} : chunk ∈ (peers.arrivals response.missingChunks).val ↔ chunk ∈ response.missingChunks :=
    (peers.arrivals response.missingChunks).property.mem_iff
  refine ⟨indexed, client', hindex, ?_, hadds, fun chunk hchunk digest data hdata => ?_⟩
  · have hindexed : onStore (indexResponse (fun _ => false) ext response) ⟨client, staging⟩ = .ok () ⟨indexed, staging⟩ := by
      unfold onStore
      rw [hindex]
    have hall : ((peers.arrivals response.missingChunks).val.map (downloadChunk ext peers)).any Option.isNone = false := by
      rw [List.any_eq_false]
      intro result hresult
      obtain ⟨chunk, hchunk, rfl⟩ := List.mem_map.mp hresult
      obtain ⟨downloaded, hdownload⟩ := Option.isSome_iff_exists.mp (hdownloads chunk (harrive.mp hchunk))
      rw [hdownload]
      exact Bool.false_ne_true
    unfold fetchResponse
    refine (bind_of_ok (onStore_performCall_done rfl)).trans
      (Eq.trans (bind_of_ok (a := client.chunks.rows.map Prod.fst) (t := ⟨client, staging⟩) rfl) ?_)
    rw [hnegotiate]
    dsimp only
    rw [List.isEmpty_eq_false_iff.mpr hmapped, if_neg Bool.false_ne_true]
    refine (bind_of_ok hindexed).trans ((bind_of_ok hstore).trans ?_)
    exact (congrFun (if_neg (ne_of_eq_of_ne hall Bool.false_ne_true)) client').trans rfl
  · exact hstored digest data (List.mem_map.mpr ⟨chunk, harrive.mpr hchunk, hdata⟩)

/-! ## What the client says it has -/

theorem haveCheck_chunkRequest (laws : ext.Laws) {newFilter : Nat → BloomFilter} {want haveHashes : List String} {listed : List δ}
    (hwant : want.length ≤ MAX_CHUNK_WANT) (hhave : haveHashes.length ≤ MAX_CHUNK_HAVE)
    (hfilter : ∀ filter, (chunkRequest ext newFilter want haveHashes listed).haveChunksBloom = some filter →
      filter.bits.length / 8 ≤ MAX_BLOOM_BYTES) :
    ∃ haveChunks, haveCheck ext (chunkRequest ext newFilter want haveHashes listed) = .ok haveChunks ∧
      ∀ d, haveChunks.contains ext d = true → d ∈ listed ∨ ∃ filter,
        (chunkRequest ext newFilter want haveHashes listed).haveChunksBloom = some filter ∧ filter.maybeContains (ext.toVec d) = true := by
  unfold chunkRequest at hfilter ⊢
  by_cases hbloom : BLOOM_THRESHOLD < listed.length
  · simp only [if_pos hbloom] at hfilter ⊢
    have hsize := hfilter _ rfl
    unfold haveCheck
    dsimp only
    rw [if_neg (Nat.not_lt.mpr hwant), if_neg (Nat.not_lt.mpr hhave),
      if_neg (show ¬ MAX_HAVE_CHUNKS < ([] : List B3Digest).length from Nat.not_lt_zero _), if_neg (Nat.not_lt.mpr hsize)]
    exact ⟨_, rfl, fun d hd => .inr ⟨_, rfl, hd⟩⟩
  · simp only [if_neg hbloom] at hfilter ⊢
    have hcount : (listed.map fun d => (⟨ext.toVec d⟩ : B3Digest)).length ≤ MAX_HAVE_CHUNKS := by
      rw [List.length_map]
      exact (Nat.not_lt.mp hbloom).trans (by decide)
    unfold haveCheck
    rw [if_neg (Nat.not_lt.mpr hwant), if_neg (Nat.not_lt.mpr hhave), if_neg (Nat.not_lt.mpr hcount)]
    refine ⟨_, rfl, fun d hd => .inl ?_⟩
    have hmem : d ∈ (listed.map fun d => (⟨ext.toVec d⟩ : B3Digest)).filterMap fun d => ext.tryFrom d.digest := List.contains_iff_mem.mp hd
    obtain ⟨digest, hdigest, hd⟩ := List.mem_filterMap.mp hmem
    obtain ⟨d', hd', rfl⟩ := List.mem_map.mp hdigest
    rw [laws.tryFrom_toVec] at hd
    exact Option.some.inj hd ▸ hd'

/-! ## A pull that nothing disturbs -/

theorem GcInv.holds (laws : ext.Laws) {st : Store δ} {nars : String → Option NarNode} (h : GcInv ext st nars) {hash : String} {t : NarNode}
    (hnars : nars hash = some t) : Holds ext st.db st.files id t := by
  refine ⟨h.directories hash t hnars, ((h.storedTrees laws).stored hash t hnars).fileChunks, fun data hdata x hx => ?_⟩
  obtain ⟨row, hrow⟩ := h.fileStored laws hnars hdata _ (List.mem_append_left _ (List.mem_map_of_mem hx))
  obtain ⟨y, hread, hy⟩ := h.chunks.readable _ row hrow
  rw [hread, laws.blake3_injective hy]
  rfl

theorem reassembles (laws : ext.Laws) {store : ChunkStore δ} {t : NarNode}
    (hdirs : ∀ entries, NarNode.directory entries ∈ t.postorder →
      store.directories.get? (dirDigest ext entries) = some (ext.encodeDirectory ⟨caEntries ext entries⟩))
    (hfiles : ∀ data ∈ t.files, store.fileChunks.ordered (ext.blake3 data) = chunkRefs ext data)
    (hchunks : ∀ x ∈ t.files.flatMap ext.chunks, store.files (ext.blake3 x) = some x) :
    writeNarStreaming ext (store.reader (fun _ => false) ext) store.depth (caNode ext t) ((), []) = .ok () ((), writeNar t.sorted) := by
  have hdepth : t.depth ≤ store.depth := by
    have htables : HasDirectories ext ⟨.empty, store.fileChunks, store.directories, .empty, .empty⟩ t := hdirs
    exact htables.depth_le laws
  obtain ⟨_, hrun, _⟩ := writeNarStreaming_serves laws hdepth (reader_serves laws hdirs hfiles hchunks) () [] trivial
  rw [hrun]
  show EStateM.Result.ok () ((), [] ++ writeNarWith id t.sorted) = _
  rw [List.nil_append, writeNarWith, writeNarObjWith_id]
  rfl

theorem entryByHash_of_reported {available : List ManifestEntry} {hash : String} (h : ReportedAvailable available hash) :
    ∃ entry, entryByHash available hash = some entry := by
  obtain ⟨entry, hmem, hhash⟩ := h
  exact Option.isSome_iff_exists.mp (List.find?_isSome.mpr ⟨entry, List.mem_reverse.mpr hmem, decide_eq_true hhash⟩)

/-- A chunk of a file below a wanted path. -/
def WantedChunk (ext : Ext δ) (nars : String → Option NarNode) (want : List String) (ref : δ × Nat) : Prop :=
  ∃ hash ∈ want, ∃ t, nars hash = some t ∧ ∃ data ∈ t.files, ref ∈ chunkRefs ext data

omit [DecidableEq δ] in
theorem chunk_of_ref {data : Bytes} {ref : δ × Nat} (h : ref ∈ chunkRefs ext data) : ∃ x ∈ ext.chunks data, ref.1 = ext.blake3 x := by
  have hmem : ref.1 ∈ (chunkRefs ext data).map Prod.fst := List.mem_map_of_mem h
  rw [chunkRefs_digests] at hmem
  obtain ⟨x, hx, heq⟩ := List.mem_map.mp hmem
  exact ⟨x, hx, heq.symm⟩

omit [DecidableEq δ] in
theorem ref_of_chunk {data x : Bytes} (h : x ∈ ext.chunks data) : ∃ ref ∈ chunkRefs ext data, ref.1 = ext.blake3 x := by
  have hmem : ext.blake3 x ∈ (ext.chunks data).map ext.blake3 := List.mem_map_of_mem h
  rw [← chunkRefs_digests] at hmem
  obtain ⟨ref, href, heq⟩ := List.mem_map.mp hmem
  exact ⟨ref, href, heq⟩

/-- The request is within the limits of the server, and what it says of the chunks
the client has does not take a wanted one for one of them. -/
structure PullFits (ext : Ext δ) (newFilter : Nat → BloomFilter) (client : ChunkStore δ) (nars : String → Option NarNode)
    (want haveHashes : List String) : Prop where
  wants : want.length ≤ MAX_CHUNK_WANT
  haves : haveHashes.length ≤ MAX_CHUNK_HAVE
  stored : ∃ hash ∈ want, ∃ t, nars hash = some t
  digests : ∀ ref, WantedChunk ext nars want ref → (ext.toVec ref.1).length = 32
  filter : ∀ filter, (chunkRequest ext newFilter want haveHashes (client.chunks.rows.map Prod.fst)).haveChunksBloom = some filter →
    filter.bits.length / 8 ≤ MAX_BLOOM_BYTES ∧
      ∀ ref, WantedChunk ext nars want ref → filter.maybeContains (ext.toVec ref.1) = true → client.chunks.contains ref.1 = true

section
variable {st : Store δ} {nars : String → Option NarNode} {newFilter : Nat → BloomFilter} {want haveHashes : List String}
  {arrivals : (chunks : List ChunkDownload) → {arrived : List ChunkDownload // arrived.Perm chunks}}
  {importFromLocalCache : List (String × Bytes) → Bool}

theorem downloadChunk_wanted (laws : ext.Laws) (h : GcInv ext st nars) {ref : δ × Nat} (hwanted : WantedChunk ext nars want ref)
    (hlength : (ext.toVec ref.1).length = 32) : ∃ x, downloadChunk ext (storePeers ext newFilter st arrivals importFromLocalCache)
      (chunkDownload (chunkMeta ext ref)) = some (ref.1, x) := by
  obtain ⟨hash, -, t, hnars, data, hdata, href⟩ := hwanted
  obtain ⟨x, hx, hdigest⟩ := chunk_of_ref href
  have hread : readStored ext st.db st.files ref.1 = .ok (some x) := hdigest ▸ (h.holds laws hnars).chunks data hdata x hx
  have hget : (storePeers ext newFilter st arrivals importFromLocalCache).get (chunkDownload (chunkMeta ext ref)).url = some x :=
    getChunkUrl_serves laws hlength h.quiet hread
  have hexpected : ((chunkDownload (chunkMeta ext ref)).digest.map B3Digest.digest).getD [] = ext.toVec ref.1 := rfl
  refine ⟨x, ?_⟩
  unfold downloadChunk
  rw [hget]
  dsimp only
  rw [hexpected, if_neg (not_not.mpr (congrArg ext.toVec hdigest.symm)), laws.tryFrom_toVec]
  rfl

/-- What the client says it has, it has, and the rest is downloaded. -/
theorem wanted_present (laws : ext.Laws) (h : GcInv ext st nars) {client indexed store : ChunkStore δ} (hclient : ClientSound ext client)
    (hfits : PullFits ext newFilter client nars want haveHashes) {haveChunks : ChunkHaveCheck δ} {response : ChunkNegotiateResponse}
    (hclaims : ∀ d, haveChunks.contains ext d = true → d ∈ client.chunks.rows.map Prod.fst ∨ ∃ filter,
      (chunkRequest ext newFilter want haveHashes (client.chunks.rows.map Prod.fst)).haveChunksBloom = some filter ∧
        filter.maybeContains (ext.toVec d) = true)
    (hanswers : Answers ext haveChunks nars want response) (hindex : indexResponse (fun _ => false) ext response client = .ok () indexed)
    (hadds : Adds indexed store) (hdownloads : ∀ chunk ∈ response.missingChunks, ∀ digest data,
      downloadChunk ext (storePeers ext newFilter st arrivals importFromLocalCache) chunk = some (digest, data) →
        (store.files digest).isSome = true) {ref : δ × Nat} (hwanted : WantedChunk ext nars want ref) : (store.files ref.1).isSome = true := by
  cases hhave : haveChunks.contains ext ref.1 with
  | true =>
    have hlisted : ref.1 ∈ client.chunks.rows.map Prod.fst := by
      rcases hclaims ref.1 hhave with hlisted | ⟨filter, hfilter, hmaybe⟩
      · exact hlisted
      · exact Table.contains_iff_mem.mp ((hfits.filter filter hfilter).2 ref hwanted hmaybe)
    obtain ⟨n, hrow⟩ := Table.mem_keys_iff.mp hlisted
    refine hadds.files _ ?_
    rw [indexResponse_files hindex]
    exact hclient.rows _ n hrow
  | false =>
    obtain ⟨x, hx⟩ := downloadChunk_wanted laws h hwanted (hfits.digests ref hwanted)
    obtain ⟨hash, hin, t, hnars, data, hdata, href⟩ := hwanted
    exact hdownloads _ (hanswers.missing hash hin t hnars data hdata ref href hhave) ref.1 x hx

theorem pull_whole (laws : ext.Laws) (h : GcInv ext st nars) {client : ChunkStore δ} (hclient : ClientSound ext client)
    (hfits : PullFits ext newFilter client nars want haveHashes) (staging : List (String × Bytes)) :
    ∃ response client', fetchResponse ext (fun _ => false) (storePeers ext newFilter st arrivals importFromLocalCache) want haveHashes
        ⟨client, staging⟩ = .ok (some response) client' ∧
      ∀ hash ∈ want, ∀ t, nars hash = some t → (⟨hash, some (caNode ext t)⟩ : CaPathMapping) ∈ response.pathMappings ∧
        writeNarStreaming ext (client'.store.reader (fun _ => false) ext) client'.store.depth (caNode ext t) ((), []) =
          .ok () ((), writeNar t.sorted) := by
  obtain ⟨haveChunks, hcheck, hclaims⟩ := haveCheck_chunkRequest laws hfits.wants hfits.haves fun filter hfilter =>
    (hfits.filter filter hfilter).1
  obtain ⟨answer, st', hanswer, hanswers⟩ := negotiateChunks_answers laws (h.storedTrees laws) hcheck h.serving
  have hwantOf : (chunkRequest ext newFilter want haveHashes (client.chunks.rows.map Prod.fst)).want = want := by
    unfold chunkRequest
    split <;> rfl
  rw [hwantOf] at hanswers
  have hnegotiate : (storePeers ext newFilter st arrivals importFromLocalCache).negotiateChunks want haveHashes
      (client.chunks.rows.map Prod.fst) = .ok answer.toChunkNegotiateResponse := by
    unfold storePeers
    dsimp only
    rw [hanswer]
  have hmapped : answer.pathMappings ≠ [] := by
    obtain ⟨hash, hin, t, hnars⟩ := hfits.stored
    exact List.ne_nil_of_mem (hanswers.mapped hash hin t hnars)
  have hdownloads : ∀ chunk ∈ answer.missingChunks,
      (downloadChunk ext (storePeers ext newFilter st arrivals importFromLocalCache) chunk).isSome = true := by
    intro chunk hchunk
    obtain ⟨hash, hin, t, hnars, data, hdata, ref, href, rfl⟩ := hanswers.wanted chunk hchunk
    have hwanted : WantedChunk ext nars want ref := ⟨hash, hin, t, hnars, data, hdata, href⟩
    obtain ⟨x, hx⟩ := downloadChunk_wanted laws h hwanted (hfits.digests ref hwanted)
    rw [hx]
    rfl
  obtain ⟨indexed, client', hindex, hfetch, hadds, hstored⟩ := fetchResponse_whole hnegotiate hmapped hdownloads staging
  have hsound : ClientSound ext client'.store :=
    (fetchResponse_sound laws (fun _ _ _ _ hresponse => storePeers_truthful laws h _ _ _ hresponse) want haveHashes).ok_of hclient hfetch
  refine ⟨_, client', hfetch, fun hash hin t hnars => ⟨hanswers.mapped hash hin t hnars, reassembles laws ?_ ?_ ?_⟩⟩
  · intro entries hentries
    obtain ⟨bytes, hbytes, hdigest⟩ := (hanswers.truthful.directories_get? hindex
      ((hanswers.honest hash hin t hnars).directories entries hentries)).mpr fun bytes hget => hclient.directories _ bytes hget
    rw [hadds.directories, hbytes, laws.blake3_injective hdigest]
  · intro data hdata
    rw [hadds.fileChunks]
    exact (hanswers.truthful.ordered_iff laws hindex hclient.gapless ((hanswers.honest hash hin t hnars).files data hdata)).mpr
      (hclient.ordered data)
  · intro x hx
    obtain ⟨data, hdata, hx⟩ := List.mem_flatMap.mp hx
    obtain ⟨ref, href, hdigest⟩ := ref_of_chunk hx
    obtain ⟨bytes, hbytes⟩ := Option.isSome_iff_exists.mp (wanted_present laws h hclient hfits hclaims hanswers hindex hadds hstored
      ⟨hash, hin, t, hnars, data, hdata, href⟩)
    rw [← hdigest, hbytes, laws.blake3_injective ((hsound.files _ bytes hbytes).trans hdigest)]

end

/-- After any run, a pull that nothing disturbs gives every wanted path that the
server has: the client writes the NAR that the server serves. A pull that reports
success has then delivered every path of a manifest that is right about the NARs. -/
theorem pull_after_run (laws : ext.Laws) {es : List (PullEvent δ)} {s : Pulling δ}
    (hrun : Run (guarded (pullStep ext level) fun _ e => e.Commits) .init es s) (newFilter : Nat → BloomFilter)
    (arrivals : (chunks : List ChunkDownload) → {arrived : List ChunkDownload // arrived.Perm chunks})
    (importFromLocalCache : List (String × Bytes) → Bool) (want haveHashes : List String) (staging : List (String × Bytes))
    (hfits : PullFits ext newFilter s.client s.server.nars want haveHashes) :
    (∃ response client', fetchResponse ext (fun _ => false) (storePeers ext newFilter s.server.store arrivals importFromLocalCache)
        want haveHashes ⟨s.client, staging⟩ = .ok (some response) client' ∧
      ∀ hash ∈ want, ∀ t, s.server.nars hash = some t → (⟨hash, some (caNode ext t)⟩ : CaPathMapping) ∈ response.pathMappings ∧
        writeNarStreaming ext (client'.store.reader (fun _ => false) ext) client'.store.depth (caNode ext t) ((), []) =
          .ok () ((), writeNar t.sorted) ∧ Downloads ext s.server.store hash (writeNar t.sorted)) ∧
    ∀ now available, (∀ entry ∈ available, entry.hash ∈ want →
        ∃ t, s.server.nars entry.hash = some t ∧ verifyNarHash ext (writeNar t.sorted) entry.narHash = true) →
      PullDelivers ext (fun _ => false) (storePeers ext newFilter s.server.store arrivals importFromLocalCache) now available want haveHashes
        ⟨s.client, staging⟩ := by
  have hinv := pull_run_inv laws hrun
  obtain ⟨response, client', hfetch, hpaths⟩ := pull_whole laws hinv.server hinv.client hfits staging
  refine ⟨⟨response, client', hfetch, fun hash hin t hnars => ?_⟩, fun now available hmanifest => ?_⟩
  · obtain ⟨hmapped, hwritten⟩ := hpaths hash hin t hnars
    exact ⟨hmapped, hwritten, gcInv_downloads laws hinv.server hnars⟩
  · rw [casPull_delivers_iff]
    intro response' client₁ hfetch' _ _ hash hin havail
    cases hfetch.symm.trans hfetch'
    obtain ⟨entry, hentry⟩ := entryByHash_of_reported havail
    obtain ⟨hmem, rfl⟩ := mem_entryByHash hentry
    obtain ⟨t, hnars, hverify⟩ := hmanifest entry hmem hin
    obtain ⟨hmapped, hwritten⟩ := hpaths entry.hash hin t hnars
    exact ⟨_, hmapped, rfl, entry, writeNar t.sorted, hentry, ⟨_, rfl, hwritten⟩, hverify⟩

/-! ## A file of one chunk -/

/-- Its content is as long as a digest. -/
def wideFile : NarNode := .regular false (List.replicate 32 1)

theorem wideFile_parse : parseNar (writeNar wideFile) = .ok wideFile := parseNar_writeNar (by decide +kernel)

def wideUpload : Pulling Bytes :=
  ⟨⟨uploaded sampleExt 3 0 "a" (writeNar wideFile) wideFile Store.empty, Function.update (fun _ => none) "a" (some wideFile)⟩, .empty⟩

theorem wideUpload_step : pullStep sampleExt 3 .init (.serve (.putNar 0 "nar/a.nar" (writeNar wideFile))) wideUpload := by
  have hstep := serveStep_putNar sampleExt_laws 3 (s := .init) gcInv_init 0 "nar/a.nar" wideFile_parse
  have hpath : hashOfFilePath "nar/a.nar" = "a" := by decide
  rw [hpath] at hstep
  exact ⟨hstep, rfl⟩

theorem wideUpload_fits : PullFits sampleExt (fun _ => .ofBits 64 1) wideUpload.client wideUpload.server.nars ["a"] [] where
  wants := by decide
  haves := by decide
  stored := ⟨"a", List.mem_singleton_self _, wideFile, rfl⟩
  digests ref := by
    rintro ⟨hash, hin, t, hnars, data, hdata, href⟩
    obtain rfl := List.mem_singleton.mp hin
    have hnars : some wideFile = some t := hnars
    obtain rfl := Option.some.inj hnars
    obtain rfl := List.mem_singleton.mp hdata
    have href : ref ∈ [((List.replicate 32 1 : Bytes), 32)] := href
    obtain rfl := List.mem_singleton.mp href
    rfl
  filter filter hfilter := by cases hfilter

/-- The client has nothing, and the server one file. -/
theorem pull_after_wideUpload : (∃ response client', fetchResponse sampleExt (fun _ => false)
      (storePeers sampleExt (fun _ => .ofBits 64 1) wideUpload.server.store (fun chunks => ⟨chunks, .refl _⟩) fun _ => true) ["a"] []
        ⟨.empty, []⟩ = .ok (some response) client' ∧
    writeNarStreaming sampleExt (client'.store.reader (fun _ => false) sampleExt) client'.store.depth (caNode sampleExt wideFile) ((), []) =
      .ok () ((), writeNar wideFile)) ∧
    PullDelivers sampleExt (fun _ => false)
      (storePeers sampleExt (fun _ => .ofBits 64 1) wideUpload.server.store (fun chunks => ⟨chunks, .refl _⟩) fun _ => true) 0
      [sampleManifest "a" (writeNar wideFile)] ["a"] [] ⟨.empty, []⟩ := by
  have hrun : Run (guarded (pullStep sampleExt 3) fun _ e => e.Commits) .init [.serve (.putNar 0 "nar/a.nar" (writeNar wideFile))] wideUpload :=
    .cons ⟨trivial, wideUpload_step⟩ (.nil _)
  obtain ⟨⟨response, client', hfetch, hpaths⟩, hdelivers⟩ := pull_after_run sampleExt_laws hrun
    (fun _ => .ofBits 64 1) (fun chunks => ⟨chunks, .refl _⟩) (fun _ => true) ["a"] [] [] wideUpload_fits
  refine ⟨⟨response, client', hfetch, (hpaths "a" (List.mem_singleton_self _) wideFile rfl).2.1⟩, hdelivers 0 _ fun entry hentry _ => ?_⟩
  obtain rfl := List.mem_singleton.mp hentry
  have hverify : verifyNarHash sampleExt (writeNar wideFile) ("sha256:" ++ hexEncode (writeNar wideFile)) = true := by
    unfold verifyNarHash
    rw [stripPrefix_append]
    exact decide_eq_true rfl
  exact ⟨wideFile, rfl, hverify⟩

end Ekapkgs
