import Ekapkgs.PushText

/-!
# When a push can be trusted

An attempt that finds no row uploads the NAR and then the narinfo, over whatever
requests fail. One that finds a row takes the path for uploaded, also where the row
is the placeholder that an earlier attempt left between its two uploads.
-/

namespace Ekapkgs
open Keyed Fallible Runs

variable {δ : Type} [DecidableEq δ] {ext : Ext δ} {level : Int} {sign : String → String} {token : Option String}
  {p : LocalPath} {t : NarNode}

/-! ## The chunks of a decomposition -/

def DecomposeResult.Fits (ext : Ext δ) (r : DecomposeResult δ) : Prop :=
  ∀ c ∈ r.chunks, ext.blake3 c.2 = c.1 ∧ c.2.length ≤ CHUNK_MAX

theorem fits_addChunk {r : DecomposeResult δ} (h : r.Fits ext) {data : Bytes} (hdata : data.length ≤ CHUNK_MAX) :
    (r.addChunk ext data).Fits ext := by
  unfold DecomposeResult.addChunk
  split
  · exact h
  · intro c hc
    rcases List.mem_append.mp hc with hc | hc
    · exact h c hc
    · rw [List.mem_singleton.mp hc]
      exact ⟨rfl, hdata⟩

theorem fits_foldl : ∀ (chunks : List Bytes) {r : DecomposeResult δ}, (∀ chunk ∈ chunks, chunk.length ≤ CHUNK_MAX) → r.Fits ext →
    (chunks.foldl (fun r chunk => r.addChunk ext chunk) r).Fits ext
  | [], _, _, h => h
  | chunk :: chunks, _, hchunks, h =>
    fits_foldl chunks (fun c hc => hchunks c (List.mem_cons_of_mem _ hc)) (fits_addChunk h (hchunks chunk (List.mem_cons_self ..)))

omit [DecidableEq δ] in
theorem chunks_le (laws : ext.Laws) (data : Bytes) : ∀ chunk ∈ ext.chunks data, chunk.length ≤ CHUNK_MAX := by
  intro chunk hchunk
  obtain ⟨c, hc, rfl⟩ := List.mem_map.mp hchunk
  rw [laws.chunk_length data c hc]
  exact laws.chunk_le data c hc

theorem fits_decomposeNode (laws : ext.Laws) (t : NarNode) : ∀ {r : DecomposeResult δ}, r.Fits ext → (decomposeNode ext t r).2.Fits ext := by
  induction t using NarNode.tree_induction with
  | regular executable data =>
    intro r h
    have hfold := fits_foldl (ext.chunks data) (chunks_le laws data) h
    rw [decomposeNode, decomposeFile]
    dsimp only
    split_ifs <;> exact hfold
  | symlink target => intro r h; rw [decomposeNode]; exact h
  | directory entries ih =>
    intro r h
    have hentries : ∀ (l : List (String × NarNode)) {r : DecomposeResult δ}, (∀ e ∈ l, e ∈ entries) → r.Fits ext →
        (decomposeEntries ext l r).2.Fits ext := by
      intro l
      induction l with
      | nil => intro r _ h; rw [decomposeEntries]; exact h
      | cons e l ihl =>
        intro r hl h
        rw [decomposeEntries]
        exact ihl (fun e he => hl e (List.mem_cons_of_mem _ he)) (ih e (hl e (List.mem_cons_self ..)) h)
    rw [decomposeNode]
    exact hentries entries (fun _ he => he) h

theorem fits_decomposeNar (laws : ext.Laws) (t : NarNode) : (decomposeNar ext t).2.Fits ext :=
  fits_decomposeNode laws t nofun

/-! ## The store under a push -/

variable {st : Store δ} {nars : String → Option NarNode}

theorem gcInv_storeChunk (laws : ext.Laws) (level : Int) (h : GcInv ext st nars) {x : Bytes} (hx : x.length ≤ CHUNK_MAX) :
    GcInv ext (Stmt.apply ext level st (.chunk x)) nars := by
  have hchunks : ChunksSound ext (st.db.withChunk ext level st.files x) (written ext level st.files x).1 := h.chunks.withChunk laws hx
  refine ⟨h.quiet, h.cache, ⟨h.rows.fileChunks, h.rows.directories⟩, hchunks, h.root, h.path, h.directories, h.files, ?_, h.listed⟩
  intro hash f hf
  obtain ⟨hnars, data, hdata, hstored⟩ := h.recorded hash f hf
  exact ⟨hnars, data, hdata, fun stmt hstmt => (Stmt.chunk x).apply_keeps_done (hstored stmt hstmt)⟩

theorem serveStep_rowsStored (laws : ext.Laws) {s s' : Served δ} {op : StoreOp} (h : RowsStored ext s.store)
    (hstep : serveStep ext level s op s') : RowsStored ext s'.store := by
  cases op with
  | putNar now filePath data =>
    obtain ⟨t, -, hreturn⟩ := Option.bind_eq_some_iff.mp hstep
    obtain ⟨b, st, hput, rfl⟩ := onReturn_eq_some.mp hreturn
    have hfinal : finalState (putNar ext level now filePath data s.store) = st := by rw [hput]; rfl
    rcases putNar_restores laws level h now filePath data with heq | ⟨t', -, hrestores⟩
    · rw [← hfinal, heq]; exact h
    · rw [← hfinal]; exact hrestores.stored
  | putNarinfo now hash content =>
    obtain ⟨b, st, hput, rfl⟩ := onReturn_eq_some.mp hstep
    have hfinal : finalState (putNarinfo ext now hash content s.store) = st := by rw [hput]; rfl
    dsimp only
    rcases putNarinfo_restores laws h now hash content with heq | ⟨ni, -, hrestores⟩
    · rw [← hfinal, heq]; exact h
    · rw [← hfinal]; exact hrestores.stored
  | evictPath hash =>
    obtain ⟨b, st, hevict, rfl⟩ := onReturn_eq_some.mp hstep
    have hfinal : finalState (evictPath hash s.store) = st := by rw [hevict]; rfl
    rw [← hfinal]
    exact (evictPath_stored h hash).1
  | storeChunkExternal data => cases hstep
  | restart => cases hstep; exact ⟨h.quiet, h.rows⟩

/-- What the server holds of the path. -/
structure PathHeld (ext : Ext δ) (p : LocalPath) (st : Store δ) (nar : Option NarNode) (info : Option NarInfo) : Prop where
  gc : ∃ nars, GcInv ext st nars ∧ nars p.hash = nar
  stored : RowsStored ext st
  info : storedInfo st p.hash = info

variable {nar : Option NarNode} {info : Option NarInfo}

theorem PathHeld.storeChunk (laws : ext.Laws) (level : Int) (h : PathHeld ext p st nar info) {x : Bytes} (hx : x.length ≤ CHUNK_MAX) :
    PathHeld ext p (Stmt.apply ext level st (.chunk x)) nar info := by
  obtain ⟨nars, hgc, hnar⟩ := h.gc
  exact ⟨⟨nars, gcInv_storeChunk laws level hgc hx, hnar⟩, ⟨h.stored.quiet, h.stored.rows⟩, h.info⟩

/-- The NAR is stored under the metadata there is, or under a placeholder. -/
theorem PathHeld.putNar (laws : ext.Laws) (level : Int) (hp : p.Dumped t) (h : PathHeld ext p st nar info) (now : Nat) : ∃ st' ni,
    Ekapkgs.putNar ext level now ("nar/" ++ p.narFile) p.narData st = .ok true st' ∧ PathHeld ext p st' (some t) (some ni) ∧
      (info = some ni ∨ info = none ∧ ni.isPlaceholder = true) := by
  obtain ⟨nars, hgc, -⟩ := h.gc
  have hhash : hashOfFilePath ("nar/" ++ p.narFile) = p.hash := hashOfFilePath_narFile hp.hash
  have hparse : parseNar p.narData = .ok t := by rw [hp.nar]; exact parseNar_writeNar (hp.nar ▸ hp.length)
  have hput := putNar_quiet laws level h.stored.quiet hgc.rows now ("nar/" ++ p.narFile) hparse
  rw [hhash] at hput
  have hgc' : GcInv ext (uploaded ext level now p.hash p.narData t st) (Function.update nars p.hash (some t)) :=
    gcInv_putNar laws hgc now p.hash p.narData t
  obtain ⟨-, hpaths, -, hfaults⟩ := ingested_frame ext level st t
  have hrow : (uploaded ext level now p.hash p.narData t st).db.casPaths =
      st.db.casPaths.insertOrReplace p.hash (pathRow ext now (narinfoFor ext st.db p.hash p.narData) (caNode ext t)) := by
    rw [← hpaths]; rfl
  have hquiet : (uploaded ext level now p.hash p.narData t st).faults = st.faults := hfaults
  have hrestores := h.stored.withRoot hquiet hrow
  refine ⟨_, _, hput, ⟨⟨_, hgc', Function.update_self ..⟩, hrestores.stored, hrestores.info⟩, ?_⟩
  cases hinfo : info with
  | none =>
    have hnone : storedInfo st p.hash = none := h.info.trans hinfo
    have hplaceholder : narinfoFor ext st.db p.hash p.narData = placeholderInfo ext p.hash p.narData :=
      congrArg (Option.getD · _) hnone
    right
    rw [hplaceholder]
    exact ⟨rfl, rfl⟩
  | some ni =>
    have hsome : storedInfo st p.hash = some ni := h.info.trans hinfo
    have hkept : narinfoFor ext st.db p.hash p.narData = ni := congrArg (Option.getD · _) hsome
    left
    rw [hkept, storedInfo_reloaded h.stored hsome]

/-- The metadata is stored under the root there is. -/
theorem PathHeld.putNarinfo (laws : ext.Laws) (hp : p.Dumped t) {sign : String → String} (hsign : ∀ text, OneLine (sign text))
    (h : PathHeld ext p st nar info) (now : Nat) : ∃ content st' ni,
    acceptNarinfo sign p.hash (asBytes p.narinfo) = some content ∧ Ekapkgs.putNarinfo ext now p.hash content st = .ok true st' ∧
      PathHeld ext p st' nar (some ni) ∧ p.Carried ni := by
  obtain ⟨nars, hgc, hnar⟩ := h.gc
  obtain ⟨signatures, hparse⟩ := hp.parse_signed hsign
  obtain ⟨root, hroot⟩ : ∃ root, CurrentRoot ext st.db p.hash root := by
    cases hrow : st.db.casPaths.get? p.hash with
    | none => exact ⟨placeholderRoot, .inl ⟨hrow, rfl⟩⟩
    | some row => exact ⟨_, .inr ⟨row, hrow, by rw [hgc.root p.hash row hrow]; exact laws.decode_encodeNode _⟩⟩
  have hput := putNarinfo_quiet h.stored.quiet hroot now hparse
  have hgc' := gcInv_withRoot laws hgc now (p.sent signatures) hroot
  have hrestores : Restores ext st { st with db := st.db.withRoot ext now p.hash (p.sent signatures) root } p.hash (p.sent signatures) :=
    h.stored.withRoot rfl rfl
  exact ⟨_, _, _, hp.acceptNarinfo sign, hput, ⟨⟨nars, hgc', hnar⟩, hrestores.stored, hrestores.info⟩, hp.carried ext signatures⟩

/-! ## What a request does -/

variable {α : Type}

theorem PathHeld.no_row (h : PathHeld ext p st nar none) : st.db.casPaths.contains p.hash = false := by
  rw [Table.contains_eq_isSome, Option.isSome_eq_false_iff]
  have hinfo := h.info
  unfold storedInfo at hinfo
  rw [Option.map_eq_none_iff] at hinfo
  rw [hinfo]; rfl

/-- The path is on the server, with its metadata or a placeholder. -/
def OnServer (ext : Ext δ) (p : LocalPath) (t : NarNode) (st : Store δ) (ni : NarInfo) : Prop :=
  PathHeld ext p st (some t) (some ni) ∧ (ni.isPlaceholder = true ∨ p.Carried ni)

theorem OnServer.of_carried {ni : NarInfo} (h : PathHeld ext p st (some t) (some ni)) (hni : p.Carried ni) : OnServer ext p t st ni :=
  ⟨h, .inr hni⟩

/-! The stages of an attempt that began without a row, which nothing has cached. -/

def CacheServer.Absent (ext : Ext δ) (p : LocalPath) (s : CacheServer δ) : Prop :=
  s.cache.get p.hash = none ∧ PathHeld ext p s.store none none

def CacheServer.Stored (ext : Ext δ) (p : LocalPath) (t : NarNode) (s : CacheServer δ) : Prop :=
  s.cache.get p.hash = none ∧ ∃ ni, OnServer ext p t s.store ni

def CacheServer.Complete (ext : Ext δ) (p : LocalPath) (t : NarNode) (s : CacheServer δ) : Prop :=
  s.cache.get p.hash = none ∧ ∃ ni, PathHeld ext p s.store (some t) (some ni) ∧ p.Carried ni

def CacheServer.Begun (ext : Ext δ) (p : LocalPath) (t : NarNode) (s : CacheServer δ) : Prop := s.Absent ext p ∨ s.Stored ext p t

theorem CacheServer.Complete.begun {s : CacheServer δ} (h : s.Complete ext p t) : s.Begun ext p t := by
  obtain ⟨hcache, ni, hheld, hni⟩ := h
  exact .inr ⟨hcache, ni, hheld, .inr hni⟩

omit [DecidableEq δ] in
theorem request_triple (handle : PushRequest → CacheServer δ → α × CacheServer δ) {I J : CacheServer δ → Prop}
    {R : α → CacheServer δ → Prop} (h : ∀ r s, I s → R (handle r s).1 (handle r s).2) (hI : ∀ s, I s → J s) (hR : ∀ a s, R a s → J s) :
    Triple (fun st => I st.server) (request handle) (fun a st => R a st.server) (fun _ st => J st.server) := by
  intro st hst
  unfold request
  cases hrequests : st.requests with
  | nil => exact hI _ hst
  | cons r requests =>
    dsimp only
    cases hfate : r.fate with
    | answered => exact h r st.server hst
    | unanswered => exact hR _ _ (h r st.server hst)
    | lost => exact hI _ hst

omit [DecidableEq δ] in
theorem orFailed_triple {m : PushM δ α} {P E : PushState δ → Prop} {Q : α → PushState δ → Prop}
    (h : Triple P m Q (fun _ => E)) : Triple P (orFailed m) (fun a st => match a with | some a => Q a st | none => E st) (fun _ => E) := by
  intro st hst
  have := h st hst
  unfold orFailed
  cases hm : m st with
  | ok a st' => rw [hm] at this; exact this
  | error e st' =>
    rw [hm] at this
    cases e <;> exact this

theorem putNarFile_stored (laws : ext.Laws) (hp : p.Dumped t) (r : PushRequest) {s : CacheServer δ} (h : s.Begun ext p t) :
    (putNarFile ext level token p.narFile p.narData r s).2.Begun ext p t ∧
      ((putNarFile ext level token p.narFile p.narData r s).1 = true →
        (putNarFile ext level token p.narFile p.narData r s).2.Stored ext p t) := by
  unfold putNarFile
  by_cases hauth : checkAuth r.writeTokens token = true
  · have haccept : acceptNar p.narFile = some ("nar/" ++ p.narFile) := if_pos (isValidNarFilename_of_storeHash hp.hash)
    simp only [hauth, Bool.not_true, Bool.false_eq_true, if_false, haccept]
    obtain ⟨nar, info, hcache, hheld, hinfo⟩ : ∃ nar info, s.cache.get p.hash = none ∧ PathHeld ext p s.store nar info ∧
        ∀ ni, info = some ni → ni.isPlaceholder = true ∨ p.Carried ni := by
      rcases h with ⟨hcache, hheld⟩ | ⟨hcache, ni, hheld, hni⟩
      · exact ⟨none, none, hcache, hheld, nofun⟩
      · refine ⟨some t, some ni, hcache, hheld, ?_⟩
        rintro _ ⟨⟩; exact hni
    obtain ⟨st', ni, hput, hheld', hni⟩ := hheld.putNar laws level hp r.now
    rw [hput]
    have hstored : ({ s with store := st' } : CacheServer δ).Stored ext p t :=
      ⟨hcache, ni, hheld', hni.elim (hinfo ni) fun hni => .inl hni.2⟩
    exact ⟨.inr hstored, fun _ => hstored⟩
  · simp only [Bool.not_eq_true] at hauth
    simp only [hauth, Bool.not_false, if_true]
    exact ⟨h, nofun⟩

theorem putNarinfoText_complete (laws : ext.Laws) (hp : p.Dumped t) (hsign : ∀ text, OneLine (sign text)) (r : PushRequest)
    {s : CacheServer δ} (h : s.Stored ext p t) :
    (putNarinfoText ext sign token p.hash (asBytes p.narinfo) r s).2.Begun ext p t ∧
      ((putNarinfoText ext sign token p.hash (asBytes p.narinfo) r s).1 = true →
        (putNarinfoText ext sign token p.hash (asBytes p.narinfo) r s).2.Complete ext p t) := by
  unfold putNarinfoText
  by_cases hauth : checkAuth r.writeTokens token = true
  · obtain ⟨hcache, ni, hheld, -⟩ := h
    obtain ⟨content, st', ni', haccept, hput, hheld', hni'⟩ := hheld.putNarinfo laws hp hsign r.now
    simp only [hauth, Bool.not_true, Bool.false_eq_true, if_false, haccept, hput]
    have hcomplete : ({ s with store := st' } : CacheServer δ).Complete ext p t := ⟨hcache, ni', hheld', hni'⟩
    exact ⟨hcomplete.begun, fun _ => hcomplete⟩
  · simp only [Bool.not_eq_true] at hauth
    simp only [hauth, Bool.not_false, if_true]
    exact ⟨.inr h, nofun⟩

/-- The NAR and then the narinfo complete a path, whatever is there. -/
theorem uploadPath_triple (laws : ext.Laws) (hp : p.Dumped t) (hsign : ∀ text, OneLine (sign text)) :
    Triple (fun st => st.server.Begun ext p t) (uploadPath ext level sign token p)
      (fun b st => st.server.Begun ext p t ∧ (b = true → st.server.Complete ext p t)) (fun _ st => st.server.Begun ext p t) := by
  have hnar := request_triple (putNarFile ext level token p.narFile p.narData)
    (R := fun b s => s.Begun ext p t ∧ (b = true → s.Stored ext p t)) (fun r s h => putNarFile_stored laws hp r h)
    (fun _ h => h) fun _ _ h => h.1
  have hnarinfo := request_triple (putNarinfoText ext sign token p.hash (asBytes p.narinfo))
    (R := fun b s => s.Begun ext p t ∧ (b = true → s.Complete ext p t)) (fun r s h => putNarinfoText_complete laws hp hsign r h)
    (fun _ h => Or.inr h) fun _ _ h => h.1
  refine Triple.bind hnar fun b => ?_
  cases b with
  | false => exact Triple.pure fun st h => ⟨h.1, nofun⟩
  | true => exact hnarinfo.pre fun st h => h.2 rfl

theorem putChunk_absent (laws : ext.Laws) (r : PushRequest) {s : CacheServer δ} (h : s.Absent ext p) {d : δ} {x : Bytes}
    (hx : x.length ≤ CHUNK_MAX) : (putChunk ext level token d x r s).2.Absent ext p := by
  unfold putChunk
  by_cases hauth : checkAuth r.writeTokens token = true
  · by_cases hdigest : ext.blake3 x = d
    · simp only [hauth, Bool.not_true, Bool.false_eq_true, if_false, hdigest, ne_eq, not_true_eq_false]
      unfold storeChunkExternal
      rw [storeChunk_quiet laws h.2.stored.quiet]
      exact ⟨h.1, h.2.storeChunk laws level hx⟩
    · simpa only [hauth, Bool.not_true, Bool.false_eq_true, if_false, ne_eq, hdigest, not_false_eq_true, if_true] using h
  · simp only [Bool.not_eq_true] at hauth
    simpa only [hauth, Bool.not_false, if_true] using h

theorem uploadChunks_triple (laws : ext.Laws) {chunks : List (δ × Bytes)} (hchunks : ∀ c ∈ chunks, c.2.length ≤ CHUNK_MAX) :
    ∀ missing : List B3Digest, Triple (fun st => st.server.Absent ext p) (uploadChunks ext level token chunks missing)
      (fun _ st => st.server.Absent ext p) (fun _ st => st.server.Absent ext p)
  | [] => Triple.pure fun _ h => h
  | digest :: missing => by
    unfold uploadChunks
    cases hfind : (ext.tryFrom digest.digest).bind fun d => chunks.find? fun c => c.1 = d with
    | none => exact uploadChunks_triple laws hchunks missing
    | some c =>
      obtain ⟨d, -, hc⟩ := Option.bind_eq_some_iff.mp hfind
      have hfits := hchunks c (List.mem_of_find?_eq_some hc)
      have hput := request_triple (putChunk ext level token c.1 c.2) (R := fun _ s => s.Absent ext p)
        (fun r s h => putChunk_absent laws r h hfits) (fun _ h => h) fun _ _ h => h
      refine Triple.bind hput fun b => ?_
      cases b with
      | false => exact Triple.pure fun _ h => h
      | true => exact uploadChunks_triple laws hchunks missing

theorem hasKey_quiet (hf : st.faults = []) (f : Filters) (key : StoreKey δ) :
    hasKey ext f key st = .ok (f.maybeContains ext key && st.db.hasRow key) st := by
  unfold hasKey
  cases f.maybeContains ext key
  · rfl
  · rw [if_pos rfl, query_quiet hf, Bool.true_and]

theorem missingChunks_quiet (hf : st.faults = []) (f : Filters) : ∀ digests : List B3Digest,
    ∃ missing, missingChunks ext f digests st = .ok missing st
  | [] => ⟨[], rfl⟩
  | digest :: digests => by
    obtain ⟨missing, hrest⟩ := missingChunks_quiet hf f digests
    unfold missingChunks
    cases ext.tryFrom digest.digest with
    | none => exact ⟨missing, hrest⟩
    | some d =>
      have hhas : (tryCatch (hasChunk ext f d) fun _ => pure false : CasM δ Bool) st =
          .ok (f.maybeContains ext (.chunk d) && st.db.hasRow (.chunk d)) st := by
        show EStateM.tryCatch _ _ st = _
        unfold EStateM.tryCatch hasChunk
        rw [hasKey_quiet hf]
      exact ⟨_, (bind_of_ok hhas).trans ((bind_of_ok hrest).trans rfl)⟩

/-- Nothing is there yet, so chunks are asked for. -/
theorem pushNegotiate_absent (f : List FileChunkMapping) (r : PushRequest) {s : CacheServer δ} (h : s.Absent ext p) :
    (pushNegotiate ext p.hash f r s).2.Absent ext p ∧
      ∀ response, (pushNegotiate ext p.hash f r s).1 = some response → response.alreadyExists = false := by
  have hhas : hasNarinfo ext r.filters p.hash s.store = .ok false s.store := by
    unfold hasNarinfo
    rw [hasKey_quiet h.2.stored.quiet]
    have hrow : s.store.db.hasRow (.path p.hash) = false := h.2.no_row
    rw [hrow, Bool.and_false]
  obtain ⟨missing, hmissing⟩ : ∃ missing, missingChunks ext r.filters (f.flatMap fun m => m.chunks.filterMap ChunkMeta.digest) s.store =
      .ok missing s.store := missingChunks_quiet h.2.stored.quiet r.filters _
  unfold pushNegotiate
  simp only [hhas, hmissing]
  refine ⟨h, ?_⟩
  rintro _ ⟨⟩; rfl

theorem tryCasPush_triple (laws : ext.Laws) (hp : p.Dumped t) (hsign : ∀ text, OneLine (sign text)) :
    Triple (fun st => st.server.Absent ext p) (tryCasPush ext level sign token p)
      (fun b st => st.server.Begun ext p t ∧ (b = true → st.server.Complete ext p t)) (fun _ st => st.server.Begun ext p t) := by
  unfold tryCasPush
  cases hparse : parseNar p.narData with
  | error e => exact Triple.throw fun _ h => .inl h
  | ok narNode =>
    dsimp only
    have hrequest := request_triple (pushNegotiate ext p.hash (decomposeNar ext narNode).2.fileChunkMappings)
      (R := fun a s => s.Absent ext p ∧ ∀ response, a = some response → response.alreadyExists = false)
      (fun r s h => pushNegotiate_absent _ r h) (fun _ h => h) fun _ _ h => h.1
    have hchunks : ∀ missing, Triple (fun st => st.server.Absent ext p)
        (uploadChunks ext level token (decomposeNar ext narNode).2.chunks missing) (fun _ st => st.server.Absent ext p)
        (fun _ st => st.server.Begun ext p t) := fun missing =>
      (uploadChunks_triple laws (fun c hc => (fits_decomposeNar laws narNode c hc).2) missing).conseq (fun _ h => h) (fun _ _ h => h)
        fun _ _ h => Or.inl h
    refine Triple.bind ((orFailed_triple hrequest).conseq (fun _ h => h) (fun _ _ h => h) fun _ _ h => Or.inl h) fun a => ?_
    cases ha : a.join with
    | none =>
      refine Triple.pure fun st h => ⟨.inl ?_, nofun⟩
      cases a with
      | none => exact h
      | some a => exact h.1
    | some response =>
      dsimp only
      obtain rfl : a = some (some response) := Option.join_eq_some_iff.mp ha
      have hfalse : response.alreadyExists = true → Triple (fun st : PushState δ => st.server.Absent ext p ∧
          ∀ r, some response = some r → r.alreadyExists = false) (pure true : PushM δ Bool)
          (fun b st => st.server.Begun ext p t ∧ (b = true → st.server.Complete ext p t)) (fun _ st => st.server.Begun ext p t) := by
        intro htrue st h
        rw [h.2 response rfl] at htrue
        cases htrue
      by_cases hexists : response.alreadyExists = true
      · rw [if_pos hexists]; exact hfalse hexists
      · rw [if_neg hexists]
        refine Triple.bind ((hchunks response.missingChunks).pre fun _ h => h.1) fun b => ?_
        cases b with
        | false => exact Triple.pure fun st h => ⟨.inl h, nofun⟩
        | true => exact (uploadPath_triple laws hp hsign).pre fun _ h => .inl h

/-! ## Attempts -/

theorem getNarinfo_absent {s : CacheServer δ} (h : s.Absent ext p) : getNarinfo sign p.hash s = (none, s) := by
  unfold getNarinfo
  split
  · rfl
  · simp only [h.1]
    rw [loadMetadata_quiet h.2.stored.quiet, h.2.info]

theorem headNarinfo_absent (r : PushRequest) {s : CacheServer δ} (h : s.Absent ext p) : headNarinfo sign p.hash r s = (false, s) := by
  unfold headNarinfo
  rw [getNarinfo_absent h]; rfl

/-- Without a row, an attempt that returns has completed the path. -/
theorem pushSinglePath_absent (laws : ext.Laws) (hp : p.Dumped t) (hsign : ∀ text, OneLine (sign text)) :
    Triple (fun st => st.server.Absent ext p) (pushSinglePath ext level sign token p) (fun _ st => st.server.Complete ext p t)
      (fun _ st => st.server.Begun ext p t) := by
  have hhead := request_triple (headNarinfo sign p.hash) (I := CacheServer.Absent ext p) (J := CacheServer.Begun ext p t)
    (R := fun b s => b = false ∧ s.Absent ext p) (fun r s h => by rw [headNarinfo_absent r h]; exact ⟨rfl, h⟩) (fun _ h => .inl h)
    fun _ _ h => .inl h.2
  refine Triple.bind hhead fun b => Triple.pre_fact ?_
  rintro rfl
  refine Triple.bind (orFailed_triple (tryCasPush_triple laws hp hsign)) fun a => ?_
  by_cases ha : a = some true
  · subst ha
    exact Triple.pure fun _ h => h.2 rfl
  · simp only [if_false, ha]
    refine Triple.bind ((uploadPath_triple laws hp hsign).pre fun st h => ?_) fun b => ?_
    · cases a with
      | none => exact h
      | some b => exact h.1
    · cases b with
      | false => exact Triple.throw fun _ h => h.1
      | true => exact Triple.pure fun _ h => h.2 rfl

/-- The path is there, and what is cached of it is its metadata. -/
def CacheServer.Present (ext : Ext δ) (sign : String → String) (p : LocalPath) (t : NarNode) (ni : NarInfo) (s : CacheServer δ) : Prop :=
  OnServer ext p t s.store ni ∧ ∀ text, s.cache.get p.hash = some text → text = signedText sign ni

variable {ni : NarInfo}

theorem getNarinfo_present (hp : p.Dumped t) {s : CacheServer δ} (h : s.Present ext sign p t ni) :
    ∃ s', getNarinfo sign p.hash s = (some (signedText sign ni), s') ∧ s'.Present ext sign p t ni := by
  unfold getNarinfo
  simp only [hp.hash, Bool.not_true, Bool.false_eq_true, if_false]
  cases hcached : s.cache.get p.hash with
  | some text => exact ⟨s, by rw [h.2 text hcached], h⟩
  | none =>
    dsimp only
    rw [loadMetadata_quiet h.1.1.stored.quiet, h.1.1.info]
    refine ⟨_, rfl, h.1, fun text hget => ?_⟩
    rcases NarInfoCache.get_insert hget with ⟨-, htext⟩ | hget
    · exact htext
    · exact h.2 text hget

theorem headNarinfo_present (hp : p.Dumped t) (r : PushRequest) {s : CacheServer δ} (h : s.Present ext sign p t ni) :
    (headNarinfo sign p.hash r s).1 = true ∧ (headNarinfo sign p.hash r s).2.Present ext sign p t ni := by
  obtain ⟨s', hget, h'⟩ := getNarinfo_present hp h
  unfold headNarinfo
  rw [hget]
  exact ⟨rfl, h'⟩

/-- With a row, an attempt changes nothing and says that the path is there. -/
theorem pushSinglePath_present (hp : p.Dumped t) : Triple (fun st => st.server.Present ext sign p t ni)
    (pushSinglePath ext level sign token p) (fun _ st => st.server.Present ext sign p t ni)
      (fun _ st => st.server.Present ext sign p t ni) := by
  have hhead := request_triple (headNarinfo sign p.hash) (I := CacheServer.Present ext sign p t ni)
    (J := CacheServer.Present ext sign p t ni) (R := fun b s => b = true ∧ s.Present ext sign p t ni)
    (fun r _ h => headNarinfo_present hp r h) (fun _ h => h) fun _ _ h => h.2
  unfold pushSinglePath
  refine Triple.bind hhead fun b => Triple.pre_fact fun hb => ?_
  rw [if_pos hb]
  exact Triple.pure fun _ h => h

/-- Between two attempts. -/
def CacheServer.Settled (ext : Ext δ) (sign : String → String) (p : LocalPath) (t : NarNode) (s : CacheServer δ) : Prop :=
  s.Absent ext p ∨ ∃ ni, s.Present ext sign p t ni

theorem CacheServer.Begun.settled {s : CacheServer δ} (h : s.Begun ext p t) : s.Settled ext sign p t := by
  rcases h with h | ⟨hcache, ni, h⟩
  · exact .inl h
  · refine .inr ⟨ni, h, fun text htext => ?_⟩
    rw [hcache] at htext; cases htext

theorem CacheServer.Complete.present {s : CacheServer δ} (h : s.Complete ext p t) : ∃ ni, s.Present ext sign p t ni ∧ p.Carried ni := by
  obtain ⟨hcache, ni, hheld, hni⟩ := h
  refine ⟨ni, ⟨⟨hheld, .inr hni⟩, fun text htext => ?_⟩, hni⟩
  rw [hcache] at htext; cases htext

theorem settled_step (laws : ext.Laws) (hp : p.Dumped t) (hsign : ∀ text, OneLine (sign text)) {s s' : CacheServer δ}
    {requests : List PushRequest} (h : s.Settled ext sign p t) (hstep : attemptStep ext level sign token p s requests s') :
    s'.Settled ext sign p t := by
  cases hstep
  unfold afterAttempt
  rcases h with h | ⟨ni, h⟩
  · have hpush := (pushSinglePath_absent laws hp hsign : Triple _ (pushSinglePath ext level sign token p) _ _) ⟨s, requests⟩ h
    cases hresult : pushSinglePath ext level sign token p ⟨s, requests⟩ with
    | ok result st =>
      rw [hresult] at hpush
      obtain ⟨ni, hpresent, -⟩ := hpush.present
      exact .inr ⟨ni, hpresent⟩
    | error e st =>
      rw [hresult] at hpush
      exact hpush.settled
  · have hpush := (pushSinglePath_present hp : Triple _ (pushSinglePath ext level sign token p) _ _) ⟨s, requests⟩ h
    cases hresult : pushSinglePath ext level sign token p ⟨s, requests⟩ with
    | ok result st => rw [hresult] at hpush; exact .inr ⟨ni, hpush⟩
    | error e st => rw [hresult] at hpush; exact .inr ⟨ni, hpush⟩

theorem pushed_of_present (laws : ext.Laws) (hp : p.Dumped t) {s : CacheServer δ} (h : s.Present ext sign p t ni) (hni : p.Carried ni) :
    Pushed ext sign p s := by
  obtain ⟨nars, hgc, hnar⟩ := h.1.1.gc
  obtain ⟨s', hget, -⟩ := getNarinfo_present hp h
  refine ⟨⟨ni, h.1.1.info, hni, congrArg Prod.fst hget⟩, ?_⟩
  have hdown := gcInv_downloads laws hgc hnar
  rw [NarNode.sorted_of_canonical t hp.canonical, ← hp.nar] at hdown
  exact hdown.getNar _ (hashOfFilePath_narFile hp.hash)

/-- After any attempts on a path that the server did not have, one that returns
has pushed the path exactly if it did not find a placeholder. -/
theorem pushed_iff (laws : ext.Laws) (hsign : ∀ text, OneLine (sign text)) (hp : p.Dumped t) {ops : List StoreOp} {served : Served δ}
    (hserved : Run (serveStep ext level) .init ops served) (hrow : served.store.db.casPaths.get? p.hash = none) {cache : NarInfoCache}
    (hcache : cache.get p.hash = none) {attempts : List (List PushRequest)} {s : CacheServer δ}
    (hrun : Run (attemptStep ext level sign token p) ⟨served.store, cache⟩ attempts s) {requests : List PushRequest}
    {result : PushResult} {st : PushState δ} (hpush : pushSinglePath ext level sign token p ⟨s, requests⟩ = .ok result st) :
    Pushed ext sign p st.server ↔ ¬ s.HasPlaceholder p := by
  have hgc := run_gcInv laws hserved
  have hstored : RowsStored ext served.store :=
    hserved.invariant (I := fun s => RowsStored ext s.store) (fun _ _ _ h hstep => serveStep_rowsStored laws h hstep) rowsStored_init
  have hnone : served.nars p.hash = none := by
    cases hnars : served.nars p.hash with
    | none => rfl
    | some t' =>
      obtain ⟨row, hrow'⟩ := hgc.path p.hash t' hnars
      rw [hrow] at hrow'; cases hrow'
  have habsent : (⟨served.store, cache⟩ : CacheServer δ).Absent ext p :=
    ⟨hcache, ⟨served.nars, hgc, hnone⟩, hstored, congrArg (Option.map (narinfoOfRow p.hash)) hrow⟩
  have hsettled := hrun.invariant (I := CacheServer.Settled ext sign p t) (fun _ _ _ h hstep => settled_step laws hp hsign h hstep)
    (.inl habsent)
  unfold CacheServer.HasPlaceholder
  rcases hsettled with h | ⟨ni, h⟩
  · obtain ⟨ni, hpresent, hni⟩ := ((pushSinglePath_absent laws hp hsign).ok_of h hpush).present
    rw [h.2.info]
    exact ⟨fun _ => nofun, fun _ => pushed_of_present laws hp hpresent hni⟩
  · have hpresent := (pushSinglePath_present hp).ok_of h hpush
    rw [h.1.1.info, Option.any_some, Bool.not_eq_true]
    constructor
    · rintro ⟨⟨ni', hinfo, hni', -⟩, -⟩
      rw [hpresent.1.1.info] at hinfo
      cases hinfo
      exact hp.not_placeholder hni'
    · intro hplaceholder
      have hni : p.Carried ni := h.1.2.resolve_left (by rw [hplaceholder]; decide)
      exact pushed_of_present laws hp hpresent hni

/-! ## A path of one file -/

def pushedPath : LocalPath :=
  ⟨"/nix/store/00000000000000000000000000000000-x", "/nix/store/00000000000000000000000000000000-x",
    ⟨"sha256:0", 1, [], [], none⟩, writeNar sampleFile⟩

theorem pushedPath_hash : pushedPath.hash = "00000000000000000000000000000000" := by decide

theorem pushedPath_dumped : pushedPath.Dumped sampleFile where
  path := rfl
  hash := by rw [pushedPath_hash]; decide
  nar := rfl
  canonical := fun entries h => by simp [sampleFile, NarNode.postorder] at h
  length := by decide +kernel
  narHash := by decide
  printable :=
    { storePath := show OneLine pushedPath.path by decide
      url := by
        show OneLine ("nar/" ++ (pushedPath.hash ++ ".nar"))
        rw [pushedPath_hash]; decide
      compression := show OneLine "none" by decide
      fileHash := show OneLine "sha256:0" by decide
      fileSize := show pushedPath.narData.length < 2 ^ 64 by decide +kernel
      narHash := show OneLine "sha256:0" by decide
      narSize := show 1 < 2 ^ 64 by decide
      references := nofun
      deriver := nofun
      signatures := nofun
      ca := nofun }

def serverSign (_ : String) : String := "server:s"

theorem serverSign_oneLine (text : String) : OneLine (serverSign text) := show OneLine "server:s" by decide

def answered : PushRequest := ⟨0, noFilters, ["token"], .answered⟩

/-- What an attempt with `n` requests comes to after others. -/
def afterAttempts (attempts : List Nat) : CacheServer Bytes :=
  (attempts.map fun n => List.replicate n answered).foldl (afterAttempt sampleExt 3 serverSign (some "token") pushedPath) ⟨.empty, .new⟩

def pushOf (attempts : List Nat) (n : Nat) : EStateM.Result PushError (PushState Bytes) PushResult :=
  pushSinglePath sampleExt 3 serverSign (some "token") pushedPath ⟨afterAttempts attempts, List.replicate n answered⟩

/-- An attempt that is cut off after its first request, and one that is not. -/
theorem pushed_after_cut : ∃ result st, pushOf [1] 5 = .ok result st ∧ Pushed sampleExt serverSign pushedPath st.server := by
  have hreturns : (onReturn (pushOf [1] 5) fun _ _ => ()) = some () := by decide +kernel
  obtain ⟨result, st, hpush, -⟩ := onReturn_eq_some.mp hreturns
  have hrun : Run (attemptStep sampleExt 3 serverSign (some "token") pushedPath) ⟨(Served.init : Served Bytes).store, .new⟩
      [List.replicate 1 answered] (afterAttempts [1]) := .cons rfl (.nil _)
  have hfresh : ¬ (afterAttempts [1]).HasPlaceholder pushedPath := by
    have hnone : ((storedInfo (afterAttempts [1]).store pushedPath.hash).any NarInfo.isPlaceholder) = false := by decide +kernel
    unfold CacheServer.HasPlaceholder
    rw [hnone]
    exact Bool.false_ne_true
  exact ⟨result, st, hpush, (pushed_iff sampleExt_laws serverSign_oneLine pushedPath_dumped (.nil Served.init) rfl rfl hrun hpush).mpr hfresh⟩

/-- An attempt that is cut off between its NAR and its narinfo leaves a row, for
which the next one takes the path for uploaded. -/
theorem cut_push_not_recovered : ¬ ∀ (attempts : List (List PushRequest)) (s : CacheServer Bytes) (requests : List PushRequest)
    (result : PushResult) (st : PushState Bytes),
    Run (attemptStep sampleExt 3 serverSign (some "token") pushedPath) ⟨.empty, .new⟩ attempts s →
    pushSinglePath sampleExt 3 serverSign (some "token") pushedPath ⟨s, requests⟩ = .ok result st →
      Pushed sampleExt serverSign pushedPath st.server := by
  intro h
  have hreturns : (onReturn (pushOf [4] 1) fun _ st => (storedInfo st.server.store pushedPath.hash).all NarInfo.isPlaceholder) = some true := by
    decide +kernel
  obtain ⟨result, st, hpush, hplaceholder⟩ := onReturn_eq_some.mp hreturns
  have hrun : Run (attemptStep sampleExt 3 serverSign (some "token") pushedPath) ⟨.empty, .new⟩ [List.replicate 4 answered]
      (afterAttempts [4]) := .cons rfl (.nil _)
  obtain ⟨⟨ni, hinfo, hcarried, -⟩, -⟩ := h _ _ _ _ _ hrun hpush
  rw [hinfo, Option.all_some, pushedPath_dumped.not_placeholder hcarried] at hplaceholder
  cases hplaceholder

end Ekapkgs
