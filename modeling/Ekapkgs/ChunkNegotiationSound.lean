import Ekapkgs.CasWalkSound
import Ekapkgs.ChunkNegotiation
import Ekapkgs.ClientIndex
import Ekapkgs.NarHashText

/-!
# What the server says in a chunk negotiation

The answer is honest for every wanted path with a tree, it points to every chunk
that the client does not say it has, and the chunk endpoint serves what it points to.
-/

namespace Ekapkgs
open Keyed Fallible

variable {δ : Type} [DecidableEq δ] {ext : Ext δ} {db : Db δ} {files : δ → Option Bytes}

/-! ## The roots -/

omit [DecidableEq δ] in
theorem orNone_ok {α : Type} {m : CasM δ α} {st st' : Store δ} {a : α} (h : m st = .ok a st') : orNone m st = .ok (some a) st' := by
  unfold orNone
  rw [h]

/-- What `get_cas_root` finds. -/
def StoredTrees.rootOf? (ext : Ext δ) (db : Db δ) (trees : String → Option NarNode) (hash : String) : Option CaNode :=
  match trees hash with
  | some t => some (caNode ext t)
  | none => if (db.casPaths.get? hash).isSome then some placeholderRoot else none

theorem StoredTrees.getRootNode_eq (laws : ext.Laws) {trees : String → Option NarNode} (h : StoredTrees ext db trees) (hash : String)
    {st : Store δ} (hst : Serving ext db files st) : getRootNode ext hash st = .ok (StoredTrees.rootOf? ext db trees hash) st := by
  unfold StoredTrees.rootOf?
  cases htree : trees hash with
  | some t => exact getRootNode_of_hasRoot laws hst.quiet (hst.db ▸ h.root hash t htree)
  | none => exact h.getRootNode_none laws htree hst

theorem wantedRoots_run (laws : ext.Laws) {trees : String → Option NarNode} (h : StoredTrees ext db trees) {st : Store δ}
    (hst : Serving ext db files st) : ∀ want : List String, ∃ pathMappings unavailable,
    wantedRoots ext want st = .ok (pathMappings, unavailable) st ∧ ∀ hash node, (⟨hash, node⟩ : CaPathMapping) ∈ pathMappings ↔
      hash ∈ want ∧ node = StoredTrees.rootOf? ext db trees hash ∧ node.isSome = true
  | [] => ⟨[], [], rfl, fun _ _ => by simp⟩
  | hash :: hashes => by
    obtain ⟨pathMappings, unavailable, hrun, hmem⟩ := wantedRoots_run laws h hst hashes
    have hroot := orNone_ok (h.getRootNode_eq laws hash hst)
    unfold wantedRoots
    rw [bind_of_ok hroot, bind_of_ok hrun]
    dsimp only
    cases hfound : StoredTrees.rootOf? ext db trees hash with
    | none =>
      refine ⟨pathMappings, hash :: unavailable, rfl, fun hash' node => ?_⟩
      rw [hmem, List.mem_cons]
      constructor
      · exact fun ⟨hin, hnode⟩ => ⟨.inr hin, hnode⟩
      · rintro ⟨rfl | hin, hnode, hsome⟩
        · rw [hnode, hfound] at hsome
          cases hsome
        · exact ⟨hin, hnode, hsome⟩
    | some root =>
      refine ⟨⟨hash, some root⟩ :: pathMappings, unavailable, ?_, fun hash' node => ?_⟩
      · simp only [Option.join_some, Option.bind_some, laws.decode_encodeNode]
        rfl
      · rw [List.mem_cons, List.mem_cons, hmem, CaPathMapping.mk.injEq]
        constructor
        · rintro (⟨rfl, rfl⟩ | ⟨hin, hnode⟩)
          · exact ⟨.inl rfl, hfound.symm, rfl⟩
          · exact ⟨.inr hin, hnode⟩
        · rintro ⟨rfl | hin, hnode, hsome⟩
          · exact .inl ⟨rfl, hnode.trans hfound⟩
          · exact .inr ⟨hin, hnode, hsome⟩

/-! ## The answer -/

/-- The answer about the trees under the wanted hashes. -/
structure Answers (ext : Ext δ) (haveChunks : ChunkHaveCheck δ) (trees : String → Option NarNode) (want : List String)
    (response : ChunkNegotiateResponse) : Prop where
  mapped : ∀ hash ∈ want, ∀ t, trees hash = some t → (⟨hash, some (caNode ext t)⟩ : CaPathMapping) ∈ response.pathMappings
  truthful : Truthful ext response
  honest : ∀ hash ∈ want, ∀ t, trees hash = some t → HonestFor ext response t
  /-- Each chunk to download belongs to a file of a wanted path. -/
  wanted : ∀ chunk ∈ response.missingChunks, ∃ hash ∈ want, ∃ t, trees hash = some t ∧ ∃ data ∈ t.files,
    ∃ ref ∈ chunkRefs ext data, chunk = chunkDownload (chunkMeta ext ref)
  missing : ∀ hash ∈ want, ∀ t, trees hash = some t → ∀ data ∈ t.files, ∀ ref ∈ chunkRefs ext data,
    haveChunks.contains ext ref.1 = false → chunkDownload (chunkMeta ext ref) ∈ response.missingChunks

omit [DecidableEq δ] in
theorem namesDirectory_map (laws : ext.Laws) {response : ChunkNegotiateResponse} {dirs : List (δ × CaDirectory)}
    (hresponse : response.directories = dirs.map (directoryData ext)) {digest : δ} {dir : CaDirectory} :
    NamesDirectory ext response digest dir ↔ (digest, dir) ∈ dirs := by
  unfold NamesDirectory
  rw [hresponse]
  constructor
  · rintro ⟨dirData, hmem, hdigest, hdirectory⟩
    obtain ⟨pair, hpair, rfl⟩ := List.mem_map.mp hmem
    rw [directoryData, fieldDigest_toVec laws] at hdigest
    obtain rfl := Option.some.inj hdigest
    obtain rfl := Option.some.inj hdirectory
    exact hpair
  · exact fun h => ⟨_, List.mem_map_of_mem h, fieldDigest_toVec laws _, rfl⟩

omit [DecidableEq δ] in
theorem namesFile_map (laws : ext.Laws) {response : ChunkNegotiateResponse} {mappings : List (δ × List (δ × Nat))}
    (hresponse : response.fileChunkMappings = mappings.map (fileChunkMapping ext)) {file : δ} {chunks : List (δ × Nat)} :
    NamesFile ext response file chunks ↔ (file, chunks) ∈ mappings := by
  have hlisted : ∀ mapping : δ × List (δ × Nat), listedChunks ext (fileChunkMapping ext mapping) = mapping.2 :=
    fun mapping => listedChunks_map laws _ mapping.2
  unfold NamesFile
  rw [hresponse]
  constructor
  · rintro ⟨mapping, hmem, hdigest, hchunks⟩
    obtain ⟨pair, hpair, rfl⟩ := List.mem_map.mp hmem
    rw [hlisted] at hchunks
    rw [fileChunkMapping, fieldDigest_toVec laws] at hdigest
    obtain rfl := Option.some.inj hdigest
    rwa [← hchunks]
  · exact fun h => ⟨_, List.mem_map_of_mem h, fieldDigest_toVec laws _, hlisted _⟩

/-- The answer for the paths that have a tree. -/
theorem ListsOnce.answers (laws : ext.Laws) {haveChunks : ChunkHaveCheck δ} {trees : String → Option NarNode} {want want' : List String}
    {missing : List ChunkMeta} {dirs : List (δ × CaDirectory)} {mappings : List (δ × List (δ × Nat))}
    (h : ListsOnce ext haveChunks (wantedTrees trees want') missing dirs mappings) {response : ChunkNegotiateResponse}
    (hwanted : ∀ hash ∈ want', hash ∈ want) (hwant : ∀ hash ∈ want, ∀ t, trees hash = some t → hash ∈ want')
    (hmapped : ∀ hash ∈ want, ∀ t, trees hash = some t → (⟨hash, some (caNode ext t)⟩ : CaPathMapping) ∈ response.pathMappings)
    (hmissing : response.missingChunks = missing.map chunkDownload) (hdirs : response.directories = dirs.map (directoryData ext))
    (hmappings : response.fileChunkMappings = mappings.map (fileChunkMapping ext)) : Answers ext haveChunks trees want response := by
  have htree : ∀ hash ∈ want, ∀ t, trees hash = some t → t ∈ wantedTrees trees want' := fun hash hin t ht =>
    List.mem_filterMap.mpr ⟨hash, hwant hash hin t ht, ht⟩
  have htruthful : Truthful ext response := by
    constructor
    · intro digest dir hnames
      obtain ⟨t, -, entries, -, rfl, rfl⟩ := (h.mem_dirs digest dir).mp ((namesDirectory_map laws hdirs).mp hnames)
      rfl
    · intro file chunks hnames
      obtain ⟨-, t, -, data, -, rfl, rfl⟩ := (h.mem_mappings file chunks).mp ((namesFile_map laws hmappings).mp hnames)
      exact ⟨data, rfl, rfl⟩
  refine ⟨hmapped, htruthful, fun hash hin t ht => ⟨htruthful, fun entries hentries => ?_, fun data hdata hne => ?_⟩,
    fun chunk hchunk => ?_, fun hash hin t ht data hdata ref href hhave => ?_⟩
  · exact (namesDirectory_map laws hdirs).mpr ((h.mem_dirs _ _).mpr ⟨t, htree hash hin t ht, entries, hentries, rfl, rfl⟩)
  · exact (namesFile_map laws hmappings).mpr ((h.mem_mappings _ _).mpr ⟨hne, t, htree hash hin t ht, data, hdata, rfl, rfl⟩)
  · rw [hmissing] at hchunk
    obtain ⟨cm, hcm, rfl⟩ := List.mem_map.mp hchunk
    obtain ⟨ref, rfl, -, t, ht, data, hdata, href⟩ := (h.mem_missing cm).mp hcm
    obtain ⟨hash, hin, htrees⟩ := List.mem_filterMap.mp ht
    exact ⟨hash, hwanted hash hin, t, htrees, data, hdata, ref, href, rfl⟩
  · rw [hmissing]
    exact List.mem_map_of_mem ((h.mem_missing _).mpr ⟨ref, rfl, hhave, t, htree hash hin t ht, data, hdata, href⟩)

theorem negotiateChunks_answers (laws : ext.Laws) {trees : String → Option NarNode} (h : StoredTrees ext db trees)
    {req : ChunkNegotiateRequest} {haveChunks : ChunkHaveCheck δ} (hcheck : haveCheck ext req = .ok haveChunks) {st : Store δ}
    (hst : Serving ext db files st) : ∃ answer st', negotiateChunks ext req st = .ok (.ok answer) st' ∧
      Answers ext haveChunks trees req.want answer.toChunkNegotiateResponse := by
  obtain ⟨pathMappings, unavailable, hroots, hmem⟩ := wantedRoots_run laws h hst req.want
  obtain ⟨missing, dirs, mappings, st', hwalk, -, hlists⟩ :=
    walkCasTrees_listsOnce laws h haveChunks (pathMappings.map CaPathMapping.storePathHash) hst
  have hmapped : ∀ hash ∈ req.want, ∀ t, trees hash = some t → (⟨hash, some (caNode ext t)⟩ : CaPathMapping) ∈ pathMappings := by
    intro hash hin t ht
    refine (hmem hash _).mpr ⟨hin, ?_, rfl⟩
    unfold StoredTrees.rootOf?
    rw [ht]
  have hrun : negotiateChunks ext req st = .ok (.ok {
      pathMappings, unavailable
      missingChunks := missing.map chunkDownload
      totalChunkSize := (missing.map ChunkMeta.size).sum
      directories := dirs.map (directoryData ext)
      fileChunkMappings := mappings.map (fileChunkMapping ext) }) st' := by
    unfold negotiateChunks
    rw [hcheck]
    dsimp only
    rw [bind_of_ok hroots]
    dsimp only
    rw [bind_of_ok (orNone_ok hwalk)]
    rfl
  have hwanted : ∀ hash ∈ pathMappings.map CaPathMapping.storePathHash, hash ∈ req.want := by
    intro hash hin
    obtain ⟨mapping, hmapping, rfl⟩ := List.mem_map.mp hin
    exact ((hmem mapping.storePathHash mapping.rootNode).mp hmapping).1
  exact ⟨_, _, hrun, hlists.answers laws hwanted (fun hash hin t ht => List.mem_map.mpr ⟨_, hmapped hash hin t ht, rfl⟩) hmapped rfl rfl rfl⟩

/-- Whatever is asked, what the server says is true. -/
theorem negotiateChunks_truthful (laws : ext.Laws) {trees : String → Option NarNode} (h : StoredTrees ext db trees)
    {req : ChunkNegotiateRequest} {st st' : Store δ} (hst : Serving ext db files st) {answer : ChunkNegotiateAnswer}
    (hrun : negotiateChunks ext req st = .ok (.ok answer) st') : Truthful ext answer.toChunkNegotiateResponse := by
  cases hcheck : haveCheck ext req with
  | error status =>
    unfold negotiateChunks at hrun
    rw [hcheck] at hrun
    cases hrun
  | ok haveChunks =>
    obtain ⟨answer', st'', hrun', hanswers⟩ := negotiateChunks_answers laws h hcheck hst
    cases hrun'.symm.trans hrun
    exact hanswers.truthful

/-! ## The chunk endpoint -/

theorem not_straddled_of_ascii : ∀ {l : Bytes}, (∀ b ∈ l, b.toNat < 128) → ¬ Straddled l
  | [], _ => id
  | [_], _ => id
  | a :: b :: rest, h => by
    have hrest : ∀ c ∈ rest, c.toNat < 128 := fun c hc => h c (List.mem_cons_of_mem _ (List.mem_cons_of_mem _ hc))
    rintro (⟨c, hc, hcontinues⟩ | ⟨-, hstraddled⟩)
    · have hlt := hrest c (List.mem_of_mem_head? hc)
      have hle : (128 : UInt8).toNat ≤ c.toNat := by
        unfold isContinuation at hcontinues
        exact UInt8.le_iff_toNat_le.mp (by simpa using (Bool.and_eq_true_iff.mp hcontinues).1)
      exact absurd hle (by simpa using hlt)
    · exact not_straddled_of_ascii hrest hstraddled

/-- The digests in chunk URLs are read back. -/
theorem hexDecode_hexEncode {d : Bytes} (h : d.length = 32) : hexDecode (hexEncode d) = .ok (some d) := by
  obtain ⟨hlength, hdigits, hvalues⟩ := hexOf_iff.mp (hexOf_hexEncode h)
  have hpairs := ((digits_iff (by rw [hlength]; decide)).mp hdigits).1
  rw [(hexDecode_spec hlength).readable (not_straddled_of_ascii hpairs.ascii) hpairs, hvalues]

theorem getChunkUrl_serves (laws : ext.Laws) {d : δ} (hlength : (ext.toVec d).length = 32) {size : Nat} {st : Store δ}
    (hquiet : st.faults = []) {bytes : Bytes} (hread : readStored ext st.db st.files d = .ok (some bytes)) :
    getChunkUrl ext (chunkDownload (chunkMeta ext (d, size))).url st = some bytes := by
  unfold getChunkUrl
  have hurl : (chunkDownload (chunkMeta ext (d, size))).url = "cas/chunk/" ++ hexEncode (ext.toVec d) := rfl
  rw [hurl, stripPrefix_append]
  dsimp only
  rw [hexDecode_hexEncode hlength]
  dsimp only
  rw [laws.tryFrom_toVec, Option.bind_some, getChunkByDigest_quiet ext hquiet, hread]
  rfl

end Ekapkgs
