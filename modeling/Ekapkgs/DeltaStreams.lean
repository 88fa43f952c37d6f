import Ekapkgs.DeltaCache
import Ekapkgs.StreamNarsSound
import Ekapkgs.Lib.Runs

/-!
# Clients that share the delta cache

Any number of clients negotiate and stream against one server whose paths do not
change. The delta of a candidate goes into the cache when its task is done, other
requests run in between, and the stream asks the cache again, path by path.
-/

namespace Ekapkgs
open Keyed Runs

/-! ## The system -/

/-- A storage whose narinfos are of the paths they are found under, as
`put_narinfo` checks; a placeholder has no store path. -/
structure NarServer extends Storage where
  named : ∀ hash ni, toStorage.narinfo? hash = some ni → ni.storePath = "" ∨ hashPart ni.storePath = hash

/-- The NAR that the server has for a path. -/
def NarServer.storedNar (server : NarServer) (hash : String) : Option Bytes :=
  (server.narinfo? hash).bind fun ni => server.getNar ni.url

/-- A client: the tasks of its negotiation that are not done, the entries it
negotiates, the paths it still streams, and what it has received of the stream. -/
structure NarClient where
  pending : List DeltaCandidate
  available : List DeltaEntry
  todo : List String
  receiver : Receiver

def NarClient.idle : NarClient := ⟨[], [], [], .start⟩

structure StagedNar where
  client : Nat
  hash : String
  bytes : Bytes
  deriving DecidableEq

structure DeltaSystem where
  cache : DeltaCache
  clients : Nat → NarClient
  staged : List StagedNar

def DeltaSystem.init : DeltaSystem := ⟨.new, fun _ => .idle, []⟩

inductive DeltaStep where
  | negotiate (client : Nat) (want haveHashes : List String)
  /-- The task of the next candidate is joined; without a permit it gave up. -/
  | joinDelta (client : Nat) (acquired : Bool)
  /-- The client has its answer and asks for the paths in some order. -/
  | requestStream (client : Nat) (pathHashes : List String)
  /-- The server sends the next path and the client receives it. -/
  | streamPath (client : Nat)

variable (server : NarServer) (codec : DeltaCodec) (sign : String → String)
  /- `nix-store --dump` of the path a hash names, on the machine of a client. -/
  (dump : Nat → String → Option Bytes)

def entryForHash (available : List DeltaEntry) (hash : String) : Option DeltaEntry :=
  available.reverse.find? fun entry => entry.hash = hash

def applyDelta (client : Nat) (delta : Bytes) (baseHash : String) : Option Bytes :=
  (dump client baseHash).bind fun baseNar => codec.decompressWithDict delta baseNar

/-- The NAR that the client writes into its staging directory. -/
def stageReceived (client : Nat) (available : List DeltaEntry) (received : Received) : Option StagedNar :=
  match entryForHash available received.hash with
  | none => none
  | some entry =>
    if received.isDelta && entry.deltaBaseHash ≠ "" then
      (applyDelta codec dump client received.data entry.deltaBaseHash).map fun narData => ⟨client, received.hash, narData⟩
    else some ⟨client, received.hash, received.data⟩

/-- The turn of a path in the stream, as the server finds it. -/
def DeltaSystem.turn (s : DeltaSystem) (hash : String) : StreamTurn := ⟨hash, s.cache.getForTarget hash, server.toStorage⟩

def setEntry (available : List DeltaEntry) (candidate : DeltaCandidate) (delta : Bytes) : List DeltaEntry :=
  available.modify candidate.idx fun entry => entry.withDelta candidate.baseHash candidate.targetHash delta

def deltaNext (s : DeltaSystem) : DeltaStep → Option DeltaSystem
  | .negotiate client want haveHashes =>
    let available := (want.filterMap server.narinfo?).map (manifestEntry sign)
    let c : NarClient := ⟨deltaCandidates server.toStorage haveHashes available, available, [], .start⟩
    some { s with clients := Function.update s.clients client c }
  | .joinDelta client acquired =>
    let c := s.clients client
    match c.pending with
    | [] => none
    | candidate :: pending =>
      match if acquired then computeDelta server.toStorage codec candidate else none with
      | none => some { s with clients := Function.update s.clients client { c with pending } }
      | some delta => some { s with
          cache := s.cache.insert candidate.baseHash candidate.targetHash delta
          clients := Function.update s.clients client { c with pending, available := setEntry c.available candidate delta } }
  | .requestStream client pathHashes =>
    let c := s.clients client
    if c.pending = [] then
      some { s with clients := Function.update s.clients client { c with todo := pathHashes, receiver := .start } }
    else none
  | .streamPath client =>
    let c := s.clients client
    match c.todo with
    | [] => none
    | hash :: todo =>
      let messages := (s.turn server hash).messages
      some { s with
        clients := Function.update s.clients client { c with todo, receiver := c.receiver.after messages }
        staged := s.staged ++ (c.receiver.stream messages).filterMap (stageReceived codec dump client c.available) }

abbrev deltaStep : DeltaSystem → DeltaStep → DeltaSystem → Prop := stepOf (deltaNext server codec sign dump)

/-! ## What goes right -/

/-- Every staged NAR is the one the server has. -/
def StagedStored (s : DeltaSystem) : Prop := ∀ nar ∈ s.staged, server.storedNar nar.hash = some nar.bytes

/-- The NAR the client has for a base is the one the server compressed against. -/
def BaseAgrees (client : Nat) (baseHash : String) : Prop :=
  ∀ nar, dump client baseHash = some nar → server.getNar ("nar/" ++ baseHash ++ ".nar") = some nar

/-- A path that the client will stage comes as its whole NAR, or as a delta
against the base that the client's own entry names, and is told from what came
before it. -/
structure StreamSafe (s : DeltaSystem) (client : Nat) (hash : String) (entry : DeltaEntry) : Prop where
  delta : ∀ baseHash delta, s.cache.entryForTarget hash = some (baseHash, delta) → entry.deltaBaseHash ≠ "" ∧
    (dump client entry.deltaBaseHash = none ∨ entry.deltaBaseHash = baseHash ∧ BaseAgrees server dump client baseHash)
  writes : (s.turn server hash).Writes
  fresh : (s.clients client).receiver.currentHash = hash →
    (s.clients client).receiver.currentIsDelta = (s.cache.getForTarget hash).isSome

def DeltaSafe (s : DeltaSystem) : DeltaStep → Prop
  | .streamPath client => ∀ hash todo, (s.clients client).todo = hash :: todo →
      ∀ entry, entryForHash (s.clients client).available hash = some entry → StreamSafe server dump s client hash entry
  | _ => True

/-! ## Invariants -/

variable {server codec sign dump}

/-- Every cached delta turns the NAR of its base into the NAR of its target. -/
structure CacheSound (server : NarServer) (codec : DeltaCodec) (cache : DeltaCache) : Prop where
  deltas : ∀ baseHash targetHash delta, cache.map.get? (baseHash, targetHash) = some delta → ∃ baseNar targetNar,
    server.getNar ("nar/" ++ baseHash ++ ".nar") = some baseNar ∧ server.storedNar targetHash = some targetNar ∧
      codec.decompressWithDict delta baseNar = some targetNar
  index : ∀ targetHash key, cache.byTarget.get? targetHash = some key → key.2 = targetHash

/-- The task of a candidate reads the NAR of its target. -/
def DeltaCandidate.Reads (server : NarServer) (candidate : DeltaCandidate) : Prop :=
  server.getNar candidate.targetUrl = server.storedNar candidate.targetHash

structure DeltaInv (server : NarServer) (codec : DeltaCodec) (s : DeltaSystem) : Prop where
  cache : CacheSound server codec s.cache
  pending : ∀ client, ∀ candidate ∈ (s.clients client).pending, candidate.Reads server
  buffers : ∀ client, (s.clients client).receiver.currentBuf = []
  staged : StagedStored server s

theorem deltaInv_init : DeltaInv server codec .init :=
  ⟨⟨nofun, nofun⟩, nofun, fun _ => rfl, nofun⟩

theorem CacheSound.insert {cache : DeltaCache} (h : CacheSound server codec cache) {candidate : DeltaCandidate} {delta : Bytes}
    (hreads : candidate.Reads server) (hdelta : computeDelta server.toStorage codec candidate = some delta) :
    CacheSound server codec (cache.insert candidate.baseHash candidate.targetHash delta) := by
  constructor
  · intro baseHash targetHash delta' hget
    rcases DeltaCache.get?_insert hget with ⟨hkey, heq⟩ | hget
    · cases hkey
      subst heq
      unfold computeDelta at hdelta
      obtain ⟨baseNar, hbase, hdelta⟩ := Option.bind_eq_some_iff.mp hdelta
      obtain ⟨targetNar, htarget, hdelta⟩ := Option.bind_eq_some_iff.mp hdelta
      obtain ⟨compressed, hcompress, hdelta⟩ := Option.bind_eq_some_iff.mp hdelta
      obtain ⟨-, heq⟩ := Option.ite_none_right_eq_some.mp hdelta
      cases heq
      exact ⟨baseNar, targetNar, hbase, hreads ▸ htarget, codec.decompress_compress targetNar baseNar _ hcompress⟩
    · exact h.deltas baseHash targetHash delta' hget
  · intro targetHash key hget
    rcases DeltaCache.byTarget_insert hget with ⟨rfl, rfl⟩ | hget
    · rfl
    · exact h.index targetHash key hget

theorem CacheSound.entryForTarget {cache : DeltaCache} (h : CacheSound server codec cache) {targetHash baseHash : String} {delta : Bytes}
    (hentry : cache.entryForTarget targetHash = some (baseHash, delta)) : cache.map.get? (baseHash, targetHash) = some delta := by
  unfold DeltaCache.entryForTarget at hentry
  obtain ⟨key, hkey, hentry⟩ := Option.bind_eq_some_iff.mp hentry
  obtain ⟨delta', hdelta, hentry⟩ := Option.bind_eq_some_iff.mp hentry
  cases hentry
  rw [← h.index targetHash key hkey]
  exact hdelta

theorem manifestEntry_storePath (ni : NarInfo) : (manifestEntry sign ni).storePath = ni.storePath := by
  unfold manifestEntry NarInfo.signed
  dsimp only
  split_ifs <;> rfl

theorem manifestEntry_url (ni : NarInfo) : (manifestEntry sign ni).url = ni.url := by
  unfold manifestEntry NarInfo.signed
  dsimp only
  split_ifs <;> rfl

theorem extractPname_empty : extractPname "" = none := by decide

theorem candidateFor_reads {have_ : Table String (String × Nat)} {idx : Nat} {hash : String} {ni : NarInfo} {candidate : DeltaCandidate}
    (hinfo : server.narinfo? hash = some ni) (h : candidateFor have_ idx (manifestEntry sign ni) = some candidate) :
    candidate.Reads server := by
  unfold candidateFor at h
  rw [manifestEntry_storePath, manifestEntry_url] at h
  obtain ⟨pname, hpname, h⟩ := Option.bind_eq_some_iff.mp h
  obtain ⟨base, hbase, h⟩ := Option.bind_eq_some_iff.mp h
  obtain ⟨-, heq⟩ := Option.ite_none_left_eq_some.mp h
  cases heq
  rcases server.named hash ni hinfo with hempty | hnamed
  · rw [hempty, extractPname_empty] at hpname
    cases hpname
  · show server.getNar ni.url = server.storedNar (hashPart ni.storePath)
    rw [hnamed, NarServer.storedNar, hinfo]
    rfl

/-- The candidates of a negotiation name their targets by the hash of the narinfo. -/
theorem deltaCandidates_reads {want haveHashes : List String} : ∀ candidate ∈
    deltaCandidates server.toStorage haveHashes ((want.filterMap server.narinfo?).map (manifestEntry sign)), candidate.Reads server := by
  intro candidate h
  obtain ⟨entry, hmem, hcandidate⟩ := List.mem_filterMap.mp (List.mem_of_mem_take h)
  obtain ⟨ni, hni, heq⟩ := List.mem_map.mp (List.fst_mem_of_mem_zipIdx hmem)
  obtain ⟨hash, -, hinfo⟩ := List.mem_filterMap.mp hni
  rw [← heq] at hcandidate
  exact candidateFor_reads hinfo hcandidate

/-! ## One path of a stream -/

/-- What a safe client stages for a path is the NAR that the server has for it. -/
theorem stageReceived_stored {client : Nat} {hash : String} {s : DeltaSystem} (hinv : DeltaInv server codec s) {available : List DeltaEntry}
    {data : Bytes} (hwhole : (s.turn server hash).Whole data) {entry : DeltaEntry} (hentry : entryForHash available hash = some entry)
    (hsafe : StreamSafe server dump s client hash entry) {nar : StagedNar}
    (hnar : stageReceived codec dump client available ⟨hash, data, (s.cache.getForTarget hash).isSome⟩ = some nar) :
    server.storedNar nar.hash = some nar.bytes := by
  unfold stageReceived at hnar
  rw [hentry] at hnar
  dsimp only at hnar
  rcases hwhole with hdelta | ⟨hdelta, ni, hinfo, hwrite⟩
  · -- the delta of the path
    obtain ⟨⟨baseHash, delta⟩, hcached, heq⟩ := Option.map_eq_some_iff.mp hdelta
    obtain ⟨hnamed, hbase⟩ := hsafe.delta baseHash delta hcached
    have hsome : (s.cache.getForTarget hash).isSome = true := by rw [DeltaCache.getForTarget, hcached]; rfl
    rw [if_pos (by simp [hsome, hnamed])] at hnar
    obtain ⟨narData, hnarData, heq'⟩ := Option.map_eq_some_iff.mp hnar
    subst heq'
    obtain ⟨baseNar, hdump, hdecompress⟩ := Option.bind_eq_some_iff.mp hnarData
    rcases hbase with hnone | ⟨hbase, hagrees⟩
    · rw [hnone] at hdump
      cases hdump
    · rw [hbase] at hdump
      obtain ⟨baseNar', targetNar, hbaseNar, htarget, hpatch⟩ := hinv.cache.deltas baseHash hash delta (hinv.cache.entryForTarget hcached)
      rw [hagrees baseNar hdump] at hbaseNar
      cases hbaseNar
      cases heq
      rw [hpatch] at hdecompress
      cases hdecompress
      exact htarget
  · -- its NAR
    have hnone : (s.cache.getForTarget hash).isSome = false := by rw [show s.cache.getForTarget hash = none from hdelta]; rfl
    rw [if_neg (by simp [hnone])] at hnar
    cases hnar
    have hfound : server.narinfo? hash = some ni := by
      unfold Storage.narinfo?
      rw [show server.getNarinfo hash = .ok (some ni) from hinfo]
      rfl
    unfold NarServer.storedNar Storage.getNar
    rw [hfound, Option.bind_some, show server.writeNarTo ni.url = ⟨data, .ok true⟩ from hwrite]
    rfl

/-- The messages of a path keep the staged NARs right and leave the receiver between two paths. -/
theorem stream_turn {client : Nat} {hash : String} {s : DeltaSystem} (hinv : DeltaInv server codec s)
    (hsafe : ∀ entry, entryForHash (s.clients client).available hash = some entry → StreamSafe server dump s client hash entry) :
    (∀ nar ∈ ((s.clients client).receiver.stream (s.turn server hash).messages).filterMap
      (stageReceived codec dump client (s.clients client).available), server.storedNar nar.hash = some nar.bytes) ∧
    ((s.clients client).receiver.after (s.turn server hash).messages).currentBuf = [] := by
  have hbuf := hinv.buffers client
  rcases (s.turn server hash).framed with hnil | ⟨data, hframed, hwhole⟩
  · rw [hnil]
    exact ⟨nofun, hbuf⟩
  · obtain ⟨hstream, hafter⟩ := hframed.received_path (s.turn server hash).isDelta_messages hbuf
    refine ⟨fun nar hnar => ?_, hafter⟩
    obtain ⟨received, hreceived, hstaged⟩ := List.mem_filterMap.mp hnar
    rw [hstream] at hreceived
    obtain rfl := List.mem_singleton.mp hreceived
    cases hentry : entryForHash (s.clients client).available hash with
    | none =>
      unfold stageReceived at hstaged
      rw [show entryForHash (s.clients client).available (s.turn server hash).hash = none from hentry] at hstaged
      cases hstaged
    | some entry =>
      have hsafe := hsafe entry hentry
      have hflag : (if (s.clients client).receiver.currentHash = (s.turn server hash).hash then (s.clients client).receiver.currentIsDelta
          else (s.turn server hash).delta.isSome) = (s.cache.getForTarget hash).isSome := by
        split_ifs with h
        · exact hsafe.fresh h
        · rfl
      rw [hflag] at hstaged
      exact stageReceived_stored hinv (hwhole hsafe.writes) hentry hsafe hstaged

/-! ## Runs -/

/-- A property of every client holds after an update of one. -/
theorem forall_update {p : NarClient → Prop} {clients : Nat → NarClient} {client : Nat} {c : NarClient} (h : ∀ n, p (clients n))
    (hc : p c) (n : Nat) : p (Function.update clients client c n) := by
  rw [Function.update_apply]
  split_ifs
  · exact hc
  · exact h n

theorem deltaInv_step {s s' : DeltaSystem} {a : DeltaStep} (hinv : DeltaInv server codec s) (hsafe : DeltaSafe server dump s a)
    (hstep : deltaStep server codec sign dump s a s') : DeltaInv server codec s' := by
  unfold deltaStep stepOf deltaNext at hstep
  cases a with
  | negotiate client want haveHashes =>
    cases hstep
    exact ⟨hinv.cache, forall_update (p := fun c => ∀ candidate ∈ c.pending, candidate.Reads server) hinv.pending deltaCandidates_reads,
      forall_update (p := fun c => c.receiver.currentBuf = []) hinv.buffers rfl, hinv.staged⟩
  | joinDelta client acquired =>
    dsimp only at hstep
    have hpending := hinv.pending client
    have hbuf := hinv.buffers client
    cases hclient : (s.clients client).pending with
    | nil => rw [hclient] at hstep; cases hstep
    | cons candidate pending =>
      rw [hclient] at hstep hpending
      obtain ⟨hreads, hrest⟩ := List.forall_mem_cons.mp hpending
      dsimp only at hstep
      cases hdelta : (if acquired then computeDelta server.toStorage codec candidate else none) with
      | none =>
        rw [hdelta] at hstep
        cases hstep
        exact ⟨hinv.cache, forall_update (p := fun c => ∀ candidate ∈ c.pending, candidate.Reads server) hinv.pending hrest,
          forall_update (p := fun c => c.receiver.currentBuf = []) hinv.buffers hbuf, hinv.staged⟩
      | some delta =>
        rw [hdelta] at hstep
        cases hstep
        obtain ⟨-, hdelta⟩ := Option.ite_none_right_eq_some.mp hdelta
        exact ⟨hinv.cache.insert hreads hdelta,
          forall_update (p := fun c => ∀ candidate ∈ c.pending, candidate.Reads server) hinv.pending hrest,
          forall_update (p := fun c => c.receiver.currentBuf = []) hinv.buffers hbuf, hinv.staged⟩
  | requestStream client pathHashes =>
    obtain ⟨-, hstep⟩ := Option.ite_none_right_eq_some.mp hstep
    cases hstep
    exact ⟨hinv.cache, forall_update (p := fun c => ∀ candidate ∈ c.pending, candidate.Reads server) hinv.pending (hinv.pending client),
      forall_update (p := fun c => c.receiver.currentBuf = []) hinv.buffers rfl, hinv.staged⟩
  | streamPath client =>
    dsimp only at hstep
    cases htodo : (s.clients client).todo with
    | nil => rw [htodo] at hstep; cases hstep
    | cons hash todo =>
      rw [htodo] at hstep
      cases hstep
      obtain ⟨hstaged, hbuf⟩ := stream_turn hinv (hsafe hash todo htodo)
      refine ⟨hinv.cache, forall_update (p := fun c => ∀ candidate ∈ c.pending, candidate.Reads server) hinv.pending (hinv.pending client),
        forall_update (p := fun c => c.receiver.currentBuf = []) hinv.buffers hbuf, fun nar hnar => ?_⟩
      rcases List.mem_append.mp hnar with hold | hnew
      · exact hinv.staged nar hold
      · exact hstaged nar hnew

/-- In a run whose streams are safe, every staged NAR is the one the server has. -/
theorem deltaRun_staged (server : NarServer) (codec : DeltaCodec) (sign : String → String) (dump : Nat → String → Option Bytes)
    {s : DeltaSystem} {steps : List DeltaStep}
    (hrun : Run (guarded (deltaStep server codec sign dump) (DeltaSafe server dump)) .init steps s) : StagedStored server s :=
  (hrun.invariant (I := DeltaInv server codec) (fun _ _ _ hinv h => deltaInv_step hinv h.1 h.2) deltaInv_init).staged

/-! ## Two versions of a package -/

def twoVersionsNarInfo (storePath url : String) (narSize : Nat) : NarInfo :=
  ⟨storePath, url, "none", "", 0, "sha256:0", narSize, [], none, [], none⟩

def oldNarInfo : NarInfo := twoVersionsNarInfo "/nix/store/b-x-1" "nar/b.nar" 6
def newNarInfo : NarInfo := twoVersionsNarInfo "/nix/store/t-x-2" "nar/t.nar" 7

def twoVersionsStorage : Storage where
  getNarinfo hash := .ok (if hash = "b" then some oldNarInfo else if hash = "t" then some newNarInfo else none)
  hasNarinfo hash := .ok (hash = "b" ∨ hash = "t" : Bool)
  writeNarTo filePath :=
    if filePath = "nar/b.nar" then ⟨[1, 2, 3, 4, 5, 6], .ok true⟩
    else if filePath = "nar/t.nar" then ⟨[1, 2, 3, 4, 5, 6, 7], .ok true⟩
    else ⟨[], .ok false⟩

theorem twoVersionsStorage_named (hash : String) (ni : NarInfo) (h : twoVersionsStorage.narinfo? hash = some ni) :
    ni.storePath = "" ∨ hashPart ni.storePath = hash := by
  have hold : hashPart "/nix/store/b-x-1" = "b" := by decide
  have hnew : hashPart "/nix/store/t-x-2" = "t" := by decide
  unfold Storage.narinfo? twoVersionsStorage at h
  dsimp only at h
  right
  by_cases hb : hash = "b"
  · rw [if_pos hb] at h
    cases h
    exact hold.trans hb.symm
  · rw [if_neg hb] at h
    by_cases ht : hash = "t"
    · rw [if_pos ht] at h
      cases h
      exact hnew.trans ht.symm
    · rw [if_neg ht] at h
      cases h

def twoVersions : NarServer := ⟨twoVersionsStorage, twoVersionsStorage_named⟩

/-- A delta is what follows the dictionary. -/
def prefixCodec : DeltaCodec where
  compressWithDict data dict := if dict.isPrefixOf data then some (data.drop dict.length) else none
  decompressWithDict delta dict := some (dict ++ delta)
  decompress_compress data dict delta h := by
    obtain ⟨hpre, heq⟩ := Option.ite_none_right_eq_some.mp h
    cases heq
    obtain ⟨rest, rfl⟩ := List.isPrefixOf_iff_prefix.mp hpre
    rw [List.drop_left]

def twoVersionsDump (_ : Nat) (hash : String) : Option Bytes := twoVersions.getNar ("nar/" ++ hash ++ ".nar")

abbrev twoVersionsNext := deltaNext twoVersions prefixCodec id twoVersionsDump

def DeltaStep.isStream : DeltaStep → Bool
  | .streamPath _ => true
  | _ => false

/-- The state in which a client with the old version asks for the new one. -/
def negotiated (s : DeltaSystem) : Bool :=
  (s.clients 0).todo = ["t"] && s.cache.entryForTarget "t" = some ("b", [7]) &&
    (entryForHash (s.clients 0).available "t").any (fun entry => entry.deltaBaseHash = "b") && (s.clients 0).receiver.currentHash = "" &&
      (twoVersionsNext s (.streamPath 0)).any fun s' => s'.staged = [⟨0, "t", [1, 2, 3, 4, 5, 6, 7]⟩]

theorem deltaRun_staged_sameBase : ∃ s, s.staged = [⟨0, "t", [1, 2, 3, 4, 5, 6, 7]⟩] ∧ StagedStored twoVersions s := by
  obtain ⟨s, hrun, hs⟩ := (Option.any_eq_true ..).mp
    (show (([.negotiate 0 ["t"] ["b"], .joinDelta 0 true, .requestStream 0 ["t"]].foldlM
      (fun s a => if a.isStream = false then twoVersionsNext s a else none) DeltaSystem.init).any negotiated) = true by decide +kernel)
  unfold negotiated at hs
  simp only [Bool.and_eq_true, decide_eq_true_eq] at hs
  obtain ⟨⟨⟨⟨htodo, hcached⟩, hentry⟩, hfresh⟩, hnext⟩ := hs
  obtain ⟨s', hnext, hstaged⟩ := (Option.any_eq_true ..).mp hnext
  have hbefore : Run (guarded (deltaStep twoVersions prefixCodec id twoVersionsDump) (DeltaSafe twoVersions twoVersionsDump)) .init
      [.negotiate 0 ["t"] ["b"], .joinDelta 0 true, .requestStream 0 ["t"]] s := by
    have hguarded : Run (guarded (stepOf twoVersionsNext) fun _ a => a.isStream = false) .init _ s := run_of_foldlM_guarded hrun
    refine hguarded.mono fun _ a _ h => ⟨?_, h.2⟩
    cases a with
    | streamPath client => cases h.1
    | _ => trivial
  have hsafe : DeltaSafe twoVersions twoVersionsDump s (.streamPath 0) := by
    intro hash todo h entry hfound
    rw [htodo] at h
    cases h
    rw [hfound] at hentry
    have hbase : entry.deltaBaseHash = "b" := of_decide_eq_true hentry
    constructor
    · intro baseHash delta h
      rw [hcached] at h
      cases h
      rw [hbase]
      exact ⟨by decide, .inr ⟨rfl, fun nar h => h⟩⟩
    · intro hnone
      unfold DeltaSystem.turn DeltaCache.getForTarget at hnone
      rw [hcached] at hnone
      cases hnone
    · intro h
      rw [hfresh] at h
      exact absurd h (by decide)
  exact ⟨s', of_decide_eq_true hstaged, deltaRun_staged twoVersions prefixCodec id twoVersionsDump
    (hbefore.append (.cons ⟨hsafe, hnext⟩ (.nil s')))⟩

/-- A client without the old version stages the delta that another one's negotiation left. -/
theorem delta_staged_as_nar : ¬ ∀ (server : NarServer) (codec : DeltaCodec) (sign : String → String) (dump : Nat → String → Option Bytes)
    (s : DeltaSystem) (steps : List DeltaStep), (∀ client baseHash, BaseAgrees server dump client baseHash) →
      Run (deltaStep server codec sign dump) .init steps s → StagedStored server s := by
  intro h
  obtain ⟨s, hrun, hs⟩ := (Option.any_eq_true ..).mp
    (show (([.negotiate 0 ["t"] ["b"], .joinDelta 0 true, .negotiate 1 ["t"] [], .requestStream 1 ["t"], .streamPath 1].foldlM
      twoVersionsNext DeltaSystem.init).any fun s => s.staged = [⟨1, "t", [7]⟩]) = true by decide +kernel)
  have hstored := h twoVersions prefixCodec id twoVersionsDump s _ (fun _ _ _ h => h) (run_of_foldlM hrun) ⟨1, "t", [7]⟩
    (by rw [of_decide_eq_true hs]; exact List.mem_singleton_self _)
  exact absurd hstored (by decide)

end Ekapkgs
