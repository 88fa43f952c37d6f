import Ekapkgs.DeltaStreams
import Ekapkgs.Lib.Fallible

/-!
# Importing a stream

`stream_and_import` in `download.rs`: receive the NARs of a negotiated response
in one stream, stage them, and let `nix copy` import the staging directory.
-/

namespace Ekapkgs
open Fallible

structure StreamResponse where
  available : List DeltaEntry
  downloadPlan : List DownloadBatch

inductive StreamError where
  /-- A call on the staging directory failed, or the stream did not open. -/
  | io
  /-- The stream broke off. -/
  | stream
  | importFailed

/-- The paths staged so far, each with its NAR, and the outcomes of the calls
still to come. -/
structure StreamClient where
  staged : List (DeltaEntry × Bytes)
  faults : List Bool

abbrev StreamM := EStateM StreamError StreamClient

/-- The staging directory: every staged path has its NAR and its narinfo there. -/
def StreamClient.files (client : StreamClient) : List (String × Bytes) :=
  ("nix-cache-info", asBytes "StoreDir: /nix/store\n") :: client.staged.flatMap fun path =>
    [(path.1.url, path.2), (path.1.hash ++ ".narinfo", asBytes (buildNarinfoText path.1.toManifestEntry))]

def ioCall : StreamM Unit := fun client =>
  match client.faults with
  | [] => .ok () client
  | true :: faults => .error .io { client with faults }
  | false :: faults => .ok () { client with faults }

/-! ## The paths to ask for -/

/-- The plan in its order, then the paths that it does not cover. -/
def requestedHashes (response : StreamResponse) : List String :=
  let pathHashes := response.downloadPlan.flatMap DownloadBatch.paths
  pathHashes ++ (response.available.map (·.hash)).filter fun hash => hash ∉ pathHashes

/-! ## Receiving -/

variable (codec : DeltaCodec) (dump : Nat → String → Option Bytes) (machine : Nat)

/-- The entry that a received NAR is staged for, with the NAR. An unknown path
and a delta that does not apply are skipped. -/
def stagedPath (available : List DeltaEntry) (received : Received) : Option (DeltaEntry × Bytes) :=
  (entryForHash available received.hash).bind fun entry =>
    (stageReceived codec dump machine available received).map fun nar => (entry, nar.bytes)

def stagePath (path : DeltaEntry × Bytes) : StreamM Unit := do
  ioCall  -- create_dir_all
  ioCall  -- the NAR
  ioCall  -- the narinfo
  modify fun client => { client with staged := client.staged ++ [path] }

/-- The loop over the messages; the result is `paths_received`. -/
def receiveMessages (available : List DeltaEntry) : Receiver → List NarChunk → Nat → StreamM Nat
  | _, [], pathsReceived => pure pathsReceived
  | receiver, chunk :: chunks, pathsReceived =>
    match (receiver.message chunk).2.bind (stagedPath codec dump machine available) with
    | none => receiveMessages available (receiver.message chunk).1 chunks pathsReceived
    | some path => do
      stagePath path
      receiveMessages available (receiver.message chunk).1 chunks (pathsReceived + 1)

/-- `stream` is the stream that the server answers a request with: its messages
and how it ends. -/
def streamAndImport (stream : List String → List NarChunk × BodyEnd) (importFromLocalCache : List (String × Bytes) → Bool)
    (response : StreamResponse) : StreamM Unit := do
  if response.available.isEmpty then pure ()
  else
    ioCall  -- tempdir
    ioCall  -- create_dir_all
    ioCall  -- nix-cache-info
    ioCall  -- stream_nars
    let messages := stream (requestedHashes response)
    let pathsReceived ← receiveMessages codec dump machine response.available .start messages.1 0
    if messages.2 = .error then throw .stream
    else if pathsReceived = 0 then pure ()
    else
      let client ← get
      if importFromLocalCache client.files then pure () else throw .importFailed

/-! ## What is staged -/

variable {codec dump machine} {available : List DeltaEntry} {response : StreamResponse}

theorem mem_requestedHashes {entry : DeltaEntry} (h : entry ∈ response.available) : entry.hash ∈ requestedHashes response := by
  unfold requestedHashes
  by_cases hplan : entry.hash ∈ response.downloadPlan.flatMap DownloadBatch.paths
  · exact List.mem_append_left _ hplan
  · exact List.mem_append_right _ (List.mem_filter.mpr ⟨List.mem_map_of_mem h, by simpa using hplan⟩)

theorem ioCall_ok {client client' : StreamClient} {u : Unit} (h : ioCall client = .ok u client') : client'.staged = client.staged := by
  unfold ioCall at h
  split at h
  · cases h; rfl
  · cases h
  · cases h; rfl

theorem ioCall_quiet {client : StreamClient} (hf : client.faults = []) : ioCall client = .ok () client := by
  unfold ioCall; rw [hf]

theorem stagePath_ok {path : DeltaEntry × Bytes} {client client' : StreamClient} {u : Unit} (h : stagePath path client = .ok u client') :
    client'.staged = client.staged ++ [path] := by
  obtain ⟨_, c₁, h₁, h⟩ := bind_ok.mp h
  obtain ⟨_, c₂, h₂, h⟩ := bind_ok.mp h
  obtain ⟨_, c₃, h₃, h⟩ := bind_ok.mp h
  cases h
  rw [← ioCall_ok h₁, ← ioCall_ok h₂, ← ioCall_ok h₃]

theorem stagePath_quiet {path : DeltaEntry × Bytes} {client : StreamClient} (hf : client.faults = []) :
    stagePath path client = .ok () { client with staged := client.staged ++ [path] } := by
  unfold stagePath
  rw [bind_of_ok (ioCall_quiet hf), bind_of_ok (ioCall_quiet hf), bind_of_ok (ioCall_quiet hf)]
  rfl

/-- The paths that a sequence of messages gets staged. -/
def stagedPaths (codec : DeltaCodec) (dump : Nat → String → Option Bytes) (machine : Nat) (available : List DeltaEntry)
    (messages : List NarChunk) : List (DeltaEntry × Bytes) :=
  (Receiver.start.stream messages).filterMap (stagedPath codec dump machine available)

theorem filterMap_toList {α β : Type} (f : α → Option β) (o : Option α) : o.toList.filterMap f = (o.bind f).toList := by
  cases o with
  | none => rfl
  | some a =>
    rw [Option.toList_some, Option.bind_some, List.filterMap_cons]
    cases f a <;> rfl

theorem receiveMessages_ok : ∀ {messages : List NarChunk} {receiver : Receiver} {n n' : Nat} {client client' : StreamClient},
    receiveMessages codec dump machine available receiver messages n client = .ok n' client' →
      client'.staged = client.staged ++ (receiver.stream messages).filterMap (stagedPath codec dump machine available) ∧
        n' = n + ((receiver.stream messages).filterMap (stagedPath codec dump machine available)).length
  | [], _, _, _, _, _, h => by
    cases h
    exact ⟨(List.append_nil _).symm, rfl⟩
  | chunk :: messages, receiver, n, n', client, client', h => by
    unfold receiveMessages at h
    rw [Receiver.stream, List.filterMap_append, filterMap_toList]
    cases hpath : (receiver.message chunk).2.bind (stagedPath codec dump machine available) with
    | none =>
      rw [hpath] at h
      rw [Option.toList_none, List.nil_append]
      exact receiveMessages_ok h
    | some path =>
      rw [hpath] at h
      obtain ⟨_, client₁, hstage, h⟩ := bind_ok.mp h
      obtain ⟨hstaged, hn⟩ := receiveMessages_ok h
      rw [hstaged, hn, stagePath_ok hstage]
      exact ⟨by simp, by simp only [List.length_append, Option.toList_some, List.length_singleton]; omega⟩

theorem receiveMessages_quiet (codec : DeltaCodec) (dump : Nat → String → Option Bytes) (machine : Nat) (available : List DeltaEntry) :
    ∀ (messages : List NarChunk) (receiver : Receiver) (n : Nat) (client : StreamClient), client.faults = [] →
      ∃ n' client', receiveMessages codec dump machine available receiver messages n client = .ok n' client'
  | [], _, n, client, _ => ⟨n, client, rfl⟩
  | chunk :: messages, receiver, n, client, hf => by
    unfold receiveMessages
    cases (receiver.message chunk).2.bind (stagedPath codec dump machine available) with
    | none => exact receiveMessages_quiet codec dump machine available messages _ n client hf
    | some path =>
      obtain ⟨n', client', h⟩ := receiveMessages_quiet codec dump machine available messages (receiver.message chunk).1 (n + 1)
        { client with staged := client.staged ++ [path] } hf
      exact ⟨n', client', (bind_of_ok (stagePath_quiet hf)).trans h⟩

/-! ## A whole download -/

/-- A message group for the path is complete and gives a NAR to stage. -/
def PathStreamed (codec : DeltaCodec) (dump : Nat → String → Option Bytes) (machine : Nat) (available : List DeltaEntry)
    (messages : List NarChunk) (hash : String) : Prop :=
  ∃ received ∈ Receiver.start.stream messages, received.hash = hash ∧
    (stagedPath codec dump machine available received).isSome = true

/-- The path is staged with its NAR, in a directory that `nix copy` has taken
over and so verified. -/
def Imported (importFromLocalCache : List (String × Bytes) → Bool) (client : StreamClient) (available : List DeltaEntry)
    (hash : String) : Prop :=
  ∃ entry narData, entryForHash available hash = some entry ∧ (entry, narData) ∈ client.staged ∧
    importFromLocalCache client.files = true

/-- Whatever becomes of the calls on the staging directory and of the import, a
download that reports success has imported every path it asked for that the
server reported available. -/
def StreamDelivers (codec : DeltaCodec) (dump : Nat → String → Option Bytes) (machine : Nat)
    (stream : List String → List NarChunk × BodyEnd) (response : StreamResponse) : Prop :=
  ∀ importFromLocalCache faults client',
    streamAndImport codec dump machine stream importFromLocalCache response ⟨[], faults⟩ = .ok () client' →
      ∀ hash ∈ requestedHashes response, (∃ entry ∈ response.available, entry.hash = hash) →
        Imported importFromLocalCache client' response.available hash

theorem stagedPath_entry {received : Received} {entry : DeltaEntry} {narData : Bytes}
    (h : stagedPath codec dump machine available received = some (entry, narData)) :
    entryForHash available received.hash = some entry := by
  obtain ⟨entry', hentry, h⟩ := Option.bind_eq_some_iff.mp h
  obtain ⟨nar, -, h⟩ := Option.map_eq_some_iff.mp h
  cases h
  exact hentry

theorem entryForHash_hash {hash : String} {entry : DeltaEntry} (h : entryForHash available hash = some entry) :
    entry.hash = hash := by
  simpa using List.find?_some h

theorem pathStreamed_iff {messages : List NarChunk} {hash : String} :
    PathStreamed codec dump machine available messages hash ↔
      ∃ entry narData, entryForHash available hash = some entry ∧
        (entry, narData) ∈ stagedPaths codec dump machine available messages := by
  unfold PathStreamed stagedPaths
  constructor
  · rintro ⟨received, hmem, rfl, hsome⟩
    obtain ⟨⟨entry, narData⟩, hpath⟩ := Option.isSome_iff_exists.mp hsome
    exact ⟨entry, narData, stagedPath_entry hpath, List.mem_filterMap.mpr ⟨received, hmem, hpath⟩⟩
  · rintro ⟨entry, narData, hentry, hmem⟩
    obtain ⟨received, hmem, hpath⟩ := List.mem_filterMap.mp hmem
    refine ⟨received, hmem, ?_, by rw [hpath]; rfl⟩
    exact (entryForHash_hash (stagedPath_entry hpath)).symm.trans (entryForHash_hash hentry)

/-- A download that reports success has read its stream to a clean end, and has
imported what it staged of it, if that is anything at all. -/
theorem streamAndImport_ok {stream : List String → List NarChunk × BodyEnd} {importFromLocalCache : List (String × Bytes) → Bool}
    {faults : List Bool} {client' : StreamClient} (hne : response.available ≠ [])
    (h : streamAndImport codec dump machine stream importFromLocalCache response ⟨[], faults⟩ = .ok () client') :
    (stream (requestedHashes response)).2 = .complete ∧
      client'.staged = stagedPaths codec dump machine response.available (stream (requestedHashes response)).1 ∧
      (client'.staged ≠ [] → importFromLocalCache client'.files = true) := by
  unfold streamAndImport at h
  rw [if_neg (by simpa using hne)] at h
  obtain ⟨_, c₁, h₁, h⟩ := bind_ok.mp h
  obtain ⟨_, c₂, h₂, h⟩ := bind_ok.mp h
  obtain ⟨_, c₃, h₃, h⟩ := bind_ok.mp h
  obtain ⟨_, c₄, h₄, h⟩ := bind_ok.mp h
  obtain ⟨pathsReceived, c₅, hreceive, h⟩ := bind_ok.mp h
  obtain ⟨hstaged, hcount⟩ := receiveMessages_ok hreceive
  rw [ioCall_ok h₄, ioCall_ok h₃, ioCall_ok h₂, ioCall_ok h₁, List.nil_append] at hstaged
  split at h
  · cases h
  next hend =>
    have hcomplete : (stream (requestedHashes response)).2 = .complete := by
      cases hstream : (stream (requestedHashes response)).2 with
      | complete => rfl
      | error => exact absurd hstream hend
    split at h
    next hzero =>
      cases h
      refine ⟨hcomplete, hstaged, fun hsome => absurd ?_ hsome⟩
      rw [hstaged]
      exact List.eq_nil_of_length_eq_zero (by omega)
    next =>
      obtain ⟨_, c₆, hget, h⟩ := bind_ok.mp h
      cases hget
      split at h
      next himport => cases h; exact ⟨hcomplete, hstaged, fun _ => himport⟩
      next => cases h

/-- Nothing stands in the way of success but the stream. -/
theorem streamAndImport_quiet (codec : DeltaCodec) (dump : Nat → String → Option Bytes) (machine : Nat)
    {stream : List String → List NarChunk × BodyEnd} (hend : (stream (requestedHashes response)).2 = .complete) :
    ∃ client', streamAndImport codec dump machine stream (fun _ => true) response ⟨[], []⟩ = .ok () client' := by
  unfold streamAndImport
  by_cases hempty : response.available.isEmpty
  · rw [if_pos hempty]
    exact ⟨_, rfl⟩
  obtain ⟨n, client', hreceive⟩ := receiveMessages_quiet codec dump machine response.available
    (stream (requestedHashes response)).1 .start 0 ⟨[], []⟩ rfl
  refine ⟨client', ?_⟩
  rw [if_neg hempty, bind_of_ok (ioCall_quiet rfl), bind_of_ok (ioCall_quiet rfl), bind_of_ok (ioCall_quiet rfl),
    bind_of_ok (ioCall_quiet rfl), bind_of_ok hreceive, if_neg (by rw [hend]; decide)]
  by_cases hzero : n = 0
  · rw [if_pos hzero]; rfl
  · rw [if_neg hzero]; rfl

/-- Success means delivery exactly when the stream breaks off or has a NAR to
stage for every path: a path that is skipped, cut short or sent as a delta that
does not apply goes unnoticed. -/
theorem streamDelivers_iff (codec : DeltaCodec) (dump : Nat → String → Option Bytes) (machine : Nat)
    (stream : List String → List NarChunk × BodyEnd) (response : StreamResponse) :
    StreamDelivers codec dump machine stream response ↔
      (stream (requestedHashes response)).2 = .error ∨
        ∀ hash ∈ requestedHashes response, (∃ entry ∈ response.available, entry.hash = hash) →
          PathStreamed codec dump machine response.available (stream (requestedHashes response)).1 hash := by
  constructor
  · intro h
    by_cases hend : (stream (requestedHashes response)).2 = .error
    · exact .inl hend
    right
    intro hash hmem hreported
    have hcomplete : (stream (requestedHashes response)).2 = .complete := by
      cases hstream : (stream (requestedHashes response)).2 with
      | complete => rfl
      | error => exact absurd hstream hend
    obtain ⟨client', hrun⟩ := streamAndImport_quiet codec dump machine hcomplete
    obtain ⟨entry, narData, hentry, hstaged, -⟩ := h _ _ _ hrun hash hmem hreported
    have hne : response.available ≠ [] := by
      obtain ⟨entry, hentry, -⟩ := hreported
      exact List.ne_nil_of_mem hentry
    obtain ⟨-, hall, -⟩ := streamAndImport_ok hne hrun
    rw [hall] at hstaged
    exact pathStreamed_iff.mpr ⟨entry, narData, hentry, hstaged⟩
  · intro h importFromLocalCache faults client' hrun hash hmem hreported
    have hne : response.available ≠ [] := by
      obtain ⟨entry, hentry, -⟩ := hreported
      exact List.ne_nil_of_mem hentry
    obtain ⟨hcomplete, hstaged, himport⟩ := streamAndImport_ok hne hrun
    rcases h with hend | h
    · rw [hcomplete] at hend; cases hend
    obtain ⟨entry, narData, hentry, hpath⟩ := pathStreamed_iff.mp (h hash hmem hreported)
    rw [← hstaged] at hpath
    exact ⟨entry, narData, hentry, hpath, himport (List.ne_nil_of_mem hpath)⟩

/-! ## A delta that does not apply -/

/-- The client had the old version when it negotiated, and the response names it as the base. -/
def upgradeResponse : StreamResponse where
  available := [manifestEntry id oldNarInfo, (manifestEntry id newNarInfo).withDelta "b" "t" [7]]
  downloadPlan := [⟨["b", "t"], 0⟩]

/-- The old version whole, then the delta to the new one. -/
def upgradeStream (_ : List String) : List NarChunk × BodyEnd :=
  (sendNarChunks "b" [1, 2, 3, 4, 5, 6] false ++ sendNarChunks "t" [7] true, .complete)

theorem failed_delta_imported : ¬ ∀ (codec : DeltaCodec) (dump : Nat → String → Option Bytes) (machine : Nat)
    (stream : List String → List NarChunk × BodyEnd) (response : StreamResponse),
      StreamDelivers codec dump machine stream response := by
  intro h
  -- the base has gone from the client's store
  obtain ⟨client', hrun⟩ := streamAndImport_quiet prefixCodec (fun _ _ => none) 0
    (show (upgradeStream (requestedHashes upgradeResponse)).2 = .complete from rfl)
  obtain ⟨-, hstaged, -⟩ := streamAndImport_ok (List.cons_ne_nil _ _) hrun
  obtain ⟨entry, narData, hentry, hmem, -⟩ := h prefixCodec (fun _ _ => none) 0 upgradeStream upgradeResponse _ _ _ hrun "t"
    (by decide) ⟨_, List.mem_cons_of_mem _ (List.mem_singleton_self _), by decide⟩
  rw [hstaged] at hmem
  obtain ⟨received, hreceived, hhash, hsome⟩ := pathStreamed_iff.mpr ⟨entry, narData, hentry, hmem⟩
  have hskipped : (Receiver.start.stream (upgradeStream (requestedHashes upgradeResponse)).1).all (fun received =>
      received.hash ≠ "t" || (stagedPath prefixCodec (fun _ _ => none) 0 upgradeResponse.available received).isNone) = true := by
    decide
  have hnone := List.all_eq_true.mp hskipped received hreceived
  simp [hhash] at hnone
  rw [hnone] at hsome
  cases hsome

end Ekapkgs
