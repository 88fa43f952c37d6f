import Ekapkgs.ChunkStore
import Ekapkgs.Negotiate

/-!
# Pulling paths through the chunk store

`cas_pull.rs`: negotiate chunks, index the answer, download what is missing,
reassemble every path into a staging directory, import the directory. A path
that cannot be reassembled is skipped with a warning.
-/

namespace Ekapkgs

/-! ## The manifest of a negotiation -/

inductive Compression where
  | unspecified | zstd | xz | none
  deriving DecidableEq

structure ManifestEntry extends PathManifestEntry where
  narHash : String
  narSize : Nat
  signatures : List String
  ca : String
  url : String
  compression : Compression
  fileHash : String
  fileSize : Nat
  deriving DecidableEq

def Compression.toString : Compression → String
  | .zstd => "zstd"
  | .xz => "xz"
  | _ => "none"

def buildNarinfoText (entry : ManifestEntry) : String :=
  line "StorePath" entry.storePath ++ line "URL" entry.url ++ line "Compression" entry.compression.toString ++
  (if entry.fileHash = "" then "" else line "FileHash" entry.fileHash) ++
  (if entry.fileSize > 0 then line "FileSize" (ToString.toString entry.fileSize) else "") ++
  line "NarHash" entry.narHash ++ line "NarSize" (ToString.toString entry.narSize) ++
  (if entry.references = [] then "" else line "References" (join ' ' (basenames entry.references))) ++
  String.join (entry.signatures.map (line "Sig")) ++
  (if entry.ca = "" then "" else line "CA" entry.ca)

/-! ## The machine and its peers -/

inductive PullError (δ : Type) where
  /-- The local store or the staging directory failed. -/
  | store (e : CasError δ)
  | negotiate
  | importFailed

inductive NegotiateError where
  | unimplemented | other

/-- What `cas_pull` asks of others: the chunk negotiation, a download by URL
(nothing when it fails or its status is no success), the order downloads end in,
and `nix copy` from the files of a staging directory. -/
structure Peers (δ : Type) where
  negotiateChunks : List String → List String → List δ → Except NegotiateError ChunkNegotiateResponse
  get : String → Option Bytes
  arrivals : (chunks : List ChunkDownload) → {arrived : List ChunkDownload // arrived.Perm chunks}
  importFromLocalCache : List (String × Bytes) → Bool

/-- The files of the staging directory are listed in the order they are written. -/
structure Client (δ : Type) where
  store : ChunkStore δ
  staging : List (String × Bytes)

abbrev PullM (δ : Type) := EStateM (PullError δ) (Client δ)

variable {δ : Type} [DecidableEq δ] (ext : Ext δ) (fails : Call δ → Bool) (peers : Peers δ)

def onStore {α : Type} (m : ChunkM δ α) : PullM δ α := fun client =>
  match m client.store with
  | .ok a store => .ok a { client with store }
  | .error e store => .error (.store e) { client with store }

/-- `let _ =`: what the call did stays, and its error is dropped. An endless
recursion does not come back. -/
def ignoring {α : Type} (m : ChunkM δ α) : PullM δ Unit := fun client =>
  match m client.store with
  | .ok _ store => .ok () { client with store }
  | .error .depth store => .error (.store .depth) { client with store }
  | .error _ store => .ok () { client with store }

def write (path : String) (bytes : Bytes) : PullM δ Unit := do
  onStore (performCall fails (.writeStaged path))
  modify fun client => { client with staging := client.staging ++ [(path, bytes)] }

/-! ## Negotiation and downloads -/

def downloadChunk (chunk : ChunkDownload) : Option (δ × Bytes) :=
  let expectedDigest := (chunk.digest.map B3Digest.digest).getD []
  match peers.get chunk.url with
  | none => none
  | some data =>
    if ext.toVec (ext.blake3 data) ≠ expectedDigest then none
    else (ext.tryFrom expectedDigest).map fun digest => (digest, data)

def storeDownloaded (result : Option (δ × Bytes)) : PullM δ Unit :=
  match result with
  | some (digest, data) => onStore (storeChunkFile fails digest data)
  | none => pure ()

/-- The response whose chunks and metadata are now in the store, unless the
caller is to fall back. -/
def fetchResponse (wantHashes haveHashes : List String) : PullM δ (Option ChunkNegotiateResponse) := do
  onStore (performCall fails .openStore)
  let haveChunks ← onStore fun store =>
    match store.allChunkDigests fails with
    | .ok digests => .ok digests store
    | .error e => .error e store
  match peers.negotiateChunks wantHashes haveHashes haveChunks with
  | .error .unimplemented => pure none
  | .error .other => throw .negotiate
  | .ok response =>
    if response.pathMappings.isEmpty then pure none
    else do
      onStore (indexResponse fails ext response)
      let results := (peers.arrivals response.missingChunks).val.map (downloadChunk ext peers)
      results.forM (storeDownloaded fails)
      if results.any Option.isNone then pure none else pure (some response)

/-! ## Reassembly -/

/-- The last entry of a hash wins. -/
def entryByHash (available : List ManifestEntry) (hash : String) : Option ManifestEntry :=
  available.reverse.find? fun entry => entry.hash = hash

/-- An unknown hash algorithm is not verified. -/
def verifyNarHash (narBytes : Bytes) (expected : String) : Bool :=
  match stripPrefix "sha256:" expected with
  | none => true
  | some expectedHex => hexEncode (ext.sha256 narBytes) = expectedHex

/-- Whether the path was reassembled and staged. -/
def stageMapping (available : List ManifestEntry) (mapping : CaPathMapping) : PullM δ Bool := do
  match mapping.rootNode with
  | none => pure false
  | some rootNode =>
    match entryByHash available mapping.storePathHash with
    | none => pure false
    | some entry => do
      onStore (performCall fails (.createParent entry.url))
      let client ← get
      match writeNarStreaming ext (client.store.reader fails ext) client.store.depth rootNode ((), []) with
      | .error .depth _ => throw (.store .depth)
      | .error _ _ => pure false
      | .ok () s =>
        let narBytes := s.2
        if !verifyNarHash ext narBytes entry.narHash then pure false
        else do
          write fails entry.url narBytes
          write fails (mapping.storePathHash ++ ".narinfo") (asBytes (buildNarinfoText entry))
          pure true

def stageMappings (available : List ManifestEntry) : List CaPathMapping → PullM δ Nat
  | [] => pure 0
  | mapping :: mappings => do
    let staged ← stageMapping ext fails available mapping
    let reassembled ← stageMappings available mappings
    pure (reassembled + if staged then 1 else 0)

/-! ## The pull -/

def DEFAULT_MAX_CACHE_BYTES : Nat := 10 * 1024 * 1024 * 1024

def recordMapping (now : Nat) (mapping : CaPathMapping) : PullM δ Unit :=
  match mapping.rootNode with
  | some rootNode => ignoring (recordCasPath fails ext now mapping.storePathHash rootNode)
  | none => pure ()

def importStaged (now : Nat) (response : ChunkNegotiateResponse) : PullM δ Unit := do
  let client ← get
  if peers.importFromLocalCache client.staging then pure () else throw .importFailed
  response.pathMappings.forM (recordMapping ext fails now)
  ignoring (evictToSize fails ext (DEFAULT_MAX_CACHE_BYTES * 4 / 5))

def openStaging : PullM δ Unit := do
  onStore (performCall fails .openStaging)
  modify fun client => { client with staging := [] }
  write fails "nix-cache-info" (asBytes "StoreDir: /nix/store\n")

/-- `false` tells the caller to fall back. -/
def casPull (now : Nat) (wantHashes haveHashes : List String) (available : List ManifestEntry) : PullM δ Bool := do
  match ← fetchResponse ext fails peers wantHashes haveHashes with
  | none => pure false
  | some response => do
    openStaging fails
    let reassembled ← stageMappings ext fails available response.pathMappings
    if reassembled = 0 then pure false
    else do
      importStaged ext fails peers now response
      pure true

end Ekapkgs
