import Ekapkgs.ChunkStore
import Ekapkgs.Existence
import Ekapkgs.NarinfoCache

/-!
# Pushing a path

`push_single_path` and `try_cas_push` of the client (`commands/cache.rs`), which
decompose the NAR as the store does (`decompose.rs`), and the handlers of the
requests they make. An attempt makes as many requests as it gets to make before it
is cut off, and any of them may be lost or stay unanswered.
-/

namespace Ekapkgs
open Keyed Fallible

/-! ## Decomposing a NAR -/

section
variable {δ : Type} [DecidableEq δ] (ext : Ext δ)

structure DecomposeResult (δ : Type) where
  chunks : List (δ × Bytes)
  directories : List (δ × CaDirectory)
  fileChunkMappings : List FileChunkMapping

/-- `chunk_seen` holds the digests of `chunks`. -/
def DecomposeResult.addChunk (r : DecomposeResult δ) (data : Bytes) : DecomposeResult δ :=
  if r.chunks.any fun c => c.1 = ext.blake3 data then r else { r with chunks := r.chunks ++ [(ext.blake3 data, data)] }

def decomposeFile (executable : Bool) (data : Bytes) (r : DecomposeResult δ) : CaNode × DecomposeResult δ :=
  let chunks := ext.chunks data
  let r := chunks.foldl (fun r chunk => r.addChunk ext chunk) r
  let fileDigest : B3Digest := ⟨ext.toVec (ext.blake3 chunks.flatten)⟩
  let mapping : FileChunkMapping := ⟨some fileDigest, chunks.map fun c => ⟨some ⟨ext.toVec (ext.blake3 c)⟩, c.length⟩⟩
  (⟨some (.file ⟨some fileDigest, (chunks.map List.length).sum, executable⟩)⟩,
    if chunks = [] then r else { r with fileChunkMappings := r.fileChunkMappings ++ [mapping] })

mutual
def decomposeNode : NarNode → DecomposeResult δ → CaNode × DecomposeResult δ
  | .regular executable data, r => decomposeFile ext executable data r
  | .directory entries, r =>
    let (caEntries, r) := decomposeEntries entries r
    let dirDigest := ext.blake3 (ext.encodeDirectory ⟨caEntries⟩)
    (⟨some (.directory ⟨some ⟨ext.toVec dirDigest⟩, caEntries.length⟩)⟩,
      { r with directories := r.directories ++ [(dirDigest, ⟨caEntries⟩)] })
  | .symlink target, r => (⟨some (.symlink ⟨target⟩)⟩, r)
def decomposeEntries : List (String × NarNode) → DecomposeResult δ → List CaDirectoryEntry × DecomposeResult δ
  | [], r => ([], r)
  | (name, node) :: entries, r =>
    let (childNode, r) := decomposeNode node r
    let (caEntries, r) := decomposeEntries entries r
    (⟨name, some childNode⟩ :: caEntries, r)
end

def decomposeNar (node : NarNode) : CaNode × DecomposeResult δ := decomposeNode ext node ⟨[], [], []⟩

end

/-! ## The server -/

/-- The store and the cache of signed narinfos. -/
structure CacheServer (δ : Type) where
  store : Store δ
  cache : NarInfoCache

inductive Fate where
  | answered
  /-- The server handles the request, and the answer is lost. -/
  | unanswered
  | lost
  deriving DecidableEq

/-- A request, with what the server has at that time. -/
structure PushRequest where
  now : Nat
  filters : Filters
  writeTokens : List String
  fate : Fate

structure PushNegotiateResponse where
  missingChunks : List B3Digest
  alreadyExists : Bool

def checkAuth (writeTokens : List String) (token : Option String) : Bool := token.any writeTokens.contains

variable {δ : Type} [DecidableEq δ] (ext : Ext δ) (level : Int) (sign : String → String)

/-- `GET /{hash}.narinfo`. -/
def getNarinfo (hash : String) (s : CacheServer δ) : Option String × CacheServer δ :=
  if !isValidStoreHash hash then (none, s)
  else
    match s.cache.get hash with
    | some text => (some text, s)
    | none =>
      match loadMetadata hash s.store with
      | .ok (some ni) st => (some (signedText sign ni), ⟨st, s.cache.insert hash (signedText sign ni)⟩)
      | .ok none st => (none, { s with store := st })
      | .error _ st => (none, { s with store := st })

/-- `HEAD /{hash}.narinfo`: the same handler, without the body. -/
def headNarinfo (hash : String) (_ : PushRequest) (s : CacheServer δ) : Bool × CacheServer δ :=
  let (text, s) := getNarinfo sign hash s
  (text.isSome, s)

def missingChunks (f : Filters) : List B3Digest → CasM δ (List B3Digest)
  | [] => pure []
  | digest :: digests =>
    match ext.tryFrom digest.digest with
    | none => missingChunks f digests
    | some d => do
      let present ← tryCatch (hasChunk ext f d) fun _ => pure false
      let missing ← missingChunks f digests
      pure (if present then missing else digest :: missing)

/-- `PushNegotiate`, of whose request the server reads the hash and the mappings. -/
def pushNegotiate (hash : String) (mappings : List FileChunkMapping) (r : PushRequest) (s : CacheServer δ) :
    Option PushNegotiateResponse × CacheServer δ :=
  match hasNarinfo ext r.filters hash s.store with
  | .error _ st => (none, { s with store := st })
  | .ok true st => (some ⟨[], true⟩, { s with store := st })
  | .ok false st =>
    match missingChunks ext r.filters (mappings.flatMap fun m => m.chunks.filterMap ChunkMeta.digest) st with
    | .ok missing st => (some ⟨missing, false⟩, { s with store := st })
    | .error _ st => (none, { s with store := st })

section
variable (token : Option String)

/-- `PUT /cas/chunk/{b3hex}`. -/
def putChunk (digest : δ) (body : Bytes) (r : PushRequest) (s : CacheServer δ) : Bool × CacheServer δ :=
  if !checkAuth r.writeTokens token then (false, s)
  else if ext.blake3 body ≠ digest then (false, s)
  else
    match storeChunkExternal ext level body s.store with
    | .ok _ st => (true, { s with store := st })
    | .error _ st => (false, { s with store := st })

/-- `PUT /nar/{file}`. -/
def putNarFile (file : String) (body : Bytes) (r : PushRequest) (s : CacheServer δ) : Bool × CacheServer δ :=
  if !checkAuth r.writeTokens token then (false, s)
  else
    match acceptNar file with
    | none => (false, s)
    | some narPath =>
      match putNar ext level r.now narPath body s.store with
      | .ok _ st => (true, { s with store := st })
      | .error _ st => (false, { s with store := st })

/-- `PUT /{hash}.narinfo`. -/
def putNarinfoText (hash : String) (body : Bytes) (r : PushRequest) (s : CacheServer δ) : Bool × CacheServer δ :=
  if !checkAuth r.writeTokens token then (false, s)
  else
    match acceptNarinfo sign hash body with
    | none => (false, s)
    | some content =>
      match putNarinfo ext r.now hash content s.store with
      | .ok _ st => (true, { s with store := st })
      | .error _ st => (false, { s with store := st })

end

/-! ## The client -/

/-- What `nix path-info --json` says of a path. -/
structure PathInfo where
  narHash : String
  narSize : Nat
  references : List String
  signatures : List String
  ca : Option String

/-- A path of the local store: `path` is its key in the output of `nix path-info`,
and `narData` the output of `nix-store --dump`. -/
structure LocalPath where
  storePath : String
  path : String
  info : PathInfo
  narData : Bytes

def LocalPath.hash (p : LocalPath) : String := hashPart p.storePath

def LocalPath.narFile (p : LocalPath) : String := p.hash ++ ".nar"

def LocalPath.narinfo (p : LocalPath) : String :=
  let refs := basenames p.info.references
  line "StorePath" p.path ++ line "URL" ("nar/" ++ p.narFile) ++ line "Compression" "none" ++
  line "FileHash" p.info.narHash ++ line "FileSize" (toString p.narData.length) ++
  line "NarHash" p.info.narHash ++ line "NarSize" (toString p.info.narSize) ++
  (if refs = [] then "" else line "References" (join ' ' refs)) ++
  String.join (p.info.signatures.map (line "Sig")) ++
  (match p.info.ca with
    | some ca => line "CA" ca
    | none => "")

inductive PushError where
  /-- The attempt makes no further request. -/
  | cutOff
  | failed
  deriving DecidableEq

inductive PushResult where
  | uploaded (narSize uploadSize : Nat)
  | alreadyExists
  deriving DecidableEq

structure PushState (δ : Type) where
  server : CacheServer δ
  requests : List PushRequest

abbrev PushM (δ : Type) := EStateM PushError (PushState δ)

def request {α : Type} (handle : PushRequest → CacheServer δ → α × CacheServer δ) : PushM δ α := fun s =>
  match s.requests with
  | [] => .error .cutOff s
  | r :: requests =>
    match r.fate with
    | .answered => .ok (handle r s.server).1 ⟨(handle r s.server).2, requests⟩
    | .unanswered => .error .failed ⟨(handle r s.server).2, requests⟩
    | .lost => .error .failed ⟨s.server, requests⟩

/-- `if let Ok(..)`: an error of a request is passed over, and the end of the attempt is not. -/
def orFailed {α : Type} (m : PushM δ α) : PushM δ (Option α) := fun s =>
  match m s with
  | .ok a s => .ok (some a) s
  | .error .failed s => .ok none s
  | .error .cutOff s => .error .cutOff s

variable (token : Option String) (p : LocalPath)

def uploadChunks (chunks : List (δ × Bytes)) : List B3Digest → PushM δ Bool
  | [] => pure true
  | missing :: rest =>
    match (ext.tryFrom missing.digest).bind fun d => chunks.find? fun c => c.1 = d with
    | none => uploadChunks chunks rest
    | some (d, data) => do
      if ← request (putChunk ext level token d data) then uploadChunks chunks rest
      else pure false

/-- The NAR, and then the narinfo. -/
def uploadPath : PushM δ Bool := do
  if ← request (putNarFile ext level token p.narFile p.narData) then
    request (putNarinfoText ext sign token p.hash (asBytes p.narinfo))
  else pure false

/-- That no connection is made is an error of its only request. -/
def tryCasPush : PushM δ Bool :=
  match parseNar p.narData with
  | .error _ => throw .failed
  | .ok narNode => do
    let result := (decomposeNar ext narNode).2
    match (← orFailed (request (pushNegotiate ext p.hash result.fileChunkMappings))).join with
    | none => pure false
    | some response =>
      if response.alreadyExists then pure true
      else if ← uploadChunks ext level token result.chunks response.missingChunks then uploadPath ext level sign token p
      else pure false

def pushSinglePath : PushM δ PushResult := do
  if ← request (headNarinfo sign p.hash) then pure .alreadyExists
  else if (← orFailed (tryCasPush ext level sign token p)) = some true then
    pure (.uploaded p.info.narSize p.narData.length)
  else if ← uploadPath ext level sign token p then pure (.uploaded p.info.narSize p.narData.length)
  else throw .failed

/-- The server once an attempt has ended. -/
def afterAttempt (s : CacheServer δ) (requests : List PushRequest) : CacheServer δ :=
  (finalState (pushSinglePath ext level sign token p ⟨s, requests⟩)).server

/-- One attempt after the other, each with the requests it gets to make. -/
abbrev attemptStep : CacheServer δ → List PushRequest → CacheServer δ → Prop :=
  Runs.stepOf fun s requests => some (afterAttempt ext level sign token p s requests)

/-! ## What a push is for -/

/-- The metadata of the path, with its references as basenames. -/
structure LocalPath.Carried (p : LocalPath) (ni : NarInfo) : Prop where
  storePath : ni.storePath = p.path
  narHash : ni.narHash = p.info.narHash
  narSize : ni.narSize = p.info.narSize
  references : ni.references = basenames p.info.references

/-- The server has the metadata of the path, and its NAR. -/
structure Pushed (s : CacheServer δ) : Prop where
  narinfo : ∃ ni, storedInfo s.store p.hash = some ni ∧ p.Carried ni ∧ (getNarinfo sign p.hash s).1 = some (signedText sign ni)
  nar : ∃ st, getNar ext ("nar/" ++ p.narFile) s.store = .ok (some p.narData) st

/-- The row is one that `put_nar` made up. -/
def CacheServer.HasPlaceholder (p : LocalPath) (s : CacheServer δ) : Prop := (storedInfo s.store p.hash).any NarInfo.isPlaceholder = true

end Ekapkgs
