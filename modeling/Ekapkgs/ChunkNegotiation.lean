import Ekapkgs.CasPull
import Ekapkgs.CasWalk
import Ekapkgs.HexDecode

/-!
# Chunk negotiation

`negotiate_chunks` of the server, the request that the client sends it, and the
chunk endpoint that the answer points to.
-/

namespace Ekapkgs
open Keyed Fallible

variable {δ : Type} [DecidableEq δ]

/-! ## The server -/

/-- An empty bloom field says that the digests are in the list. -/
structure ChunkNegotiateRequest where
  want : List String
  haveHashes : List String
  haveChunks : List B3Digest
  haveChunksBloom : Option BloomFilter

structure ChunkNegotiateAnswer extends ChunkNegotiateResponse where
  unavailable : List String

inductive ChunkStatus where
  | invalidArgument (message : String)
  | internal

def MAX_CHUNK_WANT : Nat := 10000
def MAX_CHUNK_HAVE : Nat := 10000
def MAX_HAVE_CHUNKS : Nat := 500000
def MAX_BLOOM_BYTES : Nat := 16 * 1024 * 1024

variable (ext : Ext δ)

/-- The checks of the request, and what it says of the client's chunks. -/
def haveCheck (req : ChunkNegotiateRequest) : Except ChunkStatus (ChunkHaveCheck δ) :=
  if MAX_CHUNK_WANT < req.want.length then .error (.invalidArgument "too many want entries (max 10000)")
  else if MAX_CHUNK_HAVE < req.haveHashes.length then .error (.invalidArgument "too many have entries (max 10000)")
  else if MAX_HAVE_CHUNKS < req.haveChunks.length then .error (.invalidArgument "too many have_chunks entries (max 500000)")
  else
    match req.haveChunksBloom with
    | some filter =>
      if MAX_BLOOM_BYTES < filter.bits.length / 8 then
        .error (.invalidArgument s!"bloom filter too large ({filter.bits.length / 8} bytes, max {MAX_BLOOM_BYTES})")
      else .ok (.bloom filter)
    | none => .ok (.exact (req.haveChunks.filterMap fun d => ext.tryFrom d.digest))

/-- The roots of the wanted paths, and the paths without one. A root goes through
`get_cas_root`, which encodes it. -/
def wantedRoots : List String → CasM δ (List CaPathMapping × List String)
  | [] => pure ([], [])
  | hash :: hashes => do
    let root ← orNone (getRootNode ext hash)
    let (pathMappings, unavailable) ← wantedRoots hashes
    match root.join.bind fun root => ext.decodeNode (ext.encodeNode root) with
    | some rootNode => pure (⟨hash, some rootNode⟩ :: pathMappings, unavailable)
    | none => pure (pathMappings, hash :: unavailable)

def chunkDownload (cm : ChunkMeta) : ChunkDownload where
  digest := cm.digest
  size := cm.size
  url := "cas/chunk/" ++ hexEncode ((cm.digest.map B3Digest.digest).getD [])

def directoryData (dir : δ × CaDirectory) : CaDirectoryData := ⟨some ⟨ext.toVec dir.1⟩, some dir.2⟩

def fileChunkMapping (mapping : δ × List (δ × Nat)) : FileChunkMapping :=
  ⟨some ⟨ext.toVec mapping.1⟩, mapping.2.map (chunkMeta ext)⟩

def negotiateChunks (req : ChunkNegotiateRequest) : CasM δ (Except ChunkStatus ChunkNegotiateAnswer) :=
  match haveCheck ext req with
  | .error status => pure (.error status)
  | .ok haveChunks => do
    let (pathMappings, unavailable) ← wantedRoots ext req.want
    match ← orNone (walkCasTrees ext haveChunks (pathMappings.map CaPathMapping.storePathHash)) with
    | none => pure (.error .internal)
    | some (missing, dirs, mappings) =>
      pure (.ok {
        pathMappings, unavailable
        missingChunks := missing.map chunkDownload
        totalChunkSize := (missing.map ChunkMeta.size).sum
        directories := dirs.map (directoryData ext)
        fileChunkMappings := mappings.map (fileChunkMapping ext) })

/-- `GET /cas/chunk/{b3hex}`; `none` stands for every answer but 200. -/
def getChunkUrl (url : String) (st : Store δ) : Option Bytes :=
  match stripPrefix "cas/chunk/" url with
  | none => none
  | some b3hex =>
    match hexDecode b3hex with
    | .ok (some bytes) =>
      (ext.tryFrom bytes).bind fun digest =>
        match getChunkByDigest ext digest st with
        | .ok data _ => data
        | .error _ _ => none
    | _ => none

/-! ## The client -/

def BLOOM_THRESHOLD : Nat := 1000

/-- `newFilter` is `BloomFilter::new`, whose sizes are computed in floating point. -/
def chunkRequest (newFilter : Nat → BloomFilter) (want haveHashes : List String) (haveChunks : List δ) : ChunkNegotiateRequest :=
  if BLOOM_THRESHOLD < haveChunks.length then
    { want, haveHashes, haveChunks := []
      haveChunksBloom := some (haveChunks.foldl (fun filter d => filter.insert (ext.toVec d)) (newFilter haveChunks.length)) }
  else { want, haveHashes, haveChunks := haveChunks.map fun d => ⟨ext.toVec d⟩, haveChunksBloom := none }

/-- What the server behind a store answers to the client. -/
def storePeers (newFilter : Nat → BloomFilter) (st : Store δ)
    (arrivals : (chunks : List ChunkDownload) → {arrived : List ChunkDownload // arrived.Perm chunks})
    (importFromLocalCache : List (String × Bytes) → Bool) : Peers δ where
  negotiateChunks want haveHashes haveChunks :=
    match negotiateChunks ext (chunkRequest ext newFilter want haveHashes haveChunks) st with
    | .ok (.ok answer) _ => .ok answer.toChunkNegotiateResponse
    | _ => .error .other
  get url := getChunkUrl ext url st
  arrivals := arrivals
  importFromLocalCache := importFromLocalCache

end Ekapkgs
