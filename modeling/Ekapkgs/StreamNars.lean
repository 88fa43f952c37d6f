import Ekapkgs.Existence
import Ekapkgs.NarStream
import Ekapkgs.Upload

/-!
# Streaming NARs to a client

`stream_nars` and `send_nar_chunks` of `api/negotiate.rs`, `get_nar` of
`api/compat.rs`, and the loop of `download.rs` that receives a stream. A channel
between the writer and the response closes in the same way when the writer is
done and when it has failed.
-/

namespace Ekapkgs

/-! ## The storage behind the handlers -/

/-- What a write left on the writer, and what it returned. -/
structure Written where
  bytes : Bytes
  result : Except Unit Bool
  deriving DecidableEq

/-- The storage a request finds, as its handler reads it. -/
structure Storage where
  getNarinfo : String → Except Unit (Option NarInfo)
  hasNarinfo : String → Except Unit Bool
  writeNarTo : String → Written

def Storage.hasNar (storage : Storage) (filePath : String) : Except Unit Bool :=
  storage.hasNarinfo (hashOfFilePath filePath)

/-- `stream_nar_chunks`: the blocks sent, the last one only once the NAR is complete. -/
def Storage.streamNarChunks (storage : Storage) (filePath : String) {chunkSize : Nat} (h : 0 < chunkSize) :
    List Bytes × Except Unit Bool :=
  let written := storage.writeNarTo filePath
  let writer : ChannelWriter chunkSize := (Blocks.Buffer.new h).write written.bytes
  match written.result with
  | .ok true => (writer.flush, .ok true)
  | result => (writer.sent, result)

section
variable {δ : Type} [DecidableEq δ] (ext : Ext δ)

def resultOf {α σ : Type} : EStateM.Result (CasError δ) σ α → Except Unit α
  | .ok a _ => .ok a
  | .error _ _ => .error ()

def writtenBy : EStateM.Result (CasError δ) (Store δ × Bytes) Bool → Written
  | .ok found s => ⟨s.2, .ok found⟩
  | .error _ s => ⟨s.2, .error ()⟩

/-- The content-addressed store and its filters as a storage. -/
def castoreStorage (f : Filters) (st : Store δ) : Storage where
  getNarinfo hash := resultOf (loadMetadata hash st)
  hasNarinfo hash := resultOf (hasNarinfo ext f hash st)
  writeNarTo filePath := writtenBy (writeNarTo ext filePath (st, []))

end

/-! ## The response stream -/

def NAR_CHUNK_SIZE : Nat := 65536

theorem NAR_CHUNK_SIZE_pos : 0 < NAR_CHUNK_SIZE := by decide

structure NarChunk where
  pathHash : String
  data : Bytes
  last : Bool
  fileSize : Nat
  isDelta : Bool

/-- The messages for what is left of the data; `total` is announced on the first. -/
def sendLoop (hash : String) (isDelta : Bool) (total : Nat) : Nat → Bytes → List NarChunk
  | 0, _ => []
  | _, [] => []
  | fuel + 1, data =>
    { pathHash := hash, data := data.take NAR_CHUNK_SIZE, last := data.length ≤ NAR_CHUNK_SIZE,
      fileSize := if data.length = total then total else 0, isDelta } ::
      sendLoop hash isDelta total fuel (data.drop NAR_CHUNK_SIZE)

def sendNarChunks (hash : String) (data : Bytes) (isDelta : Bool) : List NarChunk :=
  if data = [] then [{ pathHash := hash, data := [], last := true, fileSize := 0, isDelta }]
  else sendLoop hash isDelta data.length data.length data

/-- The blocks of a NAR, the first with its size. -/
def narMessages (hash : String) (narSize : Nat) : List Bytes → List NarChunk
  | [] => []
  | block :: blocks =>
    { pathHash := hash, data := block, last := false, fileSize := narSize, isDelta := false } :: narMessages hash 0 blocks

/-- The terminal message, whatever became of the NAR. -/
def finalChunk (hash : String) : NarChunk := { pathHash := hash, data := [], last := true, fileSize := 0, isDelta := false }

/-- One turn of the loop over the requested paths: the delta cached for the path
at that time, and the storage it finds. -/
structure StreamTurn where
  hash : String
  delta : Option Bytes
  storage : Storage

def StreamTurn.messages (turn : StreamTurn) : List NarChunk :=
  match turn.delta with
  | some delta => sendNarChunks turn.hash delta true
  | none =>
    match turn.storage.getNarinfo turn.hash with
    | .ok (some ni) =>
      narMessages turn.hash ni.narSize (turn.storage.streamNarChunks ni.url NAR_CHUNK_SIZE_pos).1 ++ [finalChunk turn.hash]
    | _ => []

def streamNars (turns : List StreamTurn) : List NarChunk := turns.flatMap StreamTurn.messages

/-! ## The response body -/

inductive BodyEnd where
  | complete | error
  deriving DecidableEq

inductive NarResponse where
  | notFound
  | body (chunks : List Bytes) (bodyEnd : BodyEnd)

/-- `GET /nar/{file}`: the storage the probe finds, and the one the writer does.
The body ends when the channel does. -/
def getNarResponse (file : String) (probe storage : Storage) : NarResponse :=
  if !isValidNarFilename file then .notFound
  else
    match probe.hasNar ("nar/" ++ file) with
    | .ok true => .body (storage.streamNarChunks ("nar/" ++ file) NAR_CHUNK_SIZE_pos).1 .complete
    | _ => .notFound

/-! ## The client -/

/-- What a client takes for the whole of a path. -/
structure Received where
  hash : String
  data : Bytes
  isDelta : Bool

structure Receiver where
  currentHash : String
  currentBuf : Bytes
  currentIsDelta : Bool

def Receiver.start : Receiver := ⟨"", [], false⟩

def Receiver.message (r : Receiver) (chunk : NarChunk) : Receiver × Option Received :=
  let r' : Receiver := if chunk.pathHash ≠ r.currentHash then ⟨chunk.pathHash, [], chunk.isDelta⟩ else r
  let buf := r'.currentBuf ++ chunk.data
  if chunk.last then ({ r' with currentBuf := [] }, some ⟨r'.currentHash, buf, r'.currentIsDelta⟩)
  else ({ r' with currentBuf := buf }, none)

def Receiver.after (r : Receiver) (chunks : List NarChunk) : Receiver := chunks.foldl (fun r chunk => (r.message chunk).1) r

def Receiver.stream : Receiver → List NarChunk → List Received
  | _, [] => []
  | r, chunk :: chunks => (r.message chunk).2.toList ++ stream (r.message chunk).1 chunks

end Ekapkgs
