import Ekapkgs.Text
import Ekapkgs.Lib.Blocks

/-!
# Compressed responses

`compression.rs`: a middleware that pipes the body of a response through a zstd
encoder into a sender that collects blocks of 64 KiB. The encoder is a parameter.
-/

namespace Ekapkgs

/-! ## The encoder -/

/-- `zstd::Encoder`: what it writes to the writer under it, write by write. -/
structure ZstdEncoder (ε : Type) where
  new : Int → Option ε
  setWindowLog : Nat → ε → ε
  enableLongDistanceMatching : ε → ε
  write : ε → Bytes → ε × List Bytes
  /-- The remainder of the frame; the writer is handed back as it is. -/
  finish : ε → List Bytes

namespace ZstdEncoder
variable {ε : Type} (enc : ZstdEncoder ε)

def configured (level : Int) (windowLog : Nat) (ldm : Bool) : Option ε :=
  (enc.new level).map fun e =>
    let e := if 0 < windowLog then enc.setWindowLog windowLog e else e
    if ldm then enc.enableLongDistanceMatching e else e

/-- The writes for the data of a body, up to the end of the frame. -/
def writes : ε → List Bytes → List Bytes
  | e, [] => enc.finish e
  | e, data :: rest => (enc.write e data).2 ++ writes (enc.write e data).1 rest

def frame (e : ε) (data : List Bytes) : Bytes := (enc.writes e data).flatten

end ZstdEncoder

/-- The decompression of a frame is what was compressed. -/
structure Zstd (ε : Type) extends ZstdEncoder ε where
  decompress : Bytes → Option Bytes
  decompress_frame : ∀ level windowLog ldm e data, toZstdEncoder.configured level windowLog ldm = some e →
    decompress (toZstdEncoder.frame e data) = some data.flatten

/-! ## Requests and responses -/

structure CompressionConfig where
  enable : Bool
  level : Int
  longDistanceMatching : Bool
  windowLog : Nat

/-- A header that is missing or is not text is `none`. -/
structure HttpRequest where
  head : Bool
  acceptEncoding : Option String

inductive BodyFrame where
  | data (bytes : Bytes)
  | trailers
  | error
  deriving DecidableEq

structure HttpResponse where
  status : Nat
  contentEncoding : Option String
  contentLength : Option String
  contentType : Option String
  vary : List String
  body : List BodyFrame

/-- The data that a reader of the body gets before it ends or fails. -/
def bodyData : List BodyFrame → List Bytes
  | .data bytes :: frames => bytes :: bodyData frames
  | .trailers :: frames => bodyData frames
  | _ => []

def MIN_COMPRESS_SIZE : Nat := 256
def LARGE_BODY_THRESHOLD : Nat := 4 * 1024 * 1024
def LDM_WINDOW_LOG_CAP : Nat := 25
def HTTP_WINDOW_LOG_MAX : Nat := 23

/-- The first encoding that is zstd decides. -/
def acceptsZstd : List String → Bool
  | [] => false
  | part :: parts =>
    let (encoding, params) := (splitOnce ";" (trim part)).getD (trim part, "")
    if eqIgnoreAsciiCase (trim encoding) "zstd" then
      match (stripPrefix "q=" (trim params)).or (stripPrefix "Q=" (trim params)) with
      | some q => !(["0", "0.0", "0.00", "0.000"].contains (trim q))
      | none => true
    else acceptsZstd parts

def shouldAcceptZstd (request : HttpRequest) : Bool := request.acceptEncoding.any fun value => acceptsZstd (split ',' value)

def shouldCompress (config : CompressionConfig) (response : HttpResponse) (acceptsZstd isHead : Bool) : Bool :=
  config.enable && !isHead && acceptsZstd && response.contentEncoding.isNone && response.status ≠ 206 && response.status ≠ 204 &&
    !(300 ≤ response.status && response.status < 400)

def HttpResponse.length (response : HttpResponse) : Option Nat := response.contentLength.bind parseU64

/-- The middleware compresses the response, which is not known to be small. -/
def compresses (config : CompressionConfig) (request : HttpRequest) (response : HttpResponse) : Bool :=
  shouldCompress config response (shouldAcceptZstd request) request.head && !response.length.any fun len => len < MIN_COMPRESS_SIZE

/-! ## The sender -/

def SENDER_BUF_SIZE : Nat := 65536

theorem SENDER_BUF_SIZE_pos : 0 < SENDER_BUF_SIZE := by decide

abbrev BufferedSender := Blocks.Buffer UInt8 SENDER_BUF_SIZE

def BufferedSender.new : BufferedSender := Blocks.Buffer.new SENDER_BUF_SIZE_pos

section
variable {ε : Type} (enc : ZstdEncoder ε) (config : CompressionConfig) (permit : Bool)

/-- The encoder for a response; `permit` is whether a permit for a large body is left. -/
def encoderFor (response : HttpResponse) : Option ε :=
  let isNar := response.contentType = some "application/x-nix-nar"
  let cap := if isNar then LDM_WINDOW_LOG_CAP else HTTP_WINDOW_LOG_MAX
  let useLdm := decide isNar && config.longDistanceMatching
  let effectiveWindowLog := if config.windowLog = 0 then (if useLdm then cap else 0) else min config.windowLog cap
  let needsPermit := response.length.all fun len => LARGE_BODY_THRESHOLD ≤ len
  let actualUseLdm := useLdm && (!needsPermit || permit)
  enc.configured config.level effectiveWindowLog actualUseLdm

/-- The blocks that reach the channel. The sender is dropped with what it still holds. -/
def compressBody (response : HttpResponse) : List Bytes :=
  match encoderFor enc config permit response with
  | none => []
  | some e => ((enc.writes e (bodyData response.body)).foldl Blocks.Buffer.write BufferedSender.new).sent

def call (request : HttpRequest) (response : HttpResponse) : HttpResponse :=
  if compresses config request response then
    { response with
      contentEncoding := some "zstd"
      contentLength := none
      vary := response.vary ++ ["accept-encoding"]
      body := (compressBody enc config permit response).map .data }
  else response

end

/-! ## What arrives -/

section
variable {ε : Type} (zstd : Zstd ε) (config : CompressionConfig) (permit : Bool) (request : HttpRequest) (response : HttpResponse)

/-- The client receives a whole frame, which decompresses to the body. -/
def BodyPreserved : Prop := ∃ e, encoderFor zstd.toZstdEncoder config permit response = some e ∧
  let received := (bodyData (call zstd.toZstdEncoder config permit request response).body).flatten
  received = zstd.frame e (bodyData response.body) ∧ zstd.decompress received = some (bodyData response.body).flatten

variable {zstd config permit request response}

theorem bodyData_data : ∀ chunks : List Bytes, bodyData (chunks.map .data) = chunks
  | [] => rfl
  | chunk :: chunks => by rw [List.map_cons, bodyData, bodyData_data chunks]

theorem received_compressed (h : compresses config request response = true) {e : ε}
    (he : encoderFor zstd.toZstdEncoder config permit response = some e) :
    (bodyData (call zstd.toZstdEncoder config permit request response).body).flatten = zstd.frame e (bodyData response.body) ↔
      SENDER_BUF_SIZE ∣ (zstd.frame e (bodyData response.body)).length := by
  unfold call
  rw [if_pos h]
  dsimp only
  rw [bodyData_data, compressBody, he]
  dsimp only
  rw [Blocks.Buffer.foldl_write]
  have hcontents : (BufferedSender.new.write (zstd.writes e (bodyData response.body)).flatten).contents =
      zstd.frame e (bodyData response.body) := by
    rw [Blocks.Buffer.contents_write]
    rfl
  rw [← hcontents]
  exact Blocks.Buffer.sent_eq_contents_iff _ (Blocks.Buffer.sent_length _ _ nofun)

theorem body_preserved_iff (zstd : Zstd ε) (config : CompressionConfig) (permit : Bool) (request : HttpRequest) (response : HttpResponse)
    (h : compresses config request response = true) : BodyPreserved zstd config permit request response ↔
      ∃ e, encoderFor zstd.toZstdEncoder config permit response = some e ∧
        SENDER_BUF_SIZE ∣ (zstd.frame e (bodyData response.body)).length := by
  unfold BodyPreserved
  constructor
  · rintro ⟨e, he, hreceived, -⟩
    exact ⟨e, he, (received_compressed h he).mp hreceived⟩
  · rintro ⟨e, he, hdvd⟩
    have hreceived := (received_compressed h he).mpr hdvd
    refine ⟨e, he, hreceived, ?_⟩
    rw [hreceived]
    exact zstd.decompress_frame _ _ _ e _ he

end

/-! ## Bodies of two lengths -/

def zstdMagic : Bytes := [0x28, 0xB5, 0x2F, 0xFD]

/-- An encoder that stores the data behind the magic number. -/
def storedEncoder : ZstdEncoder Bytes where
  new _ := some []
  setWindowLog _ e := e
  enableLongDistanceMatching e := e
  write e data := (e ++ data, [])
  finish e := [zstdMagic, e]

theorem storedEncoder_writes : ∀ (data : List Bytes) (e : Bytes), storedEncoder.writes e data = [zstdMagic, e ++ data.flatten]
  | [], e => by rw [List.flatten_nil, List.append_nil]; rfl
  | d :: data, e => by
    rw [List.flatten_cons, ← List.append_assoc, ← storedEncoder_writes data (e ++ d)]
    rfl

theorem storedEncoder_configured {level : Int} {windowLog : Nat} {ldm : Bool} :
    storedEncoder.configured level windowLog ldm = some [] := by
  unfold ZstdEncoder.configured storedEncoder
  simp

theorem storedEncoder_frame (data : List Bytes) : storedEncoder.frame [] data = zstdMagic ++ data.flatten := by
  unfold ZstdEncoder.frame
  rw [storedEncoder_writes]
  simp

def storedZstd : Zstd Bytes where
  toZstdEncoder := storedEncoder
  decompress bytes := if zstdMagic.isPrefixOf bytes then some (bytes.drop 4) else none
  decompress_frame level windowLog ldm e data h := by
    rw [storedEncoder_configured] at h
    cases h
    have hmagic : zstdMagic.isPrefixOf (zstdMagic ++ data.flatten) = true := List.isPrefixOf_iff_prefix.mpr (List.prefix_append ..)
    rw [storedEncoder_frame, if_pos hmagic]
    rfl

def defaultCompression : CompressionConfig := ⟨true, 3, true, 0⟩
def zstdRequest : HttpRequest := ⟨false, some "gzip, zstd;q=0.5, br"⟩
def bodyOf (length : Nat) : HttpResponse := ⟨200, none, none, some "text/x-nix-narinfo", [], [.data (List.replicate length 7)]⟩

theorem encoderFor_stored (response : HttpResponse) : encoderFor storedZstd.toZstdEncoder defaultCompression true response = some [] :=
  storedEncoder_configured

theorem bodyOf_frame (length : Nat) : (storedZstd.frame [] (bodyData (bodyOf length).body)).length = 4 + length := by
  show (storedEncoder.frame [] [List.replicate length 7]).length = 4 + length
  rw [storedEncoder_frame, List.flatten_singleton, List.length_append, List.length_replicate]
  rfl

theorem body_preserved_fullBlock : BodyPreserved storedZstd defaultCompression true zstdRequest (bodyOf 65532) :=
  (body_preserved_iff storedZstd defaultCompression true zstdRequest (bodyOf 65532) (by decide)).mpr
    ⟨[], encoderFor_stored _, by rw [bodyOf_frame]; exact ⟨1, rfl⟩⟩

/-- The tail of a frame stays in the sender. -/
theorem tail_not_sent : ¬ ∀ (zstd : Zstd Bytes) (config : CompressionConfig) (permit : Bool) (request : HttpRequest) (response : HttpResponse),
    compresses config request response = true → BodyPreserved zstd config permit request response := by
  intro h
  have hcompresses : compresses defaultCompression zstdRequest (bodyOf 300) = true := by decide
  obtain ⟨e, he, hreceived, -⟩ := h storedZstd defaultCompression true zstdRequest (bodyOf 300) hcompresses
  have hdvd := (received_compressed hcompresses he).mp hreceived
  rw [encoderFor_stored] at he
  cases he
  rw [bodyOf_frame] at hdvd
  exact absurd hdvd (by decide)

end Ekapkgs
