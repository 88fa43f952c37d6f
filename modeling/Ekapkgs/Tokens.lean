import Ekapkgs.Lib.Codec
import Ekapkgs.Lib.Runs
import Ekapkgs.Text

/-!
# The token store

`tokens.rs` and `create_token` in `api/compat.rs`: minting a token loads the
store file, adds a token and writes the whole file again. The handler holds no
lock, so the calls of concurrent requests on the file come in any order, and a
read or a write may take several of them.
-/

namespace Ekapkgs
open Runs

structure Permissions where
  read : Bool
  write : Bool
  deriving DecidableEq

structure Token where
  name : String
  token : String
  permissions : Permissions
  createdAt : Nat
  deriving DecidableEq

structure TokenStore where
  tokens : List Token
  deriving DecidableEq

/-- `serde_json` on a token store. No proper prefix of an object is an object. -/
structure Json where
  toStringPretty : TokenStore → Bytes
  fromStr : Bytes → Option TokenStore
  fromStr_toStringPretty : ∀ store, fromStr (toStringPretty store) = some store
  fromStr_prefix : ∀ store n, n < (toStringPretty store).length → fromStr ((toStringPretty store).take n) = none

/-- `None` when the name is taken. -/
def TokenStore.create (store : TokenStore) (name : String) (permissions : Permissions) (tokenValue : String)
    (now : Nat) : Option TokenStore :=
  if store.tokens.any fun t => t.name = name then none
  else some ⟨store.tokens ++ [⟨name, tokenValue, permissions, now⟩]⟩

/-! ## A request -/

/-- The body is `None` when it is not the JSON of a request. -/
structure MintRequest where
  authorization : Option String
  body : Option (Option String)
  deriving DecidableEq

inductive MintResponse where
  | forbidden
  | unauthorized
  | badRequest
  | internalServerError
  | ok (token name : String)
  deriving DecidableEq

/-- Everything before the store is loaded: the name of the token to mint. -/
def authorize (adminToken : Option String) (request : MintRequest) : Except MintResponse String :=
  match adminToken with
  | none => .error .forbidden
  | some adminToken =>
    if request.authorization.bind (stripPrefix "Bearer ") ≠ some adminToken then .error .unauthorized
    else
      match request.body with
      | none => .error .badRequest
      | some name => .ok (name.getD "unnamed")

/-- Where a request is. -/
inductive MintPhase where
  | received (request : MintRequest)
  | loading (name : String)
  | reading (name : String) (contents : Bytes)
  | loaded (name : String) (store : TokenStore)
  | created (name tokenValue : String) (store : TokenStore)
  | saving (name tokenValue : String) (store : TokenStore) (written : Nat)
  | responded (response : MintResponse)
  deriving DecidableEq

/-! ## The server -/

/-- The store file, the tokens in memory, and where each request is. -/
structure TokenServer (ι : Type) where
  file : Option Bytes
  writeTokens : List String
  phase : ι → MintPhase

/-- One call of a request, or its failure. -/
inductive MintCall where
  | authorize
  /-- `path.exists()`, and the file is opened. -/
  | openRead
  | read (n : Nat)
  /-- The read that finds the end of the file, and the parse. -/
  | readEnd
  | create (tokenValue : String) (now : Nat)
  /-- The open that truncates. -/
  | openTruncate
  | write (n : Nat)
  /-- `write_all` is done, and the token goes to the tokens in memory. -/
  | respond
  | fail

/-- A write at an offset of its own, past the end of the file or not. -/
def writeAt (file : Bytes) (offset : Nat) (bytes : Bytes) : Bytes :=
  file.take offset ++ List.replicate (offset - file.length) 0 ++ bytes ++ file.drop (offset + bytes.length)

variable {ι : Type} [DecidableEq ι] (json : Json) (adminToken : Option String)

def TokenServer.setPhase (s : TokenServer ι) (i : ι) (p : MintPhase) : TokenServer ι :=
  { s with phase := Function.update s.phase i p }

def mintNext (s : TokenServer ι) (step : ι × MintCall) : Option (TokenServer ι) :=
  match s.phase step.1, step.2 with
  | .received request, .authorize =>
    match authorize adminToken request with
    | .ok name => some (s.setPhase step.1 (.loading name))
    | .error response => some (s.setPhase step.1 (.responded response))
  | .received _, _ => none
  | .loading name, .openRead =>
    match s.file with
    | none => some (s.setPhase step.1 (.loaded name ⟨[]⟩))
    | some _ => some (s.setPhase step.1 (.reading name []))
  | .reading name contents, .read n =>
    match s.file with
    | none => none
    | some file => some (s.setPhase step.1 (.reading name (contents ++ (file.drop contents.length).take n)))
  | .reading name contents, .readEnd =>
    match s.file with
    | none => none
    | some file =>
      if contents.length < file.length then none
      else
        match json.fromStr contents with
        | none => some (s.setPhase step.1 (.responded .internalServerError))
        | some store => some (s.setPhase step.1 (.loaded name store))
  | .loaded name store, .create tokenValue now =>
    match store.create name ⟨true, true⟩ tokenValue now with
    | none => some (s.setPhase step.1 (.responded .internalServerError))
    | some store' => some (s.setPhase step.1 (.created name tokenValue store'))
  | .created name tokenValue store, .openTruncate =>
    some ({ s with file := some [] }.setPhase step.1 (.saving name tokenValue store 0))
  | .saving name tokenValue store written, .write n =>
    match s.file with
    | none => none
    | some file =>
      let bytes := ((json.toStringPretty store).drop written).take n
      if bytes = [] then none
      else some ({ s with file := some (writeAt file written bytes) }.setPhase step.1 (.saving name tokenValue store (written + bytes.length)))
  | .saving name tokenValue store written, .respond =>
    if written < (json.toStringPretty store).length then none
    else some ({ s with writeTokens := s.writeTokens ++ [tokenValue] }.setPhase step.1 (.responded (.ok tokenValue name)))
  | .responded _, _ => none
  | _, .fail => some (s.setPhase step.1 (.responded .internalServerError))
  | _, _ => none

abbrev mintStep : TokenServer ι → ι × MintCall → TokenServer ι → Prop := stepOf (mintNext json adminToken)

/-- Every request is yet to be looked at. -/
def TokenServer.start (file : Option Bytes) (writeTokens : List String) (requests : ι → MintRequest) : TokenServer ι :=
  ⟨file, writeTokens, fun i => .received (requests i)⟩

/-- What a load would return now. -/
def loadFile (file : Option Bytes) : Option TokenStore :=
  match file with
  | none => some ⟨[]⟩
  | some contents => json.fromStr contents

/-- No token the server handed out is missing from the file. -/
def TokensKept (s : TokenServer ι) : Prop :=
  ∀ i tokenValue name, s.phase i = .responded (.ok tokenValue name) →
    ∃ store, loadFile json s.file = some store ∧ ∃ t ∈ store.tokens, t.token = tokenValue

def AllResponded (s : TokenServer ι) : Prop := ∀ i, ∃ response, s.phase i = .responded response

/-- A request truncates the file only when all that is in it goes into what the
request will write, and its writes do not fail. -/
def NothingOverwritten (s : TokenServer ι) (step : ι × MintCall) : Prop :=
  match s.phase step.1, step.2 with
  | .created _ _ store, .openTruncate =>
    match loadFile json s.file with
    | some stored => stored.tokens ⊆ store.tokens
    | none => False
  | .saving .., .fail => False
  | _, _ => True

instance (s : TokenServer ι) (step : ι × MintCall) : Decidable (NothingOverwritten json s step) := by
  unfold NothingOverwritten
  split
  · split <;> infer_instance
  · infer_instance
  · infer_instance

/-! ## The text of a token store -/

section
open Codec

def jsonString : Codec UInt8 String :=
  (quoted 34 92 (by decide)).map asBytes fromUtf8 fromUtf8_asBytes

def jsonBool : Codec UInt8 Bool := choice (asBytes "false") (asBytes "true") (by decide)

def digitByte (c : Char) : UInt8 := UInt8.ofNat c.toNat

theorem digitByte_toNat {c : Char} (h : c.isDigit = true) : (digitByte c).toNat = c.toNat := by
  have hle : c.toNat ≤ 57 := (Char.isDigit_iff_toNat.mp h).2
  rw [digitByte, UInt8.toNat_ofNat']
  exact Nat.mod_eq_of_lt (by omega)

theorem newline_not_mem_digits (n : Nat) : (10 : UInt8) ∉ (Nat.toDigits 10 n).map digitByte := by
  intro h
  obtain ⟨c, hc, hbyte⟩ := List.mem_map.mp h
  have hdigit : c.isDigit = true := Nat.isDigit_of_mem_toDigits (by decide) (by decide) hc
  have hle : 48 ≤ c.toNat := (Char.isDigit_iff_toNat.mp hdigit).1
  rw [← digitByte_toNat hdigit, hbyte] at hle
  exact absurd hle (by decide)

theorem ofDigits_digitBytes (n : Nat) :
    Nat.ofDigitChars 10 (((Nat.toDigits 10 n).map digitByte).map fun b => Char.ofNat b.toNat) 0 = n := by
  have hchars : ((Nat.toDigits 10 n).map digitByte).map (fun b => Char.ofNat b.toNat) = Nat.toDigits 10 n := by
    rw [List.map_map]
    refine (List.map_congr_left fun c hc => ?_).trans (List.map_id _)
    have hdigit : c.isDigit = true := Nat.isDigit_of_mem_toDigits (by decide) (by decide) hc
    rw [Function.comp_apply, digitByte_toNat hdigit, Char.ofNat_toNat, id_eq]
  rw [hchars]
  exact Nat.ofDigitChars_ten_toDigits

def jsonNumber : Codec UInt8 Nat :=
  terminated 10 (fun n => (Nat.toDigits 10 n).map digitByte)
    (fun digits => some (Nat.ofDigitChars 10 (digits.map fun b => Char.ofNat b.toNat) 0))
    newline_not_mem_digits fun n => congrArg some (ofDigits_digitBytes n)

def tokenCodec : Codec UInt8 Token :=
  ((preceded (asBytes "\x7b\n      \"name\": \"") jsonString).prod
    ((preceded (asBytes ",\n      \"token\": \"") jsonString).prod
      ((preceded (asBytes ",\n      \"permissions\": \x7b\n        \"read\": ") jsonBool).prod
        ((preceded (asBytes ",\n        \"write\": ") jsonBool).prod
          (preceded (asBytes "\n      \x7d,\n      \"created_at\": ") (jsonNumber.followed (asBytes "    \x7d"))))))).map
    (fun t => (t.name, t.token, t.permissions.read, t.permissions.write, t.createdAt))
    (fun p => some ⟨p.1, p.2.1, ⟨p.2.2.1, p.2.2.2.1⟩, p.2.2.2.2⟩) fun _ => rfl

def separator : Codec UInt8 Bool := choice (asBytes "\n  ]") (asBytes ",\n    ") (by decide)

def tokenListCodec : Codec UInt8 (List Token) :=
  (option (choice (asBytes "[]") (asBytes "[\n    ") (by decide))
    (tokenCodec.prod (list separator (by decide) tokenCodec))).map
    (fun | [] => none | t :: ts => some (t, ts)) (fun | none => some [] | some (t, ts) => some (t :: ts))
    fun ts => by cases ts <;> rfl

def tokenStoreCodec : Codec UInt8 TokenStore :=
  (preceded (asBytes "\x7b\n  \"tokens\": ") (tokenListCodec.followed (asBytes "\n\x7d"))).map TokenStore.tokens
    (fun ts => some ⟨ts⟩) fun _ => rfl

/-- The text that `to_string_pretty` writes, and a parser of that text alone. -/
def plainJson : Json where
  toStringPretty := tokenStoreCodec.enc
  fromStr := tokenStoreCodec.decodeExact
  fromStr_toStringPretty := tokenStoreCodec.decodeExact_enc
  fromStr_prefix store _ h := tokenStoreCodec.decodeExact_prefix store h

end

end Ekapkgs
