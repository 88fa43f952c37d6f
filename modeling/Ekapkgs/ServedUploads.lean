import Ekapkgs.PushText

/-!
# Uploads that cannot be downloaded

`api/upload.rs` and `api/compat.rs`: the checks on the two sides of the server.
An upload takes any hash of lowercase letters and digits, and a download only the
hash of a store path.
-/

namespace Ekapkgs

structure StatusResponse where
  status : Nat
  body : String
  deriving DecidableEq, Repr

/-! ## Uploads -/

def checkWriteToken (writeTokens : List String) (authorization : Option String) : Except StatusResponse Unit :=
  if writeTokens = [] then .error ⟨403, "push not enabled"⟩
  else
    match authorization.bind (stripPrefix "Bearer ") with
    | some token => if writeTokens.contains token then .ok () else .error ⟨401, "invalid or missing token"⟩
    | none => .error ⟨401, "invalid or missing token"⟩

/-- The narinfo of an upload, when it passes the checks. -/
def checkNarinfo (hash : String) (body : Bytes) : Except StatusResponse NarInfo :=
  if !isValidNixHash hash then .error ⟨400, "invalid hash"⟩
  else
    match fromUtf8 body with
    | none => .error ⟨400, "invalid utf-8"⟩
    | some content =>
      match NarInfo.parse content with
      | none => .error ⟨400, "invalid narinfo"⟩
      | some ni =>
        if ni.storePathHash ≠ hash then .error ⟨400, "narinfo StorePath hash does not match URL"⟩
        else if !isValidNarUrl ni.url then .error ⟨400, "invalid narinfo URL field"⟩
        else .ok ni

/-- How the storage took an upload. -/
def storedResponse : Except String Bool → StatusResponse
  | .ok true => ⟨200, "ok"⟩
  | .ok false => ⟨405, "read-only backend"⟩
  | .error _ => ⟨500, "internal error"⟩

section
variable (writeTokens : List String) (authorization : Option String)

/-- `PUT /{hash}.narinfo`. -/
def putNarinfoResponse (sign : String → String) (putNarinfo : String → String → Except String Bool) (hashNarinfo : String)
    (body : Bytes) : StatusResponse :=
  match checkWriteToken writeTokens authorization with
  | .error e => e
  | .ok () =>
    let hash := requestedHash hashNarinfo
    match checkNarinfo hash body with
    | .error e => e
    | .ok ni => storedResponse (putNarinfo hash (ni.signed sign).toNarinfoString)

/-- `PUT /nar/{file}`; without a permit the server is shutting down. -/
def putNarResponse (permit : Bool) (putNar : String → Bytes → Except String Bool) (file : String) (body : Bytes) : StatusResponse :=
  match checkWriteToken writeTokens authorization with
  | .error e => e
  | .ok () =>
    if !isValidNarFilename file then ⟨400, "invalid nar filename"⟩
    else if !permit then ⟨503, "server shutting down"⟩
    else storedResponse (putNar ("nar/" ++ file) body)

end

/-! ## Downloads -/

namespace Compat

/-- Hashes that are not of store paths. -/
def isValidNixHash (s : String) : Bool := s ≠ "" && s.toList.all fun c => c.isLower || c.isDigit

def isValidNarFilename (s : String) : Bool :=
  if s.toList.contains '/' || s.toList.contains '\\' || containsStr ".." s then false
  else
    match (stripSuffix ".nar.xz" s).or ((stripSuffix ".nar.zst" s).or (stripSuffix ".nar" s)) with
    | some hash => isValidNixHash hash
    | none => false

end Compat

/-- What a download reads: the cache of narinfo texts, the storage, and the listings. -/
structure ReadSide where
  cached : String → Option String
  getNarinfo : String → Except String (Option NarInfo)
  listing : String → StatusResponse

/-- `GET /{hash}.narinfo` or `GET /{hash}.ls`. -/
def getNarinfoResponse (sign : String → String) (toJson : NarInfo → String) (s : ReadSide) (hashNarinfo : String) (json : Bool) :
    StatusResponse :=
  match stripSuffix ".ls" hashNarinfo with
  | some hash => s.listing hash
  | none =>
    let hash := requestedHash hashNarinfo
    if !isValidStoreHash hash then ⟨404, "not found"⟩
    else
      match if json then none else s.cached hash with
      | some text => ⟨200, text⟩
      | none =>
        match s.getNarinfo hash with
        | .error _ => ⟨500, "internal error"⟩
        | .ok none => ⟨404, "not found"⟩
        | .ok (some ni) => ⟨200, if json then toJson (ni.signed sign) else (ni.signed sign).toNarinfoString⟩

/-! ## The two sides -/

/-- After every upload under the hash that succeeds a download finds the path as
long as it is stored, and after one of the file its name is valid. -/
structure UploadsServed (sign : String → String) (toJson : NarInfo → String) (hash file : String) : Prop where
  narinfo : ∀ writeTokens authorization putNarinfo body,
    (putNarinfoResponse writeTokens authorization sign putNarinfo (hash ++ ".narinfo") body).status = 200 →
      ∀ (s : ReadSide) (ni : NarInfo) (json : Bool), s.getNarinfo hash = .ok (some ni) →
        (getNarinfoResponse sign toJson s (hash ++ ".narinfo") json).status ≠ 404
  nar : ∀ writeTokens authorization permit putNar body,
    (putNarResponse writeTokens authorization permit putNar file body).status = 200 → Compat.isValidNarFilename file = true

theorem requestedHash_narinfo (hash : String) : requestedHash (hash ++ ".narinfo") = hash := by
  unfold requestedHash
  rw [stripSuffix_append, Option.getD_some]

/-- The checks are those of `acceptNarinfo`. -/
theorem acceptNarinfo_eq (sign : String → String) (hash : String) (body : Bytes) :
    acceptNarinfo sign hash body = (checkNarinfo hash body).toOption.map fun ni => (ni.signed sign).toNarinfoString := by
  unfold acceptNarinfo checkNarinfo
  by_cases hhash : isValidNixHash hash = true
  · cases htext : fromUtf8 body with
    | none => simp [hhash, Except.toOption]
    | some content =>
      cases hparse : NarInfo.parse content with
      | none => simp [hhash, hparse, Except.toOption]
      | some ni => by_cases hpath : ni.storePathHash = hash <;> by_cases hurl : isValidNarUrl ni.url = true <;>
          simp [hhash, hparse, hpath, hurl, Except.toOption]
  · simp [hhash, Except.toOption]

theorem listing_of_narinfo (hash : String) : stripSuffix ".ls" (hash ++ ".narinfo") = none := by
  refine stripSuffix_of_last ?_ (by decide)
  have hlast : ".narinfo".toList.getLast? = some 'o' := by decide
  rw [String.toList_append, List.getLast?_append, hlast, Option.some_or]
  decide

theorem getNarinfoResponse_stored (sign : String → String) (toJson : NarInfo → String) {s : ReadSide} {hash : String} {ni : NarInfo}
    (json : Bool) (hstored : s.getNarinfo hash = .ok (some ni)) (hvalid : isValidStoreHash hash = true) :
    (getNarinfoResponse sign toJson s (hash ++ ".narinfo") json).status = 200 := by
  unfold getNarinfoResponse
  rw [listing_of_narinfo]
  dsimp only
  rw [requestedHash_narinfo, hvalid, hstored]
  simp only [Bool.not_true, Bool.false_eq_true, if_false]
  split <;> rfl

theorem getNarinfoResponse_invalid (sign : String → String) (toJson : NarInfo → String) (s : ReadSide) {hash : String} (json : Bool)
    (hvalid : isValidStoreHash hash = false) : (getNarinfoResponse sign toJson s (hash ++ ".narinfo") json).status = 404 := by
  unfold getNarinfoResponse
  rw [listing_of_narinfo]
  dsimp only
  rw [requestedHash_narinfo, hvalid]
  rfl

/-! ## An upload that succeeds -/

/-- A narinfo that is accepted under a hash. -/
def bareNarinfo (hash : String) : NarInfo :=
  ⟨"/nix/store/" ++ hash ++ "-x", "nar/x.nar", "none", "", 0, "sha256:0", 0, [], none, [], none⟩

theorem not_mem_nixHash {hash : String} (h : isValidNixHash hash = true) {c : Char} (hc : (c.isLower || c.isDigit) = false) :
    c ∉ hash.toList := by
  intro hmem
  have hall := List.all_eq_true.mp ((Bool.and_eq_true_iff ..).mp h).2 c hmem
  rw [hc] at hall
  cases hall

theorem rsplitNext_of_toList {c : Char} {s : String} {start rest : List Char} (h : s.toList = start ++ c :: rest) (hrest : c ∉ rest) :
    rsplitNext c s = String.ofList rest := by
  have hkeep : ∀ x ∈ rest.reverse, decide (x ≠ c) = true := fun x hx => decide_eq_true fun heq => hrest (List.mem_reverse.mp (heq ▸ hx))
  unfold rsplitNext
  rw [h, List.reverse_append, List.reverse_cons, List.append_assoc, List.takeWhile_append_of_pos hkeep]
  simp

theorem splitNext_of_toList {c : Char} {s : String} {first rest : List Char} (h : s.toList = first ++ c :: rest) (hfirst : c ∉ first) :
    splitNext c s = String.ofList first := by
  have hkeep : ∀ x ∈ first, decide (x ≠ c) = true := fun x hx => decide_eq_true fun heq => hfirst (heq ▸ hx)
  unfold splitNext
  rw [h, List.takeWhile_append_of_pos hkeep]
  simp

theorem storePathHash_bareNarinfo {hash : String} (h : isValidNixHash hash = true) : (bareNarinfo hash).storePathHash = hash := by
  have hpath : (bareNarinfo hash).storePath.toList = "/nix/store".toList ++ '/' :: (hash.toList ++ ['-', 'x']) := by
    unfold bareNarinfo
    rw [String.toList_append, String.toList_append, List.append_assoc]
    rfl
  have hslash : '/' ∉ hash.toList ++ ['-', 'x'] := by
    rw [List.mem_append]
    exact fun hmem => hmem.elim (not_mem_nixHash h (by decide)) (by decide)
  unfold NarInfo.storePathHash hashPart
  rw [rsplitNext_of_toList hpath hslash, splitNext_of_toList String.toList_ofList (not_mem_nixHash h (by decide)), String.ofList_toList]

theorem bareNarinfo_printable {hash : String} (h : isValidNixHash hash = true) : (bareNarinfo hash).Printable := by
  have hplain : ∀ c : Char, (c.isLower || c.isDigit) = false → c ∉ "/nix/store/".toList → c ∉ "-x".toList →
      c ∉ (bareNarinfo hash).storePath.toList := by
    intro c hc hstart hend hmem
    unfold bareNarinfo at hmem
    rw [String.toList_append, String.toList_append, List.mem_append, List.mem_append] at hmem
    exact hmem.elim (fun hmem => hmem.elim hstart (not_mem_nixHash h hc)) hend
  constructor
  case storePath => exact ⟨hplain '\n' (by decide) (by decide) (by decide),
    fun hlast => hplain '\r' (by decide) (by decide) (by decide) (List.mem_of_getLast? hlast)⟩
  all_goals simp only [bareNarinfo, basenames]
  all_goals decide

theorem checkNarinfo_bare {hash : String} (h : isValidNixHash hash = true) :
    checkNarinfo hash (asBytes (bareNarinfo hash).toNarinfoString) = .ok (bareNarinfo hash) := by
  have hparse : NarInfo.parse (bareNarinfo hash).toNarinfoString = some (bareNarinfo hash) :=
    NarInfo.parse_printed (bareNarinfo_printable h) nofun
  have hurl : isValidNarUrl (bareNarinfo hash).url = true := show isValidNarUrl "nar/x.nar" = true by decide
  unfold checkNarinfo
  rw [fromUtf8_asBytes]
  dsimp only
  rw [hparse]
  dsimp only
  rw [storePathHash_bareNarinfo h, hurl, h]
  simp

theorem putNarinfoResponse_bare (sign : String → String) {hash : String} (h : isValidNixHash hash = true) :
    (putNarinfoResponse ["t"] (some "Bearer t") sign (fun _ _ => .ok true) (hash ++ ".narinfo")
      (asBytes (bareNarinfo hash).toNarinfoString)).status = 200 := by
  have htoken : checkWriteToken ["t"] (some "Bearer t") = .ok () := by decide
  unfold putNarinfoResponse
  rw [htoken]
  dsimp only
  rw [requestedHash_narinfo, checkNarinfo_bare h]
  rfl

theorem checkNarinfo_ok {hash : String} {body : Bytes} {ni : NarInfo} (h : checkNarinfo hash body = .ok ni) :
    isValidNixHash hash = true := by
  unfold checkNarinfo at h
  by_cases hhash : isValidNixHash hash = true
  · exact hhash
  · rw [if_pos (by simpa using hhash)] at h
    cases h

section
variable {writeTokens : List String} {authorization : Option String}

theorem checkWriteToken_error {e : StatusResponse} (h : checkWriteToken writeTokens authorization = .error e) : e.status ≠ 200 := by
  unfold checkWriteToken at h
  split_ifs at h
  · rw [← Except.error.inj h]
    decide
  · split at h
    · split_ifs at h
      rw [← Except.error.inj h]
      decide
    · rw [← Except.error.inj h]
      decide

theorem checkNarinfo_error {hash : String} {body : Bytes} {e : StatusResponse} (h : checkNarinfo hash body = .error e) : e.status = 400 := by
  unfold checkNarinfo at h
  split_ifs at h
  · rw [← Except.error.inj h]
  · split at h
    · rw [← Except.error.inj h]
    · split at h
      · rw [← Except.error.inj h]
      · split_ifs at h <;> rw [← Except.error.inj h]

theorem putNarinfoResponse_ok {sign : String → String} {put : String → String → Except String Bool} {hash : String} {body : Bytes}
    (h : (putNarinfoResponse writeTokens authorization sign put (hash ++ ".narinfo") body).status = 200) : isValidNixHash hash = true := by
  unfold putNarinfoResponse at h
  cases hauth : checkWriteToken writeTokens authorization with
  | error e =>
    rw [hauth] at h
    exact absurd h (checkWriteToken_error hauth)
  | ok u =>
    rw [hauth] at h
    dsimp only at h
    rw [requestedHash_narinfo] at h
    cases hcheck : checkNarinfo hash body with
    | error e =>
      rw [hcheck] at h
      exact absurd (checkNarinfo_error hcheck) (by rw [h]; decide)
    | ok ni => exact checkNarinfo_ok hcheck

theorem putNarResponse_ok {permit : Bool} {put : String → Bytes → Except String Bool} {file : String} {body : Bytes}
    (h : (putNarResponse writeTokens authorization permit put file body).status = 200) : isValidNarFilename file = true := by
  unfold putNarResponse at h
  cases hauth : checkWriteToken writeTokens authorization with
  | error e =>
    rw [hauth] at h
    exact absurd h (checkWriteToken_error hauth)
  | ok u =>
    rw [hauth] at h
    by_cases hvalid : isValidNarFilename file = true
    · exact hvalid
    · simp [hvalid] at h

end

/-! ## Both sides of the server -/

/-- The two checks of file names accept the same names. -/
theorem isValidNarFilename_eq (file : String) : Compat.isValidNarFilename file = isValidNarFilename file := rfl

/-- What an upload must be of for a download to find it. -/
theorem uploads_served_iff (sign : String → String) (toJson : NarInfo → String) (hash file : String) :
    UploadsServed sign toJson hash file ↔ (isValidNixHash hash = true → isValidStoreHash hash = true) := by
  constructor
  · intro h hhash
    by_contra hstore
    refine h.narinfo ["t"] (some "Bearer t") (fun _ _ => .ok true) _ (putNarinfoResponse_bare sign hhash)
      ⟨fun _ => none, fun _ => .ok (some (bareNarinfo hash)), fun _ => ⟨404, "not found"⟩⟩ (bareNarinfo hash) false rfl ?_
    exact getNarinfoResponse_invalid sign toJson _ false (Bool.eq_false_iff.mpr hstore)
  · intro hvalid
    constructor
    · intro writeTokens authorization put body hput s ni json hstored
      rw [getNarinfoResponse_stored sign toJson json hstored (hvalid (putNarinfoResponse_ok hput))]
      decide
    · intro writeTokens authorization permit put body hput
      rw [isValidNarFilename_eq]
      exact putNarResponse_ok hput

/-- A path whose hash is a word of two letters is taken and never found. -/
theorem short_hash_not_found : (putNarinfoResponse ["t"] (some "Bearer t") id (fun _ _ => .ok true) "ab.narinfo"
      (asBytes (bareNarinfo "ab").toNarinfoString)).status = 200 ∧
    (∀ (s : ReadSide) (json : Bool), (getNarinfoResponse id (fun _ => "") s "ab.narinfo" json).status = 404) ∧
    ¬ ∀ (sign : String → String) (toJson : NarInfo → String) (hash file : String), UploadsServed sign toJson hash file := by
  have hhash : isValidNixHash "ab" = true := by decide
  have hput := putNarinfoResponse_bare id hhash
  have hget : ∀ (s : ReadSide) (json : Bool), (getNarinfoResponse id (fun _ => "") s ("ab" ++ ".narinfo") json).status = 404 :=
    fun s json => getNarinfoResponse_invalid id _ s json (by decide)
  refine ⟨hput, hget, fun h => ?_⟩
  refine (h id (fun _ => "") "ab" "x.nar").narinfo _ _ _ _ hput
    ⟨fun _ => none, fun _ => .ok (some (bareNarinfo "ab")), fun _ => ⟨404, "not found"⟩⟩ (bareNarinfo "ab") false rfl (hget _ false)

end Ekapkgs
