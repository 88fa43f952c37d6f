import Ekapkgs.Fingerprint
import Ekapkgs.NarInfoParsed
import Ekapkgs.NarinfoCache

/-!
# Narinfo files that are cut off

The filesystem storage writes a narinfo in place, so a crash or a read in between
finds a prefix of it. Only the lines that are signed matter: a prefix without
them all may still be parsed, and is then signed as it is.
-/

namespace Ekapkgs
open Runs

/-! ## The lines that are signed -/

def signedKeys : List String := ["StorePath", "NarHash", "NarSize", "References", "CA"]

/-- A line with one of these keys and its value. -/
def isSignedLine (l : String) : Bool := (splitOnce ": " l).any fun p => signedKeys.contains p.1

def signedLines (text : String) : List String := (lines text).filter isSignedLine

structure SignedPart where
  storePath : String
  narHash : String
  narSize : Nat
  references : List String
  ca : Option String
  deriving DecidableEq

def NarInfo.signedPart (ni : NarInfo) : SignedPart := ⟨ni.storePath, ni.narHash, ni.narSize, ni.references, ni.ca⟩

namespace NarInfoFields
variable {f g : NarInfoFields} {key value : String}

/-- The fields without those that no signed line assigns. -/
def signedOnly (f : NarInfoFields) : NarInfoFields :=
  { none with storePath := f.storePath, narHash := f.narHash, narSize := f.narSize, references := f.references, ca := f.ca }

theorem signedOnly_set (hkey : key ∈ signedKeys) (h : f.set key value = some g) : f.signedOnly.set key value = some g.signedOnly := by
  cases assigns_of_set h with
  | storePath => rfl
  | narHash => rfl
  | narSize hn =>
    have hset : f.signedOnly.set "NarSize" value = (parseU64 value).map fun n => { f.signedOnly with narSize := some n } := rfl
    rw [hset, hn]
    rfl
  | references => rfl
  | ca => rfl
  | other hother => simp_all [signedKeys, narInfoKeys]
  | _ => simp [signedKeys] at hkey

theorem signedOnly_of_not_mem (hkey : key ∉ signedKeys) (h : f.set key value = some g) : g.signedOnly = f.signedOnly := by
  cases assigns_of_set h with
  | storePath => simp [signedKeys] at hkey
  | narHash => simp [signedKeys] at hkey
  | narSize hn => simp [signedKeys] at hkey
  | references => simp [signedKeys] at hkey
  | ca => simp [signedKeys] at hkey
  | _ => rfl

theorem setLines_signed : ∀ {ls : List String} {f g : NarInfoFields}, setLines ls f = some g →
    setLines (ls.filter isSignedLine) f.signedOnly = some g.signedOnly
  | [], _, _, h => by cases h; rfl
  | l :: ls, f, g, h => by
    obtain ⟨⟨key, value⟩, hsplit, h⟩ := Option.bind_eq_some_iff.mp h
    obtain ⟨f', hset, hrest⟩ := Option.bind_eq_some_iff.mp h
    by_cases hkey : key ∈ signedKeys
    · have hsigned : isSignedLine l = true := by rw [isSignedLine, hsplit]; simpa using hkey
      rw [List.filter_cons_of_pos hsigned, setLines, hsplit]
      simp only [Option.bind_eq_bind, Option.bind_some]
      rw [signedOnly_set hkey hset, Option.bind_some]
      exact setLines_signed hrest
    · have hsigned : ¬ isSignedLine l = true := by rw [isSignedLine, hsplit]; simpa using hkey
      rw [List.filter_cons_of_neg hsigned, ← signedOnly_of_not_mem hkey hset]
      exact setLines_signed hrest

end NarInfoFields

variable {p content text : String} {ni ni' : NarInfo}

theorem fields_of_parse (h : NarInfo.parse text = some ni) : ∃ f, NarInfoFields.setLines (lines text) .none = some f ∧
    f.storePath = some ni.storePath ∧ f.narHash = some ni.narHash ∧ f.narSize = some ni.narSize ∧ f.references = ni.references ∧
      f.ca = ni.ca := by
  obtain ⟨f, hf, h⟩ := Option.bind_eq_some_iff.mp h
  obtain ⟨storePath, hstorePath, h⟩ := Option.bind_eq_some_iff.mp h
  obtain ⟨url, hurl, h⟩ := Option.bind_eq_some_iff.mp h
  obtain ⟨narHash, hnarHash, h⟩ := Option.bind_eq_some_iff.mp h
  obtain ⟨narSize, hnarSize, h⟩ := Option.bind_eq_some_iff.mp h
  cases h
  exact ⟨f, hf, hstorePath, hnarHash, hnarSize, rfl, rfl⟩

/-- The signed lines tell all that is signed. -/
theorem signedPart_eq (hlines : signedLines p = signedLines content) (hp : NarInfo.parse p = some ni) (h : NarInfo.parse content = some ni') :
    ni.signedPart = ni'.signedPart := by
  obtain ⟨f, hf, hstorePath, hnarHash, hnarSize, hreferences, hca⟩ := fields_of_parse hp
  obtain ⟨f', hf', hstorePath', hnarHash', hnarSize', hreferences', hca'⟩ := fields_of_parse h
  have hsame : f.signedOnly = f'.signedOnly := by
    have hsigned := NarInfoFields.setLines_signed hf
    have hsigned' := NarInfoFields.setLines_signed hf'
    rw [show (lines p).filter isSignedLine = (lines content).filter isSignedLine from hlines] at hsigned
    exact Option.some.inj (hsigned.symm.trans hsigned')
  simp only [NarInfoFields.signedOnly, NarInfoFields.mk.injEq, hstorePath, hnarHash, hnarSize, hreferences, hca, hstorePath', hnarHash', hnarSize',
    hreferences', hca', Option.some.injEq] at hsame
  simp only [NarInfo.signedPart, SignedPart.mk.injEq]
  tauto

/-! ## Prefixes that are refused -/

/-- A line stops within its key, or no digit of the NAR size is there yet. -/
def Unreadable (p : String) : Prop := (∃ l ∈ lines p, splitOnce ": " l = none) ∨ ∀ value, "NarSize: " ++ value ∈ lines p → value = ""

theorem setLines_of_unsplit {l : String} (hl : splitOnce ": " l = none) {ls : List String} (hmem : l ∈ ls) (f : NarInfoFields) :
    NarInfoFields.setLines ls f = none := by
  induction ls generalizing f with
  | nil => cases hmem
  | cons l' ls ih =>
    rw [NarInfoFields.setLines]
    rcases List.mem_cons.mp hmem with rfl | hmem
    · rw [hl]
      rfl
    cases hsplit : splitOnce ": " l' with
    | none => rfl
    | some kv =>
      simp only [Option.bind_eq_bind, Option.bind_some]
      cases hset : f.set kv.1 kv.2 with
      | none => rfl
      | some f' => exact ih hmem f'

theorem narSize_of_setLines : ∀ {ls : List String} {f g : NarInfoFields}, f.narSize = none → NarInfoFields.setLines ls f = some g →
    g.narSize.isSome = true → ∃ value, "NarSize: " ++ value ∈ ls ∧ value ≠ ""
  | [], _, _, hf, h, hsome => by
    cases h
    rw [hf] at hsome
    cases hsome
  | l :: ls, f, g, hf, h, hsome => by
    obtain ⟨⟨key, value⟩, hsplit, h⟩ := Option.bind_eq_some_iff.mp h
    obtain ⟨f', hset, hrest⟩ := Option.bind_eq_some_iff.mp h
    by_cases hkey : key = "NarSize"
    · subst hkey
      refine ⟨value, ?_, ?_⟩
      · rw [eq_of_splitOnce hsplit]
        exact List.mem_cons_self
      · rintro rfl
        have hnone : f.set "NarSize" "" = none := rfl
        rw [hnone] at hset
        cases hset
    · have hf' : f'.narSize = none := by
        cases NarInfoFields.assigns_of_set hset with
        | narSize hn => exact absurd rfl hkey
        | _ => exact hf
      obtain ⟨value', hmem, hne⟩ := narSize_of_setLines hf' hrest hsome
      exact ⟨value', List.mem_cons_of_mem _ hmem, hne⟩

theorem Unreadable.parse (h : Unreadable p) : NarInfo.parse p = none := by
  cases hparse : NarInfo.parse p with
  | none => rfl
  | some ni =>
    obtain ⟨f, hf, -, -, hnarSize, -⟩ := fields_of_parse hparse
    rcases h with ⟨l, hl, hsplit⟩ | hvalue
    · rw [setLines_of_unsplit hsplit hl .none] at hf
      cases hf
    · obtain ⟨value, hmem, hne⟩ := narSize_of_setLines rfl hf (by rw [hnarSize]; rfl)
      exact absurd (hvalue value hmem) hne

/-! ## The file of one path -/

structure NarinfoFile where
  file : Option Bytes
  /-- The narinfo whose text is in the cache. -/
  cached : Option NarInfo
  uploads : List String
  completed : List String
  served : List NarInfo

def NarinfoFile.init : NarinfoFile := ⟨none, none, [], [], []⟩

inductive FileStep where
  /-- A write of an upload, of which so much is done when it stops or is looked at. -/
  | putNarinfo (body : Bytes) (written : Nat)
  | getNarinfo (json : Bool)
  /-- The cache loses its entry, to its capacity or to a restart. -/
  | forget

variable (sign : String → String) (hash : String)

namespace NarinfoFile
variable (s : NarinfoFile)

def putNarinfo (content : String) (written : Nat) : NarinfoFile :=
  { s with
    file := some ((asBytes content).take written)
    uploads := content :: s.uploads
    completed := if (asBytes content).length ≤ written then content :: s.completed else s.completed }

/-- A request that asks for JSON passes the cache by. -/
def getNarinfo (json : Bool) : NarinfoFile :=
  match if json then none else s.cached with
  | some ni => { s with served := ni :: s.served }
  | none =>
    match (s.file.bind fromUtf8).bind NarInfo.parse with
    | some ni => { s with cached := if json then s.cached else some (ni.signed sign), served := ni.signed sign :: s.served }
    | none => s

/-- The texts that were uploaded, or just those that were written to the end. -/
def texts (whole : Bool) : List String := if whole then s.completed else s.uploads

end NarinfoFile

def fileNext (s : NarinfoFile) : FileStep → Option NarinfoFile
  | .putNarinfo body written =>
    match acceptNarinfo sign hash body with
    | some content => some (s.putNarinfo content written)
    | none => some s
  | .getNarinfo json => some (if isValidStoreHash hash then s.getNarinfo sign json else s)
  | .forget => some { s with cached := none }

abbrev fileStep : NarinfoFile → FileStep → NarinfoFile → Prop := stepOf (fileNext sign hash)

/-- One of the texts has this as its signed part. -/
def Says (texts : List String) (part : SignedPart) : Prop := ∃ content ∈ texts, ∃ ni, NarInfo.parse content = some ni ∧ ni.signedPart = part

/-- What is written cannot be read, or has all signed lines, which are those of a text
that is written to the end where that matters. -/
def Untorn (whole : Bool) (s : NarinfoFile) : FileStep → Prop
  | .putNarinfo body written => ∀ content p, acceptNarinfo sign hash body = some content → fromUtf8 ((asBytes content).take written) = some p →
    Unreadable p ∨ (signedLines p = signedLines content ∧
      (whole = true → (asBytes content).length ≤ written ∨ ∃ done ∈ s.completed, signedLines done = signedLines content))
  | _ => True

variable {sign hash}

theorem Says.mono {texts texts' : List String} {part : SignedPart} (h : Says texts part) (hsub : texts ⊆ texts') : Says texts' part := by
  obtain ⟨content, hmem, hni⟩ := h
  exact ⟨content, hsub hmem, hni⟩

theorem signedPart_signed (ni : NarInfo) : (ni.signed sign).signedPart = ni.signedPart := by
  unfold NarInfo.signed
  dsimp only
  split <;> rfl

theorem NarInfo.Plain.signed (h : ni.Plain) (hsign : ∀ text, OneLine (sign text)) : (ni.signed sign).Plain := by
  unfold NarInfo.signed
  dsimp only
  split
  · exact h
  · refine ⟨fun q hq => ?_, h.fileSize, h.narSize⟩
    have hkept : q ∈ ni.pairs ∨ q = ("Sig", sign (Ekapkgs.fingerprint ni.storePath ni.narHash ni.narSize ni.references)) := by
      unfold NarInfo.pairs at hq ⊢
      simp only [List.map_append, List.map_cons, List.map_nil, List.mem_append, List.mem_cons, List.not_mem_nil, or_false] at hq ⊢
      tauto
    rcases hkept with hq | rfl
    · exact h.values q hq
    · exact (hsign _).1

/-- What an upload stores can be parsed. -/
theorem acceptNarinfo_parse (hsign : ∀ text, OneLine (sign text)) {body : Bytes} (h : acceptNarinfo sign hash body = some content) :
    (NarInfo.parse content).isSome = true := by
  unfold acceptNarinfo at h
  split at h
  · cases h
  · obtain ⟨text, -, h⟩ := Option.bind_eq_some_iff.mp h
    obtain ⟨ni, hparse, h⟩ := Option.bind_eq_some_iff.mp h
    obtain ⟨-, h⟩ := Option.ite_none_right_eq_some.mp h
    cases h
    exact ((parse_plain hparse).signed hsign).parse_isSome

/-- Whatever is read from the file or the cache, or has been served, is in one of the texts. -/
structure Faithful (whole : Bool) (s : NarinfoFile) : Prop where
  file : ∀ p ni, s.file.bind fromUtf8 = some p → NarInfo.parse p = some ni → Says (s.texts whole) ni.signedPart
  cached : ∀ ni ∈ s.cached, Says (s.texts whole) ni.signedPart
  served : ∀ ni ∈ s.served, Says (s.texts whole) ni.signedPart
  completed : ∀ content ∈ s.completed, (NarInfo.parse content).isSome = true

theorem Faithful.getNarinfo {whole : Bool} {s : NarinfoFile} (h : Faithful whole s) (json : Bool) : Faithful whole (s.getNarinfo sign json) := by
  unfold NarinfoFile.getNarinfo
  cases hcached : if json then none else s.cached with
  | some ni =>
    have hni : Says (s.texts whole) ni.signedPart := by
      split at hcached
      · cases hcached
      · exact h.cached ni hcached
    exact ⟨h.file, h.cached, List.forall_mem_cons.mpr ⟨hni, h.served⟩, h.completed⟩
  | none =>
    cases hread : (s.file.bind fromUtf8).bind NarInfo.parse with
    | none => exact h
    | some ni =>
      obtain ⟨p, hp, hparse⟩ := Option.bind_eq_some_iff.mp hread
      have hni : Says (s.texts whole) (ni.signed sign).signedPart := signedPart_signed ni ▸ h.file p ni hp hparse
      refine ⟨h.file, ?_, List.forall_mem_cons.mpr ⟨hni, h.served⟩, h.completed⟩
      cases json with
      | true => exact h.cached
      | false => exact fun ni' hni' => Option.some.inj hni' ▸ hni

theorem mem_completed_putNarinfo {s : NarinfoFile} {written : Nat} {done : String} : done ∈ (s.putNarinfo content written).completed ↔
    (asBytes content).length ≤ written ∧ done = content ∨ done ∈ s.completed := by
  unfold NarinfoFile.putNarinfo
  by_cases hall : (asBytes content).length ≤ written <;> simp [hall]

theorem texts_putNarinfo (s : NarinfoFile) (content : String) (written : Nat) (whole : Bool) :
    s.texts whole ⊆ (s.putNarinfo content written).texts whole := by
  cases whole with
  | false => exact List.subset_cons_self ..
  | true => exact fun done hdone => mem_completed_putNarinfo.mpr (.inr hdone)

theorem Faithful.putNarinfo {whole : Bool} {s : NarinfoFile} (h : Faithful whole s) {written : Nat}
    (hsome : (NarInfo.parse content).isSome = true) (hok : ∀ p, fromUtf8 ((asBytes content).take written) = some p → Unreadable p ∨
      (signedLines p = signedLines content ∧
        (whole = true → (asBytes content).length ≤ written ∨ ∃ done ∈ s.completed, signedLines done = signedLines content))) :
    Faithful whole (s.putNarinfo content written) := by
  have hgrow := texts_putNarinfo s content written whole
  refine ⟨fun p ni hp hparse => ?_, fun ni hni => (h.cached ni hni).mono hgrow, fun ni hni => (h.served ni hni).mono hgrow, ?_⟩
  · rcases hok p hp with hunreadable | ⟨hlines, hwhole⟩
    · rw [hunreadable.parse] at hparse
      cases hparse
    obtain ⟨done, hdone, hsame, hsome'⟩ : ∃ done ∈ (s.putNarinfo content written).texts whole,
        signedLines done = signedLines content ∧ (NarInfo.parse done).isSome = true := by
      cases whole with
      | false => exact ⟨content, List.mem_cons_self, rfl, hsome⟩
      | true =>
        rcases hwhole rfl with hall | ⟨done, hdone, hsame⟩
        · exact ⟨content, mem_completed_putNarinfo.mpr (.inl ⟨hall, rfl⟩), rfl, hsome⟩
        · exact ⟨done, hgrow hdone, hsame, h.completed done hdone⟩
    obtain ⟨ni', hni'⟩ := Option.isSome_iff_exists.mp hsome'
    exact ⟨done, hdone, ni', hni', (signedPart_eq (hlines.trans hsame.symm) hparse hni').symm⟩
  · intro done hdone
    rcases mem_completed_putNarinfo.mp hdone with ⟨-, rfl⟩ | hdone
    · exact hsome
    · exact h.completed done hdone

theorem fileStep_faithful (hsign : ∀ text, OneLine (sign text)) {whole : Bool} {s s' : NarinfoFile} {op : FileStep} (h : Faithful whole s)
    (hok : Untorn sign hash whole s op) (hstep : fileStep sign hash s op s') : Faithful whole s' := by
  cases op with
  | forget =>
    cases hstep
    exact ⟨h.file, fun _ hni => absurd hni (Option.not_mem_none _), h.served, h.completed⟩
  | getNarinfo json =>
    cases hstep
    split
    · exact h.getNarinfo json
    · exact h
  | putNarinfo body written =>
    unfold fileStep stepOf fileNext at hstep
    cases haccept : acceptNarinfo sign hash body with
    | none => simp only [haccept] at hstep; cases hstep; exact h
    | some content =>
      simp only [haccept] at hstep
      cases hstep
      exact h.putNarinfo (acceptNarinfo_parse hsign haccept) fun p hp => hok content p haccept hp

/-- Where no write stops between the first digit of the NAR size and the last signed line,
other than within a key, all that is served is signed as it was uploaded; and as it was
written to the end, where the writes that stop are of narinfos that were. -/
theorem served_untorn (hsign : ∀ text, OneLine (sign text)) (whole : Bool) {ops : List FileStep} {s : NarinfoFile}
    (hrun : Run (guarded (fileStep sign hash) (Untorn sign hash whole)) .init ops s) :
    ∀ ni ∈ s.served, Says (s.texts whole) ni.signedPart := by
  have hinit : Faithful whole .init := by
    constructor
    · exact fun _ _ hp => by cases hp
    · exact fun _ hni => absurd hni (Option.not_mem_none _)
    · exact fun _ hni => absurd hni List.not_mem_nil
    · exact fun _ hdone => absurd hdone List.not_mem_nil
  exact (hrun.invariant (I := Faithful whole) (fun _ _ _ h hstep => fileStep_faithful hsign h hstep.1 hstep.2) hinit).served

theorem putNarinfo_step {hash : String} {body : Bytes} (h : acceptNarinfo sign hash body = some content) (s : NarinfoFile) (written : Nat) :
    fileStep sign hash s (.putNarinfo body written) (s.putNarinfo content written) := by
  show fileNext sign hash s (.putNarinfo body written) = _
  unfold fileNext
  simp [h]

theorem getNarinfo_step {hash : String} (h : isValidStoreHash hash = true) (s : NarinfoFile) (json : Bool) :
    fileStep sign hash s (.getNarinfo json) (s.getNarinfo sign json) := by
  show fileNext sign hash s (.getNarinfo json) = _
  unfold fileNext
  simp [h]

/-- Nothing is cached, and the file can be read. -/
theorem served_getNarinfo {s : NarinfoFile} (hcached : s.cached = none) (hread : (s.file.bind fromUtf8).bind NarInfo.parse = some ni) :
    (s.getNarinfo sign false).served = ni.signed sign :: s.served := by
  unfold NarinfoFile.getNarinfo
  simp [hcached, hread]

theorem texts_getNarinfo (s : NarinfoFile) (json whole : Bool) : (s.getNarinfo sign json).texts whole = s.texts whole := by
  unfold NarinfoFile.getNarinfo
  split
  · rfl
  · split <;> rfl

/-! ## A narinfo with a reference -/

def appHash : String := "00000000000000000000000000000000"

def fileSign (_ : String) : String := "k:s"

def appBody : Bytes := asBytes ("StorePath: /nix/store/" ++ appHash ++ "-app\nURL: nar/" ++ appHash ++
  ".nar\nNarHash: sha256:0\nNarSize: 40\nReferences: " ++ appHash ++ "-app\n")

def appText : String := "StorePath: /nix/store/" ++ appHash ++ "-app\nURL: nar/" ++ appHash ++
  ".nar\nCompression: none\nNarHash: sha256:0\nNarSize: 40\nReferences: " ++ appHash ++ "-app\nSig: k:s\n"

def appNarInfo (references signatures : List String) : NarInfo :=
  ⟨"/nix/store/" ++ appHash ++ "-app", "nar/" ++ appHash ++ ".nar", "none", "", 0, "sha256:0", 40, references, none, signatures, none⟩

theorem appNarInfo_printable {references signatures : List String} (hreferences : ∀ r ∈ basenames references, Word r)
    (hsignatures : ∀ sig ∈ signatures, OneLine sig) : (appNarInfo references signatures).Printable :=
  ⟨(by decide : OneLine ("/nix/store/" ++ appHash ++ "-app")), (by decide : OneLine ("nar/" ++ appHash ++ ".nar")),
    (by decide : OneLine "none"), (by decide : OneLine ""), Nat.two_pow_pos 64, (by decide : OneLine "sha256:0"), (by decide : 40 < 2 ^ 64),
    hreferences, nofun, hsignatures, nofun⟩

theorem basenames_app : basenames [appHash ++ "-app"] = [appHash ++ "-app"] := by decide

theorem appText_eq : appText = (appNarInfo [appHash ++ "-app"] ["k:s"]).toNarinfoString := by
  have hstorePath : "StorePath: /nix/store/" = "StorePath" ++ (": " ++ "/nix/store/") := by decide
  have hurl : "-app\nURL: nar/" = "-app" ++ ("\n" ++ ("URL" ++ (": " ++ "nar/"))) := by decide
  have hnar : ".nar\nCompression: none\nNarHash: sha256:0\nNarSize: 40\nReferences: " = ".nar" ++ ("\n" ++ ("Compression" ++ (": " ++ ("none" ++
    ("\n" ++ ("NarHash" ++ (": " ++ ("sha256:0" ++ ("\n" ++ ("NarSize" ++ (": " ++ ("40" ++ ("\n" ++ ("References" ++ ": "))))))))))))))  := by
    decide
  have hsig : "-app\nSig: k:s\n" = "-app" ++ ("\n" ++ ("Sig" ++ (": " ++ ("k:s" ++ "\n")))) := by decide
  have hreference : join ' ' [appHash ++ "-app"] = appHash ++ "-app" := by decide
  have hprinted : (appNarInfo [appHash ++ "-app"] ["k:s"]).toNarinfoString =
      line "StorePath" ("/nix/store/" ++ appHash ++ "-app") ++ line "URL" ("nar/" ++ appHash ++ ".nar") ++ line "Compression" "none" ++ "" ++ "" ++
        line "NarHash" "sha256:0" ++ line "NarSize" "40" ++ line "References" (join ' ' (basenames [appHash ++ "-app"])) ++ "" ++
        String.join [line "Sig" "k:s"] ++ "" := rfl
  rw [hprinted, basenames_app, hreference]
  unfold appText line
  rw [hstorePath, hurl, hnar, hsig]
  simp only [String.append_assoc, String.append_empty, String.join_cons, String.join_nil]

theorem parse_appText : NarInfo.parse appText = some (appNarInfo [appHash ++ "-app"] ["k:s"]) := by
  have hchars : ∀ c ∈ appHash.toList ++ "-app".toList, isWhitespace c = false := by
    simp [appHash, isWhitespace]
  have hword : Word (appHash ++ "-app") := ⟨by decide, by rwa [String.toList_append]⟩
  rw [appText_eq, parse_toNarinfoString]
  · exact congrArg (fun references => some (appNarInfo references ["k:s"])) basenames_app
  · refine appNarInfo_printable (fun r hr => ?_) fun sig hsig => ?_
    · rw [basenames_app, List.mem_singleton] at hr
      exact hr ▸ hword
    · rw [List.mem_singleton.mp hsig]
      decide

def appPairs : List (String × String) :=
  [("StorePath", "/nix/store/" ++ appHash ++ "-app"), ("URL", "nar/" ++ appHash ++ ".nar"), ("NarHash", "sha256:0"), ("NarSize", "40"),
    ("References", appHash ++ "-app")]

def appBodyText : String := String.join (appPairs.map fun p => line p.1 p.2)

theorem appBody_eq : appBody = asBytes appBodyText := congrArg asBytes (by decide +kernel)

theorem parse_appBodyText : NarInfo.parse appBodyText = some (appNarInfo [appHash ++ "-app"] []) := by
  have hplain : ∀ p ∈ appPairs, '\n' ∉ p.1.toList ∧ OneLine p.2 := by decide
  have hkeys : ∀ p ∈ appPairs, ':' ∉ p.1.toList := by decide
  unfold NarInfo.parse appBodyText
  rw [lines_pairs hplain, NarInfoFields.setLines_keyed hkeys]
  decide

theorem acceptNarinfo_appBody : acceptNarinfo fileSign appHash appBody = some appText := by
  have hvalid : isValidNixHash appHash = true := by decide
  have hparsed : (fromUtf8 appBody).bind NarInfo.parse = some (appNarInfo [appHash ++ "-app"] []) := by
    rw [appBody_eq, fromUtf8_asBytes, Option.bind_some]
    exact parse_appBodyText
  have hpath : (appNarInfo [appHash ++ "-app"] []).storePathHash = appHash := by decide
  have hurl : isValidNarUrl ("nar/" ++ appHash ++ ".nar") = true := by decide
  have hsigned : (appNarInfo [appHash ++ "-app"] []).signed fileSign = appNarInfo [appHash ++ "-app"] ["k:s"] := rfl
  refine acceptNarinfo_iff.mpr ⟨_, ⟨hvalid, hparsed, hpath, hurl⟩, ?_⟩
  rw [hsigned, appText_eq]

/-- A write that a crash stops at once, and one that is completed. -/
theorem served_untorn_app : ∃ s, Run (guarded (fileStep fileSign appHash) (Untorn fileSign appHash true)) .init
    [.putNarinfo appBody 0, .putNarinfo appBody 211, .getNarinfo false] s ∧ s.served ≠ [] ∧ ∀ ni ∈ s.served, Says (s.texts true) ni.signedPart := by
  have hlength : (asBytes appText).length = 211 := by decide +kernel
  have hlines : lines "" = [] := lines_empty
  have hnothing : Untorn fileSign appHash true .init (.putNarinfo appBody 0) := by
    rintro content p - hp
    rw [List.take_zero] at hp
    have hempty : fromUtf8 [] = some "" := fromUtf8_asBytes ""
    cases hp.symm.trans hempty
    refine .inl (.inr fun value hmem => ?_)
    rw [hlines] at hmem
    cases hmem
  have hall (s : NarinfoFile) : Untorn fileSign appHash true s (.putNarinfo appBody 211) := by
    intro content p haccept hp
    cases haccept.symm.trans acceptNarinfo_appBody
    rw [← hlength, List.take_length, fromUtf8_asBytes] at hp
    cases hp
    exact .inr ⟨rfl, fun _ => .inl hlength.le⟩
  have hread : ((some ((asBytes appText).take 211)).bind fromUtf8).bind NarInfo.parse = some (appNarInfo [appHash ++ "-app"] ["k:s"]) := by
    rw [← hlength, List.take_length, Option.bind_some, fromUtf8_asBytes, Option.bind_some]
    exact parse_appText
  have hhash : isValidStoreHash appHash = true := by decide
  have hrun : Run (guarded (fileStep fileSign appHash) (Untorn fileSign appHash true)) .init
      [.putNarinfo appBody 0, .putNarinfo appBody 211, .getNarinfo false] (((NarinfoFile.init.putNarinfo appText 0).putNarinfo appText 211).getNarinfo
        fileSign false) :=
    .cons ⟨hnothing, putNarinfo_step acceptNarinfo_appBody _ 0⟩ (.cons ⟨hall _, putNarinfo_step acceptNarinfo_appBody _ 211⟩
      (.cons ⟨trivial, getNarinfo_step hhash _ false⟩ (.nil _)))
  have hserved := @served_getNarinfo _ fileSign ((NarinfoFile.init.putNarinfo appText 0).putNarinfo appText 211) rfl hread
  refine ⟨_, hrun, ?_, served_untorn (fun _ => (by decide : OneLine "k:s")) true hrun⟩
  rw [hserved]
  exact List.cons_ne_nil _ _

/-- A write that stops before the references is served and signed without them. -/
theorem torn_narinfo_signed : ¬ ∀ (ops : List FileStep) (s : NarinfoFile), Run (fileStep fileSign appHash) .init ops s →
    ∀ ni ∈ s.served, Says (s.texts false) ni.signedPart := by
  intro h
  have hcut : (asBytes appText).take 153 = asBytes (appNarInfo [] []).toNarinfoString := by decide +kernel
  have hprinted : NarInfo.parse (appNarInfo [] []).toNarinfoString = some (appNarInfo [] []) := parse_toNarinfoString (appNarInfo_printable nofun nofun)
  have hread : ((some ((asBytes appText).take 153)).bind fromUtf8).bind NarInfo.parse = some (appNarInfo [] []) := by
    rw [hcut, Option.bind_some, fromUtf8_asBytes, Option.bind_some]
    exact hprinted
  have hhash : isValidStoreHash appHash = true := by decide
  have hrun : Run (fileStep fileSign appHash) .init [.putNarinfo appBody 153, .getNarinfo false]
      ((NarinfoFile.init.putNarinfo appText 153).getNarinfo fileSign false) :=
    .cons (putNarinfo_step acceptNarinfo_appBody _ 153) (.cons (getNarinfo_step hhash _ false) (.nil _))
  have hserved := @served_getNarinfo _ fileSign (NarinfoFile.init.putNarinfo appText 153) rfl hread
  obtain ⟨content, hmem, ni, hni, hsame⟩ := h _ _ hrun _ (hserved ▸ List.mem_cons_self ..)
  rw [texts_getNarinfo] at hmem
  cases List.mem_singleton.mp hmem
  cases hni.symm.trans parse_appText
  rw [signedPart_signed] at hsame
  exact List.cons_ne_nil _ _ (congrArg SignedPart.references hsame)

end Ekapkgs
