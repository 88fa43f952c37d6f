import Ekapkgs.CastoreUpload
import Ekapkgs.DeltaCache
import Ekapkgs.Lib.Joined
import Ekapkgs.NarInfoText
import Ekapkgs.StreamNarsSound

/-!
# What the server's signature is about

The fingerprint joins the fields of a narinfo with separators that the fields may
hold themselves, and takes the references as the backend holds them.
-/

namespace Ekapkgs
open Joined

def NarInfo.fingerprint (ni : NarInfo) : String := Ekapkgs.fingerprint ni.storePath ni.narHash ni.narSize ni.references

/-- The signature that `signed` adds. -/
def NarInfo.serverSignature (sign : String → String) (ni : NarInfo) : String := sign ni.fingerprint

theorem mem_signed (sign : String → String) (ni : NarInfo) : ni.serverSignature sign ∈ (ni.signed sign).signatures := by
  unfold NarInfo.signed
  dsimp only
  split_ifs with h
  · exact List.contains_iff_mem.mp h
  · exact List.mem_append_right _ (List.mem_singleton_self _)

/-! ## Equal fingerprints -/

/-- The handler stores the narinfo of this body under this hash. -/
structure Accepted (hash : String) (body : Bytes) (ni : NarInfo) : Prop where
  validHash : isValidNixHash hash = true
  parsed : (fromUtf8 body).bind NarInfo.parse = some ni
  storePath : ni.storePathHash = hash
  url : isValidNarUrl ni.url = true

theorem acceptNarinfo_iff {sign : String → String} {hash text : String} {body : Bytes} :
    acceptNarinfo sign hash body = some text ↔ ∃ ni, Accepted hash body ni ∧ (ni.signed sign).toNarinfoString = text := by
  unfold acceptNarinfo
  constructor
  · intro h
    split_ifs at h with hhash
    obtain ⟨content, hcontent, h⟩ := Option.bind_eq_some_iff.mp h
    obtain ⟨ni, hni, h⟩ := Option.bind_eq_some_iff.mp h
    obtain ⟨⟨hpath, hurl⟩, h⟩ := Option.ite_none_right_eq_some.mp h
    exact ⟨ni, ⟨by simpa using hhash, Option.bind_eq_some_iff.mpr ⟨content, hcontent, hni⟩, hpath, hurl⟩, Option.some.inj h⟩
  · rintro ⟨ni, ⟨hhash, hparsed, hpath, hurl⟩, rfl⟩
    obtain ⟨content, hcontent, hni⟩ := Option.bind_eq_some_iff.mp hparsed
    rw [if_neg (by simp [hhash])]
    exact Option.bind_eq_some_iff.mpr ⟨content, hcontent, Option.bind_eq_some_iff.mpr ⟨ni, hni, if_pos ⟨hpath, hurl⟩⟩⟩

/-- What the fingerprint is meant to fix. -/
structure SameContents (ni ni' : NarInfo) : Prop where
  storePath : ni.storePath = ni'.storePath
  narHash : ni.narHash = ni'.narHash
  narSize : ni.narSize = ni'.narSize
  references : ni.references = ni'.references

/-- The fields hold as many separators of the fingerprint. -/
structure SameSeparators (ni ni' : NarInfo) : Prop where
  storePath : ni.storePath.toList.count ';' = ni'.storePath.toList.count ';'
  narHash : ni.narHash.toList.count ';' = ni'.narHash.toList.count ';'
  references : ni.references.map (fun r => r.toList.count ',') = ni'.references.map fun r => r.toList.count ','

theorem SameContents.separators {ni ni' : NarInfo} (h : SameContents ni ni') : SameSeparators ni ni' :=
  ⟨by rw [h.storePath], by rw [h.narHash], by rw [h.references]⟩

theorem toList_fingerprint (ni : NarInfo) : ni.fingerprint.toList = '1' :: ';' :: (ni.storePath.toList ++ ';' ::
    (ni.narHash.toList ++ ';' :: ((toString ni.narSize).toList ++ ';' :: (join ',' ni.references).toList))) := by
  unfold NarInfo.fingerprint fingerprint
  simp only [String.toList_append, List.append_assoc]
  rfl

theorem count_toString (n : Nat) : (toString n).toList.count ';' = 0 := by
  refine List.count_eq_zero.mpr fun h => ?_
  rw [Nat.toString_eq_repr, Nat.toList_repr] at h
  exact absurd (Nat.isDigit_of_mem_toDigits (by decide) (by decide) h) (by decide)

theorem toString_inj {n m : Nat} (h : (toString n).toList = (toString m).toList) : n = m := by
  rw [Nat.toString_eq_repr, Nat.toList_repr, Nat.toString_eq_repr, Nat.toList_repr] at h
  have := congrArg (fun ds => Nat.ofDigitChars 10 ds 0) h
  simpa using this

theorem SameSeparators.contents {ni ni' : NarInfo} (hsep : SameSeparators ni ni') (h : ni.fingerprint = ni'.fingerprint) :
    SameContents ni ni' := by
  have hlist := congrArg String.toList h
  rw [toList_fingerprint, toList_fingerprint] at hlist
  have hlist := (List.cons.inj (List.cons.inj hlist).2).2
  obtain ⟨hpath, hlist⟩ := append_sep_inj hsep.storePath hlist
  obtain ⟨hhash, hlist⟩ := append_sep_inj hsep.narHash hlist
  obtain ⟨hsize, hrefs⟩ := append_sep_inj ((count_toString _).trans (count_toString _).symm) hlist
  rw [join, join, String.toList_ofList, String.toList_ofList] at hrefs
  have hcount : (ni.references.map String.toList).map (List.count ',') = (ni'.references.map String.toList).map (List.count ',') := by
    rw [List.map_map, List.map_map]
    exact hsep.references
  exact ⟨String.toList_inj.mp hpath, String.toList_inj.mp hhash, toString_inj hsize,
    List.map_injective_iff.mpr (fun _ _ => String.toList_injective) (intercalate_inj hcount hrefs)⟩

/-- The fingerprint fixes the contents of the narinfos with as many separators in each field. -/
theorem fingerprint_unambiguous_iff (ni ni' : NarInfo) : (ni.fingerprint = ni'.fingerprint → SameContents ni ni') ↔
    (ni.fingerprint ≠ ni'.fingerprint ∨ SameSeparators ni ni') := by
  constructor
  · intro h
    by_cases heq : ni.fingerprint = ni'.fingerprint
    · exact .inr (h heq).separators
    · exact .inl heq
  · rintro (hne | hsep) heq
    · exact absurd heq hne
    · exact hsep.contents heq

/-! ## Two uploads with one signature -/

def semicolonInHash : NarInfo := ⟨"/nix/store/h-a", "nar/h.nar", "none", "", 0, "b;c", 1, [], none, [], none⟩
def semicolonInName : NarInfo := ⟨"/nix/store/h-a;b", "nar/h.nar", "none", "", 0, "c", 1, [], none, [], none⟩

def accepts (hash : String) (ni : NarInfo) : Bool :=
  isValidNixHash hash && (fromUtf8 (asBytes ni.toNarinfoString)).bind NarInfo.parse = some ni && ni.storePathHash = hash &&
    isValidNarUrl ni.url

theorem accepted_of_accepts {hash : String} {ni : NarInfo} (h : accepts hash ni = true) :
    Accepted hash (asBytes ni.toNarinfoString) ni := by
  unfold accepts at h
  simp only [Bool.and_eq_true, decide_eq_true_eq] at h
  exact ⟨h.1.1.1, h.1.1.2, h.1.2, h.2⟩

theorem fingerprint_ambiguous : ¬ ∀ (hash hash' : String) (body body' : Bytes) (ni ni' : NarInfo), Accepted hash body ni →
    Accepted hash' body' ni' → ni.fingerprint = ni'.fingerprint → SameContents ni ni' := by
  intro h
  have hsame := h "h" "h" _ _ semicolonInHash semicolonInName (accepted_of_accepts (by decide))
    (accepted_of_accepts (by decide)) (by decide)
  exact absurd hsame.narHash (by decide)

/-! ## The standard fingerprint -/

/-- The store directory followed by the basename. -/
def fullReference (reference : String) : String := "/nix/store/" ++ rsplitNext '/' reference

def NarInfo.standardFingerprint (ni : NarInfo) : String :=
  Ekapkgs.fingerprint ni.storePath ni.narHash ni.narSize (ni.references.map fullReference)

def FullReferences (ni : NarInfo) : Prop := ∀ r ∈ ni.references, r = fullReference r

/-- The texts agree but for their signatures. -/
def SameText (ni ni' : NarInfo) : Prop :=
  ({ ni with signatures := [] } : NarInfo).toNarinfoString = ({ ni' with signatures := [] } : NarInfo).toNarinfoString

/-- What comes before the basename. -/
theorem rsplitNext_suffix (c : Char) (s : String) : ∃ start, s.toList = start ++ (rsplitNext c s).toList := by
  refine ⟨(s.toList.reverse.dropWhile (· ≠ c)).reverse, ?_⟩
  rw [rsplitNext, String.toList_ofList, ← List.reverse_append, List.takeWhile_append_dropWhile, List.reverse_reverse]

theorem join_full_iff {references : List String} :
    join ',' references = join ',' (references.map fullReference) ↔ ∀ r ∈ references, r = fullReference r := by
  constructor
  · intro h
    choose start hstart using fun r : String => rsplitNext_suffix '/' r
    have hleft : references.map String.toList = (references.map fun r => (start r, (rsplitNext '/' r).toList)).map fun p => p.1 ++ p.2 := by
      rw [List.map_map]
      exact List.map_congr_left fun r _ => hstart r
    have hright : (references.map fullReference).map String.toList =
        (references.map fun r => (start r, (rsplitNext '/' r).toList)).map fun p => "/nix/store/".toList ++ p.2 := by
      rw [List.map_map, List.map_map]
      exact List.map_congr_left fun r _ => String.toList_append
    have hlist := congrArg String.toList h
    rw [join, join, String.toList_ofList, String.toList_ofList, hleft, hright] at hlist
    intro r hr
    have hfull := starts_eq (show ',' ∉ "/nix/store/".toList by decide) hlist (start r, (rsplitNext '/' r).toList)
      (List.mem_map.mpr ⟨r, hr, rfl⟩)
    refine String.toList_inj.mp ?_
    rw [hstart r, fullReference, String.toList_append]
    exact congrArg (· ++ _) hfull
  · intro h
    rw [List.map_congr_left fun r hr => (h r hr).symm, List.map_id']

theorem fingerprint_standard_iff (ni : NarInfo) : ni.fingerprint = ni.standardFingerprint ↔ FullReferences ni := by
  unfold NarInfo.fingerprint NarInfo.standardFingerprint fingerprint FullReferences
  rw [← join_full_iff]
  constructor
  · intro h
    have hlist := congrArg String.toList h
    simp only [String.toList_append, List.append_assoc, List.append_cancel_left_eq] at hlist
    exact String.toList_inj.mp hlist
  · intro h
    rw [← h]

theorem NarInfo.Printable.unsigned {ni : NarInfo} (h : ni.Printable) : ({ ni with signatures := [] } : NarInfo).Printable :=
  { h with signatures := nofun }

theorem map_fullReference (references : List String) :
    references.map fullReference = (basenames references).map ("/nix/store/" ++ ·) := by
  rw [basenames, List.map_map]
  rfl

/-- Equal texts have equal standard fingerprints. -/
theorem SameText.standardFingerprint {ni ni' : NarInfo} (hprint : ni.Printable) (hprint' : ni'.Printable) (h : SameText ni ni') :
    ni.standardFingerprint = ni'.standardFingerprint := by
  have hparse := (parse_toNarinfoString hprint.unsigned).symm.trans ((congrArg NarInfo.parse h).trans (parse_toNarinfoString hprint'.unsigned))
  have heq := Option.some.inj hparse
  simp only [NarInfo.mk.injEq] at heq
  obtain ⟨hpath, -, -, -, -, hhash, hsize, hrefs, -⟩ := heq
  unfold NarInfo.standardFingerprint
  rw [map_fullReference, map_fullReference, hpath, hhash, hsize, hrefs]

/-- The server signs the standard fingerprint of the narinfos that hold full
references, and of these the ones with equal texts alike. -/
theorem served_signature_iff (ni : NarInfo) :
    ((∀ sign : String → String, ni.serverSignature sign = sign ni.standardFingerprint) ↔ FullReferences ni) ∧
      ∀ ni' : NarInfo, ni.Printable → ni'.Printable → FullReferences ni → FullReferences ni' → SameText ni ni' →
        ∀ sign : String → String, ni.serverSignature sign = ni'.serverSignature sign := by
  constructor
  · rw [← fingerprint_standard_iff]
    exact ⟨fun h => h id, fun h sign => congrArg sign h⟩
  · intro ni' hprint hprint' hfull hfull' hsame sign
    refine congrArg sign ?_
    rw [(fingerprint_standard_iff ni).mpr hfull, (fingerprint_standard_iff ni').mpr hfull', hsame.standardFingerprint hprint hprint']

/-! ## What the backends hold -/

theorem not_fullReference {r : String} (h : '/' ∉ r.toList) : r ≠ fullReference r := by
  intro heq
  rw [heq, fullReference, String.toList_append] at h
  exact h (List.mem_append_left _ (by decide))

/-- The CAS store holds basenames. -/
theorem castore_standard_iff {δ : Type} (ext : Ext δ) (hash : String) (now : Nat) (ni : NarInfo) (root : CaNode) :
    (narinfoOfRow hash (pathRow ext now ni root)).fingerprint = (narinfoOfRow hash (pathRow ext now ni root)).standardFingerprint ↔
      join ' ' (basenames ni.references) = "" := by
  rw [fingerprint_standard_iff]
  unfold FullReferences narinfoOfRow pathRow
  dsimp only
  split_ifs with hempty
  · exact ⟨fun _ => hempty, fun _ => nofun⟩
  · refine ⟨fun h => ?_, fun h => absurd h hempty⟩
    have hne : split ' ' (join ' ' (basenames ni.references)) ≠ [] := by
      unfold split
      simp [List.splitOn_ne_nil]
    obtain ⟨r, hr⟩ := List.exists_mem_of_ne_nil _ hne
    exact absurd (h r hr) (not_fullReference (not_mem_split_basenames hr))

/-- So does a file that holds the text of an upload. -/
theorem filesystem_standard_iff {ni : NarInfo} (hprint : ni.Printable) :
    (∃ held, NarInfo.parse ni.toNarinfoString = some held ∧ held.fingerprint = held.standardFingerprint) ↔ ni.references = [] := by
  rw [parse_toNarinfoString hprint]
  simp only [Option.some.injEq, exists_eq_left', fingerprint_standard_iff]
  unfold FullReferences
  dsimp only
  constructor
  · intro h
    by_contra hne
    obtain ⟨r, hr⟩ := List.exists_mem_of_ne_nil _ hne
    have hbase := List.mem_map_of_mem (f := rsplitNext '/') hr
    exact not_fullReference (not_mem_rsplitNext '/' r) (h _ hbase)
  · intro h
    rw [h]
    nofun

/-! ## An upload with a reference -/

def dependentInfo : NarInfo := ⟨"/nix/store/h-a", "nar/h.nar", "none", "", 0, "sha256:0", 1, ["/nix/store/d-b"], none, [], none⟩

theorem dependentInfo_printable (signatures : List String) (h : ∀ sig ∈ signatures, OneLine sig) :
    ({ dependentInfo with signatures } : NarInfo).Printable where
  storePath := show OneLine "/nix/store/h-a" by decide
  url := show OneLine "nar/h.nar" by decide
  compression := show OneLine "none" by decide
  fileHash := show OneLine "" by decide
  fileSize := show 0 < 2 ^ 64 by decide
  narHash := show OneLine "sha256:0" by decide
  narSize := show 1 < 2 ^ 64 by decide
  references := by
    have hbase : basenames ["/nix/store/d-b"] = ["d-b"] := by decide
    have hspaces : ("d-b".toList.all fun c => !isWhitespace c) = true := by decide
    intro r hr
    have hr : r ∈ basenames ["/nix/store/d-b"] := hr
    rw [hbase] at hr
    rw [List.mem_singleton.mp hr]
    exact ⟨by decide, fun c hc => by simpa using List.all_eq_true.mp hspaces c hc⟩
  deriver := nofun
  signatures := h
  ca := nofun

theorem dependentInfo_full (signatures : List String) : FullReferences { dependentInfo with signatures } := by
  intro r hr
  rw [List.mem_singleton.mp hr]
  decide

theorem served_signature_dependent : (∀ sign : String → String, dependentInfo.serverSignature sign = sign dependentInfo.standardFingerprint) ∧
    ∀ sign : String → String, dependentInfo.serverSignature sign = ({ dependentInfo with signatures := ["k:s"] } : NarInfo).serverSignature sign :=
  ⟨(served_signature_iff dependentInfo).1.mpr (dependentInfo_full []),
    (served_signature_iff dependentInfo).2 { dependentInfo with signatures := ["k:s"] } (dependentInfo_printable [] nofun)
      (dependentInfo_printable ["k:s"] (by decide)) (dependentInfo_full []) (dependentInfo_full ["k:s"]) rfl⟩

def dependentStore : Store Bytes := finalState (putNarinfo sampleExt 0 "h" dependentInfo.toNarinfoString Store.empty)

theorem signature_over_basenames : ¬ ∀ (st : Store Bytes) (hash : String) (ni : NarInfo),
    (castoreStorage sampleExt noFilters st).narinfo? hash = some ni →
      ∀ sign : String → String, ni.serverSignature sign = sign ni.standardFingerprint := by
  intro h
  obtain ⟨ni, hinfo, hrefs⟩ := (Option.any_eq_true ..).mp
    (show ((castoreStorage sampleExt noFilters dependentStore).narinfo? "h").any (fun ni => ni.references = ["d-b"]) = true
      by decide +kernel)
  have hfull := (fingerprint_standard_iff ni).mp (h dependentStore "h" ni hinfo id)
  unfold FullReferences at hfull
  rw [of_decide_eq_true hrefs] at hfull
  exact not_fullReference (by decide) (hfull "d-b" (List.mem_singleton_self _))

end Ekapkgs
