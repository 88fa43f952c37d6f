import Ekapkgs.CasPullSound
import Ekapkgs.HexDecode

/-!
# The spellings of a NAR hash

`cas_pull.rs`: `verify_nar_hash` compares the lowercase hexadecimal digits of a
hash. The server passes on what nix wrote, which may be in base 32, or the hash
as an SRI string.
-/

namespace Ekapkgs

/-! ## The spellings -/

def nixBase32Chars : List Char := "0123456789abcdfghijklmnpqrsvwxyz".toList

/-- The `n`-th group of five bits. -/
def base32Char (hash : Bytes) (n : Nat) : Char :=
  let i := n * 5 / 8
  let j := n * 5 % 8
  nixBase32Chars.getD (((hash.getD i 0).toNat / 2 ^ j + (hash.getD (i + 1) 0).toNat * 2 ^ (8 - j)) % 32) '0'

/-- Nix writes the groups from the last to the first. -/
def nixBase32 (hash : Bytes) : String :=
  String.ofList ((List.range ((hash.length * 8 - 1) / 5 + 1)).reverse.map (base32Char hash))

def base64Chars : List Char := "ABCDEFGHIJKLMNOPQRSTUVWXYZabcdefghijklmnopqrstuvwxyz0123456789+/".toList

def base64Char (n : Nat) : Char := base64Chars.getD (n % 64) '='

def base64 : Bytes → List Char
  | a :: b :: c :: rest =>
    base64Char (a.toNat / 4) :: base64Char (a.toNat * 16 + b.toNat / 16) :: base64Char (b.toNat * 4 + c.toNat / 64) ::
      base64Char c.toNat :: base64 rest
  | [a, b] => [base64Char (a.toNat / 4), base64Char (a.toNat * 16 + b.toNat / 16), base64Char (b.toNat * 4), '=']
  | [a] => [base64Char (a.toNat / 4), base64Char (a.toNat * 16), '=', '=']
  | [] => []

/-- A declared hash denotes a digest. -/
inductive DenotesHash (digest : Bytes) : String → Prop
  | hex (digits : String) (h : HexOf digits digest) : DenotesHash digest ("sha256:" ++ digits)
  | base32 : DenotesHash digest ("sha256:" ++ nixBase32 digest)
  | sri : DenotesHash digest ("sha256-" ++ String.ofList (base64 digest))

/-- The digest of the empty string. -/
def emptyDigest : Bytes :=
  [0xe3, 0xb0, 0xc4, 0x42, 0x98, 0xfc, 0x1c, 0x14, 0x9a, 0xfb, 0xf4, 0xc8, 0x99, 0x6f, 0xb9, 0x24,
    0x27, 0xae, 0x41, 0xe4, 0x64, 0x9b, 0x93, 0x4c, 0xa4, 0x95, 0x99, 0x1b, 0x78, 0x52, 0xb8, 0x55]

example : nixBase32 emptyDigest = "0mdqa9w1p6cmli6976v4wi0sw9r4p5prkj7lzfd1877wk11c9c73" ∧
    String.ofList (base64 emptyDigest) = "47DEQpj8HBSa+/TImW+5JCeuQeRkm5NMpJWZG3hSuFU=" := by decide

/-! ## What is compared -/

variable {δ : Type} [DecidableEq δ] {ext : Ext δ}

theorem length_hexEncode (d : Bytes) : (hexEncode d).toList.length = 2 * d.length := by
  rw [toList_hexEncode]
  induction d with
  | nil => rfl
  | cons b d ih =>
    rw [List.flatMap_cons, List.length_append, ih, List.length_cons]
    simp only [List.length_cons, List.length_nil]
    omega

theorem length_nixBase32 {d : Bytes} (h : d.length = 32) : (nixBase32 d).toList.length = 52 := by
  unfold nixBase32
  rw [String.toList_ofList, List.length_map, List.length_reverse, List.length_range, h]

theorem toLower_hexDigit {n : Nat} (h : n < 16) : (hexDigit n).toLower = hexDigit n := by
  have hall : ∀ n ∈ List.range 16, (hexDigit n).toLower = hexDigit n := by decide
  exact hall n (List.mem_range.mpr h)

theorem hexDigit_of_mem {d : Bytes} {c : Char} (h : c ∈ (hexEncode d).toList) : ∃ n < 16, c = hexDigit n := by
  rw [toList_hexEncode, List.mem_flatMap] at h
  obtain ⟨b, -, hc⟩ := h
  have hb := b.toNat_lt
  rcases List.mem_cons.mp hc with rfl | hc
  · exact ⟨_, by omega, rfl⟩
  · exact ⟨_, by omega, List.mem_singleton.mp hc⟩

theorem toLower_hexEncode (d : Bytes) : String.ofList ((hexEncode d).toList.map Char.toLower) = hexEncode d := by
  have hmap : (hexEncode d).toList.map Char.toLower = (hexEncode d).toList.map id := by
    refine List.map_congr_left fun c hc => ?_
    obtain ⟨n, hn, rfl⟩ := hexDigit_of_mem hc
    exact toLower_hexDigit hn
  rw [hmap, List.map_id, String.ofList_toList]

theorem hexOf_hexEncode {d : Bytes} (h : d.length = 32) : HexOf (hexEncode d) d where
  length := by rw [length_hexEncode, h]
  digits c hc := by
    obtain ⟨n, hn, rfl⟩ := hexDigit_of_mem hc
    rw [toDigit_hexDigit hn]
    rfl
  spells := toLower_hexEncode d

/-- Only the lowercase spelling of a digest is the same as another's. -/
theorem denotes_hexEncode_iff {d d' : Bytes} (h : d.length = 32) (h' : d'.length = 32) :
    DenotesHash d ("sha256:" ++ hexEncode d') ↔ d = d' := by
  constructor
  · intro hdenotes
    generalize htext : "sha256:" ++ hexEncode d' = text at hdenotes
    cases hdenotes with
    | hex digits hdigits =>
      have hspells := hdigits.spells
      rw [← (String.append_right_inj _).mp htext, toLower_hexEncode] at hspells
      exact (hexEncode_inj hspells).symm
    | base32 =>
      have hlength := congrArg (fun s : String => s.toList.length) ((String.append_right_inj _).mp htext)
      simp only [length_hexEncode, h', length_nixBase32 h] at hlength
      omega
    | sri =>
      have hprefix := congrArg (fun s : String => s.toList[6]?) htext
      simp [String.toList_append] at hprefix
  · rintro rfl
    exact .hex _ (hexOf_hexEncode h)

/-- Whether the verification is right about a NAR and its declared hash. -/
def VerifiesExactly (ext : Ext δ) (narBytes : Bytes) (expected : String) : Prop :=
  verifyNarHash ext narBytes expected = true ↔ DenotesHash (ext.sha256 narBytes) expected

def LowercaseHex (expected : String) : Prop := ∃ d : Bytes, d.length = 32 ∧ expected = "sha256:" ++ hexEncode d

theorem verifyNarHash_other {narBytes : Bytes} {expected : String} (h : stripPrefix "sha256:" expected = none) :
    verifyNarHash ext narBytes expected = true := by
  unfold verifyNarHash
  rw [h]

theorem verifyNarHash_hex (narBytes : Bytes) (digits : String) :
    verifyNarHash ext narBytes ("sha256:" ++ digits) = true ↔ hexEncode (ext.sha256 narBytes) = digits := by
  unfold verifyNarHash
  rw [stripPrefix_append]
  exact decide_eq_true_iff

theorem verifiesExactly_iff (hsha : ∀ bytes, (ext.sha256 bytes).length = 32) (narBytes : Bytes) (expected : String) :
    VerifiesExactly ext narBytes expected ↔ LowercaseHex expected ∨
      (DenotesHash (ext.sha256 narBytes) expected ↔ stripPrefix "sha256:" expected = none) := by
  have hdigest := hsha narBytes
  unfold VerifiesExactly
  by_cases hlower : LowercaseHex expected
  · obtain ⟨d, hd, rfl⟩ := hlower
    rw [verifyNarHash_hex, denotes_hexEncode_iff hdigest hd]
    exact iff_of_true ⟨hexEncode_inj, congrArg hexEncode⟩ (.inl ⟨d, hd, rfl⟩)
  · have hverify : verifyNarHash ext narBytes expected = true ↔ stripPrefix "sha256:" expected = none := by
      cases hprefix : stripPrefix "sha256:" expected with
      | none => exact iff_of_true (verifyNarHash_other hprefix) rfl
      | some digits =>
        obtain rfl := eq_of_stripPrefix hprefix
        rw [verifyNarHash_hex]
        exact iff_of_false (fun heq => hlower ⟨_, hdigest, by rw [heq]⟩) nofun
    rw [hverify, or_iff_right hlower]
    exact Iff.comm

/-! ## What is staged -/

/-- The turn of a mapping stages its NAR if it verifies. -/
theorem staged_iff_verified {fails : Call δ → Bool} {available : List ManifestEntry} {mapping : CaPathMapping} {client client' : Client δ}
    {rootNode : CaNode} {entry : ManifestEntry} {narBytes : Bytes} {staged : Bool} (hroot : mapping.rootNode = some rootNode)
    (hentry : entryByHash available mapping.storePathHash = some entry)
    (hnar : writeNarStreaming ext (client.store.reader fails ext) client.store.depth rootNode ((), []) = .ok () ((), narBytes))
    (h : stageMapping ext fails available mapping client = .ok staged client') :
    staged = true ↔ verifyNarHash ext narBytes entry.narHash = true := by
  have hturn := @stageMapping_turn _ _ ext fails available mapping client
  cases hresult : turn ext fails client.store available mapping with
  | error e =>
    rw [hresult] at hturn
    obtain ⟨e, client'', herror⟩ := hturn
    rw [h] at herror
    cases herror
  | ok result =>
    rw [hresult] at hturn
    dsimp only at hturn
    rw [h] at hturn
    obtain rfl : staged = result.isSome := by injection hturn
    constructor
    · intro hsome
      obtain ⟨⟨entry', narBytes'⟩, rfl⟩ := Option.isSome_iff_exists.mp hsome
      have hstages := Stages.of_turn hresult
      obtain ⟨rootNode', hroot', hnar'⟩ := hstages.reassembled
      obtain rfl : rootNode = rootNode' := Option.some.inj (hroot.symm.trans hroot')
      obtain rfl : entry = entry' := Option.some.inj (hentry.symm.trans hstages.entry_eq)
      rw [hnar] at hnar'
      obtain rfl : narBytes = narBytes' := by injection hnar' with _ hs; exact (Prod.mk.inj hs).2
      exact hstages.verified
    · intro hverified
      have hstages : Stages ext fails client.store available mapping entry narBytes := ⟨hentry, ⟨rootNode, hroot, hnar⟩, hverified⟩
      rw [hstages.turn_eq hresult]
      rfl

/-- When the verification is right, and what is staged follows it. -/
theorem verifyNarHash_exact_iff (ext : Ext δ) (hsha : ∀ bytes, (ext.sha256 bytes).length = 32) (narBytes : Bytes) (expected : String) :
    (VerifiesExactly ext narBytes expected ↔ LowercaseHex expected ∨
      (DenotesHash (ext.sha256 narBytes) expected ↔ stripPrefix "sha256:" expected = none)) ∧
    ∀ (fails : Call δ → Bool) (available : List ManifestEntry) (mapping : CaPathMapping) (client client' : Client δ)
      (rootNode : CaNode) (entry : ManifestEntry) (staged : Bool), mapping.rootNode = some rootNode →
        entryByHash available mapping.storePathHash = some entry → entry.narHash = expected →
        writeNarStreaming ext (client.store.reader fails ext) client.store.depth rootNode ((), []) = .ok () ((), narBytes) →
        stageMapping ext fails available mapping client = .ok staged client' →
          (staged = true ↔ verifyNarHash ext narBytes expected = true) := by
  refine ⟨verifiesExactly_iff hsha narBytes expected, ?_⟩
  rintro fails available mapping client client' rootNode entry staged hroot hentry rfl hnar h
  exact staged_iff_verified hroot hentry hnar h

/-- SHA-256, on the empty string. -/
def emptyExt : Ext Bytes := { sampleExt with sha256 := fun _ => emptyDigest }

theorem verifyNarHash_exact_iff_empty : VerifiesExactly emptyExt [] ("sha256:" ++ hexEncode emptyDigest) :=
  (verifyNarHash_exact_iff emptyExt (fun _ => rfl) [] _).1.mpr (.inl ⟨emptyDigest, rfl, rfl⟩)

/-- The digest in the base 32 of nix is refused, and any other digest as an SRI
string is taken. -/
theorem base32_refused : DenotesHash emptyDigest "sha256:0mdqa9w1p6cmli6976v4wi0sw9r4p5prkj7lzfd1877wk11c9c73" ∧
    verifyNarHash emptyExt [] "sha256:0mdqa9w1p6cmli6976v4wi0sw9r4p5prkj7lzfd1877wk11c9c73" = false ∧
    verifyNarHash emptyExt [] "sha256-AAAAAAAAAAAAAAAAAAAAAAAAAAAAAAAAAAAAAAAAAAA=" = true ∧
    ¬ ∀ (ext : Ext Bytes) (narBytes : Bytes) (expected : String), (∀ bytes, (ext.sha256 bytes).length = 32) →
      (∃ digest : Bytes, digest.length = 32 ∧ DenotesHash digest expected) → VerifiesExactly ext narBytes expected := by
  have htext : nixBase32 emptyDigest = "0mdqa9w1p6cmli6976v4wi0sw9r4p5prkj7lzfd1877wk11c9c73" := by decide
  have hdenotes : DenotesHash emptyDigest ("sha256:" ++ "0mdqa9w1p6cmli6976v4wi0sw9r4p5prkj7lzfd1877wk11c9c73") := htext ▸ .base32
  have hrefused : verifyNarHash emptyExt [] ("sha256:" ++ "0mdqa9w1p6cmli6976v4wi0sw9r4p5prkj7lzfd1877wk11c9c73") = false := by
    refine Bool.eq_false_iff.mpr fun h => ?_
    have hlength := congrArg (fun s : String => s.toList.length) ((verifyNarHash_hex [] _).mp h)
    simp only [length_hexEncode] at hlength
    exact absurd hlength (by decide)
  refine ⟨hdenotes, hrefused, by decide, fun h => ?_⟩
  have hexact := h emptyExt [] _ (fun _ => rfl) ⟨emptyDigest, rfl, hdenotes⟩
  rw [VerifiesExactly, hrefused] at hexact
  exact absurd (hexact.mpr hdenotes) Bool.false_ne_true

end Ekapkgs
