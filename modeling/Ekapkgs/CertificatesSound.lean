import Ekapkgs.Certificates
import Ekapkgs.Lib.Firsts
import Ekapkgs.NarSound

/-!
# What a threshold of signatures means

A threshold is met by certificates of distinct names that each have a valid chain
and a valid signature of the path. The loop looks at the first certificate and the
first signature of a name only.
-/

namespace Ekapkgs
open Firsts

section
variable {κ : Type} (ed : Ed25519 κ) (threshold : Nat) (authorizedCerts : List SigningCertificate) (certSignatures : List CertSignature)
  (trustedRoots : List (TrustedRoot κ)) (fingerprint : String) (nowUnix : UInt64)

/-! ## Chains and signatures -/

/-- A trusted root of the issuer's name has signed the certificate, which is valid now. -/
structure ChainVerifies (cert : SigningCertificate) (verifyingKey : κ) : Prop where
  root : ∃ root ∈ trustedRoots, root.name = cert.issuer ∧
    ed.verify root.publicKey (certificateSignPayload cert) cert.issuerSignature = .ok ()
  signature : cert.issuerSignature.length = 64
  notBefore : cert.notBefore ≤ nowUnix
  notAfter : nowUnix ≤ cert.notAfter
  publicKey : cert.publicKey.length = 32
  key : ed.fromBytes cert.publicKey = .ok verifyingKey

def PathVerifies (verifyingKey : κ) (certSig : CertSignature) : Prop :=
  certSig.signature.length = 64 ∧ ed.verify verifyingKey (asBytes fingerprint) certSig.signature = .ok ()

/-- Some certificate of the name verifies, and some signature of the name under it. -/
def VouchedFor (name : String) : Prop := ∃ cert ∈ authorizedCerts, cert.name = name ∧
  ∃ verifyingKey, ChainVerifies ed trustedRoots nowUnix cert verifyingKey ∧
    ∃ certSig ∈ certSignatures, certSig.certName = name ∧ PathVerifies ed fingerprint verifyingKey certSig

/-- The first certificate of the name verifies against the first root of its
issuer's name, and the first signature of the name under it. -/
def FirstVouches (name : String) : Prop := ∃ cert certSig verifyingKey,
  authorizedCerts.find? (fun cert => cert.name = name) = some cert ∧
    certSignatures.find? (fun certSig => certSig.certName = name) = some certSig ∧
      verifyChain ed ⟨some cert, []⟩ trustedRoots nowUnix = .ok verifyingKey ∧
        verifyPathSignature ed verifyingKey fingerprint certSig = .ok ()

/-- Distinct names, at least so many. -/
def AtLeast (threshold : Nat) (p : String → Prop) : Prop := ∃ names : List String, names.Nodup ∧ threshold ≤ names.length ∧
  ∀ name ∈ names, p name

variable {ed threshold authorizedCerts certSignatures trustedRoots fingerprint nowUnix}

theorem AtLeast.mono {p q : String → Prop} (h : AtLeast threshold p) (hpq : ∀ name, p name → q name) : AtLeast threshold q := by
  obtain ⟨names, hnodup, hle, hall⟩ := h
  exact ⟨names, hnodup, hle, fun name hname => hpq name (hall name hname)⟩

theorem mapError_ok {ε ε' α : Type} {f : ε → ε'} {r : Except ε α} {a : α} : r.mapError f = .ok a ↔ r = .ok a := by
  cases r with
  | error e => exact ⟨nofun, nofun⟩
  | ok b => exact ⟨fun h => by cases h; rfl, fun h => by cases h; rfl⟩

theorem verifyChain_ok {cert : SigningCertificate} {intermediates : List SigningCertificate} {verifyingKey : κ}
    (h : verifyChain ed ⟨some cert, intermediates⟩ trustedRoots nowUnix = .ok verifyingKey) :
    ChainVerifies ed trustedRoots nowUnix cert verifyingKey := by
  unfold verifyChain at h
  dsimp only at h
  split at h
  · cases h
  next root hroot =>
    cases hverify : ed.verify root.publicKey (certificateSignPayload cert) cert.issuerSignature with
    | error e =>
      rw [hverify] at h
      split_ifs at h
    | ok _ =>
      rw [hverify] at h
      split_ifs at h with hbefore hafter hlength hkey
      exact ⟨⟨root, List.mem_of_find?_eq_some hroot, of_decide_eq_true (List.find?_some hroot :), hverify⟩, not_not.mp hlength,
        UInt64.not_lt.mp hbefore, UInt64.not_lt.mp hafter, not_not.mp hkey, mapError_ok.mp h⟩

theorem verifyPathSignature_ok {verifyingKey : κ} {certSig : CertSignature} :
    verifyPathSignature ed verifyingKey fingerprint certSig = .ok () ↔ PathVerifies ed fingerprint verifyingKey certSig := by
  unfold verifyPathSignature PathVerifies
  split_ifs with hlength
  · exact ⟨nofun, fun h => absurd h.1 hlength⟩
  · rw [mapError_ok]
    exact ⟨fun h => ⟨not_not.mp hlength, h⟩, fun h => h.2⟩

theorem FirstVouches.vouchedFor {name : String}
    (h : FirstVouches ed authorizedCerts certSignatures trustedRoots fingerprint nowUnix name) :
    VouchedFor ed authorizedCerts certSignatures trustedRoots fingerprint nowUnix name := by
  obtain ⟨cert, certSig, verifyingKey, hcert, hsig, hchain, hpath⟩ := h
  exact ⟨cert, List.mem_of_find?_eq_some hcert, of_decide_eq_true (List.find?_some hcert :), verifyingKey, verifyChain_ok hchain,
    certSig, List.mem_of_find?_eq_some hsig, of_decide_eq_true (List.find?_some hsig :), verifyPathSignature_ok.mp hpath⟩

/-! ## The loop -/

section
variable (ed authorizedCerts trustedRoots fingerprint nowUnix)

/-- The signature counts, were it the first of its name. -/
def Counts (certSig : CertSignature) : Bool :=
  (certOf authorizedCerts certSig).any fun cert =>
    match verifyChain ed ⟨some cert, []⟩ trustedRoots nowUnix with
    | .error _ => false
    | .ok verifyingKey => (verifyPathSignature ed verifyingKey fingerprint certSig).toBool

/-- The signatures that the loop counts if none is enough. -/
def counted (certSigs : List CertSignature) (seenCerts : List String) : List CertSignature :=
  (firsts CertSignature.certName (certSigs.filter fun certSig => (certOf authorizedCerts certSig).isSome) seenCerts).filter
    (Counts ed authorizedCerts trustedRoots fingerprint nowUnix)

end

theorem thresholdLoop_ok : ∀ {certSigs : List CertSignature} {validCount : Nat} {seenCerts : List String}, validCount < threshold →
    (thresholdLoop ed threshold authorizedCerts trustedRoots fingerprint nowUnix certSigs validCount seenCerts = .ok () ↔
      threshold ≤ validCount + (counted ed authorizedCerts trustedRoots fingerprint nowUnix certSigs seenCerts).length)
  | [], validCount, seenCerts, hlt => by
    constructor
    · nofun
    · intro hle
      simp [counted, firsts] at hle
      omega
  | certSig :: certSigs, validCount, seenCerts, hlt => by
    unfold thresholdLoop
    cases hcert : certOf authorizedCerts certSig with
    | none =>
      have hskip : counted ed authorizedCerts trustedRoots fingerprint nowUnix (certSig :: certSigs) seenCerts =
          counted ed authorizedCerts trustedRoots fingerprint nowUnix certSigs seenCerts := by simp [counted, hcert]
      rw [hskip]
      exact thresholdLoop_ok hlt
    | some cert =>
      dsimp only
      by_cases hseen : certSig.certName ∈ seenCerts
      · have hskip : counted ed authorizedCerts trustedRoots fingerprint nowUnix (certSig :: certSigs) seenCerts =
            counted ed authorizedCerts trustedRoots fingerprint nowUnix certSigs seenCerts := by simp [counted, hcert, firsts, hseen]
        rw [if_pos hseen, hskip]
        exact thresholdLoop_ok hlt
      · rw [if_neg hseen]
        have hnext : counted ed authorizedCerts trustedRoots fingerprint nowUnix (certSig :: certSigs) seenCerts =
            (if Counts ed authorizedCerts trustedRoots fingerprint nowUnix certSig then [certSig] else []) ++
              counted ed authorizedCerts trustedRoots fingerprint nowUnix certSigs (certSig.certName :: seenCerts) := by
          simp only [counted, List.filter_cons, hcert, Option.isSome_some, if_true, firsts, if_neg hseen]
          split_ifs <;> rfl
        rw [hnext]
        have hcounts : Counts ed authorizedCerts trustedRoots fingerprint nowUnix certSig =
            match verifyChain ed ⟨some cert, []⟩ trustedRoots nowUnix with
            | .error _ => false
            | .ok verifyingKey => (verifyPathSignature ed verifyingKey fingerprint certSig).toBool := by
          rw [Counts, hcert, Option.any_some]
        cases hchain : verifyChain ed ⟨some cert, []⟩ trustedRoots nowUnix with
        | error e =>
          rw [hchain] at hcounts
          rw [hcounts]
          exact thresholdLoop_ok hlt
        | ok verifyingKey =>
          rw [hchain] at hcounts
          dsimp only at hcounts ⊢
          cases hpath : verifyPathSignature ed verifyingKey fingerprint certSig with
          | error e =>
            rw [hpath] at hcounts
            rw [hcounts]
            exact thresholdLoop_ok hlt
          | ok _ =>
            rw [hpath] at hcounts
            rw [hcounts, if_pos (show (Except.ok _ : Except CertError Unit).toBool = true from rfl), List.length_append, List.length_singleton, ← Nat.add_assoc]
            dsimp only
            by_cases hmet : threshold ≤ validCount + 1
            · rw [if_pos hmet]
              exact ⟨fun _ => Nat.le_add_right_of_le hmet, fun _ => rfl⟩
            · rw [if_neg hmet]
              exact thresholdLoop_ok (Nat.lt_of_not_le hmet)

theorem counts_iff {certSig : CertSignature} : Counts ed authorizedCerts trustedRoots fingerprint nowUnix certSig = true ↔
    ∃ cert verifyingKey, certOf authorizedCerts certSig = some cert ∧ verifyChain ed ⟨some cert, []⟩ trustedRoots nowUnix = .ok verifyingKey ∧
      verifyPathSignature ed verifyingKey fingerprint certSig = .ok () := by
  unfold Counts
  rw [Option.any_eq_true]
  constructor
  · rintro ⟨cert, hcert, hcounts⟩
    split at hcounts
    · cases hcounts
    next verifyingKey hchain =>
      cases hpath : verifyPathSignature ed verifyingKey fingerprint certSig with
      | error e => rw [hpath] at hcounts; cases hcounts
      | ok _ => exact ⟨cert, verifyingKey, hcert, hchain, hpath⟩
  · rintro ⟨cert, verifyingKey, hcert, hchain, hpath⟩
    refine ⟨cert, hcert, ?_⟩
    rw [hchain]
    dsimp only
    rw [hpath]
    rfl

theorem mem_counted {name : String} :
    name ∈ (counted ed authorizedCerts trustedRoots fingerprint nowUnix certSignatures []).map CertSignature.certName ↔
      FirstVouches ed authorizedCerts certSignatures trustedRoots fingerprint nowUnix name := by
  have hfind : ∀ certSig : CertSignature, (certOf authorizedCerts certSig).isSome = true → certSig.certName = name →
      (certSignatures.filter fun certSig => (certOf authorizedCerts certSig).isSome).find? (fun b => b.certName = name) =
        certSignatures.find? fun b => b.certName = name := by
    intro certSig hsome hname
    rw [List.find?_filter]
    congr 1
    funext b
    by_cases hb : b.certName = name
    · have hcert : certOf authorizedCerts b = certOf authorizedCerts certSig := by
        unfold certOf
        rw [hb, hname]
      simp [hb, hcert, hsome]
    · simp [hb]
  unfold counted
  simp only [List.mem_map, List.mem_filter, mem_firsts, counts_iff, List.not_mem_nil, not_false_eq_true, true_and]
  constructor
  · rintro ⟨certSig, ⟨hfirst, cert, verifyingKey, hcert, hchain, hpath⟩, rfl⟩
    rw [hfind certSig (by rw [hcert]; rfl) rfl] at hfirst
    exact ⟨cert, certSig, verifyingKey, hcert, hfirst, hchain, hpath⟩
  · rintro ⟨cert, certSig, verifyingKey, hcert, hsig, hchain, hpath⟩
    obtain rfl : certSig.certName = name := of_decide_eq_true (List.find?_some hsig :)
    refine ⟨certSig, ⟨?_, cert, verifyingKey, hcert, hchain, hpath⟩, rfl⟩
    rwa [hfind certSig (show (certOf authorizedCerts certSig).isSome = true by rw [certOf, hcert]; rfl) rfl]

/-- The threshold is met when the first certificates and signatures meet it. -/
theorem verifyThreshold_ok :
    verifyThreshold ed threshold authorizedCerts certSignatures trustedRoots fingerprint nowUnix = .ok () ↔
      AtLeast threshold (FirstVouches ed authorizedCerts certSignatures trustedRoots fingerprint nowUnix) := by
  unfold verifyThreshold
  by_cases hzero : threshold = 0
  · rw [if_pos hzero]
    exact ⟨fun _ => ⟨[], List.nodup_nil, by omega, nofun⟩, fun _ => rfl⟩
  · rw [if_neg hzero, thresholdLoop_ok (Nat.pos_of_ne_zero hzero), Nat.zero_add]
    have hnodup : ((counted ed authorizedCerts trustedRoots fingerprint nowUnix certSignatures []).map CertSignature.certName).Nodup :=
      (nodup_firsts CertSignature.certName).sublist (List.filter_sublist.map _)
    constructor
    · intro hle
      exact ⟨_, hnodup, by rwa [List.length_map], fun name hname => mem_counted.mp hname⟩
    · rintro ⟨names, hnames, hle, hall⟩
      have hsub : names ⊆ (counted ed authorizedCerts trustedRoots fingerprint nowUnix certSignatures []).map CertSignature.certName :=
        fun name hname => mem_counted.mpr (hall name hname)
      have := (hnames.subperm hsub).length_le
      rw [List.length_map] at this
      omega

end

/-! ## Soundness -/

theorem verifyThreshold_sound {κ : Type} (ed : Ed25519 κ) (threshold : Nat) (authorizedCerts : List SigningCertificate)
    (certSignatures : List CertSignature) (trustedRoots : List (TrustedRoot κ)) (fingerprint : String) (nowUnix : UInt64)
    (h : verifyThreshold ed threshold authorizedCerts certSignatures trustedRoots fingerprint nowUnix = .ok ()) :
    ∃ certs : List SigningCertificate, (certs.map SigningCertificate.name).Nodup ∧ threshold ≤ certs.length ∧
      ∀ cert ∈ certs, cert ∈ authorizedCerts ∧ ∃ verifyingKey, ChainVerifies ed trustedRoots nowUnix cert verifyingKey ∧
        ∃ certSig ∈ certSignatures, certSig.certName = cert.name ∧ PathVerifies ed fingerprint verifyingKey certSig := by
  obtain ⟨names, hnodup, hle, hall⟩ := (verifyThreshold_ok.mp h).mono fun _ => FirstVouches.vouchedFor
  choose! cert hmem hname hvouches using hall
  have hmap : (names.map cert).map SigningCertificate.name = names := by
    rw [List.map_map]
    exact (List.map_congr_left hname).trans (List.map_id names)
  refine ⟨names.map cert, hmap.symm ▸ hnodup, by rwa [List.length_map], fun c hc => ?_⟩
  obtain ⟨name, hin, rfl⟩ := List.mem_map.mp hc
  rw [hname name hin]
  exact ⟨hmem name hin, hvouches name hin⟩

/-! ## Completeness -/

theorem VouchedFor.mono {κ : Type} {ed : Ed25519 κ} {certs authorizedCerts : List SigningCertificate} {sigs certSignatures : List CertSignature}
    {trustedRoots : List (TrustedRoot κ)} {fingerprint : String} {nowUnix : UInt64} (hcerts : certs ⊆ authorizedCerts)
    (hsigs : sigs ⊆ certSignatures) {name : String} (h : VouchedFor ed certs sigs trustedRoots fingerprint nowUnix name) :
    VouchedFor ed authorizedCerts certSignatures trustedRoots fingerprint nowUnix name := by
  obtain ⟨cert, hcert, hname, verifyingKey, hchain, certSig, hsig, hpath⟩ := h
  exact ⟨cert, hcerts hcert, hname, verifyingKey, hchain, certSig, hsigs hsig, hpath⟩

/-- The threshold is met by whoever vouches, in any order and with any additions,
exactly if it is met by the first of each name. -/
theorem verifyThreshold_complete_iff {κ : Type} (ed : Ed25519 κ) (threshold : Nat) (authorizedCerts : List SigningCertificate)
    (certSignatures : List CertSignature) (trustedRoots : List (TrustedRoot κ)) (fingerprint : String) (nowUnix : UInt64) :
    ((AtLeast threshold (VouchedFor ed authorizedCerts certSignatures trustedRoots fingerprint nowUnix) →
        verifyThreshold ed threshold authorizedCerts certSignatures trustedRoots fingerprint nowUnix = .ok ()) ∧
      ∀ certs sigs, certs.Subperm authorizedCerts → sigs.Subperm certSignatures →
        verifyThreshold ed threshold certs sigs trustedRoots fingerprint nowUnix = .ok () →
          verifyThreshold ed threshold authorizedCerts certSignatures trustedRoots fingerprint nowUnix = .ok ()) ↔
    (AtLeast threshold (VouchedFor ed authorizedCerts certSignatures trustedRoots fingerprint nowUnix) →
      AtLeast threshold (FirstVouches ed authorizedCerts certSignatures trustedRoots fingerprint nowUnix)) := by
  rw [verifyThreshold_ok]
  constructor
  · exact fun h => h.1
  · intro h
    refine ⟨h, fun certs sigs hcerts hsigs hok => h ?_⟩
    have hvouched := (verifyThreshold_ok.mp hok).mono fun _ => FirstVouches.vouchedFor
    exact hvouched.mono fun name => VouchedFor.mono hcerts.subset hsigs.subset

/-! ## Two signatures of one name -/

/-- A signature that repeats the key and the end of the message. -/
def echoSign (key message : Bytes) : Bytes := key ++ (message.reverse ++ List.replicate 32 0).take 32

def echoEd25519 : Ed25519 Bytes where
  fromBytes bytes := if bytes.length = 32 then .ok bytes else .error "signature error"
  verify key message signature := if signature = echoSign key message then .ok () else .error "signature error"

def caKey : Bytes := List.replicate 32 1
def certKey : Bytes := List.replicate 32 2

def ca : TrustedRoot Bytes := ⟨"ca", caKey⟩
def signerCert : SigningCertificate := issueCertificate (echoSign caKey) "ca" "signer-0" certKey 0 2000

def pathFingerprint : String := "1;/nix/store/test;sha256:ff;1;"
def goodSig : CertSignature := ⟨"signer-0", echoSign certKey (asBytes pathFingerprint)⟩
def junkSig : CertSignature := ⟨"signer-0", []⟩

theorem verifyThreshold_sound_signer : ∃ certs : List SigningCertificate, (certs.map SigningCertificate.name).Nodup ∧ 1 ≤ certs.length ∧
    ∀ cert ∈ certs, cert ∈ [signerCert] ∧ ∃ verifyingKey, ChainVerifies echoEd25519 [ca] 1000 cert verifyingKey ∧
      ∃ certSig ∈ [goodSig, junkSig], certSig.certName = cert.name ∧ PathVerifies echoEd25519 pathFingerprint verifyingKey certSig :=
  verifyThreshold_sound echoEd25519 1 [signerCert] [goodSig, junkSig] [ca] pathFingerprint 1000 (by decide)

/-- A junk signature hides the good one behind it. -/
theorem junk_before_good_rejected : ¬ ∀ (threshold : Nat) (authorizedCerts : List SigningCertificate) (certSignatures : List CertSignature)
    (trustedRoots : List (TrustedRoot Bytes)) (fingerprint : String) (nowUnix : UInt64),
      AtLeast threshold (VouchedFor echoEd25519 authorizedCerts certSignatures trustedRoots fingerprint nowUnix) →
        verifyThreshold echoEd25519 threshold authorizedCerts certSignatures trustedRoots fingerprint nowUnix = .ok () := by
  intro h
  have hchain : verifyChain echoEd25519 ⟨some signerCert, []⟩ [ca] 1000 = .ok certKey := by decide
  have hpath : verifyPathSignature echoEd25519 certKey pathFingerprint goodSig = .ok () := by decide
  have hvouched : VouchedFor echoEd25519 [signerCert] [junkSig, goodSig] [ca] pathFingerprint 1000 "signer-0" :=
    ⟨signerCert, List.mem_singleton_self _, rfl, certKey, verifyChain_ok hchain, goodSig,
      List.mem_cons_of_mem _ (List.mem_singleton_self _), rfl, verifyPathSignature_ok.mp hpath⟩
  have hok := h 1 [signerCert] [junkSig, goodSig] [ca] pathFingerprint 1000
    ⟨["signer-0"], List.nodup_singleton _, Nat.le_refl 1, fun name hname => List.mem_singleton.mp hname ▸ hvouched⟩
  exact absurd hok (by decide)

/-! ## The payload of a certificate -/

/-- What the issuer's signature is about. -/
def SameCertificate (cert cert' : SigningCertificate) : Prop :=
  cert.name = cert'.name ∧ cert.publicKey = cert'.publicKey ∧ cert.notBefore = cert'.notBefore ∧ cert.notAfter = cert'.notAfter ∧
    cert.issuer = cert'.issuer

theorem toLeBytes_inj {n m : UInt64} (h : toLeBytes 8 n.toNat = toLeBytes 8 m.toNat) : n = m := by
  have := congrArg fromLeBytes h
  have hpow : 256 ^ 8 = 2 ^ 64 := by decide
  rw [fromLeBytes_toLeBytes, fromLeBytes_toLeBytes, hpow, Nat.mod_eq_of_lt n.toNat_lt, Nat.mod_eq_of_lt m.toNat_lt] at this
  exact UInt64.toNat_inj.mp this

/-- The payload says where the name ends only to who knows its length. -/
theorem payload_unambiguous_iff (cert cert' : SigningCertificate) (hkey : cert.publicKey.length = 32) (hkey' : cert'.publicKey.length = 32) :
    (certificateSignPayload cert = certificateSignPayload cert' → SameCertificate cert cert') ↔
      (certificateSignPayload cert ≠ certificateSignPayload cert' ∨ (asBytes cert.name).length = (asBytes cert'.name).length) := by
  constructor
  · intro h
    by_cases heq : certificateSignPayload cert = certificateSignPayload cert'
    · right; rw [(h heq).1]
    · exact .inl heq
  · rintro (hne | hlength) heq
    · exact absurd heq hne
    · unfold certificateSignPayload at heq
      simp only [List.append_assoc] at heq
      obtain ⟨hname, heq⟩ := List.append_inj heq hlength
      obtain ⟨hpublic, heq⟩ := List.append_inj heq (hkey.trans hkey'.symm)
      obtain ⟨hbefore, heq⟩ := List.append_inj heq (by simp)
      obtain ⟨hafter, hissuer⟩ := List.append_inj heq (by simp)
      exact ⟨asBytes_inj hname, hpublic, toLeBytes_inj hbefore, toLeBytes_inj hafter, asBytes_inj hissuer⟩

theorem payload_unambiguous_signer : (certificateSignPayload signerCert = certificateSignPayload { signerCert with issuer := "cb" } →
    SameCertificate signerCert { signerCert with issuer := "cb" }) ↔
      (certificateSignPayload signerCert ≠ certificateSignPayload { signerCert with issuer := "cb" } ∨
        (asBytes signerCert.name).length = (asBytes signerCert.name).length) :=
  payload_unambiguous_iff signerCert { signerCert with issuer := "cb" } (by decide) (by decide)

def shortName : SigningCertificate := ⟨"a", 98 :: List.replicate 31 0, 0, 0, "\x00c", []⟩
def longName : SigningCertificate := ⟨"ab", List.replicate 32 0, 0, 0, "c", []⟩

/-- The end of a name reads as the start of the key. -/
theorem payload_ambiguous : ¬ ∀ cert cert' : SigningCertificate, cert.publicKey.length = 32 → cert'.publicKey.length = 32 →
    certificateSignPayload cert = certificateSignPayload cert' → SameCertificate cert cert' := by
  intro h
  have hsame := h shortName longName (by decide) (by decide) (by decide)
  exact absurd hsame.1 (by decide)

end Ekapkgs
