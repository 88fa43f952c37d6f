import Ekapkgs.Nar

/-!
# Signing certificates

`signing.rs` of the protocol crate: certificates that a root signs, and the
threshold of certificates that have to sign a path. Ed25519 itself is a parameter.
-/

namespace Ekapkgs

/-- `ed25519_dalek`: the texts are those of its errors. -/
structure Ed25519 (κ : Type) where
  fromBytes : Bytes → Except String κ
  verify : κ → Bytes → Bytes → Except String Unit

structure SigningCertificate where
  name : String
  publicKey : Bytes
  notBefore : UInt64
  notAfter : UInt64
  issuer : String
  issuerSignature : Bytes
  deriving DecidableEq, Inhabited

structure CertificateChain where
  signingCert : Option SigningCertificate
  intermediates : List SigningCertificate

structure CertSignature where
  certName : String
  signature : Bytes
  deriving DecidableEq

structure TrustedRoot (κ : Type) where
  name : String
  publicKey : κ

inductive CertError where
  | missingCert
  | untrustedIssuer (issuer : String)
  | expired (name : String) (notAfter now : UInt64)
  | notYetValid (name : String) (notBefore now : UInt64)
  | invalidIssuerSignature (name : String)
  | invalidPathSignature (message : String)
  | invalidKeyLength (expected got : Nat)
  | insufficientSignatures (required valid : Nat)
  | ed25519 (message : String)
  deriving DecidableEq

/-- `name || public_key(32) || not_before(8 LE) || not_after(8 LE) || issuer`. -/
def certificateSignPayload (cert : SigningCertificate) : Bytes :=
  asBytes cert.name ++ cert.publicKey ++ toLeBytes 8 cert.notBefore.toNat ++ toLeBytes 8 cert.notAfter.toNat ++ asBytes cert.issuer

def issueCertificate (sign : Bytes → Bytes) (caName certName : String) (certPublicKey : Bytes) (notBefore notAfter : UInt64) :
    SigningCertificate :=
  let cert : SigningCertificate := ⟨certName, certPublicKey, notBefore, notAfter, caName, []⟩
  { cert with issuerSignature := sign (certificateSignPayload cert) }

section
variable {κ : Type} (ed : Ed25519 κ)

/-- The certificate has to be signed by a root; the intermediates are not looked at. -/
def verifyChain (chain : CertificateChain) (trustedRoots : List (TrustedRoot κ)) (nowUnix : UInt64) : Except CertError κ :=
  match chain.signingCert with
  | none => .error .missingCert
  | some cert =>
    match trustedRoots.find? fun root => root.name = cert.issuer with
    | none => .error (.untrustedIssuer cert.issuer)
    | some root =>
      if nowUnix < cert.notBefore then .error (.notYetValid cert.name cert.notBefore nowUnix)
      else if cert.notAfter < nowUnix then .error (.expired cert.name cert.notAfter nowUnix)
      else if cert.issuerSignature.length ≠ 64 then .error (.invalidKeyLength 64 cert.issuerSignature.length)
      else
        match ed.verify root.publicKey (certificateSignPayload cert) cert.issuerSignature with
        | .error _ => .error (.invalidIssuerSignature cert.name)
        | .ok _ =>
          if cert.publicKey.length ≠ 32 then .error (.invalidKeyLength 32 cert.publicKey.length)
          else (ed.fromBytes cert.publicKey).mapError .ed25519

def verifyPathSignature (verifyingKey : κ) (fingerprint : String) (certSig : CertSignature) : Except CertError Unit :=
  if certSig.signature.length ≠ 64 then .error (.invalidKeyLength 64 certSig.signature.length)
  else (ed.verify verifyingKey (asBytes fingerprint) certSig.signature).mapError .invalidPathSignature

section
variable (threshold : Nat) (authorizedCerts : List SigningCertificate) (trustedRoots : List (TrustedRoot κ)) (fingerprint : String)
  (nowUnix : UInt64)

/-- The certificate that a signature names, the first of that name. -/
def certOf (certSig : CertSignature) : Option SigningCertificate := authorizedCerts.find? fun cert => cert.name = certSig.certName

/-- The loop over the signatures, with the names seen so far. -/
def thresholdLoop : List CertSignature → Nat → List String → Except CertError Unit
  | [], validCount, _ => .error (.insufficientSignatures threshold validCount)
  | certSig :: certSigs, validCount, seenCerts =>
    match certOf authorizedCerts certSig with
    | none => thresholdLoop certSigs validCount seenCerts
    | some cert =>
      if certSig.certName ∈ seenCerts then thresholdLoop certSigs validCount seenCerts
      else
        match verifyChain ed ⟨some cert, []⟩ trustedRoots nowUnix with
        | .error _ => thresholdLoop certSigs validCount (certSig.certName :: seenCerts)
        | .ok verifyingKey =>
          match verifyPathSignature ed verifyingKey fingerprint certSig with
          | .error _ => thresholdLoop certSigs validCount (certSig.certName :: seenCerts)
          | .ok _ =>
            if threshold ≤ validCount + 1 then .ok ()
            else thresholdLoop certSigs (validCount + 1) (certSig.certName :: seenCerts)

end

def verifyThreshold (threshold : Nat) (authorizedCerts : List SigningCertificate) (certSignatures : List CertSignature)
    (trustedRoots : List (TrustedRoot κ)) (fingerprint : String) (nowUnix : UInt64) : Except CertError Unit :=
  if threshold = 0 then .ok ()
  else thresholdLoop ed threshold authorizedCerts trustedRoots fingerprint nowUnix certSignatures 0 []

end

end Ekapkgs
