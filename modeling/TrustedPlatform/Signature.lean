import TrustedPlatform.Signature.Ecdsa
import TrustedPlatform.Signature.Schnorr
import TrustedPlatform.Signature.Sm2

/-!
# Signatures on the wire

A signature carries its scheme and hash beside its two scalars. `Curve.sign` and `Curve.verify`
take keys and signatures in wire form and hand them to the scheme: ECDSA, EC-Schnorr or SM2.
-/

namespace TrustedPlatform

open Arithmetic

/-- A signature with its scheme and hash. -/
structure Signature where
  scheme : AlgorithmId
  hash : Hash
  r : Wire.Parameter
  s : Wire.Parameter

/-- The signature with the given parts, refused when a scalar is too long. -/
def Signature.ofScalars? (scheme : AlgorithmId) (hash : Hash) (r s : Bytes) :
    Except CommandError Signature := do
  let r ← Wire.Buffer.ofBytes? r
  let s ← Wire.Buffer.ofBytes? s
  return ⟨scheme, hash, r, s⟩

namespace Curve

variable {α : Type} [Arithmetic α]

/-- The signature of a digest under a private scalar. -/
def sign {σ : Type} [RandomSource σ] (c : Curve α) (scheme : AlgorithmId) (h : Hash)
    (privateKey digest : Bytes) : Randomized σ Signature := do
  Require.length "digest" digest.length h.size
  let d ← c.privateScalar privateKey
  let (r, s) ←
    if scheme = .ecdsa then Signature.Ecdsa.sign c d digest
    else if scheme = .ecSchnorr then Signature.Schnorr.sign c h d digest
    else if scheme = .sm2 then Signature.Sm2.sign c d digest
    else throw (.scheme "ECC signing")
  let r ← c.scalarParameter r
  let s ← c.scalarParameter s
  return ⟨scheme, h, r, s⟩

/-- The public point of a signature. Under SM2 the caller answers for it, so that a point off the
curve is fatal. -/
def signerPoint (c : Curve α) (scheme : AlgorithmId) (q : Wire.Point) : Checked (Jacobian α) :=
  match c.validatedPoint q with
  | .error .pointNotOnCurve =>
      if scheme = .sm2 then .error (.fatal .parameter) else .error .pointNotOnCurve
  | outcome => outcome

/-- Accept a signature of a digest under a public point. -/
def verify (c : Curve α) (q : Wire.Point) (signature : Signature) (digest : Bytes) :
    Checked Unit := do
  let point ← c.signerPoint signature.scheme q
  let r : α := ofBytes signature.r.bytes
  let s : α := ofBytes signature.s.bytes
  if signature.scheme = .ecdsa then Signature.Ecdsa.verify c point digest r s
  else if signature.scheme = .ecSchnorr then
    Signature.Schnorr.verify c signature.hash point digest r s
  else if signature.scheme = .sm2 then Signature.Sm2.verify c point digest r s
  else throw (.scheme "ECC verification")

end Curve

end TrustedPlatform
