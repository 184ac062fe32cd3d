import TrustedPlatform.Attestation.Commitment
import TrustedPlatform.Attestation.Response
import TrustedPlatform.Engine.State
import TrustedPlatform.Exchange
import TrustedPlatform.Rsa.KeyPair
import TrustedPlatform.Rsa.Recovery
import TrustedPlatform.Rsa.Scheme
import TrustedPlatform.Signature

/-!
# Commands

A `Command` is a request with its arguments in wire form, a `Response` what a command that succeeds
answers. `Command.perform` is what a command does to the state of an engine.
-/

namespace TrustedPlatform

open Arithmetic Attestation Rsa

/-- A request to an engine. -/
inductive Command where
  /-- Give random bytes. -/
  | random (length : Nat)
  /-- Mix fresh entropy and additional input into the generator. -/
  | stir (additional : Bytes)
  /-- Make a key pair on a curve. -/
  | createKey (curve : CurveId)
  /-- Sign a digest. -/
  | sign (curve : CurveId) (scheme : AlgorithmId) (hash : Hash) (privateKey digest : Bytes)
  /-- Check a signature. -/
  | verify (curve : CurveId) (q : Wire.Point) (signature : Signature) (digest : Bytes)
  /-- Commit to the next counter of an anonymous signature. -/
  | commit (curve : CurveId) (privateKey name : Bytes) (base : Option Wire.Point)
      (basename : Option Basename) (cancel : CancelSignal)
  /-- Sign a digest anonymously with an outstanding counter. -/
  | attest (curve : CurveId) (counter : UInt64) (name : Bytes) (hash : Hash)
      (privateKey digest : Bytes)
  /-- Check an anonymous signature against a commitment point. -/
  | verifyAttestation (curve : CurveId) (base : Option Wire.Point) (e q : Wire.Point)
      (signature : Signature) (digest : Bytes)
  /-- Agree on a point with a peer, with a given private scalar. -/
  | exchangeOnce (curve : CurveId) (privateKey : Bytes) (q : Wire.Point)
  /-- Agree on a point with a peer, with a fresh private scalar. -/
  | exchangeFresh (curve : CurveId) (q : Wire.Point)
  /-- Agree on points with a peer in two phases. -/
  | exchangeTwice (curve : CurveId) (scheme : AlgorithmId) (ds de : Bytes) (qs qe : Wire.Point)
  /-- Make an RSA key. -/
  | rsaCreate (bits : Nat) (exponent : UInt32)
  /-- Rebuild an RSA key from its public half and one prime. -/
  | rsaLoad (key : PublicKey) (prime : Bytes)
  /-- Encrypt a message. -/
  | rsaEncrypt (key : PublicKey) (scheme : AlgorithmId) (hash : Hash) (label message : Bytes)
  /-- Decrypt a ciphertext. -/
  | rsaDecrypt (key : PrivateKey) (scheme : AlgorithmId) (hash : Hash) (label ciphertext : Bytes)
  /-- Sign a digest with an RSA key. -/
  | rsaSign (key : PrivateKey) (scheme : AlgorithmId) (hash : Hash) (digest : Bytes)
  /-- Check a signature of an RSA key. -/
  | rsaVerify (key : PublicKey) (scheme : AlgorithmId) (hash : Hash) (digest signature : Bytes)

/-- The answer of a command that succeeds. -/
inductive Response where
  | done
  | bytes (value : Bytes)
  | keyPair (privateKey : Bytes) (publicPoint : Wire.Point)
  | signature (value : Signature)
  | commitment (counter : UInt64) (e : Wire.Point) (k l : Option Wire.Point)
  | point (z : Wire.Point)
  | freshPoint (z publicPoint : Wire.Point)
  | sharedPoints (points : SharedPoints)
  | privateKey (key : PrivateKey)

/-- A byte string as a part of a signature. -/
def Signature.parameter (bytes : Bytes) : Checked Wire.Parameter :=
  match Wire.Buffer.ofBytes? bytes with
  | .ok parameter => .ok parameter
  | .error _ => .error (.length "ECC parameter" Wire.maxCoordinateBytes bytes.length)

namespace Command

open Operation

variable (α : Type) [Arithmetic α] {ε : Type} [EntropySource ε]

/-- Make a key pair on a curve. -/
def performCreateKey (curve : CurveId) : Operation ε Response := do
  let c ← Curve.load α curve
  let (d, q) ← onGenerator c.keyPair
  let d ← toBytesPadded d c.orderBytes
  let q ← c.toWire q
  return .keyPair d q

/-- Commit to the next counter and write the points of the commitment. -/
def performCommit (curve : CurveId) (privateKey name : Bytes) (base : Option Wire.Point)
    (basename : Option Basename) (cancel : CancelSignal) : Operation ε Response := do
  let c ← Curve.load α curve
  let d ← c.privateScalar privateKey
  let base ← (base.mapM c.validatedPoint : Checked _)
  let m ← onCommits fun state => Attestation.commit c state d name base basename cancel
  let e ← c.toWire m.e
  let k ← (m.k.mapM c.toWire : Checked _)
  let l ← (m.l.mapM c.toWire : Checked _)
  return .commitment m.counter e k l

/-- Sign a digest anonymously. -/
def performAttest (curve : CurveId) (counter : UInt64) (name : Bytes) (h : Hash)
    (privateKey digest : Bytes) : Operation ε Response := do
  let c ← Curve.load α curve
  Require.length "digest" digest.length h.size
  let d ← c.privateScalar privateKey
  let (nonce, s) ← onCommitsAndGenerator fun state generator =>
    Attestation.sign c state counter name h d digest generator
  let r ← Signature.parameter nonce
  let s ← toBytesPadded s c.orderBytes
  let s ← Signature.parameter s
  return .signature ⟨.ecdaa, h, r, s⟩

/-- Check an anonymous signature, relative to the generator when no base point is given. -/
def checkAttestation (curve : CurveId) (base : Option Wire.Point) (e q : Wire.Point)
    (signature : Signature) (digest : Bytes) : Checked Unit := do
  let c ← Curve.load α curve
  if signature.scheme ≠ .ecdaa then throw (.scheme "ECDAA verification")
  let base ← base.mapM c.validatedPoint
  let e ← c.validatedPoint e
  let q ← c.validatedPoint q
  Attestation.verify c signature.hash (base.getD c.g) e q signature.r.bytes digest
    (ofBytes signature.s.bytes)

/-- Agree on a point with a peer under a fresh key pair. -/
def performExchangeFresh (curve : CurveId) (q : Wire.Point) : Operation ε Response := do
  let c ← Curve.load α curve
  let q ← c.validatedPoint q
  let (d, own) ← onGenerator c.keyPair
  let z ← Exchange.onePass c d q
  let z ← c.toWire z
  let own ← c.toWire own
  return .freshPoint z own

/-- What a command does to the state of an engine. A rejected draw is repeated up to the given
number of times. -/
def perform (retries : Nat) : Command → Operation ε Response
  | random length => .bytes <$> onGenerator (draw length)
  | stir additional => (fun _ => .done) <$> onGenerator (fun g => g.reseed additional)
  | createKey curve => performCreateKey α curve
  | sign curve scheme h privateKey digest => do
      let c ← Curve.load α curve
      .signature <$> onGenerator (c.sign scheme h privateKey digest)
  | verify curve q signature digest => do
      let c ← Curve.load α curve
      c.verify q signature digest
      return .done
  | commit curve privateKey name base basename cancel =>
      performCommit α curve privateKey name base basename cancel
  | attest curve counter name h privateKey digest =>
      performAttest α curve counter name h privateKey digest
  | verifyAttestation curve base e q signature digest => do
      checkAttestation α curve base e q signature digest
      return .done
  | exchangeOnce curve privateKey q => do
      let c ← Curve.load α curve
      .point <$> c.exchangeOnce privateKey q
  | exchangeFresh curve q => performExchangeFresh α curve q
  | exchangeTwice curve scheme ds de qs qe => do
      let c ← Curve.load α curve
      .sharedPoints <$> c.exchangeTwice scheme ds de qs qe
  | rsaCreate bits exponent => .privateKey <$> onGenerator (generateKey α retries bits exponent)
  | rsaLoad key prime => .privateKey <$> onCache fun cache => PrivateKey.ofPrime α cache key prime
  | rsaEncrypt key scheme h label message =>
      .bytes <$> onGenerator (Rsa.encrypt α retries key scheme h label message)
  | rsaDecrypt key scheme h label ciphertext =>
      .bytes <$> Rsa.decrypt α key scheme h label ciphertext
  | rsaSign key scheme h digest => .bytes <$> onGenerator (Rsa.sign α key scheme h digest)
  | rsaVerify key scheme h digest signature => do
      Rsa.verify α key scheme h digest signature
      return .done

end Command

end TrustedPlatform
