import TrustedPlatform.Hash
import TrustedPlatform.Signature.Attempt

/-!
# Elliptic curve Schnorr signatures

A signature `(r, s)` consists of a challenge and a response. The challenge is the hash of the first
coordinate of the commitment point `[k]G` and the digest, and the response is `k + r * d` modulo
the order. Verification rebuilds the commitment point as `[s]G + [n - r]Q`.
-/

namespace TrustedPlatform.Signature.Schnorr

open Arithmetic

variable {α : Type} [Arithmetic α]

/-- The name of the algorithm. -/
def algorithm : String := "EC-Schnorr"

/-- The challenge for a commitment point and a digest. -/
def challenge (c : Curve α) (h : Hash) (point : Jacobian α) (digest : Bytes) : Checked α := do
  let x ← c.xBytes point
  let e ← c.digestToInt (h.digestParts [x, digest])
  reduce e c.n

/-- The signature made with a given ephemeral scalar. -/
def signWith (c : Curve α) (h : Hash) (d k : α) (digest : Bytes) : Checked (α × α) := do
  let point ← c.mul k c.g
  if point.isInfinity then throw (.noResult "EC-Schnorr commitment")
  let r ← challenge c h point digest
  let s ← schnorrResponse k r d c.n
  return (r, s)

/-- A signature made with drawn ephemeral scalars. -/
def sign {σ : Type} [RandomSource σ] (c : Curve α) (h : Hash) (d : α) (digest : Bytes) :
    Randomized σ (α × α) :=
  retry "EC-Schnorr signing" c.randomScalar (fun k => signWith c h d k digest) maxAttempts

/-- Accept a signature under a public point. -/
def verify (c : Curve α) (h : Hash) (q : Jacobian α) (digest : Bytes) (r s : α) :
    Checked Unit := do
  Require.signature (c.inScalarRange r && c.inScalarRange s) algorithm
  let minusR ← modSub (ofWord 0) r c.n
  let point ← c.mul2 s c.g minusR q
  if point.isInfinity then throw (.signature algorithm)
  let expected ← challenge c h point digest
  Require.signature (eq expected r) algorithm

end TrustedPlatform.Signature.Schnorr
