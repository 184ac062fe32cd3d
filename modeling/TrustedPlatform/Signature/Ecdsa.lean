import TrustedPlatform.Signature.Attempt

/-!
# The elliptic curve digital signature algorithm

A signature `(r, s)` under the private scalar `d` has `r` equal to the first coordinate of `[k]G`
and `s` equal to `(e + r * d) / k`, both modulo the order, where `k` is the ephemeral scalar and `e`
the digest.
-/

namespace TrustedPlatform.Signature.Ecdsa

open Arithmetic

variable {α : Type} [Arithmetic α]

/-- The name of the algorithm. -/
def algorithm : String := "ECDSA"

/-- The signature made with a given ephemeral scalar. -/
def signWith (c : Curve α) (d k : α) (digest : Bytes) : Checked (α × α) := do
  let n := c.n
  let point ← c.mul k c.g
  if point.isInfinity then throw (.noResult "ECDSA commitment")
  let r ← reduce point.x n
  if isZero r then throw (.noResult "ECDSA r")
  let e ← c.digestToInt digest
  match ← modInverse k n with
  | none => throw (.noResult "ECDSA k inverse")
  | some kInverse =>
      let rd ← modMul r d n
      let sum ← modAdd e rd n
      let s ← modMul kInverse sum n
      if isZero s then throw (.noResult "ECDSA s")
      return (r, s)

/-- A signature made with drawn ephemeral scalars. -/
def sign {σ : Type} [RandomSource σ] (c : Curve α) (d : α) (digest : Bytes) :
    Randomized σ (α × α) :=
  retry "ECDSA signing" c.randomScalar (fun k => signWith c d k digest) maxAttempts

/-- Accept a signature under a public point. -/
def verify (c : Curve α) (q : Jacobian α) (digest : Bytes) (r s : α) : Checked Unit := do
  Require.signature (c.inScalarRange r && c.inScalarRange s) algorithm
  let n := c.n
  let e ← c.digestToInt digest
  match ← modInverse s n with
  | none => throw (.signature algorithm)
  | some w =>
      let e ← reduce e n
      let u1 ← modMul e w n
      let u2 ← modMul r w n
      let point ← c.mul2 u1 c.g u2 q
      if point.isInfinity then throw (.signature algorithm)
      let v ← reduce point.x n
      Require.signature (eq v r) algorithm

end TrustedPlatform.Signature.Ecdsa
