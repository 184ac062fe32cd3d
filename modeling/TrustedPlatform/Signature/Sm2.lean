import TrustedPlatform.Signature.Attempt

/-!
# SM2 signatures

A signature `(r, s)` under the private scalar `d` has `r` equal to the sum of the digest and the
first coordinate of `[k]G`, and `s` equal to `(k - r * d) / (1 + d)`, both modulo the order. The
digest is taken as a number of any length.
-/

namespace TrustedPlatform.Signature.Sm2

open Arithmetic

variable {α : Type} [Arithmetic α]

/-- The name of the algorithm. -/
def algorithm : String := "SM2"

/-- The signature made with a given ephemeral scalar. -/
def signWith (c : Curve α) (d k : α) (digest : Bytes) : Checked (α × α) := do
  let n := c.n
  let point ← c.mul k c.g
  if point.isInfinity then throw (.noResult "SM2 commitment")
  let e ← reduce (ofBytes digest) n
  let r ← modAdd e point.x n
  if isZero r then throw (.noResult "SM2 r")
  let rk ← modAdd r k n
  if isZero rk then throw (.noResult "SM2 r")
  let d' ← modAdd (ofWord 1) d n
  match ← modInverse d' n with
  | none => throw (.key "SM2 private key is n - 1")
  | some inverse =>
      let rd ← modMul r d n
      let difference ← modSub k rd n
      let s ← modMul inverse difference n
      if isZero s then throw (.noResult "SM2 s")
      return (r, s)

/-- A signature made with drawn ephemeral scalars. -/
def sign {σ : Type} [RandomSource σ] (c : Curve α) (d : α) (digest : Bytes) :
    Randomized σ (α × α) :=
  retry "SM2 signing" c.randomScalar (fun k => signWith c d k digest) maxAttempts

/-- Accept a signature under a public point. -/
def verify (c : Curve α) (q : Jacobian α) (digest : Bytes) (r s : α) : Checked Unit := do
  Require.signature (c.inScalarRange r && c.inScalarRange s) algorithm
  let n := c.n
  let t ← modAdd r s n
  if isZero t then throw (.signature algorithm)
  let point ← c.mul2 s c.g t q
  if point.isInfinity then throw (.signature algorithm)
  let e ← reduce (ofBytes digest) n
  let expected ← modAdd e point.x n
  Require.signature (eq expected r) algorithm

end TrustedPlatform.Signature.Sm2
