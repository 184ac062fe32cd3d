import TrustedPlatform.Curve.Scalar

/-!
# Shared points and associate values

Every exchange ends in a multiple of a point that depends on the peer, taken with the cofactor,
and none may end at infinity. The authenticated exchanges weigh a point by its associate value:
the low half of its first coordinate with one bit set above it.
-/

namespace TrustedPlatform.Exchange

open Arithmetic

variable {α : Type} [Arithmetic α]

/-- The peer's point that a wire point denotes, when it is a finite point of the curve. -/
def peerPoint (c : Curve α) (q : Wire.Point) : Checked (Jacobian α) := do
  let p : Jacobian α := .ofWire q
  if p.isInfinity then throw .pointNotOnCurve
  let contained ← c.contains p
  if contained then return p else throw .pointNotOnCurve

/-- The low `bits` bits of a number with the bit above them set. -/
def associate (x : α) (bits : Nat) : Checked α := do
  let low ← maskBits x bits
  let high ← shiftLeft (ofWord 1) bits
  Arithmetic.add low high

/-- The associate value of a point in the MQV exchange. -/
def mqvValue (c : Curve α) (p : Jacobian α) : Checked α :=
  associate p.x ((c.orderBits + 1) / 2)

/-- The associate value of a point in the SM2 exchange, one bit shorter. -/
def sm2Value (c : Curve α) (p : Jacobian α) : Checked α :=
  associate p.x ((c.orderBits + 1) / 2 - 1)

/-- The multiple of a point by a scalar and the cofactor, which may not be infinite. -/
def cofactorMul (c : Curve α) (k : α) (p : Jacobian α) (operation : String) :
    Checked (Jacobian α) := do
  let hk ← mul c.h k
  let z ← c.mul hk p
  if z.isInfinity then throw (.noResult operation)
  return z

/-- The public point of an ephemeral scalar, which may not be infinite. -/
def ephemeralPoint (c : Curve α) (d : α) : Checked (Jacobian α) := do
  let q ← c.mul d c.g
  if q.isInfinity then throw (.noResult "ephemeral public key")
  return q

end TrustedPlatform.Exchange
