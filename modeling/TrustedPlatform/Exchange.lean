import TrustedPlatform.Algorithm
import TrustedPlatform.Exchange.Scheme

/-!
# Key exchange on the wire

The exchanges with private scalars and points in wire form. A two-phase exchange ends in one
shared point, or in two under the full unified model.
-/

namespace TrustedPlatform

/-- The shared points of a two-phase exchange. -/
structure SharedPoints where
  z1 : Wire.Point
  z2 : Option Wire.Point

namespace Curve

variable {α : Type} [Arithmetic α]

/-- The shared point of a one-pass exchange with a peer. -/
def exchangeOnce (c : Curve α) (d : Bytes) (q : Wire.Point) : Checked Wire.Point := do
  let q ← Exchange.peerPoint c q
  let d ← c.privateScalar d
  let z ← Exchange.onePass c d q
  c.toWire z

/-- A peer's point in a two-phase exchange. Under SM2 the caller answers for it, so that a point
off the curve is fatal. -/
def exchangePeer (c : Curve α) (scheme : AlgorithmId) (q : Wire.Point) : Checked (Jacobian α) :=
  match Exchange.peerPoint c q with
  | .error .pointNotOnCurve =>
      if scheme = .sm2 then .error (.fatal .parameter) else .error .pointNotOnCurve
  | outcome => outcome

/-- The shared points of a two-phase exchange with a peer. -/
def exchangeTwice (c : Curve α) (scheme : AlgorithmId) (ds de : Bytes) (qs qe : Wire.Point) :
    Checked SharedPoints := do
  let qs ← c.exchangePeer scheme qs
  let qe ← c.exchangePeer scheme qe
  let ds ← c.privateScalar ds
  let de ← c.privateScalar de
  if scheme = .ecdh then
    let (z1, z2) ← Exchange.fullUnified c ds de qs qe
    let z1 ← c.toWire z1
    let z2 ← c.toWire z2
    return ⟨z1, some z2⟩
  else if scheme = .ecmqv then
    let z ← Exchange.mqv c ds de qs qe
    let z ← c.toWire z
    return ⟨z, none⟩
  else if scheme = .sm2 then
    let z ← Exchange.sm2 c ds de qs qe
    let z ← c.toWire z
    return ⟨z, none⟩
  else throw (.scheme "two-phase key exchange")

end Curve

end TrustedPlatform
