import TrustedPlatform.Curve.Wire

/-!
# Scalars, digests and public points

What the schemes over a curve share: the admissible private scalars, digests read as numbers of
the order's length, the check of a public point that arrives on the wire, and the wire form of a
scalar.
-/

namespace TrustedPlatform

open Arithmetic

namespace Curve

variable {α : Type} [Arithmetic α]

/-- The number that the leftmost bits of a digest denote, at most as many as the order has. -/
def digestToInt (c : Curve α) (digest : Bytes) : Checked α := do
  let e : α := ofBytes digest
  let bits := 8 * digest.length
  if c.orderBits < bits then shiftRight e (bits - c.orderBits) else return e

/-- The number lies between one and the order less one. -/
def inScalarRange (c : Curve α) (x : α) : Bool :=
  !isZero x && lt x c.n

/-- The private scalar that a byte string denotes. -/
def privateScalar (c : Curve α) (bytes : Bytes) : Checked α :=
  let d : α := ofBytes bytes
  if c.inScalarRange d then .ok d else .error (.key "private scalar out of range")

/-- The point that a wire point denotes, when it is a finite point of the curve. -/
def validatedPoint (c : Curve α) (point : Wire.Point) : Checked (Jacobian α) := do
  let p : Jacobian α := .ofWire point
  let contained ← c.contains p
  if !contained || p.isInfinity then throw .pointNotOnCurve else return p

/-- The wire form of a scalar, as long as the order. -/
def scalarParameter (c : Curve α) (x : α) : Checked Wire.Parameter := do
  let bytes ← toBytesPadded x c.orderBytes
  match Wire.Buffer.ofBytes? bytes with
  | .ok parameter => return parameter
  | .error _ => throw (.length "ECC scalar" Wire.maxCoordinateBytes bytes.length)

/-- The first coordinate of an affine point, as long as a coordinate. -/
def xBytes (c : Curve α) (p : Jacobian α) : Checked Bytes :=
  toBytesPadded p.x c.fieldBytes

end Curve

/-- Two points have the same coordinates. -/
def Jacobian.eq {α : Type} [Arithmetic α] (p q : Jacobian α) : Bool :=
  Arithmetic.eq p.x q.x && Arithmetic.eq p.y q.y && Arithmetic.eq p.z q.z

end TrustedPlatform
