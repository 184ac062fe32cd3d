import TrustedPlatform.Curve.Jacobian
import TrustedPlatform.Wire.Point

/-!
# Points between curve and wire

A point leaves as two coordinates of the width of the field; infinity cannot leave. Whatever
arrives is taken for an affine point, unchecked.
-/

namespace TrustedPlatform

open Arithmetic

variable {α : Type} [Arithmetic α]

/-- The affine point whose coordinates are held by a wire point. -/
def Jacobian.ofWire (p : Wire.Point) : Jacobian α :=
  .affine (ofBytes p.x.bytes) (ofBytes p.y.bytes)

/-- The wire form of a point. -/
def Curve.toWire (c : Curve α) (p : Jacobian α) : Checked Wire.Point := do
  if p.isInfinity then throw (.noResult "point encoding")
  let q ← c.normalize p
  let x ← toBytesPadded q.x c.fieldBytes
  let y ← toBytesPadded q.y c.fieldBytes
  match Wire.Point.ofCoordinates? x y with
  | .ok point => return point
  | .error _ => throw (.length "ECC point" Wire.maxCoordinateBytes c.fieldBytes)

end TrustedPlatform
