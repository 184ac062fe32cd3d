import TrustedPlatform.Wire.Buffer

/-!
# Points on the wire

A point is a pair of coordinate buffers, written one after the other.
-/

namespace TrustedPlatform.Wire

/-- The number of bytes in the longest coordinate or scalar. -/
abbrev maxCoordinateBytes : Nat := 66

/-- A coordinate or a scalar on the wire. -/
abbrev Parameter := Buffer maxCoordinateBytes

/-- An affine point on the wire. -/
structure Point where
  x : Parameter
  y : Parameter
  deriving DecidableEq

namespace Point

/-- The point with the given coordinate bytes. -/
def ofCoordinates? (x y : Bytes) : Except CommandError Point := do
  let x ← Buffer.ofBytes? x
  let y ← Buffer.ofBytes? y
  return ⟨x, y⟩

/-- The wire form of a point. -/
def marshal (p : Point) : Bytes :=
  p.x.marshal ++ p.y.marshal

/-- The point at the front of an input, with the number of bytes it takes there. -/
def unmarshal? (input : Bytes) : Except CommandError (Point × Nat) := do
  let (x, usedX) ← Buffer.unmarshal? input
  let (y, usedY) ← Buffer.unmarshal? (input.drop usedX)
  return (⟨x, y⟩, usedX + usedY)

/-- The two coordinates in hexadecimal. -/
def describe (p : Point) : String :=
  "EccPoint \x7b x: " ++ p.x.describe ++ ", y: " ++ p.y.describe ++ " \x7d"

end Point

end TrustedPlatform.Wire
