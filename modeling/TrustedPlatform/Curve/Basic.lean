import TrustedPlatform.Arithmetic
import TrustedPlatform.Curve.Registry

/-!
# Curves and points over an arithmetic

A registered curve is loaded into any type with arithmetic. A point is held in Jacobian
coordinates: `(x, y, z)` with `z` not zero stands for the affine point `(x / z^2, y / z^3)`, and
with `z` zero for the point at infinity.
-/

namespace TrustedPlatform

/-- A point in Jacobian coordinates. -/
structure Jacobian (α : Type) where
  x : α
  y : α
  z : α
  deriving Repr

/-- A curve in the numbers of an arithmetic. -/
structure Curve (α : Type) where
  /-- The description of the curve. -/
  parameters : CurveParameters
  /-- The field prime. -/
  p : α
  /-- The coefficient of `x`. -/
  a : α
  /-- The constant coefficient. -/
  b : α
  /-- The order of the generator. -/
  n : α
  /-- The cofactor. -/
  h : α
  /-- The generator. -/
  g : Jacobian α
  /-- The number of bytes in a coordinate. -/
  fieldBytes : Nat
  /-- The number of bits in the order. -/
  orderBits : Nat

namespace Curve

variable {α : Type} [Arithmetic α]

/-- The number of bytes in a scalar. -/
def orderBytes (c : Curve α) : Nat :=
  (c.orderBits + 7) / 8

/-- The curve that a description describes. -/
def ofParameters (d : CurveParameters) : Curve α :=
  let number (n : Nat) : α := Arithmetic.ofBytes (Bytes.ofNat n)
  let n := number d.n
  { parameters := d
    p := number d.p
    a := number d.a
    b := number d.b
    n := n
    h := number d.h
    g := ⟨number d.gx, number d.gy, Arithmetic.ofWord 1⟩
    fieldBytes := Bytes.widthOf d.p
    orderBits := Arithmetic.bitLength n }

/-- The curve with a registry number. -/
def load (α : Type) [Arithmetic α] (id : CurveId) : Checked (Curve α) := do
  let d ← CurveParameters.lookup? id
  return ofParameters d

end Curve

end TrustedPlatform
