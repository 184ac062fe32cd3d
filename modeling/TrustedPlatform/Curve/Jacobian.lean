import TrustedPlatform.Curve.Basic

/-!
# The group law in Jacobian coordinates

Doubling and addition need no inversion, so a scalar multiple takes one inversion in all, when
`normalize` makes its result affine. The multiples are computed by a ladder that performs one
addition and one doubling for each bit of the scalar, and at least as many as the order has bits.
-/

namespace TrustedPlatform

open Arithmetic

namespace Jacobian

variable {α : Type} [Arithmetic α]

/-- The point at infinity. -/
def infinity : Jacobian α :=
  ⟨ofWord 0, ofWord 0, ofWord 0⟩

/-- The affine point with given coordinates. -/
def affine (x y : α) : Jacobian α :=
  ⟨x, y, ofWord 1⟩

/-- The point is the one at infinity. -/
def isInfinity (p : Jacobian α) : Bool :=
  isZero p.z

end Jacobian

namespace Curve

variable {α : Type} [Arithmetic α]

open Jacobian

/-- The double of a point. -/
def double (c : Curve α) (p : Jacobian α) : Checked (Jacobian α) := do
  let m := c.p
  if p.isInfinity then return infinity
  if isZero (← reduce p.y m) then return infinity
  let y2 ← modMul p.y p.y m
  let xy2 ← modMul p.x y2 m
  let s ← modMul (ofWord 4) xy2 m
  let x2 ← modMul p.x p.x m
  let z2 ← modMul p.z p.z m
  let z4 ← modMul z2 z2 m
  let threeX2 ← modMul (ofWord 3) x2 m
  let az4 ← modMul c.a z4 m
  let slope ← modAdd threeX2 az4 m
  let slope2 ← modMul slope slope m
  let twoS ← modAdd s s m
  let x3 ← modSub slope2 twoS m
  let y4 ← modMul y2 y2 m
  let sx3 ← modSub s x3 m
  let rise ← modMul slope sx3 m
  let eightY4 ← modMul (ofWord 8) y4 m
  let y3 ← modSub rise eightY4 m
  let twoY ← modAdd p.y p.y m
  let z3 ← modMul twoY p.z m
  return ⟨x3, y3, z3⟩

/-- The sum of two points. -/
def add (c : Curve α) (p q : Jacobian α) : Checked (Jacobian α) := do
  if p.isInfinity then return q
  if q.isInfinity then return p
  let m := c.p
  let z1z1 ← modMul p.z p.z m
  let z2z2 ← modMul q.z q.z m
  let u1 ← modMul p.x z2z2 m
  let u2 ← modMul q.x z1z1 m
  let z2z2z2 ← modMul q.z z2z2 m
  let s1 ← modMul p.y z2z2z2 m
  let z1z1z1 ← modMul p.z z1z1 m
  let s2 ← modMul q.y z1z1z1 m
  if eq u1 u2 then
    if eq s1 s2 then c.double p else return infinity
  else
    let h ← modSub u2 u1 m
    let r ← modSub s2 s1 m
    let h2 ← modMul h h m
    let h3 ← modMul h h2 m
    let u1h2 ← modMul u1 h2 m
    let r2 ← modMul r r m
    let r2h3 ← modSub r2 h3 m
    let twoU1h2 ← modAdd u1h2 u1h2 m
    let x3 ← modSub r2h3 twoU1h2 m
    let run ← modSub u1h2 x3 m
    let rise ← modMul r run m
    let s1h3 ← modMul s1 h3 m
    let y3 ← modSub rise s1h3 m
    let zz ← modMul p.z q.z m
    let z3 ← modMul h zz m
    return ⟨x3, y3, z3⟩

/-- The ladder over the `count` low bits of a scalar, from the highest of them down. The second
point stays ahead of the first by the multiplied one. -/
def ladder (c : Curve α) (k : α) : Nat → Jacobian α → Jacobian α → Checked (Jacobian α)
  | 0, r0, _ => .ok r0
  | i + 1, r0, r1 => do
      let sum ← c.add r0 r1
      if testBit k i then
        let twice ← c.double r1
        ladder c k i sum twice
      else
        let twice ← c.double r0
        ladder c k i twice sum

/-- The multiple of a point by a scalar, in the coordinates that the ladder ends with. -/
def scalarMul (c : Curve α) (k : α) (p : Jacobian α) : Checked (Jacobian α) :=
  c.ladder k (max (bitLength k) c.orderBits) infinity p

/-- The same point with `z` equal to one, or infinity. -/
def normalize (c : Curve α) (p : Jacobian α) : Checked (Jacobian α) := do
  if p.isInfinity then return infinity
  let m := c.p
  if eqWord p.z 1 then
    let x ← reduce p.x m
    let y ← reduce p.y m
    return affine x y
  match ← modInverse p.z m with
  | none => throw (.fatal .mathLibrary)
  | some zinv =>
      let zinv2 ← modMul zinv zinv m
      let zinv3 ← modMul zinv2 zinv m
      let x ← modMul p.x zinv2 m
      let y ← modMul p.y zinv3 m
      return affine x y

/-- The inverse of a point. -/
def negate (c : Curve α) (p : Jacobian α) : Checked (Jacobian α) := do
  if p.isInfinity then return infinity
  let y ← modSub (ofWord 0) p.y c.p
  return ⟨p.x, y, p.z⟩

/-- The point is at infinity, or its affine coordinates are reduced and satisfy the equation of
the curve. -/
def contains (c : Curve α) (p : Jacobian α) : Checked Bool := do
  if p.isInfinity then return true
  let m := c.p
  let q ← if eqWord p.z 1 then pure p else c.normalize p
  if !lt q.x m || !lt q.y m then return false
  let lhs ← modMul q.y q.y m
  let x2 ← modMul q.x q.x m
  let x3 ← modMul x2 q.x m
  let ax ← modMul c.a q.x m
  let x3ax ← modAdd x3 ax m
  let rhs ← modAdd x3ax c.b m
  return eq lhs rhs

/-- The multiple of a point by a scalar, in affine coordinates or infinity. -/
def mul (c : Curve α) (k : α) (p : Jacobian α) : Checked (Jacobian α) := do
  let r ← c.scalarMul k p
  c.normalize r

/-- The sum of multiples of two points, in affine coordinates or infinity. -/
def mul2 (c : Curve α) (u : α) (p : Jacobian α) (v : α) (q : Jacobian α) :
    Checked (Jacobian α) := do
  let up ← c.scalarMul u p
  let vq ← c.scalarMul v q
  let sum ← c.add up vq
  c.normalize sum

/-- The sum of two points, in affine coordinates or infinity. -/
def addNormalized (c : Curve α) (p q : Jacobian α) : Checked (Jacobian α) := do
  let sum ← c.add p q
  c.normalize sum

end Curve

end TrustedPlatform
