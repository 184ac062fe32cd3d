import TrustedPlatform.Curve.Jacobian
import TrustedPlatform.Random.Source

/-!
# Random scalars and key pairs

A random scalar is made from sixty-four more bits than the order has, reduced modulo one less than
the order and raised by one, so that it lies between one and the order less one and favours no
value by more than one part in `2^64`.
-/

namespace TrustedPlatform

open Arithmetic

namespace Curve

variable {α σ : Type} [Arithmetic α] [RandomSource σ]

/-- The scalar made from a drawn byte string. -/
def scalarOfBytes (c : Curve α) (bytes : Bytes) : Checked α := do
  let masked ← maskBits (ofBytes bytes) (c.orderBits + 64)
  let bound ← sub c.n (ofWord 1)
  let reduced ← reduce masked bound
  Arithmetic.add reduced (ofWord 1)

/-- A random scalar between one and the order less one. -/
def randomScalar (c : Curve α) : Randomized σ α := do
  let bytes ← draw ((c.orderBits + 64 + 7) / 8)
  c.scalarOfBytes bytes

/-- A random scalar with its multiple of the generator. -/
def keyPair (c : Curve α) : Randomized σ (α × Jacobian α) := do
  let d ← c.randomScalar
  let q ← c.mul d c.g
  return (d, q)

end Curve

end TrustedPlatform
