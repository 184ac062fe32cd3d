/-!
# The byte field

Bytes are the elements of the field with 256 elements, polynomials over two elements modulo
`x^8 + x^4 + x^3 + x + 1`. Inverses are taken as 254th powers, so that the inverse of zero is zero.
-/

namespace TrustedPlatform.ByteField

/-- The product of an element with `x`. -/
@[inline] def double (a : UInt8) : UInt8 :=
  (a <<< 1) ^^^ ((a >>> 7) * 0x1b)

/-- The product accumulated over `count` bits of the second factor, lowest first. -/
def mulSteps : Nat → UInt8 → UInt8 → UInt8 → UInt8
  | 0, _, _, p => p
  | count + 1, a, b, p =>
      mulSteps count (double a) (b >>> 1) (p ^^^ (a &&& (0 - (b &&& 1))))

/-- The product of two elements. -/
def mul (a b : UInt8) : UInt8 :=
  mulSteps 8 a b 0

/-- The inverse of an element, or zero for zero: the product of its powers whose exponents are
2, 4, 8, 16, 32, 64 and 128. -/
def inverse (x : UInt8) : UInt8 :=
  let x2 := mul x x
  let x4 := mul x2 x2
  let x8 := mul x4 x4
  let x16 := mul x8 x8
  let x32 := mul x16 x16
  let x64 := mul x32 x32
  let x128 := mul x64 x64
  mul (mul (mul (mul (mul (mul x128 x64) x32) x16) x8) x4) x2

end TrustedPlatform.ByteField
