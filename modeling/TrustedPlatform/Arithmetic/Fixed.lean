import TrustedPlatform.Arithmetic
import TrustedPlatform.Integer.Modular

/-!
# Arithmetic in fixed-capacity buffers

Each operation takes its result into a buffer of the capacity that the operation can need, so the
only fatal allocation left is the one of the scratch area.
-/

namespace TrustedPlatform

/-- Arithmetic on numbers of fixed capacity. -/
instance : Arithmetic FixedNat where
  name := "native"
  ofBytes := FixedNat.ofBytes
  toBytes := FixedNat.toBytes
  toBytesPadded := FixedNat.toBytesPadded
  ofWord w := FixedNat.ofWord w 1
  isZero := FixedNat.isZero
  bitLength := FixedNat.bitLength
  testBit := FixedNat.testBit
  compare := FixedNat.compare
  add a b := FixedNat.add (max a.size b.size + 1) a b
  sub a b := FixedNat.sub a.size a b
  mul a b := FixedNat.mul (a.size + b.size) a b
  divRem a d := FixedNat.divRem a.size d.size a d
  modWord := FixedNat.modWord
  shiftLeft a bits := FixedNat.shiftLeft (a.size + Word.countForBits bits + 1) a bits
  shiftRight a bits := FixedNat.shiftRight a.size a bits
  modMul a b m := FixedNat.modMul m.size a b m
  modInverse a m := FixedNat.modInverse m.size a m
  gcd a b := FixedNat.gcd (max a.size b.size) a b
  modPow base e m := FixedNat.modPow m.size base e m

end TrustedPlatform
