import TrustedPlatform.Curve.Wire
import TrustedPlatform.Random.SelfTest

/-!
# Power-on self tests

Known answers for the generator, for a scalar multiple on the 256-bit NIST curve and for a modular
power. A mismatch is fatal.
-/

namespace TrustedPlatform.SelfTest

open Arithmetic

variable (α : Type) [Arithmetic α]

/-- Compute the double of the generator of the 256-bit NIST curve and compare it with the known
point. -/
def curveKnownAnswer : Checked Unit := do
  let c ← Curve.load α CurveParameters.nistP256.id
  let point ← c.mul (ofWord 2) c.g
  let wire ← c.toWire point
  let x := Bytes.ofNatWidth 32 0x7cf27b188d034f7e8a52380304b51ac3c08969e277f21b35a60b48fc47669978
  let y := Bytes.ofNatWidth 32 0x07775510db8ed040293d9ac69f7430dbba7dade63ce982299e04b79d227873d1
  Require.invariant (wire.x.bytes = x ∧ wire.y.bytes = y) .selfTest

/-- Compute a power modulo `2 ^ 127 - 1` and compare it with the known number. -/
def powerKnownAnswer : Checked Unit := do
  let raised ← shiftLeft (ofWord 1 : α) 127
  let m ← sub raised (ofWord 1)
  let r ← modPow (ofWord 0x0123456789abcdef) (ofWord 65537) m
  let bytes ← toBytesPadded r 16
  Require.invariant (bytes = Bytes.ofNatWidth 16 0x38e3b55ff6736bdddef90db331e243b8) .selfTest

/-- Run every self test. -/
def powerOn : Checked Unit := do
  CounterGenerator.selfTest
  curveKnownAnswer α
  powerKnownAnswer α

end TrustedPlatform.SelfTest
