import TrustedPlatform.Random.Counter

/-!
# Known answer of the counter-mode generator

The test instantiates a generator from fixed entropy, reseeds it, asks twice for sixty-four bytes
and compares the second answer with a stored one; wiping the generator must leave nothing behind.
-/

namespace TrustedPlatform.CounterGenerator

/-- The entropy that the test starts from: the bytes 0 to 47. -/
def testEntropy : Bytes :=
  (List.range seedLength).map UInt8.ofNat

/-- The entropy that the test reseeds with: the bytes 128 to 175. -/
def testReseed : Bytes :=
  (List.range seedLength).map fun i => UInt8.ofNat (0x80 + i)

/-- The second answer that the test expects. -/
def testAnswer : Bytes :=
  [0xf0, 0x8f, 0x8d, 0x02, 0x1d, 0x4b, 0x6e, 0x0f, 0x8b, 0x65, 0x69, 0xe5, 0x45, 0x05, 0x7a, 0xac,
    0xc2, 0x10, 0x5c, 0x82, 0xa2, 0x2a, 0x9c, 0x53, 0x5f, 0xf3, 0x0f, 0x53, 0xbb, 0x19, 0x16, 0xb7,
    0x6c, 0x1d, 0xe6, 0xf3, 0x93, 0x5b, 0x6f, 0x31, 0x6c, 0x8f, 0x5c, 0xe5, 0xc6, 0xed, 0xa6, 0xf9,
    0x53, 0x31, 0xc9, 0x1d, 0xd1, 0xca, 0x51, 0x42, 0x66, 0xbc, 0xf4, 0x35, 0xde, 0x0d, 0x6d, 0x20]

/-- The test of the generator; a wrong answer is a fatal failure of the self test. -/
def selfTest : Checked Unit := do
  let g := (instantiate testEntropy [] .default).reseed testReseed []
  let first := g.generate (List.replicate 64 0)
  let _ ← first.outcome
  let second := first.state.generate first.buffer
  let _ ← second.outcome
  Require.invariant (second.buffer.ctEq testAnswer) .selfTest
  Require.invariant second.state.uninstantiate.isZeroed .selfTest

end TrustedPlatform.CounterGenerator
