import TrustedPlatform.Rsa.Prime
import TrustedPlatform.Rsa.PrivateKey

/-!
# Random keys

The two primes of a random key have half the bits of the modulus each, and they differ in their
top hundred bits.
-/

namespace TrustedPlatform.Rsa

open Arithmetic

variable (α : Type) [Arithmetic α]

variable {σ : Type} [RandomSource σ]

variable {α} in
/-- The distance between two numbers. -/
def distance (a b : α) : Checked α :=
  if compare a b = .gt then sub a b else sub b a

variable {α} in
/-- The first of the random primes that is further than `gap` from `p`; the last argument is the
number of primes that are drawn at most. -/
def searchDistant (bits : Nat) (e : UInt32) (p gap : α) : Nat → Randomized σ α
  | 0 => throw (.noResult "prime generation")
  | retries + 1 => do
      let q ← generatePrime α bits e
      let apart ← distance p q
      if compare apart gap = .gt then return q else searchDistant bits e p gap retries

variable {α} in
/-- The key with two given primes; that its modulus has a number of bits is an invariant. -/
def PrivateKey.ofPrimes (bits : Nat) (e : UInt32) (p q : α) : Checked PrivateKey := do
  let n ← mul p q
  let d ← privateExponent p q e
  let key ← PublicKey.ofModulus? (toBytes n) e
  Require.invariant (key.bits = bits) .internal
  ofParts? α key (toBytes p) (toBytes q) (toBytes d)

/-- A random key with a modulus of `bits` bits, zero standing for the default exponent. The second
prime is drawn again while it is too close to the first, up to the given number of times. -/
def generateKey (retries bits : Nat) (exponent : UInt32) : Randomized σ PrivateKey := do
  Require.parameter (minGeneratedBits ≤ bits ∧ bits ≤ maxModulusBits ∧ bits % 2 = 0) "bits"
    "unsupported modulus size"
  let e := exponentOrDefault exponent
  Require.parameter (ExponentAdmissible e) "exponent" "must be odd and > 1"
  let half := bits / 2
  let p ← generatePrime α half e
  let gap ← shiftLeft (ofWord 1 : α) (half - 100)
  let q ← searchDistant half e p gap retries
  PrivateKey.ofPrimes bits e p q

end TrustedPlatform.Rsa
