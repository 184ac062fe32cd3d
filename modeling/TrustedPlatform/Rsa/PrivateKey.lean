import TrustedPlatform.Arithmetic
import TrustedPlatform.Rsa.PublicKey

/-!
# Private keys and the two primitives

A private key is held as the two primes of the modulus and the private exponent. `publicOp` raises
to the public exponent; `privateOp` raises to the private one, modulo each prime apart, and joins
the two results. Both refuse an input that is not below the modulus, and both write their result
in as many bytes as the modulus has.
-/

namespace TrustedPlatform.Rsa

open Arithmetic

/-- A public key with the factors of its modulus and the private exponent. -/
structure PrivateKey where
  publicKey : PublicKey
  /-- The first prime. -/
  p : Bytes
  /-- The second prime. -/
  q : Bytes
  /-- The private exponent. -/
  d : Bytes

variable (α : Type) [Arithmetic α]

/-- The private key with the given parts, which are refused when the primes do not multiply to the
modulus. -/
def PrivateKey.ofParts? (key : PublicKey) (p q d : Bytes) : Checked PrivateKey := do
  let product ← mul (ofBytes p : α) (ofBytes q)
  if eq product (ofBytes key.modulus) then
    return ⟨key, p.stripZeros, q.stripZeros, d.stripZeros⟩
  else throw (.key "p * q does not equal the modulus")

/-- The public half of the key, with the rest withheld. -/
def PrivateKey.describe (key : PrivateKey) : String :=
  "RsaPrivateKey \x7b public: " ++ key.publicKey.describe ++ ", .. \x7d"

variable {α}

/-- The inverse of a public exponent modulo the order of the unit group for two primes. -/
def privateExponent (p q : α) (e : UInt32) : Checked α := do
  let p' ← sub p (ofWord 1)
  let q' ← sub q (ofWord 1)
  let order ← mul p' q'
  match ← modInverse (ofWord e.toUInt64) order with
  | some d => return d
  | none => throw (.key "exponent is not invertible")

variable (α)

/-- The input to the public exponent. -/
def publicOp (key : PublicKey) (input : Bytes) : Checked Bytes := do
  let n : α := ofBytes key.modulus
  let m : α := ofBytes input
  Require.parameter (lt m n) "input" "not below the modulus"
  let c ← modPow m (ofWord key.exponent.toUInt64) n
  toBytesPadded c key.size

/-- The input to the private exponent. -/
def privateOp (key : PrivateKey) (input : Bytes) : Checked Bytes := do
  let n : α := ofBytes key.publicKey.modulus
  let c : α := ofBytes input
  Require.parameter (lt c n) "input" "not below the modulus"
  let p : α := ofBytes key.p
  let q : α := ofBytes key.q
  let d : α := ofBytes key.d
  let p' ← sub p (ofWord 1)
  let dp ← reduce d p'
  let q' ← sub q (ofWord 1)
  let dq ← reduce d q'
  match ← modInverse q p with
  | none => throw (.key "q is not invertible modulo p")
  | some qInverse =>
      let m1 ← modPow c dp p
      let m2 ← modPow c dq q
      let difference ← modSub m1 m2 p
      let h ← modMul qInverse difference p
      let hq ← mul h q
      let m ← Arithmetic.add m2 hq
      toBytesPadded m key.publicKey.size

end TrustedPlatform.Rsa
