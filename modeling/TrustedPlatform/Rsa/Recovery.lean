import TrustedPlatform.Rsa.Cache
import TrustedPlatform.Rsa.PrivateKey

/-!
# Private keys from one prime

A private key is rebuilt from its public half and one prime: the other prime is a quotient and the
private exponent an inverse. Parts found in the cache are taken only when they still multiply to
the modulus; parts that had to be derived are stored there.
-/

namespace TrustedPlatform.Rsa

open Arithmetic

variable (α : Type) [Arithmetic α]

/-- The other prime and the private exponent that belong to a prime of a key's modulus. -/
def deriveParts (key : PublicKey) (prime : Bytes) : Checked DerivedParts := do
  let n : α := ofBytes key.modulus
  let p : α := ofBytes prime
  Require.parameter (!isZero p) "p" "must be non-zero"
  let (q, remainder) ← divRem n p
  if !isZero remainder || eqWord q 1 || eqWord p 1 then
    throw (.key "prime does not divide the modulus")
  let d ← privateExponent p q key.exponent
  return ⟨toBytes q, toBytes d⟩

/-- The private key with the given public half and prime, derived anew. -/
def PrivateKey.derive (cache : ExponentCache) (key : PublicKey) (prime : Bytes) :
    Checked PrivateKey × ExponentCache :=
  match deriveParts α key prime with
  | .error e => (.error e, cache)
  | .ok parts =>
      (.ok ⟨key, prime, parts.cofactor, parts.privateExponent⟩,
        cache.add (.of prime key.modulus key.exponent) parts)

/-- The private key with the given public half and prime, with the cache afterwards. -/
def PrivateKey.ofPrime (cache : ExponentCache) (key : PublicKey) (prime : Bytes) :
    Checked PrivateKey × ExponentCache :=
  let p := prime.stripZeros
  match cache.find (.of p key.modulus key.exponent) with
  | (none, cache) => derive α cache key p
  | (some parts, cache) =>
      -- what the cache holds is a hint and has to pass the same check as parts from elsewhere
      match ofParts? α key p parts.cofactor parts.privateExponent with
      | .ok found => (.ok found, cache)
      | .error _ => derive α cache key p

end TrustedPlatform.Rsa
