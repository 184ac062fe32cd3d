import TrustedPlatform.Proofs.Rsa.Recovery

/-!
# Recovery of private keys with a corrupted cache

A cache may hold anything for a prime. Recovery takes an entry whose cofactor still multiplies with
the prime to the modulus, with the private exponent it came with, and derives the parts anew beside
every other entry. So a cache changes the outcome exactly when the entry that is taken is not the
one that belongs to the prime. The main theorem is `PrivateKey.unobserved_iff`.
-/

namespace TrustedPlatform.Rsa

open Bytes (toNat)

/-- The parts without leading zeros. -/
def DerivedParts.stripZeros (parts : DerivedParts) : DerivedParts :=
  ⟨parts.cofactor.stripZeros, parts.privateExponent.stripZeros⟩

/-- What the cache holds for a prime of the key belongs to this prime, if it multiplies with it to
the modulus. -/
def ExponentCache.Harmless (cache : ExponentCache) (key : PublicKey) (prime : Bytes) : Prop :=
  ∀ parts, (cache.find (.of prime key.modulus key.exponent)).1 = some parts →
    toNat prime * toNat parts.cofactor = toNat key.modulus →
    (CacheKey.of prime key.modulus key.exponent).Determines parts.stripZeros

/-- A cache whose entries belong to their keys is harmless for every prime. -/
theorem ExponentCache.Genuine.harmless {cache : ExponentCache} (h : cache.Genuine)
    (key : PublicKey) (prime : Bytes) : cache.Harmless key prime := by
  intro parts hfound _
  have hparts := (h.determines_of_find hfound).1
  rwa [DerivedParts.stripZeros, hparts.cofactor_stripped, hparts.privateExponent_stripped]

namespace PrivateKey

variable {α : Type} [Arithmetic α] [LawfulArithmetic α]
variable {cache : ExponentCache} {key : PublicKey} {prime : Bytes}

/-- Parts that do not multiply to the modulus are refused. -/
theorem ofParts?_of_mul_ne {q : Bytes} (d : Bytes)
    (h : toNat prime * toNat q ≠ toNat key.modulus) :
    ∃ e, ofParts? α key prime q d = .error e := by
  have hmul : Refines _ _ _ (.ok (toNat prime * toNat q)) :=
    LawfulArithmetic.mul (LawfulArithmetic.ofBytes (α := α) prime)
      (LawfulArithmetic.ofBytes (α := α) q)
  rw [ofParts?]
  generalize Arithmetic.mul (Arithmetic.ofBytes prime : α) (Arithmetic.ofBytes q) = product at hmul
  cases hmul with
  | exhausted hroom => exact ⟨_, rfl⟩
  | ok hvalue =>
      refine ⟨.key "p * q does not equal the modulus", if_neg ?_⟩
      rw [LawfulArithmetic.eq hvalue (LawfulArithmetic.ofBytes key.modulus), decide_eq_true_eq]
      exact h

omit [Arithmetic α] [LawfulArithmetic α] in
/-- The parts are read off the key that they make up. -/
theorem assemble_injective (key : PublicKey) (prime : Bytes) :
    Function.Injective (assemble key prime) := by
  intro parts other h
  injection h with _ _ hcofactor hexponent
  exact (DerivedParts.mk.injEq ..).mpr ⟨hcofactor, hexponent⟩

omit [LawfulArithmetic α] in
/-- The key that is derived anew, whatever cache its parts are added to. -/
theorem derive_fst : (derive α cache key prime.stripZeros).1
    = (deriveParts α key prime.stripZeros).map (assemble key prime) := by
  rw [derive]
  cases deriveParts α key prime.stripZeros <;> rfl

/-- An entry that multiplies to the modulus is taken with the private exponent it holds. -/
theorem ofPrime_fst_of_stored {parts : DerivedParts}
    (hfound : (cache.find (.of prime key.modulus key.exponent)).1 = some parts)
    (hmul : toNat prime * toNat parts.cofactor = toNat key.modulus) :
    (ofPrime α cache key prime).1 = .ok (assemble key prime parts.stripZeros) := by
  rw [← Bytes.toNat_stripZeros] at hmul
  rw [ofPrime, CacheKey.of_stripZeros]
  split
  case h_1 after hmiss =>
    rw [hmiss] at hfound
    cases hfound
  case h_2 stored after hhit =>
    rw [hhit] at hfound
    cases hfound
    rw [ofParts?_of_mul_eq _ hmul, Bytes.stripZeros_stripZeros]
    rfl

/-- Where no entry multiplies to the modulus the key is derived anew. -/
theorem ofPrime_fst_of_derived
    (h : ∀ parts, (cache.find (.of prime key.modulus key.exponent)).1 = some parts →
      toNat prime * toNat parts.cofactor ≠ toNat key.modulus) :
    (ofPrime α cache key prime).1
      = (deriveParts α key prime.stripZeros).map (assemble key prime) := by
  rw [ofPrime, CacheKey.of_stripZeros]
  split
  case h_1 after hmiss => exact derive_fst
  case h_2 parts after hhit =>
    have hmul := h parts (congrArg Prod.fst hhit)
    rw [← Bytes.toNat_stripZeros] at hmul
    obtain ⟨e, he⟩ := ofParts?_of_mul_ne (α := α) parts.privateExponent hmul
    rw [he]
    exact derive_fst

/-- For every cache, whatever it holds, every public key and every byte string, recovery gives the
outcome of recovery with an empty cache exactly when the cache is harmless for them. -/
theorem unobserved_iff (cache : ExponentCache) (key : PublicKey) (prime : Bytes) :
    (ofPrime α cache key prime).1 = (ofPrime α .empty key prime).1 ↔
      cache.Harmless key prime := by
  have hempty : ExponentCache.Genuine .empty := .withCapacity _
  by_cases hstored : ∃ parts,
      (cache.find (.of prime key.modulus key.exponent)).1 = some parts ∧
        toNat prime * toNat parts.cofactor = toNat key.modulus
  case neg =>
    have hmiss : ∀ parts, (cache.find (.of prime key.modulus key.exponent)).1 = some parts →
        toNat prime * toNat parts.cofactor ≠ toNat key.modulus :=
      fun parts hfound hmul => hstored ⟨parts, hfound, hmul⟩
    rw [ofPrime_fst_of_derived hmiss, ofPrime_fst hempty]
    exact iff_of_true rfl fun parts hfound hmul => absurd hmul (hmiss parts hfound)
  case pos =>
    obtain ⟨parts, hfound, hmul⟩ := hstored
    rw [ofPrime_fst_of_stored hfound hmul, eq_comm, ofPrime_eq_ok_iff hempty]
    constructor
    · rintro ⟨derived, hdetermines, hsame⟩ other hother _
      rw [hfound] at hother
      cases hother
      rwa [← assemble_injective key prime hsame]
    · intro hharmless
      exact ⟨_, hharmless parts hfound hmul, rfl⟩

/-- The key of 648 bits recovered beside an entry with the right cofactor and the private exponent
one has this exponent, and not the one it has with an empty cache. -/
theorem stored_exponent_observed :
    let key := mersenneKey.publicKey
    let stored : DerivedParts := ⟨mersenneKey.q, [1]⟩
    let cache := ExponentCache.empty.add (.of mersenneKey.p key.modulus key.exponent) stored
    (ofPrime FixedNat cache key mersenneKey.p).1 = .ok { mersenneKey with d := [1] } ∧
    (ofPrime FixedNat .empty key mersenneKey.p).1 = .ok mersenneKey ∧
    mersenneKey.d ≠ [1] := by
  intro key stored cache
  have hfound : (cache.find (.of mersenneKey.p key.modulus key.exponent)).1 = some stored := by
    decide +kernel
  have hmul : toNat mersenneKey.p * toNat stored.cofactor = toNat key.modulus := by
    decide +kernel
  have hdetermines : (CacheKey.of mersenneKey.p.stripZeros key.modulus key.exponent).Determines
      ⟨mersenneKey.q, mersenneKey.d⟩ := by
    constructor <;> decide +kernel
  have hprime : mersenneKey.p.stripZeros = mersenneKey.p := by decide +kernel
  have hstored : stored.stripZeros = stored := by decide +kernel
  have hwrong : (ofPrime FixedNat cache key mersenneKey.p).1
      = .ok (assemble key mersenneKey.p stored.stripZeros) := ofPrime_fst_of_stored hfound hmul
  have hright : (ofPrime FixedNat .empty key mersenneKey.p).1
      = (deriveParts FixedNat key mersenneKey.p.stripZeros).map (assemble key mersenneKey.p) :=
    ofPrime_fst (.withCapacity _)
  rw [hstored, assemble, hprime] at hwrong
  rw [deriveParts_of_determines hdetermines] at hright
  refine ⟨hwrong, hright.trans ?_, by decide +kernel⟩
  show Except.ok (assemble key mersenneKey.p ⟨mersenneKey.q, mersenneKey.d⟩) = _
  rw [assemble, hprime]

end PrivateKey

end TrustedPlatform.Rsa
