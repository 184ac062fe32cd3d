import Mathlib.NumberTheory.LucasPrimality
import TrustedPlatform.Proofs.Arithmetic.Exact

/-!
# Certificates of primality

A number is prime when some class modulo it has the order of a whole group of units, and the order
is checked at the prime factors of one less than the number. A certificate lists numbers with such
a class and such factors, each of which is small or comes later in the list, so that evaluating
`Lucas.certifies` proves all of them prime.
-/

namespace TrustedPlatform

/-- A power leaves one exactly when it is one modulo the number. -/
theorem pow_mod_eq_one_iff {n : Nat} (hn : 1 < n) (a e : Nat) :
    a ^ e % n = 1 ↔ (a : ZMod n) ^ e = 1 := by
  rw [← Nat.cast_pow, ← Nat.cast_one (R := ZMod n), ZMod.natCast_eq_natCast_iff',
    Nat.mod_eq_of_lt hn]

namespace Lucas

/-- A number with a class modulo it and the prime factors of one less than the number. -/
structure Step where
  number : Nat
  base : Nat
  factors : List Nat

/-- Numbers below the square of this bound are divided by the numbers below it. -/
def trialBound : Nat := 2 ^ 8

/-- The number has no divisor below it among those tried, and none above can be the smallest. -/
def smallPrime (q : Nat) : Bool :=
  2 ≤ q && q < trialBound ^ 2 &&
    (List.range trialBound).all fun m => m < 2 || q ≤ m || q % m != 0

/-- The number is among given ones, or is a small prime. -/
def known (primes : List Nat) (q : Nat) : Bool :=
  primes.contains q || smallPrime q

/-- The class has the order that makes the number a prime, given primes that the factors may be. -/
def Step.passes (primes : List Nat) (s : Step) : Bool :=
  let order := s.number - 1
  1 < s.number && s.factors.prod == order && Exact.modPow s.number s.base order == 1 &&
    s.factors.all fun q => known primes q && Exact.modPow s.number s.base (order / q) != 1

/-- Each number of a certificate passes, its factors among the numbers that follow it. -/
def certifies : List Step → Bool
  | [] => true
  | s :: rest => s.passes (rest.map Step.number) && certifies rest

/-- A number that passes the trial division is a prime. -/
theorem prime_of_smallPrime {q : Nat} (h : smallPrime q = true) : q.Prime := by
  simp only [smallPrime, Bool.and_eq_true, decide_eq_true_eq, List.all_eq_true, Bool.or_eq_true,
    List.mem_range, bne_iff_ne] at h
  obtain ⟨⟨htwo, hbound⟩, htrial⟩ := h
  by_contra hprime
  -- the smallest factor of a composite is below its square root
  have hfactor : (Nat.minFac q) ^ 2 ≤ q := Nat.minFac_sq_le_self (by omega) hprime
  have hlt : q.minFac < trialBound := lt_of_pow_lt_pow_left' 2 (hfactor.trans_lt hbound)
  have hmin : 2 ≤ q.minFac := (Nat.minFac_prime (by omega)).two_le
  rcases htrial q.minFac hlt with (h | h) | h
  · omega
  · exact hprime (Nat.prime_def_minFac.mpr ⟨htwo, (Nat.minFac_le (by omega)).antisymm h⟩)
  · exact h (Nat.mod_eq_zero_of_dvd q.minFac_dvd)

/-- Among primes, a number that is known is a prime. -/
theorem prime_of_known {primes : List Nat} (hprimes : ∀ q ∈ primes, q.Prime) {q : Nat}
    (h : known primes q = true) : q.Prime := by
  rw [known, Bool.or_eq_true] at h
  rcases h with h | h
  · exact hprimes q (List.contains_iff_mem.mp h)
  · exact prime_of_smallPrime h

/-- A power of a class is one exactly when the computed one is. -/
theorem pow_eq_one_iff {m : Nat} (hm : 1 < m) (a e : Nat) :
    (a : ZMod m) ^ e = 1 ↔ Exact.modPow m a e = 1 := by
  rw [Exact.modPow_eq, pow_mod_eq_one_iff hm]

/-- A number that passes is a prime. -/
theorem Step.prime_of_passes {primes : List Nat} (hprimes : ∀ q ∈ primes, q.Prime) {s : Step}
    (h : s.passes primes = true) : s.number.Prime := by
  simp only [passes, Bool.and_eq_true, decide_eq_true_eq, beq_iff_eq, List.all_eq_true,
    bne_iff_ne] at h
  obtain ⟨⟨⟨hnumber, hprod⟩, hpow⟩, hfactors⟩ := h
  refine lucas_primality s.number s.base ((pow_eq_one_iff hnumber _ _).mpr hpow) ?_
  intro q hq hdvd
  -- a prime divisor of the product of primes is one of them
  rw [← hprod] at hdvd
  have hmem : q ∈ s.factors :=
    mem_list_primes_of_dvd_prod hq.prime
      (fun r hr => (prime_of_known hprimes (hfactors r hr).1).prime) hdvd
  exact mt (pow_eq_one_iff hnumber _ _).mp (hfactors q hmem).2

/-- The numbers of a certificate are primes. -/
theorem prime_of_certifies {steps : List Step} (h : certifies steps = true) :
    ∀ q ∈ steps.map Step.number, q.Prime := by
  induction steps with
  | nil => exact nofun
  | cons s rest ih =>
      rw [certifies, Bool.and_eq_true] at h
      intro q hq
      rcases List.mem_cons.mp hq with rfl | hq
      · exact s.prime_of_passes (ih h.2) h.1
      · exact ih h.2 q hq

end Lucas

end TrustedPlatform
