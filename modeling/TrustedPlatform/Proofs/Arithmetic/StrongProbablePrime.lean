import Mathlib.FieldTheory.Finite.Basic
import TrustedPlatform.Proofs.Arithmetic.Primality

/-!
# Strong probable primes

One less than a number is an odd number times a power of two. Raised to the odd number and squared
as often as the power says, a base that a prime does not divide comes to one; since one has no
square roots modulo a prime but itself and minus one, it was one from the start, or was minus one
on the way. So a base for which neither happens shows that a number is no prime.
-/

namespace TrustedPlatform

/-- The odd power of a base is one, or becomes one less than `n` by fewer than `twos` squarings. -/
def PassesSquaring (n odd twos a : Nat) : Prop :=
  a ^ odd % n = 1 ∨ ∃ i < twos, a ^ (odd * 2 ^ i) % n = n - 1

/-- The base does not show that `n` is composite. -/
def StrongProbablePrime (n a : Nat) : Prop :=
  ∃ odd twos, odd % 2 = 1 ∧ odd * 2 ^ twos = n - 1 ∧ PassesSquaring n odd twos a

/-- A number is an odd number times a power of two in one way. -/
theorem eq_of_odd_mul_two_pow_eq {odd odd' twos twos' : Nat} (hodd : odd % 2 = 1)
    (hodd' : odd' % 2 = 1) (h : odd * 2 ^ twos = odd' * 2 ^ twos') : odd = odd' ∧ twos = twos' := by
  induction twos generalizing twos' with
  | zero =>
      cases twos' with
      | zero => exact ⟨by simpa using h, rfl⟩
      | succ twos' =>
          rw [Nat.pow_zero, Nat.mul_one, Nat.pow_succ, ← Nat.mul_assoc] at h
          omega
  | succ twos ih =>
      cases twos' with
      | zero =>
          rw [Nat.pow_zero, Nat.mul_one, Nat.pow_succ, ← Nat.mul_assoc] at h
          omega
      | succ twos' =>
          rw [Nat.pow_succ, Nat.pow_succ, ← Nat.mul_assoc, ← Nat.mul_assoc] at h
          obtain ⟨rfl, rfl⟩ := ih (Nat.eq_of_mul_eq_mul_right (by decide) h)
          exact ⟨rfl, rfl⟩

/-- It is decided by any way to write one less than the number as such a product. -/
theorem strongProbablePrime_iff {n odd twos a : Nat} (hodd : odd % 2 = 1)
    (hsplit : odd * 2 ^ twos = n - 1) :
    StrongProbablePrime n a ↔ PassesSquaring n odd twos a := by
  constructor
  · rintro ⟨odd', twos', hodd', hsplit', hpasses⟩
    obtain ⟨rfl, rfl⟩ := eq_of_odd_mul_two_pow_eq hodd hodd' (hsplit.trans hsplit'.symm)
    exact hpasses
  · exact fun hpasses => ⟨odd, twos, hodd, hsplit, hpasses⟩

/-- Where one has only the two trivial square roots, a number that squaring brings to one was one
from the start, or was minus one on the way. -/
theorem eq_one_or_exists_pow_eq_neg_one {R : Type} [Ring R] [NoZeroDivisors R] {x : R} {twos : Nat}
    (h : x ^ 2 ^ twos = 1) : x = 1 ∨ ∃ i < twos, x ^ 2 ^ i = -1 := by
  induction twos with
  | zero => exact .inl (by simpa using h)
  | succ twos ih =>
      rw [pow_succ, pow_mul, pow_two, mul_self_eq_one_iff] at h
      rcases h with h | h
      · exact (ih h).imp_right fun ⟨i, hi, hpow⟩ => ⟨i, hi.trans (Nat.lt_succ_self _), hpow⟩
      · exact .inr ⟨twos, Nat.lt_succ_self _, h⟩

/-- A power leaves one less than the number exactly when it is minus one modulo the number. -/
theorem pow_mod_eq_pred_iff {n : Nat} (hn : 1 < n) (a e : Nat) :
    a ^ e % n = n - 1 ↔ (a : ZMod n) ^ e = -1 := by
  have hpred : ((n - 1 : Nat) : ZMod n) = -1 := by
    rw [Nat.cast_pred (by omega), ZMod.natCast_self, zero_sub]
  rw [← hpred, ← Nat.cast_pow, ZMod.natCast_eq_natCast_iff',
    Nat.mod_eq_of_lt (Nat.sub_one_lt_of_lt hn)]

/-- A prime passes for every base that it does not divide. -/
theorem strongProbablePrime_of_prime {n a : Nat} (hn : n.Prime) (ha : ¬n ∣ a) :
    StrongProbablePrime n a := by
  have := Fact.mk hn
  have hone := hn.one_lt
  obtain ⟨twos, odd, hodd, hsplit⟩ := Nat.exists_eq_two_pow_mul_odd (Nat.sub_ne_zero_of_lt hone)
  rw [Nat.mul_comm] at hsplit
  refine ⟨odd, twos, Nat.odd_iff.mp hodd, hsplit.symm, ?_⟩
  have hunit : (a : ZMod n) ≠ 0 := mt (ZMod.natCast_eq_zero_iff a n).mp ha
  have hfermat : ((a : ZMod n) ^ odd) ^ 2 ^ twos = 1 := by
    rw [← pow_mul, ← hsplit, ZMod.pow_card_sub_one_eq_one hunit]
  refine (eq_one_or_exists_pow_eq_neg_one hfermat).imp (pow_mod_eq_one_iff hone a odd).mpr ?_
  rintro ⟨i, hi, hpow⟩
  exact ⟨i, hi, (pow_mod_eq_pred_iff hone a _).mpr (by rwa [pow_mul])⟩

end TrustedPlatform
