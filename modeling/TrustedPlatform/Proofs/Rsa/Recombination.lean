import Mathlib.Data.Nat.ModEq
import Mathlib.FieldTheory.Finite.Basic

/-!
# Powers modulo two primes

An exponent counts only up to multiples of one less than the prime, also for the class of zero as
long as the exponent is not zero itself. Two residues modulo distinct primes are recombined into the
one number below the product that has both.
-/

namespace TrustedPlatform.Rsa

/-- A number that is congruent to one is not a multiple of the modulus. -/
theorem not_dvd_of_modEq_one {k m : Nat} (hm : 1 < m) (h : k ≡ 1 [MOD m]) : ¬m ∣ k := by
  intro hdvd
  have hone : 1 ≡ 0 [MOD m] := h.symm.trans (Nat.modEq_zero_iff_dvd.mpr hdvd)
  rw [Nat.ModEq, Nat.zero_mod, Nat.mod_eq_of_lt hm] at hone
  exact one_ne_zero hone

variable {p q : Nat} [Fact p.Prime] [Fact q.Prime]

/-- A power whose exponent is congruent to one is its base. -/
theorem pow_eq_self {k : Nat} (hk : k ≡ 1 [MOD p - 1]) (hpos : 0 < k) (r : ZMod p) : r ^ k = r := by
  by_cases hr : r = 0
  · rw [hr, zero_pow hpos.ne']
  · obtain ⟨j, hj⟩ := (Nat.modEq_iff_dvd' hpos).mp hk.symm
    rw [← Nat.sub_add_cancel hpos, hj, pow_succ, pow_mul, ZMod.pow_card_sub_one_eq_one hr, one_pow,
      one_mul]

/-- A power is kept when its exponent is reduced to one other than zero. -/
theorem pow_mod_pred {k : Nat} (hk : k % (p - 1) ≠ 0) (r : ZMod p) : r ^ (k % (p - 1)) = r ^ k := by
  by_cases hr : r = 0
  · have hne : k ≠ 0 := by
      rintro rfl
      exact hk (Nat.zero_mod _)
    rw [hr, zero_pow hk, zero_pow hne]
  · conv_rhs => rw [← Nat.mod_add_div k (p - 1), pow_add, pow_mul,
      ZMod.pow_card_sub_one_eq_one hr, one_pow, mul_one]

/-- The class of the multiple of `q` that leads from one residue to the other. -/
def multiplier (r : ZMod p) (s : ZMod q) : ZMod p :=
  (q : ZMod p)⁻¹ * (r - (s.val : ZMod p))

/-- The number with the given residues. -/
def recombine (r : ZMod p) (s : ZMod q) : Nat :=
  s.val + (multiplier r s).val * q

omit [Fact q.Prime] in
/-- The multiple of `q` is at most the product. -/
theorem multiplier_mul_le (r : ZMod p) (s : ZMod q) : (multiplier r s).val * q ≤ p * q :=
  Nat.mul_le_mul_right q (ZMod.val_lt _).le

/-- The recombined number is below the product. -/
theorem recombine_lt (r : ZMod p) (s : ZMod q) : recombine r s < p * q := by
  calc recombine r s
      < ((multiplier r s).val + 1) * q := by
        rw [recombine, Nat.add_one_mul, Nat.add_comm]
        exact Nat.add_lt_add_left (ZMod.val_lt s) _
    _ ≤ p * q := Nat.mul_le_mul_right q (ZMod.val_lt _)

/-- The recombined number has the residue modulo the second prime. -/
theorem recombine_cast_right (r : ZMod p) (s : ZMod q) : (recombine r s : ZMod q) = s := by
  rw [recombine, Nat.cast_add, Nat.cast_mul, ZMod.natCast_self, mul_zero, add_zero,
    ZMod.natCast_zmod_val]

/-- The recombined number has the residue modulo the first prime. -/
theorem recombine_cast_left (hne : p ≠ q) (r : ZMod p) (s : ZMod q) :
    (recombine r s : ZMod p) = r := by
  have hq : (q : ZMod p) ≠ 0 := by
    rw [Ne, ZMod.natCast_eq_zero_iff, Nat.prime_dvd_prime_iff_eq Fact.out Fact.out]
    exact hne
  rw [recombine, Nat.cast_add, Nat.cast_mul, ZMod.natCast_zmod_val, multiplier,
    mul_comm (q : ZMod p)⁻¹, mul_assoc, inv_mul_cancel₀ hq, mul_one, add_sub_cancel]

/-- Numbers with the same residues modulo both primes are congruent modulo the product. -/
theorem modEq_mul (hne : p ≠ q) {x y : Nat} (hp : (x : ZMod p) = y) (hq : (x : ZMod q) = y) :
    x ≡ y [MOD p * q] := by
  have hcoprime : Nat.Coprime p q := (Nat.coprime_primes Fact.out Fact.out).mpr hne
  exact (Nat.modEq_and_modEq_iff_modEq_mul hcoprime).mp
    ⟨(ZMod.natCast_eq_natCast_iff _ _ _).mp hp, (ZMod.natCast_eq_natCast_iff _ _ _).mp hq⟩

/-- The residues of a number are recombined into its remainder modulo the product. -/
theorem recombine_eq_mod (hne : p ≠ q) (x : Nat) :
    recombine (x : ZMod p) (x : ZMod q) = x % (p * q) := by
  rw [← Nat.mod_eq_of_lt (recombine_lt (x : ZMod p) (x : ZMod q))]
  exact modEq_mul hne (recombine_cast_left hne _ _) (recombine_cast_right _ _)

/-- A power whose exponent is congruent to one modulo the order of the unit group is congruent to
its base, units or not. -/
theorem pow_modEq_self (hne : p ≠ q) {k : Nat} (hk : k ≡ 1 [MOD (p - 1) * (q - 1)]) (hpos : 0 < k)
    (x : Nat) : x ^ k ≡ x [MOD p * q] := by
  refine modEq_mul hne ?_ ?_
  · rw [Nat.cast_pow]
    exact pow_eq_self (hk.of_mul_right _) hpos _
  · rw [Nat.cast_pow]
    exact pow_eq_self (hk.of_mul_left _) hpos _

end TrustedPlatform.Rsa
