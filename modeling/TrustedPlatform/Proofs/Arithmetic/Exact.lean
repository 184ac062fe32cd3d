import Mathlib.Data.Int.GCD
import Mathlib.Data.Int.ModEq
import Mathlib.Data.Nat.Size
import Mathlib.Tactic.Linarith
import Mathlib.Tactic.Ring
import TrustedPlatform.Arithmetic.Exact

/-!
# What exact powers and inverses are

The power by squaring is the remainder of the power. The last remainder of the cofactor sequence is
the greatest common divisor, and its cofactor makes it congruent to a multiple of the number that
was to be inverted; so the inverse is found exactly when the number is coprime to the modulus.
-/

namespace TrustedPlatform.Exact

/-- A value is returned for a divisor that is not zero. -/
theorem unlessZero_of_ne {β : Type} {d : Nat} (h : d ≠ 0) (value : Unit → β) :
    unlessZero d value = .ok (value ()) :=
  if_neg h

/-- The power by squaring is the remainder of the power. -/
theorem modPow_eq (m base e : Nat) : modPow m base e = base ^ e % m := by
  fun_induction modPow m base e with
  | case1 base => rw [Nat.pow_zero]
  | case2 base e he half hodd ih =>
      have hsplit : base ^ e = base * (base * base) ^ (e / 2) := by
        rw [← Nat.pow_two, ← Nat.pow_mul, ← Nat.pow_succ']
        congr 1
        omega
      show base * half % m = _
      rw [show half = _ from ih, Nat.mul_mod, Nat.mod_mod, ← Nat.mul_mod, hsplit, Nat.mul_mod,
        Nat.pow_mod, Nat.mod_mod, ← Nat.pow_mod, ← Nat.mul_mod]
  | case3 base e he half heven ih =>
      have hsplit : base ^ e = (base * base) ^ (e / 2) := by
        rw [← Nat.pow_two, ← Nat.pow_mul]
        congr 1
        omega
      show half = _
      rw [show half = _ from ih, hsplit, Nat.pow_mod, Nat.mod_mod, ← Nat.pow_mod]

/-- The last remainder of the sequence is the greatest common divisor. -/
theorem cofactor_fst (r0 r1 : Nat) (t0 t1 : Int) : (cofactor r0 r1 t0 t1).1 = Nat.gcd r1 r0 := by
  fun_induction cofactor r0 r1 t0 t1 with
  | case1 r0 t0 t1 => rw [Nat.gcd_zero_left]
  | case2 r0 r1 t0 t1 ih => rw [ih, Nat.gcd_rec (r1 + 1) r0]

/-- The cofactor of the last remainder makes it congruent to a multiple of the number. -/
theorem cofactor_snd {m : Int} (a : Int) (r0 r1 : Nat) (t0 t1 : Int)
    (h0 : t0 * a ≡ r0 [ZMOD m]) (h1 : t1 * a ≡ r1 [ZMOD m]) :
    (cofactor r0 r1 t0 t1).2 * a ≡ (cofactor r0 r1 t0 t1).1 [ZMOD m] := by
  fun_induction cofactor r0 r1 t0 t1 with
  | case1 r0 t0 t1 => exact h0
  | case2 r0 r1 t0 t1 ih =>
      refine ih h1 ?_
      have hdiv : ((r0 % (r1 + 1) : Nat) : Int) = r0 - (r0 / (r1 + 1) : Nat) * (r1 + 1 : Nat) := by
        have := Nat.div_add_mod' r0 (r1 + 1)
        rw [← Nat.cast_mul]
        omega
      rw [hdiv, sub_mul, mul_assoc]
      exact h0.sub (h1.mul_left _)

/-- The inverse of a number modulo another is found exactly when the two are coprime. -/
theorem modInverse_isSome (a m : Nat) : (modInverse a m).isSome = true ↔ Nat.gcd a m = 1 := by
  unfold modInverse
  have hgcd := cofactor_fst m (a % m) 0 1
  rw [← Nat.gcd_rec, Nat.gcd_comm] at hgcd
  simp only [hgcd]
  split
  · rename_i h
    exact ⟨fun _ => h, fun _ => rfl⟩
  · rename_i h
    exact ⟨nofun, fun h' => absurd h' h⟩

/-- The inverse is below the modulus, and its product with the number leaves one. -/
theorem modInverse_spec {a m x : Nat} (hm : m ≠ 0) (h : modInverse a m = some x) :
    x < m ∧ a * x ≡ 1 [MOD m] := by
  unfold modInverse at h
  have hsnd := cofactor_snd (m := m) a m (a % m) 0 1
    (by rw [zero_mul]; exact (Int.modEq_zero_iff_dvd.mpr dvd_rfl).symm)
    (by rw [one_mul, Int.natCast_mod]; exact (Int.mod_modEq _ _).symm)
  have hpos : (0 : Int) < m := Int.natCast_pos.mpr (Nat.pos_of_ne_zero hm)
  generalize cofactor m (a % m) 0 1 = last at h hsnd
  obtain ⟨divisor, t⟩ := last
  simp only [Option.ite_none_right_eq_some, Option.some.injEq] at h
  obtain ⟨rfl, rfl⟩ := h
  have hnonneg := Int.emod_nonneg t hpos.ne'
  have hcast : ((t % (m : Int)).toNat : Int) = t % m := Int.toNat_of_nonneg hnonneg
  constructor
  · have := Int.emod_lt_of_pos t hpos
    omega
  · rw [← Int.natCast_modEq_iff, Nat.cast_mul, hcast, Nat.cast_one, mul_comm]
    exact ((Int.mod_modEq t m).mul_right a).trans hsnd

end TrustedPlatform.Exact
