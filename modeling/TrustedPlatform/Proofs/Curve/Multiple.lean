import TrustedPlatform.Proofs.Curve.Formulas

/-!
# Multiples of points

On every triple of numbers that stands for a point of the curve, doubling and addition return a
triple that stands for the double and the sum in the group, the exceptional points included. The two
points of the ladder always differ by the multiplied point, so the ladder returns the multiple for
every scalar, and normalizing it gives the one reduced affine form. What is returned for coordinates
of any length is that multiple too.
-/

namespace TrustedPlatform

open LawfulArithmetic (Denotes)
open Limbs (count)

variable {α : Type} [Arithmetic α] [LawfulArithmetic α]
variable {p : Nat} [Fact p.Prime] {a b : ZMod p} {room : Prop}

/-- A triple of numbers of at most 64 limbs stands for a point of the curve: a zero third coordinate
for the point at infinity, and one that the prime does not divide for an affine point. -/
inductive Jacobian.Represents (a b : ZMod p) (P : Jacobian α) :
    (Weierstrass.short a b).Point → Prop where
  | infinity {x y : ZMod p} (hx : Residue P.x x) (hy : Residue P.y y) (hz : Denotes P.z 0) :
      Represents a b P 0
  | finite {x y z : ZMod p} {A : (Weierstrass.short a b).Point} (hx : Residue P.x x)
      (hy : Residue P.y y) (hz : Residue P.z z) (h : Weierstrass.Represents a b x y z A) :
      Represents a b P A

namespace Jacobian

/-- A triple stands for a point exactly when it stands for the solution that the point is. -/
theorem represents_iff {P : Jacobian α} {A : (Weierstrass.short a b).Point} :
    P.Represents a b A ↔ P.StandsFor a b (.ofPoint A) := by
  constructor
  · intro h
    cases h with
    | infinity hx hy hz => exact .infinity hx hy hz
    | finite hx hy hz h => exact .finite hx hy hz (Weierstrass.represents_iff.mp h)
  · generalize hA : Weierstrass.Solution.ofPoint A = S
    intro h
    cases h with
    | infinity hx hy hz =>
        cases A with
        | zero => exact .infinity hx hy hz
        | some => cases hA
    | finite hx hy hz h =>
        subst hA
        exact .finite hx hy hz (Weierstrass.represents_iff.mpr h)

/-- A triple that stands for a finite point is not taken for infinity. -/
theorem Represents.isInfinity_eq_false {P : Jacobian α} {A : (Weierstrass.short a b).Point}
    (h : P.Represents a b A) (hA : A ≠ 0) : P.isInfinity = false := by
  cases h with
  | infinity => exact absurd rfl hA
  | finite _ _ hz h => exact isInfinity_of_residue hz h.z_ne_zero

end Jacobian

namespace Curve.Over

variable {c : Curve α}

open Jacobian in
/-- Addition returns the sum. -/
theorem add_returns (hc : c.Over a b) {P Q : Jacobian α} {A B : (Weierstrass.short a b).Point}
    (hP : P.Represents a b A) (hQ : Q.Represents a b B) :
    Returns (c.add P Q) (Represents a b · (A + B)) := by
  refine (hc.add_standsFor (represents_iff.mp hP) (represents_iff.mp hQ)).mono
    fun R hR => represents_iff.mpr ?_
  rwa [Weierstrass.Solution.ofPoint_add]

/-! ### The ladder -/

/-- The high part of a scalar above a bit, with the bit appended. -/
theorem div_two_pow_eq (k i : Nat) :
    k / 2 ^ i = 2 * (k / 2 ^ (i + 1)) + (k.testBit i).toNat := by
  rw [Nat.toNat_testBit, Nat.pow_succ, ← Nat.div_div_eq_div_mul]
  exact (Nat.div_add_mod (k / 2 ^ i) 2).symm

open Jacobian Weierstrass.Solution in
/-- From points that stand for the multiple by the high part of the scalar and for the next one, the
ladder goes on to the multiple by the scalar. -/
theorem ladder_delivers (hc : c.Over a b) {k : α} {n : Nat} (hk : Denotes k n)
    (A : (Weierstrass.short a b).Point) (i : Nat) {P Q : Jacobian α}
    (hP : P.StandsForWithin room a b (ofPoint ((n / 2 ^ i) • A)))
    (hQ : Q.StandsForWithin room a b (ofPoint ((n / 2 ^ i + 1) • A))) :
    Delivers room (StandsForWithin room a b · (ofPoint (n • A))) (c.ladder k i P Q) := by
  induction i generalizing P Q with
  | zero =>
      rw [Nat.pow_zero, Nat.div_one] at hP
      exact .ok hP
  | succ i ih =>
      -- the bit decides which of the two multiples is doubled; the other becomes the sum
      have hsplit := div_two_pow_eq n i
      generalize n / 2 ^ (i + 1) = high at hP hQ hsplit
      rw [ladder]
      refine (hc.add_delivers hP hQ).bind fun sum hsum => ?_
      rw [← ofPoint_add, ← add_nsmul] at hsum
      rw [LawfulArithmetic.testBit hk]
      cases hbit : n.testBit i with
      | true =>
          rw [hbit, Bool.toNat_true] at hsplit
          refine (hc.double_delivers hQ).bind fun twice htwice => ?_
          rw [← ofPoint_add, ← add_nsmul] at htwice
          refine ih ?_ ?_
          · rwa [show n / 2 ^ i = high + (high + 1) by omega]
          · rwa [show n / 2 ^ i + 1 = high + 1 + (high + 1) by omega]
      | false =>
          rw [hbit, Bool.toNat_false, add_zero] at hsplit
          refine (hc.double_delivers hP).bind fun twice htwice => ?_
          rw [← ofPoint_add, ← add_nsmul] at htwice
          refine ih ?_ ?_
          · rwa [show n / 2 ^ i = high + high by omega]
          · rwa [show n / 2 ^ i + 1 = high + (high + 1) by omega]

open Jacobian Weierstrass.Solution in
/-- The multiple of a point of any size by a scalar of any size is delivered. -/
theorem scalarMul_delivers (hc : c.Over a b) {k : α} {n : Nat} (hk : Denotes k n) {P : Jacobian α}
    {A : (Weierstrass.short a b).Point} (hP : P.StandsForWithin room a b (ofPoint A)) :
    Delivers room (StandsForWithin room a b · (ofPoint (n • A))) (c.scalarMul k P) := by
  -- no bit of the scalar lies above the first step of the ladder
  have hhigh : n / 2 ^ max (Arithmetic.bitLength k) c.orderBits = 0 := by
    rw [Nat.div_eq_zero_iff_lt (Nat.two_pow_pos _), LawfulArithmetic.bitLength hk]
    exact (Nat.lt_size_self n).trans_le (Nat.pow_le_pow_right (by decide) (Nat.le_max_left _ _))
  refine hc.ladder_delivers hk A _ ?_ ?_
  · rw [hhigh, zero_nsmul]
    exact standsFor_infinity.within room
  · rw [hhigh, zero_add, one_nsmul]
    exact hP

open Jacobian in
/-- The multiple of a point by a scalar of any size. -/
theorem scalarMul_returns (hc : c.Over a b) {k : α} {n : Nat} (hk : Denotes k n) {P : Jacobian α}
    {A : (Weierstrass.short a b).Point} (hP : P.Represents a b A) :
    Returns (c.scalarMul k P) (Represents a b · (n • A)) :=
  ((hc.scalarMul_delivers hk ((represents_iff.mp hP).within True)).returns trivial).mono
    fun _ hR => represents_iff.mpr (hR.standsFor trivial)

end Curve.Over

/-! ### Affine results -/

/-- The one triple that a normalized result has for a point: reduced coordinates and a third of one,
or zeros for the point at infinity. -/
def normalForm : (Weierstrass.short a b).Point → Jacobian Nat
  | .zero => ⟨0, 0, 0⟩
  | .some x y _ => ⟨x.val, y.val, 1⟩

/-- The normal form of a point is that of the solution that it is. -/
theorem normalForm_ofPoint (A : (Weierstrass.short a b).Point) :
    (Weierstrass.Solution.ofPoint A).normalForm = normalForm A := by
  cases A <;> rfl

/-- Different points have different normal forms. -/
theorem normalForm_injective :
    Function.Injective (normalForm : (Weierstrass.short a b).Point → Jacobian Nat) := by
  intro A B h
  cases A with
  | zero =>
      cases B with
      | zero => rfl
      | some x y hB => exact absurd (congrArg Jacobian.z h) zero_ne_one
  | some x y hA =>
      cases B with
      | zero => exact absurd (congrArg Jacobian.z h) one_ne_zero
      | some x' y' hB =>
          exact Weierstrass.some_congr (ZMod.val_injective p (congrArg Jacobian.x h))
            (ZMod.val_injective p (congrArg Jacobian.y h))

namespace Curve.Over

variable {c : Curve α}

/-- Normalizing returns the normal form of the point. -/
theorem normalize_returns (hc : c.Over a b) {P : Jacobian α} {A : (Weierstrass.short a b).Point}
    (hP : P.Represents a b A) : Returns (c.normalize P) (Jacobian.Matches · (normalForm A)) := by
  rw [← normalForm_ofPoint]
  exact hc.normalize_standsFor (Jacobian.represents_iff.mp hP)

/-- The normalized multiple of a point of any size is delivered. -/
theorem mul_delivers (hc : c.Over a b) {k : α} {n : Nat} (hk : Denotes k n) {P : Jacobian α}
    {A : (Weierstrass.short a b).Point} (hP : P.StandsForWithin room a b (.ofPoint A)) :
    Delivers room (Jacobian.Matches · (normalForm (n • A))) (c.mul k P) := by
  refine (hc.scalarMul_delivers hk hP).bind fun R hR => ?_
  rw [← normalForm_ofPoint]
  exact hc.normalForm_delivers hR

/-- The normalized multiple. -/
theorem mul_returns (hc : c.Over a b) {k : α} {n : Nat} (hk : Denotes k n) {P : Jacobian α}
    {A : (Weierstrass.short a b).Point} (hP : P.Represents a b A) :
    Returns (c.mul k P) (Jacobian.Matches · (normalForm (n • A))) :=
  (hc.mul_delivers hk ((Jacobian.represents_iff.mp hP).within True)).returns trivial

/-- The normalized sum. -/
theorem addNormalized_returns (hc : c.Over a b) {P Q : Jacobian α}
    {A B : (Weierstrass.short a b).Point} (hP : P.Represents a b A) (hQ : Q.Represents a b B) :
    Returns (c.addNormalized P Q) (Jacobian.Matches · (normalForm (A + B))) := by
  refine (hc.add_returns hP hQ).bind fun R hR => ?_
  exact hc.normalize_returns hR

/-- The normalized sum of two multiples. -/
theorem mul2_returns (hc : c.Over a b) {u v : α} {m n : Nat} (hu : Denotes u m) (hv : Denotes v n)
    {P Q : Jacobian α} {A B : (Weierstrass.short a b).Point} (hP : P.Represents a b A)
    (hQ : Q.Represents a b B) :
    Returns (c.mul2 u P v Q) (Jacobian.Matches · (normalForm (m • A + n • B))) := by
  refine (hc.scalarMul_returns hu hP).bind fun R hR => ?_
  refine (hc.scalarMul_returns hv hQ).bind fun S hS => ?_
  refine (hc.add_returns hR hS).bind fun T hT => ?_
  exact hc.normalize_returns hT

end Curve.Over

end TrustedPlatform
