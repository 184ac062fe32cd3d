import Mathlib.Algebra.Field.ZMod
import TrustedPlatform.Proofs.Arithmetic.Residue
import TrustedPlatform.Proofs.Curve.Group
import TrustedPlatform.Proofs.Curve.Refinement

/-!
# The formulas on all solutions

On every triple of numbers that stands for a solution of the equation of the curve, doubling,
addition and negation return a triple that stands for the double, the sum and the inverse by chord
and tangent, the exceptional solutions included. Normalizing such a triple returns the one reduced
affine form of its solution. Whether the curve is smooth does not matter, and neither does the size
of the numbers, except that on long ones there may be no result.
-/

namespace TrustedPlatform

open LawfulArithmetic (Denotes)
open Limbs (count)
open Weierstrass (Solution)

variable {α : Type} [Arithmetic α] [LawfulArithmetic α]

/-- A curve over the integers modulo a prime, its numbers held in an arithmetic. -/
structure Curve.Over {p : Nat} (c : Curve α) (a b : ZMod p) : Prop where
  modulus : Modulus c.p p
  coefficient : Residue c.a a
  two_ne_zero : (2 : ZMod p) ≠ 0

variable {p : Nat} {room : Prop}

namespace Jacobian

variable {P : Jacobian α}

/-- A zero third coordinate is recognized. -/
theorem isInfinity_of_denotes (hz : Denotes P.z 0) : P.isInfinity = true := by
  rw [isInfinity, LawfulArithmetic.isZero hz]
  rfl

/-- A third coordinate of any length in a class other than zero is not taken for infinity. -/
theorem isInfinity_of_within {z : ZMod p} (hz : ResidueWithin room P.z z) (hne : z ≠ 0) :
    P.isInfinity = false := by
  obtain ⟨n, hn, -, rfl⟩ := hz
  rw [isInfinity, LawfulArithmetic.isZero hn, beq_eq_false_iff_ne]
  rintro rfl
  exact hne Nat.cast_zero

/-- A third coordinate in a class other than zero is not taken for infinity. -/
theorem isInfinity_of_residue {z : ZMod p} (hz : Residue P.z z) (hne : z ≠ 0) :
    P.isInfinity = false :=
  isInfinity_of_within (hz.within True) hne

/-- A third coordinate of one is not taken for infinity. -/
theorem isInfinity_of_one (hz : Denotes P.z 1) : P.isInfinity = false := by
  rw [isInfinity, LawfulArithmetic.isZero hz]
  rfl

/-- A third coordinate of one is recognized. -/
theorem eqWord_of_one (hz : Denotes P.z 1) : Arithmetic.eqWord P.z 1 = true := by
  rw [LawfulArithmetic.eqWord hz]
  rfl

end Jacobian

variable [Fact p.Prime] {a b : ZMod p}

/-- A triple of numbers of at most 64 limbs stands for a solution: a zero third coordinate for the
point at infinity, and one that the prime does not divide for an affine solution. -/
inductive Jacobian.StandsFor (a b : ZMod p) (P : Jacobian α) :
    Solution (Weierstrass.short a b) → Prop where
  | infinity {x y : ZMod p} (hx : Residue P.x x) (hy : Residue P.y y) (hz : Denotes P.z 0) :
      StandsFor a b P .infinity
  | finite {x y z : ZMod p} {A : Solution (Weierstrass.short a b)} (hx : Residue P.x x)
      (hy : Residue P.y y) (hz : Residue P.z z) (h : Weierstrass.StandsFor a b x y z A) :
      StandsFor a b P A

/-- A triple of numbers, of at most 64 limbs where there is to be room, stands for a solution. -/
inductive Jacobian.StandsForWithin (room : Prop) (a b : ZMod p) (P : Jacobian α) :
    Solution (Weierstrass.short a b) → Prop where
  | infinity {x y : ZMod p} (hx : ResidueWithin room P.x x) (hy : ResidueWithin room P.y y)
      (hz : Denotes P.z 0) : StandsForWithin room a b P .infinity
  | finite {x y z : ZMod p} {A : Solution (Weierstrass.short a b)} (hx : ResidueWithin room P.x x)
      (hy : ResidueWithin room P.y y) (hz : ResidueWithin room P.z z)
      (h : Weierstrass.StandsFor a b x y z A) : StandsForWithin room a b P A

namespace Jacobian

/-- A triple of small numbers stands for its solution with or without room. -/
theorem StandsFor.within {P : Jacobian α} {A : Solution (Weierstrass.short a b)}
    (h : P.StandsFor a b A) (room : Prop) : P.StandsForWithin room a b A := by
  cases h with
  | infinity hx hy hz => exact .infinity (hx.within room) (hy.within room) hz
  | finite hx hy hz h => exact .finite (hx.within room) (hy.within room) (hz.within room) h

/-- Where there is room, the numbers of a triple are small. -/
theorem StandsForWithin.standsFor {P : Jacobian α} {A : Solution (Weierstrass.short a b)}
    (h : P.StandsForWithin room a b A) (hroom : room) : P.StandsFor a b A := by
  cases h with
  | infinity hx hy hz => exact .infinity (hx.residue hroom) (hy.residue hroom) hz
  | finite hx hy hz h =>
      exact .finite (hx.residue hroom) (hy.residue hroom) (hz.residue hroom) h

/-- Infinity stands for the point at infinity. -/
theorem standsFor_infinity : (infinity : Jacobian α).StandsFor a b .infinity :=
  .infinity (.ofWord 0) (.ofWord 0) (LawfulArithmetic.ofWord 0)

end Jacobian

namespace Curve.Over

variable {c : Curve α} {x y : α} {r s : ZMod p}

/-- The product modulo the field prime. -/
theorem mul (hc : c.Over a b) (hx : ResidueWithin room x r) (hy : ResidueWithin room y s) :
    Delivers room (ResidueWithin room · (r * s)) (Arithmetic.modMul x y c.p) :=
  (hx.mul hc.modulus hy).mono fun _ h => (h.residue hc.modulus).within room

/-- The sum modulo the field prime. -/
theorem add (hc : c.Over a b) (hx : ResidueWithin room x r) (hy : ResidueWithin room y s) :
    Delivers room (ResidueWithin room · (r + s)) (Arithmetic.modAdd x y c.p) :=
  (hx.add hc.modulus hy).mono fun _ h => (h.residue hc.modulus).within room

/-- The difference modulo the field prime. -/
theorem sub (hc : c.Over a b) (hx : ResidueWithin room x r) (hy : ResidueWithin room y s) :
    Delivers room (ResidueWithin room · (r - s)) (Arithmetic.modSub x y c.p) :=
  (hx.sub hc.modulus hy).mono fun _ h => (h.residue hc.modulus).within room

/-- A small constant stands for its class. -/
theorem constant (w : Word) {n : ZMod p} (h : (w.toNat : ZMod p) = n) :
    ResidueWithin room (Arithmetic.ofWord w : α) n :=
  ((Residue.ofWord w).of_eq h).within room

open Jacobian in
/-- Doubling delivers the double. -/
theorem double_delivers (hc : c.Over a b) {P : Jacobian α} {A : Solution (Weierstrass.short a b)}
    (hP : P.StandsForWithin room a b A) :
    Delivers room (StandsForWithin room a b · (A + A)) (c.double P) := by
  rw [double]
  cases hP with
  | infinity _ _ hz =>
      rw [if_pos (isInfinity_of_denotes hz), Solution.add_infinity]
      exact .ok (standsFor_infinity.within room)
  | @finite x y z _ hx hy hz h =>
      rw [isInfinity_of_within hz h.z_ne_zero, if_neg Bool.false_ne_true]
      refine (hy.reduce hc.modulus).bind fun y' hy' => ?_
      by_cases hzero : y = 0
      · -- a solution on the line of the inverses
        subst hzero
        rw [if_pos (hy'.isZero_iff.mpr rfl), h.double_eq_infinity]
        exact .ok (standsFor_infinity.within room)
      · rw [if_neg (mt hy'.isZero_iff.mp hzero)]
        refine (hc.mul hy hy).bind fun y2 hy2 => ?_
        refine (hc.mul hx hy2).bind fun xy2 hxy2 => ?_
        refine (hc.mul (constant 4 Nat.cast_ofNat) hxy2).bind fun s hs => ?_
        refine (hc.mul hx hx).bind fun x2 hx2 => ?_
        refine (hc.mul hz hz).bind fun z2 hz2 => ?_
        refine (hc.mul hz2 hz2).bind fun z4 hz4 => ?_
        refine (hc.mul (constant 3 Nat.cast_ofNat) hx2).bind fun threeX2 hthreeX2 => ?_
        refine (hc.mul (hc.coefficient.within room) hz4).bind fun az4 haz4 => ?_
        refine (hc.add hthreeX2 haz4).bind fun slope hslope => ?_
        refine (hc.mul hslope hslope).bind fun slope2 hslope2 => ?_
        refine (hc.add hs hs).bind fun twoS htwoS => ?_
        refine (hc.sub hslope2 htwoS).bind fun x3 hx3 => ?_
        refine (hc.mul hy2 hy2).bind fun y4 hy4 => ?_
        refine (hc.sub hs hx3).bind fun sx3 hsx3 => ?_
        refine (hc.mul hslope hsx3).bind fun rise hrise => ?_
        refine (hc.mul (constant 8 Nat.cast_ofNat) hy4).bind fun eightY4 heightY4 => ?_
        refine (hc.sub hrise heightY4).bind fun y3 hy3 => ?_
        refine (hc.add hy hy).bind fun twoY htwoY => ?_
        refine (hc.mul htwoY hz).bind fun z3 hz3 => ?_
        exact .ok (.finite hx3 hy3 hz3 (h.double hc.two_ne_zero hzero))

open Jacobian in
/-- Doubling returns the double. -/
theorem double_standsFor (hc : c.Over a b) {P : Jacobian α} {A : Solution (Weierstrass.short a b)}
    (hP : P.StandsFor a b A) : Returns (c.double P) (StandsFor a b · (A + A)) :=
  ((hc.double_delivers (hP.within True)).returns trivial).mono fun _ hR => hR.standsFor trivial

open Jacobian in
/-- Addition delivers the sum. -/
theorem add_delivers (hc : c.Over a b) {P Q : Jacobian α} {A B : Solution (Weierstrass.short a b)}
    (hP : P.StandsForWithin room a b A) (hQ : Q.StandsForWithin room a b B) :
    Delivers room (StandsForWithin room a b · (A + B)) (c.add P Q) := by
  rw [Curve.add]
  cases hP with
  | infinity _ _ hz =>
      rw [if_pos (isInfinity_of_denotes hz), Solution.infinity_add]
      exact .ok hQ
  | @finite x₁ y₁ z₁ _ hx₁ hy₁ hz₁ h₁ =>
      rw [isInfinity_of_within hz₁ h₁.z_ne_zero, if_neg Bool.false_ne_true]
      cases hQ with
      | infinity _ _ hz =>
          rw [if_pos (isInfinity_of_denotes hz), Solution.add_infinity]
          exact .ok (.finite hx₁ hy₁ hz₁ h₁)
      | @finite x₂ y₂ z₂ _ hx₂ hy₂ hz₂ h₂ =>
          rw [isInfinity_of_within hz₂ h₂.z_ne_zero, if_neg Bool.false_ne_true]
          have hm := hc.modulus
          refine (hc.mul hz₁ hz₁).bind fun z1z1 hz1z1 => ?_
          refine (hc.mul hz₂ hz₂).bind fun z2z2 hz2z2 => ?_
          refine (hx₁.mul hm hz2z2).bind fun u1 hu1 => ?_
          refine (hx₂.mul hm hz1z1).bind fun u2 hu2 => ?_
          refine (hc.mul hz₂ hz2z2).bind fun z2z2z2 hz2z2z2 => ?_
          refine (hy₁.mul hm hz2z2z2).bind fun s1 hs1 => ?_
          refine (hc.mul hz₁ hz1z1).bind fun z1z1z1 hz1z1z1 => ?_
          refine (hy₂.mul hm hz1z1z1).bind fun s2 hs2 => ?_
          -- the crosswise products tell equal and opposite points apart from the others
          by_cases hx : x₁ * (z₂ * z₂) = x₂ * (z₁ * z₁)
          · rw [if_pos ((hu1.eq_iff hu2).mpr hx)]
            by_cases hy : y₁ * (z₂ * (z₂ * z₂)) = y₂ * (z₁ * (z₁ * z₁))
            · rw [if_pos ((hs1.eq_iff hs2).mpr hy), ← h₁.eq_of_cross h₂ hx hy]
              exact hc.double_delivers (.finite hx₁ hy₁ hz₁ h₁)
            · rw [if_neg (mt (hs1.eq_iff hs2).mp hy), h₁.add_eq_infinity_of_cross h₂ hx hy]
              exact .ok (standsFor_infinity.within room)
          · rw [if_neg (mt (hu1.eq_iff hu2).mp hx)]
            have hsum := h₁.add h₂ (sub_ne_zero.mpr (Ne.symm hx))
            have hu := (hu1.residue hm).within room
            have hs := (hs1.residue hm).within room
            refine (hc.sub ((hu2.residue hm).within room) hu).bind fun h hh => ?_
            refine (hc.sub ((hs2.residue hm).within room) hs).bind fun r hr => ?_
            refine (hc.mul hh hh).bind fun h2 hh2 => ?_
            refine (hc.mul hh hh2).bind fun h3 hh3 => ?_
            refine (hc.mul hu hh2).bind fun u1h2 hu1h2 => ?_
            refine (hc.mul hr hr).bind fun r2 hr2 => ?_
            refine (hc.sub hr2 hh3).bind fun r2h3 hr2h3 => ?_
            refine (hc.add hu1h2 hu1h2).bind fun twoU1h2 htwoU1h2 => ?_
            refine (hc.sub hr2h3 htwoU1h2).bind fun x3 hx3 => ?_
            refine (hc.sub hu1h2 hx3).bind fun run hrun => ?_
            refine (hc.mul hr hrun).bind fun rise hrise => ?_
            refine (hc.mul hs hh3).bind fun s1h3 hs1h3 => ?_
            refine (hc.sub hrise hs1h3).bind fun y3 hy3 => ?_
            refine (hc.mul hz₁ hz₂).bind fun zz hzz => ?_
            refine (hc.mul hh hzz).bind fun z3 hz3 => ?_
            exact .ok (.finite hx3 hy3 hz3 hsum)

open Jacobian in
/-- Addition returns the sum. -/
theorem add_standsFor (hc : c.Over a b) {P Q : Jacobian α} {A B : Solution (Weierstrass.short a b)}
    (hP : P.StandsFor a b A) (hQ : Q.StandsFor a b B) :
    Returns (c.add P Q) (StandsFor a b · (A + B)) :=
  ((hc.add_delivers (hP.within True) (hQ.within True)).returns trivial).mono
    fun _ hR => hR.standsFor trivial

open Jacobian in
/-- Negation returns the inverse. -/
theorem negate_standsFor (hc : c.Over a b) {P : Jacobian α} {A : Solution (Weierstrass.short a b)}
    (hP : P.StandsFor a b A) : Returns (c.negate P) (StandsFor a b · (-A)) := by
  rw [negate]
  cases hP with
  | infinity _ _ hz =>
      rw [if_pos (isInfinity_of_denotes hz)]
      exact .ok standsFor_infinity
  | finite hx hy hz h =>
      rw [isInfinity_of_residue hz h.z_ne_zero, if_neg Bool.false_ne_true]
      have hzero : Residue (Arithmetic.ofWord 0 : α) (0 : ZMod p) :=
        (Residue.ofWord 0).of_eq Nat.cast_zero
      refine (hzero.sub hc.modulus hy).bind fun y' hy' => ?_
      exact .ok (.finite hx ((hy'.residue hc.modulus).of_eq (zero_sub _)) hz h.neg)

end Curve.Over

/-! ### Affine results -/

/-- The one triple that a normalized result has for a solution: reduced coordinates and a third of
one, or zeros for the point at infinity. -/
def Weierstrass.Solution.normalForm : Solution (Weierstrass.short a b) → Jacobian Nat
  | .infinity => ⟨0, 0, 0⟩
  | .affine x y _ => ⟨x.val, y.val, 1⟩

namespace Curve.Over

variable {c : Curve α}

open Jacobian in
/-- Normalizing divides by the square and the cube of the third coordinate. -/
theorem normalize_delivers (hc : c.Over a b) {P : Jacobian α} {x y z : ZMod p}
    (hx : ResidueWithin room P.x x) (hy : ResidueWithin room P.y y)
    (hz : ResidueWithin room P.z z) (hne : z ≠ 0) :
    Delivers room (fun Q => Reduced Q.x (x / z ^ 2) ∧ Reduced Q.y (y / z ^ 3) ∧ Denotes Q.z 1)
      (c.normalize P) := by
  have hm := hc.modulus
  have hone : Denotes (Arithmetic.ofWord 1 : α) 1 := LawfulArithmetic.ofWord 1
  rw [normalize, isInfinity_of_within hz hne, if_neg Bool.false_ne_true]
  by_cases hz1 : Arithmetic.eqWord P.z 1 = true
  · have hzone : z = 1 := by
      obtain ⟨n, hn, -, rfl⟩ := hz
      rw [LawfulArithmetic.eqWord hn, Arithmetic.eqWord, beq_iff_eq] at hz1
      rw [Nat.compare_eq_eq.mp hz1]
      exact Nat.cast_one
    subst hzone
    rw [if_pos hz1]
    refine (hx.reduce hm).bind fun x' hx' => ?_
    refine (hy.reduce hm).bind fun y' hy' => ?_
    exact .ok ⟨hx'.of_eq (by ring), hy'.of_eq (by ring), hone⟩
  · rw [if_neg hz1]
    refine (hz.inverse hm hne).bind fun o ho => ?_
    obtain ⟨zinv, rfl, hzinv⟩ := ho
    have hzinv := (hzinv.residue hm).within room
    refine (hc.mul hzinv hzinv).bind fun zinv2 hzinv2 => ?_
    refine (hc.mul hzinv2 hzinv).bind fun zinv3 hzinv3 => ?_
    refine (hx.mul hm hzinv2).bind fun x' hx' => ?_
    refine (hy.mul hm hzinv3).bind fun y' hy' => ?_
    exact .ok ⟨hx'.of_eq (by ring), hy'.of_eq (by ring), hone⟩

open Jacobian in
/-- Normalizing delivers the normal form of the solution. -/
theorem normalForm_delivers (hc : c.Over a b) {P : Jacobian α}
    {A : Solution (Weierstrass.short a b)} (hP : P.StandsForWithin room a b A) :
    Delivers room (Jacobian.Matches · A.normalForm) (c.normalize P) := by
  cases hP with
  | infinity _ _ hz =>
      rw [normalize, if_pos (isInfinity_of_denotes hz)]
      have hzero : Denotes (Arithmetic.ofWord 0 : α) 0 := LawfulArithmetic.ofWord 0
      exact .ok ⟨hzero, hzero, hzero⟩
  | finite hx hy hz h =>
      rw [h.eq_affine]
      refine (hc.normalize_delivers hx hy hz h.z_ne_zero).mono fun Q hQ => ?_
      obtain ⟨hx', hy', hz'⟩ := hQ
      exact ⟨hx'.denotes, hy'.denotes, hz'⟩

open Jacobian in
/-- Normalizing returns the normal form of the solution. -/
theorem normalize_standsFor (hc : c.Over a b) {P : Jacobian α}
    {A : Solution (Weierstrass.short a b)} (hP : P.StandsFor a b A) :
    Returns (c.normalize P) (Jacobian.Matches · A.normalForm) :=
  (hc.normalForm_delivers (hP.within True)).returns trivial

end Curve.Over

end TrustedPlatform
