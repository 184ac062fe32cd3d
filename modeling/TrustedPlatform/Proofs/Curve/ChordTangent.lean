import Mathlib.Tactic.NormNum.Prime
import TrustedPlatform.Proofs.Curve.Formulas

/-!
# Chord and tangent on every curve

A description gives the equation of a curve over the residues modulo its prime. A triple of numbers
that satisfies the equation in Jacobian coordinates stands for one solution of it, and what the
operations return for such triples satisfies the equation again and stands for the sum, the double
and the inverse of the solutions. The main theorem is `Curve.chord_and_tangent`. It asks of the
curve only that its prime be odd, not that it be registered or smooth.
-/

namespace TrustedPlatform

open LawfulArithmetic (Denotes)
open Limbs (count_le_iff)
open Weierstrass (Solution)

variable {α : Type} [Arithmetic α] [LawfulArithmetic α]

namespace CurveParameters

/-- A triple of numbers of at most 64 limbs on the curve: at infinity, or with a third coordinate
that the prime does not divide and the equation in Jacobian coordinates satisfied. -/
structure OnCurve (d : CurveParameters) (P : Jacobian Nat) : Prop where
  x_lt : P.x < UInt64.size ^ 64
  y_lt : P.y < UInt64.size ^ 64
  z_lt : P.z < UInt64.size ^ 64
  equation : P.z = 0 ∨ ¬d.p ∣ P.z ∧
    P.y ^ 2 ≡ P.x ^ 3 + d.a * P.x * P.z ^ 4 + d.b * P.z ^ 6 [MOD d.p]

/-- Whether a triple is on a curve is decided by evaluating its equation. -/
instance (d : CurveParameters) (P : Jacobian Nat) : Decidable (d.OnCurve P) :=
  decidable_of_iff
    (P.x < UInt64.size ^ 64 ∧ P.y < UInt64.size ^ 64 ∧ P.z < UInt64.size ^ 64 ∧
      (P.z = 0 ∨ ¬d.p ∣ P.z ∧
        P.y ^ 2 ≡ P.x ^ 3 + d.a * P.x * P.z ^ 4 + d.b * P.z ^ 6 [MOD d.p]))
    ⟨fun ⟨hx, hy, hz, hequation⟩ => ⟨hx, hy, hz, hequation⟩,
      fun h => ⟨h.x_lt, h.y_lt, h.z_lt, h.equation⟩⟩

/-- A finite triple of numbers of any size on the curve: the prime does not divide the third
coordinate, and the equation in Jacobian coordinates is satisfied. -/
structure Satisfies (d : CurveParameters) (P : Jacobian Nat) : Prop where
  z_not_dvd : ¬d.p ∣ P.z
  equation : P.y ^ 2 ≡ P.x ^ 3 + d.a * P.x * P.z ^ 4 + d.b * P.z ^ 6 [MOD d.p]

/-- The curve over the residues modulo the field prime. -/
abbrev curve (d : CurveParameters) [Fact d.p.Prime] : WeierstrassCurve.Affine (ZMod d.p) :=
  Weierstrass.short d.a d.b

open Classical in
/-- The solution of the equation that a triple of numbers stands for. -/
noncomputable def solution (d : CurveParameters) [Fact d.p.Prime] (P : Jacobian Nat) :
    Solution d.curve :=
  if h : (P.z : ZMod d.p) ≠ 0 ∧ d.curve.Equation (P.x / P.z ^ 2) (P.y / P.z ^ 3) then
    .affine _ _ h.2
  else .infinity

variable {d : CurveParameters} [Fact d.p.Prime] {P : Jacobian Nat} {P' : Jacobian α}

/-- A triple is on the curve exactly when its affine coordinates satisfy the equation. -/
theorem satisfies_iff : d.Satisfies P ↔
    (P.z : ZMod d.p) ≠ 0 ∧ d.curve.Equation (P.x / P.z ^ 2) (P.y / P.z ^ 3) := by
  have hz : ¬d.p ∣ P.z ↔ (P.z : ZMod d.p) ≠ 0 := (ZMod.natCast_eq_zero_iff _ _).not.symm
  have hcast : P.y ^ 2 ≡ P.x ^ 3 + d.a * P.x * P.z ^ 4 + d.b * P.z ^ 6 [MOD d.p] ↔
      (P.y : ZMod d.p) ^ 2 = P.x ^ 3 + d.a * P.x * P.z ^ 4 + d.b * P.z ^ 6 := by
    rw [← ZMod.natCast_eq_natCast_iff]
    push_cast
    rfl
  constructor
  · rintro ⟨hdvd, hequation⟩
    exact ⟨hz.mp hdvd, Weierstrass.StandsFor.equation_of_jacobian (hz.mp hdvd) (hcast.mp hequation)⟩
  · rintro ⟨hne, hequation⟩
    refine ⟨hz.mpr hne, hcast.mpr ?_⟩
    exact (⟨hne, hequation, rfl⟩ : Weierstrass.StandsFor _ _ _ _ _ _).equation_jacobian

/-- The coordinates of a finite triple on the curve stand for its solution. -/
theorem Satisfies.standsFor_solution (h : d.Satisfies P) :
    Weierstrass.StandsFor (d.a : ZMod d.p) d.b P.x P.y P.z (d.solution P) := by
  obtain ⟨hne, hequation⟩ := satisfies_iff.mp h
  refine ⟨hne, hequation, ?_⟩
  rw [solution, dif_pos ⟨hne, hequation⟩]

/-- A triple on the curve stands for its solution. -/
theorem OnCurve.standsFor (h : d.OnCurve P) (hP : P'.Matches P) :
    P'.StandsFor (d.a : ZMod d.p) d.b (d.solution P) := by
  have hx := Residue.of_denotes (p := d.p) hP.x (count_le_iff.mpr h.x_lt)
  have hy := Residue.of_denotes (p := d.p) hP.y (count_le_iff.mpr h.y_lt)
  rcases h.equation with hz | ⟨hz, heq⟩
  · have hzero : ¬((P.z : ZMod d.p) ≠ 0 ∧ d.curve.Equation (P.x / P.z ^ 2) (P.y / P.z ^ 3)) :=
      fun hne => hne.1 (by rw [hz, Nat.cast_zero])
    rw [solution, dif_neg hzero]
    refine .infinity hx hy ?_
    rw [← hz]
    exact hP.z
  · have hsatisfies : d.Satisfies P := ⟨hz, heq⟩
    exact .finite hx hy (.of_denotes hP.z (count_le_iff.mpr h.z_lt)) hsatisfies.standsFor_solution

/-- The triple is on the curve and stands for the solution. -/
def Locates (d : CurveParameters) [Fact d.p.Prime] (A : Solution d.curve) (P' : Jacobian α) :
    Prop :=
  ∃ P, P'.Matches P ∧ d.OnCurve P ∧ d.solution P = A

/-- A triple that stands for a solution is on the curve. -/
theorem locates_of_standsFor {A : Solution d.curve}
    (h : P'.StandsFor (d.a : ZMod d.p) d.b A) : d.Locates A P' := by
  cases h with
  | infinity hx hy hz =>
      obtain ⟨x, hx, hxle, -⟩ := hx
      obtain ⟨y, hy, hyle, -⟩ := hy
      have hzero : 0 < UInt64.size ^ 64 := Nat.pow_pos (by decide)
      refine ⟨⟨x, y, 0⟩, ⟨hx, hy, hz⟩,
        ⟨count_le_iff.mp hxle, count_le_iff.mp hyle, hzero, .inl rfl⟩, ?_⟩
      rw [solution, dif_neg fun hne => hne.1 Nat.cast_zero]
  | finite hx hy hz h =>
      obtain ⟨x, hx, hxle, rfl⟩ := hx
      obtain ⟨y, hy, hyle, rfl⟩ := hy
      obtain ⟨z, hz, hzle, rfl⟩ := hz
      have hsatisfies : d.Satisfies ⟨x, y, z⟩ := satisfies_iff.mpr ⟨h.z_ne_zero, h.equation⟩
      refine ⟨⟨x, y, z⟩, ⟨hx, hy, hz⟩, ⟨count_le_iff.mp hxle, count_le_iff.mp hyle,
        count_le_iff.mp hzle, .inr ⟨hsatisfies.z_not_dvd, hsatisfies.equation⟩⟩, ?_⟩
      exact hsatisfies.standsFor_solution.unique h

/-- Two is invertible modulo an odd prime. -/
theorem two_ne_zero_of_odd (hodd : d.p ≠ 2) : (2 : ZMod d.p) ≠ 0 := by
  intro h
  have hdvd : d.p ∣ 2 := (ZMod.natCast_eq_zero_iff 2 d.p).mp (by exact_mod_cast h)
  exact hodd ((Nat.prime_dvd_prime_iff_eq Fact.out Nat.prime_two).mp hdvd)

end CurveParameters

open CurveParameters in
/-- On every curve over an odd prime, for all triples on it, addition, doubling and negation return
triples on it that stand for the sum, the double and the inverse by chord and tangent; and
normalizing returns the one affine form of the solution. -/
theorem Curve.chord_and_tangent {d : CurveParameters} [Fact d.p.Prime] (hodd : d.p ≠ 2)
    (hp : d.p < UInt64.size ^ 64) (ha : d.a < UInt64.size ^ 64) {c : Curve α}
    (hcp : Denotes c.p d.p) (hca : Denotes c.a d.a) {P Q : Jacobian Nat} {P' Q' : Jacobian α}
    (hP : d.OnCurve P) (hP' : P'.Matches P) (hQ : d.OnCurve Q) (hQ' : Q'.Matches Q) :
    Returns (c.add P' Q') (d.Locates (d.solution P + d.solution Q)) ∧
    Returns (c.double P') (d.Locates (d.solution P + d.solution P)) ∧
    Returns (c.negate P') (d.Locates (-d.solution P)) ∧
    Returns (c.normalize P') (·.Matches (d.solution P).normalForm) := by
  have hover : c.Over (d.a : ZMod d.p) (d.b : ZMod d.p) :=
    ⟨⟨hcp, count_le_iff.mpr hp⟩, .of_denotes hca (count_le_iff.mpr ha), two_ne_zero_of_odd hodd⟩
  have hA := hP.standsFor hP'
  have hB := hQ.standsFor hQ'
  refine ⟨?_, ?_, ?_, hover.normalize_standsFor hA⟩
  · exact (hover.add_standsFor hA hB).mono fun R' hR => locates_of_standsFor hR
  · exact (hover.double_standsFor hA).mono fun R' hR => locates_of_standsFor hR
  · exact (hover.negate_standsFor hA).mono fun R' hR => locates_of_standsFor hR

/-- The sum of a point of a small curve with itself, the second time from other coordinates, which
are not reduced. -/
theorem Curve.chord_and_tangent_equal :
    ∃ d : CurveParameters, ∃ _ : Fact d.p.Prime, ∃ c : Curve FixedNat, ∃ P Q : Jacobian FixedNat,
      (d.p = 23 ∧ d.a = 1 ∧ d.b = 1) ∧ (Denotes c.p d.p ∧ Denotes c.a d.a) ∧
      (d.OnCurve ⟨3, 10, 1⟩ ∧ P.Matches ⟨3, 10, 1⟩) ∧
      (d.OnCurve ⟨35, 80, 2⟩ ∧ Q.Matches ⟨35, 80, 2⟩) ∧
      Returns (c.add P Q) (d.Locates (d.solution ⟨3, 10, 1⟩ + d.solution ⟨35, 80, 2⟩)) := by
  let d : CurveParameters := { CurveParameters.nistP192 with p := 23, a := 1, b := 1 }
  have hprime : Fact d.p.Prime := ⟨(by norm_num : Nat.Prime 23)⟩
  have hp := Curve.denotes_number (α := FixedNat) d.p
  have ha := Curve.denotes_number (α := FixedNat) d.a
  have hP : d.OnCurve ⟨3, 10, 1⟩ := by decide +kernel
  have hQ : d.OnCurve ⟨35, 80, 2⟩ := by decide +kernel
  have hP' : (⟨Arithmetic.ofWord 3, Arithmetic.ofWord 10, Arithmetic.ofWord 1⟩ :
      Jacobian FixedNat).Matches ⟨3, 10, 1⟩ :=
    ⟨LawfulArithmetic.ofWord 3, LawfulArithmetic.ofWord 10, LawfulArithmetic.ofWord 1⟩
  have hQ' : (⟨Arithmetic.ofWord 35, Arithmetic.ofWord 80, Arithmetic.ofWord 2⟩ :
      Jacobian FixedNat).Matches ⟨35, 80, 2⟩ :=
    ⟨LawfulArithmetic.ofWord 35, LawfulArithmetic.ofWord 80, LawfulArithmetic.ofWord 2⟩
  refine ⟨d, hprime, Curve.ofParameters d, _, _, ⟨rfl, rfl, rfl⟩, ⟨hp, ha⟩, ⟨hP, hP'⟩,
    ⟨hQ, hQ'⟩, ?_⟩
  exact (Curve.chord_and_tangent (by decide) (by decide) (by decide) hp ha hP hP' hQ hQ').1

end TrustedPlatform
