import Mathlib.NumberTheory.LucasLehmer
import TrustedPlatform.Proofs.Curve.ChordTangent
import TrustedPlatform.Proofs.Curve.Multiple

/-!
# Multiples of points on the registered curves

The coefficients of every registered curve give a smooth curve over the residues modulo its prime.
A triple of numbers that satisfies its equation stands for one point of that curve, and the
multiples that the ladder computes from it, alone or added, stand for the multiples in the group.
The main theorem is `registered_multiples`.
-/

namespace TrustedPlatform

open Limbs (count count_le_iff)

variable {α : Type} [Arithmetic α] [LawfulArithmetic α]

namespace CurveParameters

/-- The description gives a smooth curve whose numbers fit into 64 limbs. -/
structure Regular (d : CurveParameters) : Prop where
  odd : d.p % 2 = 1
  p_lt : d.p < UInt64.size ^ 64
  a_lt : d.a < d.p
  smooth : ¬d.p ∣ 4 * d.a ^ 3 + 27 * d.b ^ 2

/-- Regularity is decided by evaluating its four conditions. -/
instance (d : CurveParameters) : Decidable d.Regular :=
  decidable_of_iff
    (d.p % 2 = 1 ∧ d.p < UInt64.size ^ 64 ∧ d.a < d.p ∧ ¬d.p ∣ 4 * d.a ^ 3 + 27 * d.b ^ 2)
    ⟨fun ⟨hodd, hp, ha, hsmooth⟩ => ⟨hodd, hp, ha, hsmooth⟩,
      fun h => ⟨h.odd, h.p_lt, h.a_lt, h.smooth⟩⟩

/-- Every registered curve is regular. -/
theorem regular_of_mem : ∀ d ∈ all, d.Regular := by
  decide +kernel

/-- The coordinates of the generator. -/
def generator (d : CurveParameters) : Jacobian Nat :=
  ⟨d.gx, d.gy, 1⟩

/-- The generator of every registered curve is on it. -/
theorem generator_onCurve : ∀ d ∈ all, d.OnCurve d.generator := by
  decide +kernel

variable {d : CurveParameters} [Fact d.p.Prime]

open Classical in
/-- The point of the curve that a triple of numbers stands for. -/
noncomputable def point (d : CurveParameters) [Fact d.p.Prime] (P : Jacobian Nat) : d.curve.Point :=
  if h : (P.z : ZMod d.p) ≠ 0 ∧ d.curve.Nonsingular (P.x / P.z ^ 2) (P.y / P.z ^ 3) then
    .some _ _ h.2
  else 0

/-- The loaded generator is that of the description. -/
theorem matches_generator (d : CurveParameters) :
    (Curve.ofParameters d : Curve α).g.Matches d.generator :=
  ⟨Curve.denotes_number d.gx, Curve.denotes_number d.gy, LawfulArithmetic.ofWord 1⟩

namespace Regular

/-- The field does not have characteristic two. -/
theorem two_ne_zero (hd : d.Regular) : (2 : ZMod d.p) ≠ 0 := by
  refine two_ne_zero_of_odd fun h => ?_
  have hodd := hd.odd
  omega

/-- The curve is smooth. -/
theorem discriminant_ne_zero (hd : d.Regular) : d.curve.Δ ≠ 0 := by
  have hsmooth : (4 * d.a ^ 3 + 27 * d.b ^ 2 : ZMod d.p) ≠ 0 := by
    intro h
    exact hd.smooth ((ZMod.natCast_eq_zero_iff _ _).mp (by exact_mod_cast h))
  have hsixteen : (-16 : ZMod d.p) ≠ 0 := by
    rw [show (-16 : ZMod d.p) = -2 ^ 4 by norm_num]
    exact neg_ne_zero.mpr (pow_ne_zero 4 hd.two_ne_zero)
  rw [Weierstrass.discriminant_eq]
  exact mul_ne_zero hsixteen hsmooth

/-- The numbers of a regular curve, loaded, are those of its description. -/
theorem loaded (hd : d.Regular) :
    (Curve.ofParameters d : Curve α).Over (d.a : ZMod d.p) (d.b : ZMod d.p) := by
  have hp : count d.p ≤ 64 := count_le_iff.mpr hd.p_lt
  have ha : count d.a ≤ 64 := (Limbs.count_mono hd.a_lt.le).trans hp
  exact ⟨⟨Curve.denotes_number d.p, hp⟩, .of_denotes (Curve.denotes_number d.a) ha, hd.two_ne_zero⟩

end Regular

variable {P : Jacobian Nat} {P' : Jacobian α}

/-- The point of a triple is its solution, when that is a point of the group. -/
theorem point_eq_of_solution {A : d.curve.Point} (h : d.solution P = .ofPoint A) :
    d.point P = A := by
  rw [solution] at h
  split at h
  · next hfinite =>
      cases A with
      | zero => cases h
      | some x y hA =>
          obtain ⟨rfl, rfl⟩ := Weierstrass.Solution.affine.inj h
          rw [point, dif_pos ⟨hfinite.1, hA⟩]
  · next hinfinite =>
      cases A with
      | zero => rw [point, dif_neg fun hfinite => hinfinite ⟨hfinite.1, hfinite.2.1⟩]; rfl
      | some x y hA => cases h

/-- On a smooth curve, the solution of a triple is its point. -/
theorem Regular.ofPoint_point (hd : d.Regular) (P : Jacobian Nat) :
    .ofPoint (d.point P) = d.solution P := by
  obtain ⟨A, hA⟩ := Weierstrass.Solution.exists_ofPoint hd.discriminant_ne_zero (d.solution P)
  rw [point_eq_of_solution hA.symm, hA]

/-- A triple on the curve stands for its point. -/
theorem OnCurve.represents (hd : d.Regular) (h : d.OnCurve P) (hP : P'.Matches P) :
    P'.Represents (d.a : ZMod d.p) d.b (d.point P) := by
  rw [Jacobian.represents_iff, hd.ofPoint_point]
  exact h.standsFor hP

/-- A finite triple of any size on the curve stands for its point. -/
theorem Satisfies.standsFor (hd : d.Regular) (h : d.Satisfies P) (hP : P'.Matches P) :
    P'.StandsForWithin False (d.a : ZMod d.p) d.b (.ofPoint (d.point P)) := by
  rw [hd.ofPoint_point]
  exact .finite (.of_any hP.x) (.of_any hP.y) (.of_any hP.z) h.standsFor_solution

/-- A triple on the curve whose third coordinate is not zero has a finite point. -/
theorem OnCurve.point_ne_zero (hd : d.Regular) (h : d.OnCurve P) (hz : P.z ≠ 0) :
    d.point P ≠ 0 := by
  have hrep : P.Represents (d.a : ZMod d.p) d.b (d.point P) := h.represents hd ⟨rfl, rfl, rfl⟩
  intro hzero
  rw [hzero] at hrep
  cases hrep with
  | infinity _ _ hzero => exact hz hzero
  | finite _ _ _ h => cases h.eq_some

/-- A triple that stands for a point is on the curve, and the point is its. -/
theorem exists_onCurve {A : d.curve.Point} (h : P'.Represents (d.a : ZMod d.p) d.b A) :
    ∃ P, P'.Matches P ∧ d.OnCurve P ∧ d.point P = A := by
  obtain ⟨P, hP, hon, hsolution⟩ := locates_of_standsFor (Jacobian.represents_iff.mp h)
  exact ⟨P, hP, hon, point_eq_of_solution hsolution⟩

end CurveParameters

omit [LawfulArithmetic α] in
/-- A registry number loads a registered curve. -/
theorem Curve.exists_of_load {id : CurveId} {c : Curve α} (h : Curve.load α id = .ok c) :
    ∃ d ∈ CurveParameters.all, c = Curve.ofParameters d := by
  rw [Curve.load] at h
  cases hlookup : CurveParameters.lookup? id with
  | error e =>
      rw [hlookup] at h
      cases h
  | ok d =>
      rw [hlookup] at h
      cases h
      exact ⟨d, CurveParameters.mem_of_lookup? hlookup, rfl⟩

open LawfulArithmetic (Denotes) in
/-- On a registered curve, the ladder returns a triple on the curve that stands for the multiple of
the point, for every triple that stands for the point and every scalar; and the affine forms of a
multiple, and of the sum of two multiples, are returned. -/
theorem Curve.registered_multiples {id : CurveId} {c : Curve α} (hc : Curve.load α id = .ok c)
    [Fact c.parameters.p.Prime] {P Q : Jacobian Nat} {P' Q' : Jacobian α}
    (hP : c.parameters.OnCurve P) (hP' : P'.Matches P)
    (hQ : c.parameters.OnCurve Q) (hQ' : Q'.Matches Q)
    {u v : α} {m n : Nat} (hu : Denotes u m) (hv : Denotes v n) :
    (Returns (c.scalarMul u P') fun R' => ∃ R, R'.Matches R ∧ c.parameters.OnCurve R ∧
      c.parameters.point R = m • c.parameters.point P) ∧
    (Returns (c.mul u P') (·.Matches (normalForm (m • c.parameters.point P)))) ∧
    (Returns (c.mul2 u P' v Q')
      (·.Matches (normalForm (m • c.parameters.point P + n • c.parameters.point Q)))) := by
  obtain ⟨d, hmem, rfl⟩ := Curve.exists_of_load hc
  have hd : (Curve.ofParameters d : Curve α).parameters.Regular :=
    CurveParameters.regular_of_mem d hmem
  have hover := hd.loaded (α := α)
  have hA := hP.represents hd hP'
  have hB := hQ.represents hd hQ'
  refine ⟨?_, hover.mul_returns hu hA, hover.mul2_returns hu hv hA hB⟩
  exact (hover.scalarMul_returns hu hA).mono fun R' hR => CurveParameters.exists_onCurve hR

/-- The field prime of the 521-bit curve is a Mersenne prime. -/
theorem CurveParameters.prime_nistP521 : nistP521.p.Prime := by
  have hp : nistP521.p = mersenne 521 := by decide +kernel
  rw [hp]
  exact lucas_lehmer_sufficiency 521 (by norm_num) (by norm_num)

open CurveParameters (nistP521) in
/-- A sum of multiples of the generator of the 521-bit curve, the second from other coordinates. -/
theorem Curve.registered_multiples_nistP521 :
    ∃ _ : Fact nistP521.p.Prime, ∃ c : Curve FixedNat, ∃ Q : Jacobian FixedNat,
      Curve.load FixedNat 5 = .ok c ∧ c.g.Matches nistP521.generator ∧
      Q.Matches ⟨4 * nistP521.gx, 8 * nistP521.gy, 2⟩ ∧
      Returns (c.mul2 (Arithmetic.ofWord 3) c.g (Arithmetic.ofWord 5) Q)
        (·.Matches (normalForm (3 • nistP521.point nistP521.generator +
          5 • nistP521.point ⟨4 * nistP521.gx, 8 * nistP521.gy, 2⟩))) := by
  have hprime : Fact nistP521.p.Prime := ⟨CurveParameters.prime_nistP521⟩
  have hload : Curve.load FixedNat 5 = .ok (Curve.ofParameters nistP521) := rfl
  have hloaded : Fact (Curve.ofParameters nistP521 : Curve FixedNat).parameters.p.Prime := hprime
  have hlookup : CurveParameters.lookup? 5 = .ok nistP521 := rfl
  have hP := CurveParameters.generator_onCurve nistP521 (CurveParameters.mem_of_lookup? hlookup)
  have hQ : nistP521.OnCurve ⟨4 * nistP521.gx, 8 * nistP521.gy, 2⟩ := by decide +kernel
  have hP' := CurveParameters.matches_generator (α := FixedNat) nistP521
  have hQ' : (⟨Arithmetic.ofBytes (Bytes.ofNat (4 * nistP521.gx)),
      Arithmetic.ofBytes (Bytes.ofNat (8 * nistP521.gy)), Arithmetic.ofWord 2⟩ :
      Jacobian FixedNat).Matches ⟨4 * nistP521.gx, 8 * nistP521.gy, 2⟩ :=
    ⟨Curve.denotes_number _, Curve.denotes_number _,
      LawfulArithmetic.ofWord 2⟩
  refine ⟨hprime, _, _, hload, hP', hQ', ?_⟩
  exact (Curve.registered_multiples hload hP hP' hQ hQ' (LawfulArithmetic.ofWord 3)
    (LawfulArithmetic.ofWord 5)).2.2

end TrustedPlatform
