import TrustedPlatform.Proofs.Curve.Recoverable

/-!
# The check of points

A point that arrives on the wire is accepted exactly when its coordinates, whatever zeros they begin
with, are below the field prime and satisfy the equation of the curve. Both checks decide so, and
every triple of coordinates that a finite point has, scaled by any third coordinate, is found on the
curve and leaves on the wire as the same bytes. Conversely, what is found on the curve is on it. The
main theorem is `Curve.point_validation`.
-/

namespace TrustedPlatform

open Bytes (toNat)
open LawfulArithmetic (Denotes)
open Limbs (count count_mono count_le_of_lt_two_pow)

variable {α : Type} [Arithmetic α] [LawfulArithmetic α]

/-! ### Triples that are not affine -/

namespace Curve

/-- A finite triple that is not affine is on the curve when its normalization is. -/
theorem contains_of_normalize {c : Curve α} {P Q : Jacobian α} (hP : P.isInfinity = false)
    (hz : Arithmetic.eqWord P.z 1 = false) (hnormalize : c.normalize P = .ok Q)
    (hQ : Denotes Q.z 1) : c.contains P = c.contains Q := by
  rw [contains, contains, hP, hz, hnormalize, Jacobian.isInfinity_of_one hQ,
    Jacobian.eqWord_of_one hQ]
  rfl

variable {p : Nat} [Fact p.Prime] {a b : ZMod p} {c : Curve α} {P : Jacobian α}
  {A : (Weierstrass.short a b).Point} {room : Prop}

/-- A triple that stands for a finite point is found on the curve, if it is reduced where it is
affine. -/
theorem Over.contains_of_represents (hc : c.Over a b) (hb : Residue c.b b) (hA : A ≠ 0)
    (hP : P.Represents a b A)
    (haffine : Arithmetic.eqWord P.z 1 = true → P.Matches (normalForm A)) :
    Returns (c.contains P) (· = true) := by
  by_cases hz : Arithmetic.eqWord P.z 1 = true
  · exact hc.contains_returns hb (haffine hz)
  · obtain ⟨Q, hnormalize, hQ⟩ := hc.normalize_returns hP
    have hQz : Denotes Q.z 1 := by
      cases A with
      | zero => exact absurd rfl hA
      | some x y h => exact hQ.z
    rw [contains_of_normalize (hP.isInfinity_eq_false hA) (Bool.eq_false_of_not_eq_true hz) hnormalize
      hQz]
    exact hc.contains_returns hb hQ

/-- A triple whose third coordinate the prime divides cannot be normalized. -/
theorem Over.normalize_of_zero (hc : c.Over a b) (hfinite : P.isInfinity = false)
    (hz : Arithmetic.eqWord P.z 1 = false) (hzero : ResidueWithin room P.z (0 : ZMod p)) :
    ∀ Q, c.normalize P ≠ .ok Q := by
  intro Q hnormalize
  rw [normalize, hfinite, hz, if_neg Bool.false_ne_true, if_neg Bool.false_ne_true] at hnormalize
  obtain ⟨o, hinverse, hnormalize⟩ := exists_of_bind_eq_ok hnormalize
  obtain rfl : o = none := (hinverse ▸ hzero.inverse_zero hc.modulus).of_ok
  cases hnormalize

/-- A finite triple of any size that is not affine stands for a solution when it is found on the
curve. -/
theorem Over.equation_of_contains (hc : c.Over a b) (hb : Residue c.b b) {x y z : ZMod p}
    (hx : ResidueWithin room P.x x) (hy : ResidueWithin room P.y y)
    (hz : ResidueWithin room P.z z) (hfinite : P.isInfinity = false)
    (hz1 : Arithmetic.eqWord P.z 1 = false) (h : c.contains P = .ok true) :
    z ≠ 0 ∧ (Weierstrass.short a b).Equation (x / z ^ 2) (y / z ^ 3) := by
  obtain ⟨Q, hnormalize⟩ : ∃ Q, c.normalize P = .ok Q := by
    rw [contains, hfinite, hz1, if_neg Bool.false_ne_true, if_neg Bool.false_ne_true] at h
    obtain ⟨Q, hnormalize, -⟩ := exists_of_bind_eq_ok h
    exact ⟨Q, hnormalize⟩
  have hne : z ≠ 0 := by
    rintro rfl
    exact hc.normalize_of_zero hfinite hz1 hz Q hnormalize
  obtain ⟨hQx, hQy, hQz⟩ := (hnormalize ▸ hc.normalize_delivers hx hy hz hne).of_ok
  rw [contains_of_normalize hfinite hz1 hnormalize hQz] at h
  obtain ⟨contained, hcontains, hequation⟩ := hc.contains_of_reduced hb hQx hQy hQz
  obtain rfl : true = contained := Except.ok.inj (h.symm.trans hcontains)
  exact ⟨hne, (Weierstrass.equation_iff _ _).mpr (hequation.mp rfl)⟩

end Curve

/-! ### Scaled coordinates -/

namespace CurveParameters

/-- The triple has the affine coordinates `x` and `y`, multiplied by the square and the cube of its
third coordinate; each product may be reduced or not. -/
structure Scales (d : CurveParameters) (x y : Nat) (P : Jacobian Nat) : Prop where
  z_pos : 0 < P.z
  z_lt : P.z < d.p
  x_eq : P.x = x * P.z ^ 2 ∨ P.x = x * P.z ^ 2 % d.p
  y_eq : P.y = y * P.z ^ 3 ∨ P.y = y * P.z ^ 3 % d.p

/-- Whether a triple has given coordinates is decided by multiplying them. -/
instance (d : CurveParameters) (x y : Nat) (P : Jacobian Nat) : Decidable (d.Scales x y P) :=
  decidable_of_iff
    (0 < P.z ∧ P.z < d.p ∧ (P.x = x * P.z ^ 2 ∨ P.x = x * P.z ^ 2 % d.p) ∧
      (P.y = y * P.z ^ 3 ∨ P.y = y * P.z ^ 3 % d.p))
    ⟨fun ⟨hpos, hlt, hx, hy⟩ => ⟨hpos, hlt, hx, hy⟩, fun h => ⟨h.z_pos, h.z_lt, h.x_eq, h.y_eq⟩⟩

variable {d : CurveParameters} {x y : Nat} {P : Jacobian α} {P' : Jacobian Nat}

/-- Affine coordinates are scaled by one. -/
theorem scales_affine (hd : d ∈ all) (x y : Nat) : d.Scales x y ⟨x, y, 1⟩ := by
  refine ⟨Nat.one_pos, (prime_of_mem d hd).one_lt, .inl ?_, .inl ?_⟩
  · rw [one_pow, mul_one]
  · rw [one_pow, mul_one]

/-- A product of at most four reduced numbers, reduced or not, stands for its class. -/
theorem residue_of_scaled (hd : d ∈ all) {n z k m : Nat} {v : α} (hn : n < d.p) (hz : z < d.p)
    (hk : k ≤ 3) (hv : Denotes v m) (hm : m = n * z ^ k ∨ m = n * z ^ k % d.p) :
    Residue v ((n * z ^ k : Nat) : ZMod d.p) := by
  have hp : d.p < 2 ^ 528 := by
    rw [← Nat.size_le]
    exact size_number_le hd (List.mem_cons_self ..)
  have hproduct : n * z ^ k < 2 ^ (528 * 4) := by
    calc n * z ^ k ≤ n * d.p ^ 3 := Nat.mul_le_mul_left _
          ((Nat.pow_le_pow_left hz.le k).trans (Nat.pow_le_pow_right (Nat.zero_lt_of_lt hz) hk))
      _ < d.p * d.p ^ 3 := Nat.mul_lt_mul_of_pos_right hn (Nat.pow_pos (Nat.zero_lt_of_lt hz))
      _ = d.p ^ 4 := (pow_succ' d.p 3).symm
      _ < (2 ^ 528) ^ 4 := Nat.pow_lt_pow_left hp (by decide)
      _ = 2 ^ (528 * 4) := (pow_mul 2 528 4).symm
  have hclass : (m : ZMod d.p) = ((n * z ^ k : Nat) : ZMod d.p) := by
    rcases hm with rfl | rfl
    · rfl
    · exact ZMod.natCast_mod _ _
  have hle : m ≤ n * z ^ k := by
    rcases hm with rfl | rfl
    · exact le_rfl
    · exact Nat.mod_le _ _
  have hcount : count m ≤ 64 :=
    (count_le_of_lt_two_pow (hle.trans_lt hproduct)).trans (by decide)
  exact (Residue.of_denotes hv hcount).of_eq hclass

/-- A triple that is affine already has the coordinates themselves. -/
theorem Scales.eq_of_affine (h : d.Contains x y) (hP : d.Scales x y P') (hz : P'.z = 1) :
    P' = ⟨x, y, 1⟩ := by
  obtain ⟨X, Y, Z⟩ := P'
  obtain rfl : Z = 1 := hz
  obtain ⟨-, -, hx, hy⟩ := hP
  simp only [one_pow, mul_one, Nat.mod_eq_of_lt h.x_lt, Nat.mod_eq_of_lt h.y_lt, or_self] at hx hy
  rw [hx, hy]

variable [Fact d.p.Prime]

/-- A scaled point stands for the point with the affine coordinates. -/
theorem Scales.represents (hd : d ∈ all) (h : d.Contains x y) (hP' : d.Scales x y P')
    (hP : P.Matches P') :
    ∃ A : d.curve.Point, A ≠ 0 ∧ normalForm A = ⟨x, y, 1⟩ ∧
      P.Represents (d.a : ZMod d.p) d.b A := by
  obtain ⟨A, hx, hy, hz⟩ := h.isNormal hd
  cases A with
  | zero => cases hz
  | some u v hA =>
      obtain rfl : x = u.val := hx
      obtain rfl : y = v.val := hy
      have hne : (P'.z : ZMod d.p) ≠ 0 := by
        rw [Ne, ZMod.natCast_eq_zero_iff]
        exact Nat.not_dvd_of_pos_of_lt hP'.z_pos hP'.z_lt
      have hX := residue_of_scaled hd h.x_lt hP'.z_lt (by decide) hP.x hP'.x_eq
      have hY := residue_of_scaled hd h.y_lt hP'.z_lt (by decide) hP.y hP'.y_eq
      refine ⟨.some u v hA, WeierstrassCurve.Affine.Point.some_ne_zero hA, rfl, ?_⟩
      push_cast at hX hY
      rw [ZMod.natCast_zmod_val] at hX hY
      have hZ : Residue P.z (P'.z : ZMod d.p) := .of_denotes hP.z
        ((count_mono hP'.z_lt.le).trans ((regular_of_mem d hd).loaded (α := α)).modulus.count_le)
      have hu : u * P'.z ^ 2 / P'.z ^ 2 = u := mul_div_cancel_right₀ u (pow_ne_zero 2 hne)
      have hv : v * P'.z ^ 3 / P'.z ^ 3 = v := mul_div_cancel_right₀ v (pow_ne_zero 3 hne)
      exact .finite hX hY hZ ⟨hne, by rwa [hu, hv], Weierstrass.some_congr hu.symm hv.symm⟩

/-- A scaled point is found on the curve. -/
theorem Scales.contains (hd : d ∈ all) (h : d.Contains x y) (hP' : d.Scales x y P')
    (hP : P.Matches P') : (Curve.ofParameters d : Curve α).contains P = .ok true := by
  obtain ⟨A, hA, hform, hrepresents⟩ := hP'.represents hd h hP
  have hover := (regular_of_mem d hd).loaded (α := α)
  have haffine (hz : Arithmetic.eqWord P.z 1 = true) : P.Matches (normalForm A) := by
    have hone : P'.z = 1 := by
      rw [LawfulArithmetic.eqWord hP.z, Arithmetic.eqWord, beq_iff_eq] at hz
      exact Nat.compare_eq_eq.mp hz
    rw [hform, ← hP'.eq_of_affine h hone]
    exact hP
  obtain ⟨contained, hcontains, rfl⟩ :=
    hover.contains_of_represents (residue_b hd) hA hrepresents haffine
  exact hcontains

/-- A scaled point leaves on the wire as its affine coordinates. -/
theorem Scales.toWire (hd : d ∈ all) (h : d.Contains x y) (hP' : d.Scales x y P')
    (hP : P.Matches P') :
    Returns ((Curve.ofParameters d : Curve α).toWire P) (·.Holds (Bytes.widthOf d.p) ⟨x, y, 1⟩) := by
  obtain ⟨A, hA, hform, hrepresents⟩ := hP'.represents hd h hP
  rw [← hform]
  exact toWire_returns hd hA hrepresents

omit [Fact d.p.Prime] in
/-- Affine coordinates of any size are found on the curve exactly when they are those of a point. -/
theorem contains_affine (hd : d ∈ all) {u v : α} (hu : Denotes u x) (hv : Denotes v y) :
    (Curve.ofParameters d : Curve α).contains (.affine u v) = .ok (decide (d.Contains x y)) := by
  have hrefines := (smallCurve (α := α) hd).contains_affine hu hv
  rw [exact_contains_affine (prime_of_mem d hd).ne_zero] at hrefines
  obtain ⟨contained, hcontains, rfl, -⟩ := hrefines.returns trivial
  exact hcontains

/-- A finite triple of numbers of any size that is found on the curve is on it. -/
theorem satisfies_of_contains (hd : d ∈ all) (hP : P.Matches P') (hfinite : P.isInfinity = false)
    (h : (Curve.ofParameters d : Curve α).contains P = .ok true) : d.Satisfies P' := by
  have hover := (regular_of_mem d hd).loaded (α := α)
  by_cases hone : P'.z = 1
  · -- an affine triple is not reduced before it is checked
    have haffine : Arithmetic.eqWord P'.z 1 = true := by rw [hone]; rfl
    have hrefines := (smallCurve (α := α) hd).contains_of hP fun hz =>
      absurd (haffine.symm.trans hz) (by decide)
    obtain ⟨X, Y, Z⟩ := P'
    obtain rfl : Z = 1 := hone
    have hexact : (Curve.ofParameters d : Curve Nat).contains ⟨X, Y, 1⟩ = _ :=
      exact_contains_affine (prime_of_mem d hd).ne_zero X Y
    rw [h, hexact] at hrefines
    obtain ⟨contained, htrue, heq⟩ := hrefines.returns trivial
    cases htrue
    exact (of_decide_eq_true heq.symm).satisfies
  · have hz1 : Arithmetic.eqWord P.z 1 = false := by
      rw [LawfulArithmetic.eqWord hP.z, Arithmetic.eqWord, beq_eq_false_iff_ne]
      exact mt Nat.compare_eq_eq.mp hone
    exact satisfies_iff.mpr (hover.equation_of_contains (residue_b hd) (.of_any hP.x) (.of_any hP.y)
      (.of_any hP.z) hfinite hz1 h)

end CurveParameters

/-! ### The check -/

open CurveParameters in
/-- On a registered curve, the two checks of a point from the wire give the same answer and accept
it exactly when its coordinates are reduced and satisfy the equation; it then leaves as the same
coordinates at the width of the field. Every triple that a finite point of the curve has is found on
the curve and leaves as the same bytes. -/
theorem Curve.point_validation {id : CurveId} {c : Curve α} (hc : Curve.load α id = .ok c) :
    (∀ q : Wire.Point,
      c.validatedPoint q = Exchange.peerPoint c q ∧
      c.validatedPoint q =
        (if c.parameters.Accepts q then .ok (.ofWire q) else .error .pointNotOnCurve) ∧
      (c.parameters.Accepts q →
        Returns (c.toWire (.ofWire q))
          (·.Holds c.fieldBytes ⟨toNat q.x.bytes, toNat q.y.bytes, 1⟩))) ∧
    ∀ x y, c.parameters.Contains x y →
      ∃ encoded : Wire.Point, encoded.Holds c.fieldBytes ⟨x, y, 1⟩ ∧
        ∀ (P : Jacobian α) (P' : Jacobian Nat), P.Matches P' → c.parameters.Scales x y P' →
          c.contains P = .ok true ∧ c.toWire P = .ok encoded := by
  obtain ⟨d, hd, rfl⟩ := Curve.exists_of_load hc
  have hprime : Fact d.p.Prime := ⟨prime_of_mem d hd⟩
  show (∀ q : Wire.Point, _ ∧ _ = (if d.Accepts q then _ else _) ∧ (d.Accepts q → _)) ∧ _
  refine ⟨fun q => ⟨(Exchange.peerPoint_eq _ q).symm, ?_, fun h => ?_⟩, fun x y h => ?_⟩
  · exact validatedPoint_of_contains (contains_affine hd (LawfulArithmetic.ofBytes _) (LawfulArithmetic.ofBytes _))
  · have hx := LawfulArithmetic.ofBytes (α := α) q.x.bytes
    have hy := LawfulArithmetic.ofBytes (α := α) q.y.bytes
    exact (scales_affine hd _ _).toWire hd h ⟨hx, hy, LawfulArithmetic.ofWord 1⟩
  · have hx : Denotes (Arithmetic.ofBytes (Bytes.ofNat x) : α) x := Curve.denotes_number x
    have hy : Denotes (Arithmetic.ofBytes (Bytes.ofNat y) : α) y := Curve.denotes_number y
    obtain ⟨encoded, -, hencoded⟩ := (scales_affine hd x y).toWire (α := α) (P := .affine _ _) hd h
      ⟨hx, hy, LawfulArithmetic.ofWord 1⟩
    refine ⟨encoded, hencoded, fun P P' hP hP' => ⟨hP'.contains hd h hP, ?_⟩⟩
    obtain ⟨encoded', hrun, hencoded'⟩ := hP'.toWire hd h hP
    rw [hrun, hencoded'.unique hencoded]

open CurveParameters (nistP256) in
/-- The generator of the 256-bit curve, accepted with leading zeros and found on the curve with a
third coordinate of two, reduced or not. -/
theorem Curve.point_validation_generator :
    ∃ c : Curve FixedNat, Curve.load FixedNat 3 = .ok c ∧ c.parameters = nistP256 ∧
      Returns (c.validatedPoint (nistP256.wireGenerator 66 (by decide)))
        (· = .ofWire (nistP256.wireGenerator 66 (by decide))) ∧
      ∃ encoded : Wire.Point, encoded.Holds 32 ⟨nistP256.gx, nistP256.gy, 1⟩ ∧
        ∀ P : Jacobian FixedNat,
          P.Matches ⟨nistP256.gx * 2 ^ 2, nistP256.gy * 2 ^ 3 % nistP256.p, 2⟩ →
          c.contains P = .ok true ∧ c.toWire P = .ok encoded := by
  have hload : Curve.load FixedNat 3 = .ok (Curve.ofParameters nistP256) := rfl
  have hd : nistP256 ∈ CurveParameters.all := 
    CurveParameters.mem_of_lookup? (show CurveParameters.lookup? 3 = .ok nistP256 from rfl)
  obtain ⟨haccept, hscaled⟩ := Curve.point_validation hload
  refine ⟨_, hload, rfl, ⟨_, ?_, rfl⟩, ?_⟩
  · rw [(haccept _).2.1]
    exact if_pos (CurveParameters.accepts_wireGenerator hd (by decide) (by decide +kernel))
  · obtain ⟨encoded, hencoded, hsame⟩ := hscaled _ _ (CurveParameters.contains_generator nistP256 hd)
    exact ⟨encoded, hencoded, fun P hP => hsame P _ hP (by decide +kernel)⟩

end TrustedPlatform
