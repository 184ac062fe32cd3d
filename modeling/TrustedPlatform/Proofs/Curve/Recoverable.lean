import TrustedPlatform.Proofs.Curve.FieldPrime
import TrustedPlatform.Proofs.Curve.Scalar
import TrustedPlatform.Proofs.Random.Ending

/-!
# Points that are safe to compute with

The one inversion of the group law fails, fatally, for a triple whose third coordinate the field
prime divides. It never meets one: what arrives on the wire is accepted only as a reduced affine
point of the curve, and the multiples and sums of such points are such points again. So everything
that is computed from accepted points in exact arithmetic recovers.
-/

namespace TrustedPlatform

open Bytes (toNat)

namespace CurveParameters

/-- The coordinates are reduced and satisfy the equation of the curve. -/
structure Contains (d : CurveParameters) (x y : Nat) : Prop where
  x_lt : x < d.p
  y_lt : y < d.p
  equation : y ^ 2 ≡ x ^ 3 + d.a * x + d.b [MOD d.p]

/-- Whether coordinates are on a curve is decided by evaluating its equation. -/
instance (d : CurveParameters) (x y : Nat) : Decidable (d.Contains x y) :=
  decidable_of_iff (x < d.p ∧ y < d.p ∧ y ^ 2 ≡ x ^ 3 + d.a * x + d.b [MOD d.p])
    ⟨fun ⟨hx, hy, hequation⟩ => ⟨hx, hy, hequation⟩, fun h => ⟨h.x_lt, h.y_lt, h.equation⟩⟩

/-- The triple is the normal form of a point of the curve. -/
def IsNormal (d : CurveParameters) [Fact d.p.Prime] (P : Jacobian Nat) : Prop :=
  ∃ A : d.curve.Point, P.Matches (normalForm A)

/-- The coordinates of every registered generator are on its curve. -/
theorem contains_generator : ∀ d ∈ all, d.Contains d.gx d.gy := by
  decide +kernel

variable {d : CurveParameters}

/-- The loaded field prime. -/
theorem exact_p (d : CurveParameters) : (Curve.ofParameters d : Curve Nat).p = d.p :=
  Curve.denotes_number (α := Nat) d.p

/-- The loaded order. -/
theorem exact_n (d : CurveParameters) : (Curve.ofParameters d : Curve Nat).n = d.n :=
  Curve.denotes_number (α := Nat) d.n

/-- The order of a registered curve is above one. -/
theorem one_lt_n : ∀ d ∈ all, 1 < d.n := by
  decide +kernel

/-- No scalar is reduced by zero. -/
theorem exact_n_ne_zero (hd : d ∈ all) : (Curve.ofParameters d : Curve Nat).n ≠ 0 := by
  rw [exact_n]
  exact Nat.ne_zero_of_lt (one_lt_n d hd)

/-- Affine coordinates are taken for a point of the curve exactly when they are. -/
theorem exact_contains_affine (hp : d.p ≠ 0) (x y : Nat) :
    (Curve.ofParameters d : Curve Nat).contains (.affine x y) = .ok (decide (d.Contains x y)) := by
  have ha : (Curve.ofParameters d : Curve Nat).a = d.a := Curve.denotes_number (α := Nat) d.a
  have hb : (Curve.ofParameters d : Curve Nat).b = d.b := Curve.denotes_number (α := Nat) d.b
  show (if (!Arithmetic.lt x (Curve.ofParameters d).p ||
      !Arithmetic.lt y (Curve.ofParameters d).p) = true then _ else _) = _
  rw [exact_p, ha, hb, LawfulArithmetic.lt rfl rfl, LawfulArithmetic.lt rfl rfl]
  by_cases hreduced : x < d.p ∧ y < d.p
  · have hmul (n k : Nat) : Arithmetic.modMul n k d.p = .ok (n * k % d.p) :=
      Exact.unlessZero_of_ne hp _
    have hadd (n k : Nat) : Arithmetic.modAdd n k d.p = .ok ((n + k) % d.p) := by
      rw [LawfulArithmetic.exact_modAdd, Exact.unlessZero_of_ne hp]
    have hequation : y * y % d.p = ((x * x % d.p * x % d.p + d.a * x % d.p) % d.p + d.b) % d.p ↔
        d.Contains x y := by
      have hiff : d.Contains x y ↔ y ^ 2 ≡ x ^ 3 + d.a * x + d.b [MOD d.p] :=
        ⟨Contains.equation, fun h => ⟨hreduced.1, hreduced.2, h⟩⟩
      rw [hiff, Nat.ModEq, Nat.pow_two, pow_succ, Nat.pow_two]
      simp only [Nat.mod_mul_mod, Nat.mod_add_mod, Nat.add_mod_mod]
    rw [decide_eq_true hreduced.1, decide_eq_true hreduced.2, if_neg (by decide)]
    simp only [Jacobian.affine, hmul, hadd, bind, Except.bind, pure, Except.pure,
      LawfulArithmetic.eq (α := Nat) rfl rfl, hequation]
  · have hoff : ¬d.Contains x y := fun h => hreduced ⟨h.x_lt, h.y_lt⟩
    rw [decide_eq_false hoff, if_pos]
    · rfl
    · rw [Bool.or_eq_true, Bool.not_eq_true', Bool.not_eq_true', decide_eq_false_iff_not,
        decide_eq_false_iff_not]
      exact not_and_or.mp hreduced

section Points

variable [Fact d.p.Prime]

/-- Affine coordinates on the curve satisfy its equation. -/
theorem Contains.satisfies {x y : Nat} (h : d.Contains x y) : d.Satisfies ⟨x, y, 1⟩ := by
  refine ⟨?_, ?_⟩
  · rw [Nat.dvd_one]
    exact Nat.Prime.ne_one Fact.out
  · rw [one_pow, one_pow, mul_one, mul_one]
    exact h.equation

/-- Affine coordinates on the curve make a triple on it. -/
theorem Contains.onCurve (hd : d ∈ all) {x y : Nat} (h : d.Contains x y) :
    d.OnCurve ⟨x, y, 1⟩ := by
  have hp := (regular_of_mem d hd).p_lt
  have hone : 1 < UInt64.size ^ 64 := by decide
  exact ⟨h.x_lt.trans hp, h.y_lt.trans hp, hone,
    .inr ⟨h.satisfies.z_not_dvd, h.satisfies.equation⟩⟩

/-- Affine coordinates on the curve are those of a point. -/
theorem Contains.isNormal (hd : d ∈ all) {x y : Nat} (h : d.Contains x y) :
    d.IsNormal (.affine x y) := by
  have hA : Weierstrass.Represents (d.a : ZMod d.p) d.b (x : ZMod d.p) y ((1 : Nat) : ZMod d.p)
      (d.point ⟨x, y, 1⟩) := by
    rw [Weierstrass.represents_iff, (regular_of_mem d hd).ofPoint_point]
    exact h.satisfies.standsFor_solution
  rw [Nat.cast_one] at hA
  refine ⟨d.point ⟨x, y, 1⟩, ?_⟩
  rw [hA.eq_some]
  have hx : ((x : ZMod d.p) / 1 ^ 2).val = x := by
    rw [one_pow, div_one, ZMod.val_cast_of_lt h.x_lt]
  have hy : ((y : ZMod d.p) / 1 ^ 3).val = y := by
    rw [one_pow, div_one, ZMod.val_cast_of_lt h.y_lt]
  exact ⟨hx.symm, hy.symm, rfl⟩

/-- The generator is a point of the curve. -/
theorem isNormal_generator (hd : d ∈ all) : d.IsNormal (Curve.ofParameters d : Curve Nat).g := by
  have hmatches := matches_generator (α := Nat) d
  obtain ⟨A, hA⟩ := (contains_generator d hd).isNormal hd
  exact ⟨A, Eq.trans hmatches.x hA.x, Eq.trans hmatches.y hA.y, Eq.trans hmatches.z hA.z⟩

variable {P Q : Jacobian Nat}

namespace IsNormal

/-- A normal form stands for its point. -/
theorem represents (hd : d ∈ all) (h : d.IsNormal P) :
    ∃ A : d.curve.Point, P.Represents (d.a : ZMod d.p) d.b A := by
  obtain ⟨A, hA⟩ := h
  exact ⟨A, hA.represents ((regular_of_mem d hd).loaded (α := Nat)).modulus.count_le⟩

/-- A multiple of a point. -/
theorem mul (hd : d ∈ all) (h : d.IsNormal P) (k : Nat) :
    Recovers d.IsNormal ((Curve.ofParameters d).mul k P) := by
  obtain ⟨A, hA⟩ := h.represents hd
  have hmul := (regular_of_mem d hd).loaded.mul_returns (k := k) rfl hA
  exact .of_returns (hmul.mono fun _ hR => ⟨_, hR⟩)

/-- The sum of multiples of two points. -/
theorem mul2 (hd : d ∈ all) (hP : d.IsNormal P) (hQ : d.IsNormal Q) (k l : Nat) :
    Recovers d.IsNormal ((Curve.ofParameters d).mul2 k P l Q) := by
  obtain ⟨A, hA⟩ := hP.represents hd
  obtain ⟨B, hB⟩ := hQ.represents hd
  have hmul := (regular_of_mem d hd).loaded.mul2_returns (u := k) (v := l) rfl rfl hA hB
  exact .of_returns (hmul.mono fun _ hR => ⟨_, hR⟩)

/-- The sum of two points. -/
theorem addNormalized (hd : d ∈ all) (hP : d.IsNormal P) (hQ : d.IsNormal Q) :
    Recovers d.IsNormal ((Curve.ofParameters d).addNormalized P Q) := by
  obtain ⟨A, hA⟩ := hP.represents hd
  obtain ⟨B, hB⟩ := hQ.represents hd
  have hadd := (regular_of_mem d hd).loaded.addNormalized_returns hA hB
  exact .of_returns (hadd.mono fun _ hR => ⟨_, hR⟩)

/-- The check of a point. -/
theorem contains (hd : d ∈ all) (h : d.IsNormal P) :
    Recoverable ((Curve.ofParameters d).contains P) := by
  obtain ⟨A, hA⟩ := h
  have hcontains := (regular_of_mem d hd).loaded.contains_returns (residue_b hd) hA
  exact .of_returns (hcontains.mono fun _ _ => trivial)

/-- The wire form of a point. -/
theorem toWire (hd : d ∈ all) (h : d.IsNormal P) :
    Recoverable ((Curve.ofParameters d).toWire P) := by
  obtain ⟨A, hA⟩ := h.represents hd
  have hnormalize := (regular_of_mem d hd).loaded.normalize_returns hA
  refine .ite (fun _ => .refused rfl) fun _ => ?_
  refine (Recovers.of_returns hnormalize).bind fun q _ => ?_
  refine (Exact.toBytesPadded_recoverable _ _).bind fun x _ => ?_
  refine (Exact.toBytesPadded_recoverable _ _).bind fun y _ => ?_
  split
  · exact .value trivial
  · exact .refused rfl

end IsNormal

end Points

/-! ### Points on the wire -/

/-- The wire point is a point of the curve. -/
abbrev Accepts (d : CurveParameters) (q : Wire.Point) : Prop :=
  d.Contains (toNat q.x.bytes) (toNat q.y.bytes)

/-- The generator on the wire, its coordinates at a width. -/
def wireGenerator (d : CurveParameters) (width : Nat) (h : width ≤ Wire.maxCoordinateBytes) :
    Wire.Point :=
  ⟨⟨Bytes.ofNatWidth width d.gx, (Bytes.length_ofNatWidth width d.gx).trans_le h⟩,
    ⟨Bytes.ofNatWidth width d.gy, (Bytes.length_ofNatWidth width d.gy).trans_le h⟩⟩

/-- The generator on the wire is a point of the curve. -/
theorem accepts_wireGenerator (hd : d ∈ all) {width : Nat} (h : width ≤ Wire.maxCoordinateBytes)
    (hwidth : d.p ≤ 256 ^ width) : d.Accepts (d.wireGenerator width h) := by
  have hg := contains_generator d hd
  have hx : toNat (Bytes.ofNatWidth width d.gx) = d.gx :=
    Bytes.toNat_ofNatWidth_of_lt (hg.x_lt.trans_le hwidth)
  have hy : toNat (Bytes.ofNatWidth width d.gy) = d.gy :=
    Bytes.toNat_ofNatWidth_of_lt (hg.y_lt.trans_le hwidth)
  show d.Contains (toNat (Bytes.ofNatWidth width d.gx)) (toNat (Bytes.ofNatWidth width d.gy))
  rw [hx, hy]
  exact hg

/-- A public point is accepted exactly when it is a point of the curve. -/
theorem exact_validatedPoint (hp : d.p ≠ 0) (q : Wire.Point) :
    (Curve.ofParameters d : Curve Nat).validatedPoint q =
      if d.Accepts q then .ok (.ofWire q) else .error .pointNotOnCurve :=
  Curve.validatedPoint_of_contains (exact_contains_affine hp _ _)

/-- A peer's point is accepted exactly when it is a point of the curve. -/
theorem exact_peerPoint (hp : d.p ≠ 0) (q : Wire.Point) :
    Exchange.peerPoint (Curve.ofParameters d : Curve Nat) q =
      if d.Accepts q then .ok (.ofWire q) else .error .pointNotOnCurve := by
  rw [Exchange.peerPoint_eq, exact_validatedPoint hp]

variable [Fact d.p.Prime] in
/-- What is accepted is a point of the curve, and what is not is refused recoverably. -/
theorem accepted_recovers (hd : d ∈ all) (q : Wire.Point) :
    Recovers d.IsNormal
      (if d.Accepts q then .ok (.ofWire q) else .error .pointNotOnCurve) :=
  .ite (fun h => .value (h.isNormal hd)) fun _ => .refused rfl

variable [Fact d.p.Prime] in
/-- A public point is a point of the curve or is refused recoverably. -/
theorem validatedPoint_recovers (hd : d ∈ all) (q : Wire.Point) :
    Recovers d.IsNormal ((Curve.ofParameters d : Curve Nat).validatedPoint q) := by
  rw [exact_validatedPoint (prime_of_mem d hd).ne_zero]
  exact accepted_recovers hd q

variable [Fact d.p.Prime] in
/-- A point that the caller answers for under SM2 is refused recoverably under the other schemes. -/
theorem answered_recovers (hd : d ∈ all) {scheme : AlgorithmId} {q : Wire.Point}
    (hq : scheme = .sm2 → d.Accepts q) :
    Recovers d.IsNormal
      (answeredFor scheme (if d.Accepts q then .ok (.ofWire q) else .error .pointNotOnCurve)) := by
  split
  · rename_i h
    exact .value (h.isNormal hd)
  · rename_i h
    exact .ite (fun hscheme => absurd (hq hscheme) h) fun _ => .refused rfl

/-! ### Scalars -/

/-- The first coordinate of a point. -/
theorem xBytes_recoverable (d : CurveParameters) (P : Jacobian Nat) :
    Recoverable ((Curve.ofParameters d).xBytes P) :=
  Exact.toBytesPadded_recoverable _ _

variable (d) in
/-- A private scalar out of range is refused recoverably. -/
theorem privateScalar_recoverable (bytes : Bytes) :
    Recoverable ((Curve.ofParameters d : Curve Nat).privateScalar bytes) :=
  .ite (fun _ => .value trivial) fun _ => .refused rfl

variable (d) in
/-- A digest is read as a number. -/
theorem digestToInt_recoverable (digest : Bytes) :
    Recoverable ((Curve.ofParameters d : Curve Nat).digestToInt digest) :=
  .ite (fun _ => .value trivial) fun _ => .value trivial

/-- A scalar is made from drawn bytes. -/
theorem scalarOfBytes_recoverable (hd : d ∈ all) (bytes : Bytes) :
    Recoverable ((Curve.ofParameters d : Curve Nat).scalarOfBytes bytes) := by
  have hn := one_lt_n d hd
  rw [Curve.scalarOfBytes, exact_n]
  refine (Exact.maskBits_recoverable _ _).bind fun masked _ => ?_
  have hbound : Arithmetic.sub d.n (Arithmetic.ofWord 1) = .ok (d.n - 1) :=
    LawfulArithmetic.exact_sub_of_le hn.le
  rw [hbound]
  refine (Exact.reduce_recoverable (Nat.sub_ne_zero_of_lt hn) masked).bind fun reduced _ => ?_
  exact .value trivial

variable (d) in
/-- A scalar leaves on the wire. -/
theorem scalarParameter_recoverable (k : Nat) :
    Recoverable ((Curve.ofParameters d).scalarParameter k) := by
  refine (Exact.toBytesPadded_recoverable _ _).bind fun bytes _ => ?_
  split
  · exact .value trivial
  · exact .refused rfl

variable {σ : Type} [RandomSource σ]

/-- A random scalar fails fatally only with its source. -/
theorem randomScalar_contained (hd : d ∈ all) :
    Contained (fun s : σ => s) True (fun _ => True)
      ((Curve.ofParameters d : Curve Nat).randomScalar : Randomized σ Nat) :=
  (Contained.draw _).bind fun bytes _ => .lift (scalarOfBytes_recoverable hd bytes)

/-- A key pair fails fatally only with its source. -/
theorem keyPair_contained [Fact d.p.Prime] (hd : d ∈ all) :
    Contained (fun s : σ => s) True (fun pair => d.IsNormal pair.2)
      ((Curve.ofParameters d : Curve Nat).keyPair : Randomized σ (Nat × Jacobian Nat)) := by
  refine (randomScalar_contained hd).bind fun k _ => ?_
  refine (Contained.lift ((isNormal_generator hd).mul hd k)).bind fun q hq => ?_
  exact .pure hq

end CurveParameters

end TrustedPlatform
