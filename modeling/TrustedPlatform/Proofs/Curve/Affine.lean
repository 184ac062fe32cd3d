import TrustedPlatform.Curve.Scalar
import TrustedPlatform.Exchange.Basic
import TrustedPlatform.Proofs.Curve.Registered
import TrustedPlatform.Proofs.Wire.Codec

/-!
# Affine points and their wire form

The normal form of a point of a registered curve is recognized as a point of the curve. It leaves on
the wire, unless the point is infinite, as its two coordinates at the width of the field, and what
left arrives again as the same normal form.
-/

namespace TrustedPlatform

open LawfulArithmetic (Denotes)
open Limbs (count count_mono)

variable {α : Type} [Arithmetic α] [LawfulArithmetic α]

namespace Jacobian.Matches

variable {p : Nat} [Fact p.Prime] {a b : ZMod p} {P : Jacobian α}
  {A : (Weierstrass.short a b).Point}

/-- The normal form of a point stands for it. -/
theorem represents (hp : count p ≤ 64) (h : P.Matches (normalForm A)) : P.Represents a b A := by
  have hval (x : ZMod p) {x' : α} (hx : Denotes x' x.val) : Residue x' x :=
    (Residue.of_denotes hx ((count_mono (ZMod.val_lt x).le).trans hp)).of_eq
      (ZMod.natCast_zmod_val x)
  cases A with
  | zero =>
      have hzero {x' : α} (hx : Denotes x' 0) : Residue x' (0 : ZMod p) :=
        hval 0 (by rwa [ZMod.val_zero])
      exact .infinity (hzero h.x) (hzero h.y) h.z
  | some x y hA =>
      have hone : Residue P.z (1 : ZMod p) :=
        (Residue.of_denotes h.z (by decide : count 1 ≤ 64)).of_eq Nat.cast_one
      have hx : x / 1 ^ 2 = x := by rw [one_pow, div_one]
      have hy : y / 1 ^ 3 = y := by rw [one_pow, div_one]
      have hA' : (Weierstrass.short a b).Nonsingular (x / 1 ^ 2) (y / 1 ^ 3) := by rwa [hx, hy]
      exact .finite (hval x h.x) (hval y h.y) hone
        ⟨one_ne_zero, hA', Weierstrass.some_congr hx.symm hy.symm⟩

/-- The normal form of a point is taken for infinity exactly when the point is infinite. -/
theorem isInfinity_iff (h : P.Matches (normalForm A)) : P.isInfinity = true ↔ A = 0 := by
  rw [isInfinity, LawfulArithmetic.isZero h.z, beq_iff_eq]
  cases A with
  | zero => exact ⟨fun _ => rfl, fun _ => rfl⟩
  | some x y hA => exact ⟨fun h => absurd h one_ne_zero, fun h => by cases h⟩

/-- Normal forms are taken for the same exactly when the points are. -/
theorem eq_iff {Q : Jacobian α} {B : (Weierstrass.short a b).Point}
    (hP : P.Matches (normalForm A)) (hQ : Q.Matches (normalForm B)) :
    P.eq Q = true ↔ A = B := by
  rw [Jacobian.eq, LawfulArithmetic.eq hP.x hQ.x, LawfulArithmetic.eq hP.y hQ.y,
    LawfulArithmetic.eq hP.z hQ.z, ← normalForm_injective.eq_iff, Jacobian.mk.injEq]
  simp only [Bool.and_eq_true, decide_eq_true_eq, and_assoc]

end Jacobian.Matches

namespace Curve.Over

variable {p : Nat} [Fact p.Prime] {a b : ZMod p} {c : Curve α} {P : Jacobian α}
  {A : (Weierstrass.short a b).Point}

/-- Reduced affine coordinates are found on the curve exactly when they satisfy its equation. -/
theorem contains_of_reduced (hc : c.Over a b) (hb : Residue c.b b) {x y : ZMod p}
    (hx : Reduced P.x x) (hy : Reduced P.y y) (hz : Denotes P.z 1) :
    Returns (c.contains P) (· = true ↔ y ^ 2 = x ^ 3 + a * x + b) := by
  have hm := hc.modulus
  have hrx := hx.residue hm
  have hry := hy.residue hm
  have hlt {z : ZMod p} {z' : α} (hz : Reduced z' z) : Arithmetic.lt z' c.p = true := by
    rw [LawfulArithmetic.lt hz.denotes hm.denotes, decide_eq_true (ZMod.val_lt z)]
  rw [contains, Jacobian.isInfinity_of_one hz, if_neg Bool.false_ne_true,
    Jacobian.eqWord_of_one hz, if_pos rfl]
  show Returns (if (!Arithmetic.lt P.x c.p || !Arithmetic.lt P.y c.p) = true then _ else _) _
  rw [hlt hx, hlt hy, if_neg (by decide : ¬(!true || !true) = true)]
  refine (hry.mul hm hry).bind fun lhs hlhs => ?_
  refine (hrx.mul hm hrx).bind fun x2 hx2 => ?_
  refine ((hx2.residue hm).mul hm hrx).bind fun x3 hx3 => ?_
  refine (hc.coefficient.mul hm hrx).bind fun ax hax => ?_
  refine ((hx3.residue hm).add hm (hax.residue hm)).bind fun x3ax hx3ax => ?_
  refine ((hx3ax.residue hm).add hm hb).bind fun rhs hrhs => ?_
  refine .ok ((hlhs.eq_iff hrhs).trans ?_)
  rw [← pow_two, ← pow_two, ← pow_succ]

/-- The normal form of a point is found on the curve. -/
theorem contains_returns (hc : c.Over a b) (hb : Residue c.b b) (h : P.Matches (normalForm A)) :
    Returns (c.contains P) (· = true) := by
  cases A with
  | zero =>
      rw [contains, if_pos (h.isInfinity_iff.mpr rfl)]
      exact .ok rfl
  | some x y hA =>
      refine (hc.contains_of_reduced hb ⟨h.x⟩ ⟨h.y⟩ h.z).mono fun _ hcontained => ?_
      exact hcontained.mpr ((Weierstrass.equation_iff x y).mp hA.1)

end Curve.Over

namespace CurveParameters

/-- The coordinates and the scalars of the described curve fit the wire, and the generator generates
all of its points. -/
structure Portable (d : CurveParameters) : Prop where
  b_lt : d.b < d.p
  p_width : Bytes.widthOf d.p ≤ Wire.maxCoordinateBytes
  n_width : Bytes.widthOf d.n ≤ Wire.maxCoordinateBytes
  cofactor : d.h = 1

/-- Whether a curve fits the wire is decided by evaluating its numbers. -/
instance (d : CurveParameters) : Decidable d.Portable :=
  decidable_of_iff
    (d.b < d.p ∧ Bytes.widthOf d.p ≤ Wire.maxCoordinateBytes ∧
      Bytes.widthOf d.n ≤ Wire.maxCoordinateBytes ∧ d.h = 1)
    ⟨fun ⟨hb, hp, hn, hh⟩ => ⟨hb, hp, hn, hh⟩,
      fun h => ⟨h.b_lt, h.p_width, h.n_width, h.cofactor⟩⟩

/-- Every registered curve fits the wire. -/
theorem portable_of_mem : ∀ d ∈ all, d.Portable := by
  decide +kernel

end CurveParameters

/-! ### Points on the wire -/

/-- What arrives on the wire is taken for a finite point. -/
theorem Jacobian.isInfinity_ofWire (q : Wire.Point) : (ofWire q : Jacobian α).isInfinity = false :=
  isInfinity_of_one (LawfulArithmetic.ofWord 1)

/-- A public point is accepted when it is found on the curve. -/
theorem Curve.validatedPoint_eq (c : Curve α) (q : Wire.Point) :
    c.validatedPoint q = c.contains (.ofWire q) >>= fun contained =>
      if contained then .ok (.ofWire q) else .error .pointNotOnCurve := by
  rw [validatedPoint]
  refine congrArg (c.contains (.ofWire q) >>= ·) (funext fun contained => ?_)
  rw [Jacobian.isInfinity_ofWire]
  cases contained <;> rfl

/-- A public point is accepted when finding it on the curve means so. -/
theorem Curve.validatedPoint_of_contains {c : Curve α} {q : Wire.Point} {accepted : Prop}
    [Decidable accepted] (h : c.contains (.ofWire q) = .ok (decide accepted)) :
    c.validatedPoint q = if accepted then .ok (.ofWire q) else .error .pointNotOnCurve := by
  rw [validatedPoint_eq, h]
  by_cases haccepted : accepted
  · rw [if_pos haccepted, decide_eq_true haccepted]
    rfl
  · rw [if_neg haccepted, decide_eq_false haccepted]
    rfl

/-- A peer's point is accepted when it would be as a public point. -/
theorem Exchange.peerPoint_eq (c : Curve α) (q : Wire.Point) :
    peerPoint c q = c.validatedPoint q := by
  rw [Curve.validatedPoint_eq, peerPoint, Jacobian.isInfinity_ofWire]
  rfl

/-- The wire point holds the coordinates of a triple at a width. -/
structure Wire.Point.Holds (q : Wire.Point) (width : Nat) (P : Jacobian Nat) : Prop where
  x : q.x.bytes = Bytes.ofNatWidth width P.x
  y : q.y.bytes = Bytes.ofNatWidth width P.y

/-- The coordinates held at a width determine the wire point. -/
theorem Wire.Point.Holds.unique {q q' : Wire.Point} {width : Nat} {P : Jacobian Nat}
    (h : q.Holds width P) (h' : q'.Holds width P) : q = q' := by
  obtain ⟨⟨x, hxlen⟩, ⟨y, hylen⟩⟩ := q
  obtain ⟨⟨x', hxlen'⟩, ⟨y', hylen'⟩⟩ := q'
  obtain rfl : x = x' := h.x.trans h'.x.symm
  obtain rfl : y = y' := h.y.trans h'.y.symm
  rfl

namespace CurveParameters

variable {d : CurveParameters} [Fact d.p.Prime] {P : Jacobian α} {A : d.curve.Point}

/-- The coordinates of a normal form fit the width of the field. -/
theorem normalForm_lt (A : d.curve.Point) :
    (normalForm A).x < 256 ^ Bytes.widthOf d.p ∧ (normalForm A).y < 256 ^ Bytes.widthOf d.p := by
  have hp := Bytes.lt_pow_widthOf d.p
  cases A with
  | zero => exact ⟨Nat.pow_pos (by decide), Nat.pow_pos (by decide)⟩
  | some x y hA => exact ⟨(ZMod.val_lt x).trans hp, (ZMod.val_lt y).trans hp⟩

/-- A triple that stands for a finite point leaves as the wire form of its normal form. -/
theorem toWire_returns (hd : d ∈ all) (hA : A ≠ 0)
    (hP : P.Represents (d.a : ZMod d.p) d.b A) :
    Returns ((Curve.ofParameters d : Curve α).toWire P)
      (·.Holds (Bytes.widthOf d.p) (normalForm A)) := by
  have hover := (regular_of_mem d hd).loaded (α := α)
  have hwidth := (portable_of_mem d hd).p_width
  rw [Curve.toWire, hP.isInfinity_eq_false hA, if_neg Bool.false_ne_true]
  refine (hover.normalize_returns hP).bind fun q hq => ?_
  show Returns (Arithmetic.toBytesPadded q.x (Bytes.widthOf d.p) >>= _) _
  rw [LawfulArithmetic.toBytesPadded_eq hq.x (normalForm_lt A).1]
  show Returns (Arithmetic.toBytesPadded q.y (Bytes.widthOf d.p) >>= _) _
  rw [LawfulArithmetic.toBytesPadded_eq hq.y (normalForm_lt A).2]
  have hlen (n : Nat) : (Bytes.ofNatWidth (Bytes.widthOf d.p) n).length ≤
      Wire.maxCoordinateBytes := (Bytes.length_ofNatWidth _ n).trans_le hwidth
  simp only [bind, Except.bind, Wire.Point.ofCoordinates?_eq (hlen _) (hlen _)]
  exact .ok ⟨rfl, rfl⟩

/-- What arrives from the wire form of a finite point is its normal form. -/
theorem matches_ofWire {q : Wire.Point} (hq : q.Holds (Bytes.widthOf d.p) (normalForm A))
    (hA : A ≠ 0) : (Jacobian.ofWire q : Jacobian α).Matches (normalForm A) := by
  have hx := LawfulArithmetic.ofBytes (α := α) q.x.bytes
  have hy := LawfulArithmetic.ofBytes (α := α) q.y.bytes
  rw [hq.x, Bytes.toNat_ofNatWidth_of_lt (normalForm_lt A).1, ← hq.x] at hx
  rw [hq.y, Bytes.toNat_ofNatWidth_of_lt (normalForm_lt A).2, ← hq.y] at hy
  cases A with
  | zero => exact absurd rfl hA
  | some x y h => exact ⟨hx, hy, LawfulArithmetic.ofWord 1⟩

/-- The numbers of a registered curve hold its constant coefficient. -/
theorem residue_b (hd : d ∈ all) :
    Residue (Curve.ofParameters d : Curve α).b (d.b : ZMod d.p) := by
  refine .of_denotes (Curve.denotes_number d.b) ?_
  exact (count_mono (portable_of_mem d hd).b_lt.le).trans
    ((regular_of_mem d hd).loaded (α := α)).modulus.count_le

variable {q : Wire.Point}

/-- The wire form of a finite point is accepted for a public point. -/
theorem validatedPoint_returns (hd : d ∈ all)
    (hq : q.Holds (Bytes.widthOf d.p) (normalForm A)) (hA : A ≠ 0) :
    Returns ((Curve.ofParameters d : Curve α).validatedPoint q) (·.Matches (normalForm A)) := by
  have hover := (regular_of_mem d hd).loaded (α := α)
  have hmatches := matches_ofWire (α := α) hq hA
  rw [Curve.validatedPoint_eq]
  refine (hover.contains_returns (residue_b hd) hmatches).bind fun contained hcontained => ?_
  rw [hcontained]
  exact .ok hmatches

/-- The wire form of a finite point is accepted for a peer's point. -/
theorem peerPoint_returns (hd : d ∈ all)
    (hq : q.Holds (Bytes.widthOf d.p) (normalForm A)) (hA : A ≠ 0) :
    Returns (Exchange.peerPoint (Curve.ofParameters d : Curve α) q)
      (·.Matches (normalForm A)) := by
  rw [Exchange.peerPoint_eq]
  exact validatedPoint_returns hd hq hA

end CurveParameters

end TrustedPlatform
