import TrustedPlatform.Proofs.Curve.Order

/-!
# Scalars of a registered curve

Private and drawn scalars are numbers from one up to the order, a digest is read as the number of
its leftmost bits, and a scalar leaves on the wire at the width of the order. All of them have few
enough limbs that their residues modulo the order are computed without loss.
-/

namespace TrustedPlatform

open LawfulArithmetic (Denotes)
open Limbs (count count_mono count_le_iff)

variable {α : Type} [Arithmetic α] [LawfulArithmetic α]

namespace CurveParameters

variable {d : CurveParameters}

/-- The order of a registered curve has at most 528 bits. -/
theorem size_order_le (hd : d ∈ all) : d.n.size ≤ 528 :=
  size_number_le hd (by simp)

/-- The order of a registered curve, loaded, is a modulus. -/
theorem order_modulus (hd : d ∈ all) : Modulus (Curve.ofParameters d : Curve α).n d.n := by
  refine ⟨Curve.denotes_number d.n, (Limbs.count_le_of_lt_two_pow (Nat.lt_size_self d.n)).trans ?_⟩
  have := size_order_le hd
  omega

/-- The cofactor of a registered curve, loaded, is one. -/
theorem denotes_cofactor (hd : d ∈ all) : Denotes (Curve.ofParameters d : Curve α).h 1 :=
  (portable_of_mem d hd).cofactor ▸ Curve.denotes_number d.h

/-- The bits of the order are counted when the curve is loaded. -/
theorem orderBits_eq (d : CurveParameters) :
    (Curve.ofParameters d : Curve α).orderBits = d.n.size :=
  LawfulArithmetic.bitLength (Curve.denotes_number d.n)

/-- A scalar leaves on the wire in as many bytes as the order needs. -/
theorem orderBytes_eq (d : CurveParameters) :
    (Curve.ofParameters d : Curve α).orderBytes = Bytes.widthOf d.n := by
  rw [Curve.orderBytes, orderBits_eq, Bytes.widthOf_eq]

/-- A number in range is not in the zero class. -/
theorem natCast_ne_zero {m : Nat} (hpos : 0 < m) (hlt : m < d.n) : (m : ZMod d.n) ≠ 0 := by
  rw [Ne, ZMod.natCast_eq_zero_iff]
  exact Nat.not_dvd_of_pos_of_lt hpos hlt

/-- The scalars in range are the numbers from one up to the order. -/
theorem inScalarRange_iff {x : α} {m : Nat} (hx : Denotes x m) :
    (Curve.ofParameters d : Curve α).inScalarRange x = true ↔ 0 < m ∧ m < d.n := by
  have hn : Denotes (Curve.ofParameters d : Curve α).n d.n := Curve.denotes_number d.n
  rw [Curve.inScalarRange, LawfulArithmetic.isZero hx, LawfulArithmetic.lt hx hn,
    Bool.and_eq_true, Bool.not_eq_true', beq_eq_false_iff_ne, decide_eq_true_eq,
    Nat.pos_iff_ne_zero]

/-- The reduced number of a residue other than zero is in range. -/
theorem inScalarRange_of_ne_zero [NeZero d.n] {x : α} {ξ : ZMod d.n} (hx : Reduced x ξ)
    (hξ : ξ ≠ 0) : (Curve.ofParameters d : Curve α).inScalarRange x = true :=
  (inScalarRange_iff hx.denotes).mpr ⟨ZMod.val_pos.mpr hξ, ZMod.val_lt ξ⟩

/-- A private scalar is accepted exactly when its number is in range. -/
theorem privateScalar_eq_ok_iff {bytes : Bytes} {x : α} :
    (Curve.ofParameters d : Curve α).privateScalar bytes = .ok x ↔
      x = Arithmetic.ofBytes bytes ∧ 0 < Bytes.toNat bytes ∧ Bytes.toNat bytes < d.n := by
  have hrange := inScalarRange_iff (d := d) (LawfulArithmetic.ofBytes (α := α) bytes)
  rw [Curve.privateScalar, ← hrange]
  split
  · rename_i h
    simp only [Except.ok.injEq, h, and_true]
    exact eq_comm
  · rename_i h
    exact ⟨fun hx => (by cases hx), fun hx => absurd hx.2 h⟩

/-- A private scalar in range is accepted. -/
theorem privateScalar_returns {bytes : Bytes} (hpos : 0 < Bytes.toNat bytes)
    (hlt : Bytes.toNat bytes < d.n) :
    Returns ((Curve.ofParameters d : Curve α).privateScalar bytes)
      (Reduced · (Bytes.toNat bytes : ZMod d.n)) :=
  ⟨_, privateScalar_eq_ok_iff.mpr ⟨rfl, hpos, hlt⟩, .of_lt (LawfulArithmetic.ofBytes bytes) hlt⟩

/-- The number that the leftmost bits of a digest denote, at most as many as the order has. -/
def digestNumber (d : CurveParameters) (digest : Bytes) : Nat :=
  Bytes.toNat digest >>> (8 * digest.length - d.n.size)

/-- A digest of any length is read as the number of its leftmost bits. -/
theorem digestToInt_returns (hd : d ∈ all) (digest : Bytes) :
    Returns ((Curve.ofParameters d : Curve α).digestToInt digest)
      (Residue · (d.digestNumber digest : ZMod d.n)) := by
  have hsize := size_order_le hd
  have hdigest := LawfulArithmetic.ofBytes (α := α) digest
  have hcount := Limbs.count_toNat_le digest
  rw [Curve.digestToInt, orderBits_eq]
  split
  · rename_i hlong
    have hright : Refines _ _ (Arithmetic.shiftRight (Arithmetic.ofBytes digest : α) _)
        (.ok (d.digestNumber digest)) :=
      LawfulArithmetic.shiftRight hdigest (8 * digest.length - d.n.size)
    have hshort := LawfulArithmetic.count_shiftRight (Bytes.toNat digest)
      (8 * digest.length - d.n.size)
    have hscratch : FixedNat.scratchLimbs = 130 := rfl
    refine (hright.returns (by omega)).mono fun e he => .of_denotes he ?_
    rcases hshort with hzero | hshort
    · rw [digestNumber, hzero]
      decide
    · rw [digestNumber]
      omega
  · rename_i hshort
    have hnumber : d.digestNumber digest = Bytes.toNat digest := by
      rw [digestNumber, Nat.sub_eq_zero_of_le (by omega), Nat.shiftRight_zero]
    rw [hnumber]
    exact .ok (.of_denotes hdigest (by omega))

/-- The number that drawn bytes are made into: their low bits, sixty-four more than the order has,
reduced modulo one less than the order and raised by one. -/
def scalarNumber (d : CurveParameters) (bytes : Bytes) : Nat :=
  Bytes.toNat bytes % 2 ^ (d.n.size + 64) % (d.n - 1) + 1

/-- The number that drawn bytes are made into lies in range. -/
theorem scalarNumber_lt (hn : 1 < d.n) (bytes : Bytes) : d.scalarNumber bytes < d.n :=
  Nat.add_lt_of_lt_sub (Nat.mod_lt _ (Nat.sub_pos_of_lt hn))

/-- The scalar made from drawn bytes is computed without loss. -/
theorem scalarOfBytes_denotes (hd : d ∈ all) (hn : 1 < d.n) {bytes : Bytes}
    (hlen : bytes.length = (d.n.size + 64 + 7) / 8) :
    Returns ((Curve.ofParameters d : Curve α).scalarOfBytes bytes)
      (Denotes · (d.scalarNumber bytes)) := by
  have hsize := size_order_le hd
  have horder := order_modulus (α := α) hd
  have hcount := Limbs.count_toNat_le bytes
  have hbound : count (d.n - 1) ≤ 64 := (count_mono (Nat.sub_le _ _)).trans horder.count_le
  rw [Curve.scalarOfBytes, orderBits_eq]
  refine (LawfulArithmetic.maskBits_returns (LawfulArithmetic.ofBytes bytes) (by omega)
    _).bind fun masked hmasked => ?_
  rw [scalarNumber]
  generalize hm : Bytes.toNat bytes % _ = m at hmasked ⊢
  have hmcount : count m ≤ 64 := (count_mono (hm ▸ Nat.mod_le _ _)).trans (by omega)
  refine (LawfulArithmetic.sub_returns horder.denotes (LawfulArithmetic.ofWord 1) horder.count_le
    hn.le).bind fun bound hbound' => ?_
  refine (LawfulArithmetic.reduce_returns hmasked hbound' hmcount hbound
    (Nat.sub_ne_zero_of_lt hn)).bind fun reduced hreduced => ?_
  have hmod : m % (d.n - 1) < d.n - 1 := Nat.mod_lt _ (Nat.sub_pos_of_lt hn)
  exact LawfulArithmetic.add_returns hreduced (LawfulArithmetic.ofWord 1)
    ((count_mono hmod.le).trans hbound) (by decide)

/-- The scalar made from drawn bytes lies in range. -/
theorem scalarOfBytes_returns (hd : d ∈ all) (hn : 1 < d.n) {bytes : Bytes}
    (hlen : bytes.length = (d.n.size + 64 + 7) / 8) :
    Returns ((Curve.ofParameters d : Curve α).scalarOfBytes bytes) fun k =>
      ∃ m, Denotes k m ∧ 0 < m ∧ m < d.n :=
  (scalarOfBytes_denotes hd hn hlen).mono fun _ hk =>
    ⟨_, hk, Nat.succ_pos _, scalarNumber_lt hn bytes⟩

/-- A drawn scalar lies in range. -/
theorem randomScalar_yields {σ : Type} [RandomSource σ] (hd : d ∈ all) (hn : 1 < d.n) :
    ((Curve.ofParameters d : Curve α).randomScalar : Randomized σ α).Yields fun k =>
      ∃ m, Denotes k m ∧ 0 < m ∧ m < d.n := by
  refine (Randomized.Yields.draw _).bind fun bytes hlen => ?_
  rw [orderBits_eq] at hlen
  exact .returns (scalarOfBytes_returns hd hn hlen)

/-- A scalar below the order leaves on the wire at the width of the order. -/
theorem scalarParameter_returns (hd : d ∈ all) {x : α} {m : Nat} (hx : Denotes x m)
    (hm : m < d.n) :
    Returns ((Curve.ofParameters d : Curve α).scalarParameter x)
      (·.bytes = Bytes.ofNatWidth (Bytes.widthOf d.n) m) := by
  have hlen : (Bytes.ofNatWidth (Bytes.widthOf d.n) m).length ≤ Wire.maxCoordinateBytes :=
    (Bytes.length_ofNatWidth _ m).trans_le (portable_of_mem d hd).n_width
  rw [Curve.scalarParameter, orderBytes_eq,
    LawfulArithmetic.toBytesPadded_eq hx (hm.trans (Bytes.lt_pow_widthOf d.n))]
  simp only [bind, Except.bind, Wire.Buffer.ofBytes?_eq hlen]
  exact .ok rfl

/-- A scalar that left on the wire arrives again. -/
theorem denotes_parameter {parameter : Wire.Parameter} {m : Nat}
    (h : parameter.bytes = Bytes.ofNatWidth (Bytes.widthOf d.n) m) (hm : m < d.n) :
    Denotes (Arithmetic.ofBytes parameter.bytes : α) m := by
  have hbytes := LawfulArithmetic.ofBytes (α := α) parameter.bytes
  rwa [h, Bytes.toNat_ofNatWidth_of_lt (hm.trans (Bytes.lt_pow_widthOf d.n)), ← h] at hbytes

/-- A reduced scalar leaves on the wire at the width of the order, and arrives as the same one. -/
theorem scalarParameter_reduced [NeZero d.n] (hd : d ∈ all) {x : α} {ξ : ZMod d.n}
    (hx : Reduced x ξ) :
    Returns ((Curve.ofParameters d : Curve α).scalarParameter x) fun parameter =>
      parameter.bytes.length = Bytes.widthOf d.n ∧
        Reduced (Arithmetic.ofBytes parameter.bytes : α) ξ := by
  refine (scalarParameter_returns hd hx.denotes (ZMod.val_lt ξ)).mono fun parameter h => ?_
  exact ⟨by rw [h, Bytes.length_ofNatWidth], ⟨denotes_parameter h (ZMod.val_lt ξ)⟩⟩

section Abscissa

variable [Fact d.p.Prime]

/-- The first coordinate of a point, as a residue modulo the order. -/
noncomputable def abscissa (A : d.curve.Point) : ZMod d.n :=
  (normalForm A).x

/-- The first coordinate of a normal form has at most 64 limbs. -/
theorem count_normalForm_le (hd : d ∈ all) (A : d.curve.Point) : count (normalForm A).x ≤ 64 := by
  have hlt := (normalForm_lt A).1
  have hwidth : Bytes.widthOf d.p ≤ 66 := (portable_of_mem d hd).p_width
  rw [show 256 = 2 ^ 8 from rfl, ← Nat.pow_mul] at hlt
  have hcount := Limbs.count_le_of_lt_two_pow hlt
  omega

/-- The first coordinate of a normal form stands for the abscissa of the point. -/
theorem residue_abscissa (hd : d ∈ all) {P : Jacobian α} {A : d.curve.Point}
    (hP : P.Matches (normalForm A)) : Residue P.x (abscissa A) :=
  .of_denotes hP.x (count_normalForm_le hd A)

/-- The first coordinate of a normal form is written at the width of the field. -/
theorem xBytes_eq {P : Jacobian α} {A : d.curve.Point} (hP : P.Matches (normalForm A)) :
    (Curve.ofParameters d : Curve α).xBytes P
      = .ok (Bytes.ofNatWidth (Bytes.widthOf d.p) (normalForm A).x) :=
  LawfulArithmetic.toBytesPadded_eq hP.x (normalForm_lt A).1

end Abscissa

/-! ### Operations on multiples of the generator -/

namespace Generated

variable [Fact d.p.Prime] (h : d.Generated) {P Q : Jacobian α} {s t : ZMod d.n}

/-- The normal form of a multiple stands for it. -/
theorem represents_multiple (hP : P.Matches (normalForm (h.multiple s))) :
    P.Represents (d.a : ZMod d.p) d.b (h.multiple s) :=
  hP.represents ((regular_of_mem d h.mem).loaded (α := α)).modulus.count_le

/-- The multiple by a residue is infinite only for the zero residue. -/
theorem isInfinity_iff [Fact d.n.Prime] (hP : P.Matches (normalForm (h.multiple s))) :
    P.isInfinity = true ↔ s = 0 :=
  hP.isInfinity_iff.trans h.multiple_eq_zero_iff

/-- A multiple of a multiple. -/
theorem mul_returns {k : α} {m : Nat} (hk : Denotes k m)
    (hP : P.Matches (normalForm (h.multiple s))) :
    Returns ((Curve.ofParameters d).mul k P) (·.Matches (normalForm (h.multiple (m * s)))) := by
  rw [← h.nsmul_multiple]
  exact (regular_of_mem d h.mem).loaded.mul_returns hk (h.represents_multiple hP)

/-- The loaded generator stands for the multiple by one. -/
theorem represents_generator :
    (Curve.ofParameters d : Curve α).g.Represents (d.a : ZMod d.p) d.b (h.multiple 1) := by
  rw [← Nat.cast_one, h.multiple_natCast, one_nsmul]
  exact (generator_onCurve d h.mem).represents (regular_of_mem d h.mem) (matches_generator d)

/-- The multiple of the generator. -/
theorem mul_generator_returns [NeZero d.n] {k : α} (hk : Reduced k s) :
    Returns ((Curve.ofParameters d : Curve α).mul k (Curve.ofParameters d).g)
      (·.Matches (normalForm (h.multiple s))) := by
  have hmul := (regular_of_mem d h.mem).loaded.mul_returns hk.denotes (h.represents_generator)
  rwa [h.nsmul_multiple, ZMod.natCast_zmod_val, mul_one] at hmul

/-- A triple on the curve whose point is a multiple of the generator stands for the multiple. -/
theorem represents_public {R : Jacobian Nat} {m : Nat} (hR : d.OnCurve R) (hP : P.Matches R)
    (hpublic : d.point R = m • d.point d.generator) :
    P.Represents (d.a : ZMod d.p) d.b (h.multiple m) := by
  rw [h.multiple_natCast, ← hpublic]
  exact hR.represents (regular_of_mem d h.mem) hP

include h in
/-- The multiple of the generator by a number is a point of the curve. -/
theorem exists_public {k : α} {m : Nat} (hk : Denotes k m) :
    ∃ Q q, (Curve.ofParameters d : Curve α).mul k (Curve.ofParameters d).g = .ok q ∧ q.Matches Q ∧
      d.OnCurve Q ∧ d.point Q = m • d.point d.generator := by
  have hreg := regular_of_mem d h.mem
  have hG := (generator_onCurve d h.mem).represents hreg (matches_generator (α := α) d)
  obtain ⟨q, hmul, hq⟩ := hreg.loaded.mul_returns hk hG
  obtain ⟨Q, hmatches, hQ, hpoint⟩ :=
    exists_onCurve (hq.represents (hreg.loaded (α := α)).modulus.count_le)
  exact ⟨Q, q, hmul, hmatches, hQ, hpoint⟩

/-- The sum of two multiples. -/
theorem addNormalized_returns (hP : P.Matches (normalForm (h.multiple s)))
    (hQ : Q.Matches (normalForm (h.multiple t))) :
    Returns ((Curve.ofParameters d).addNormalized P Q)
      (·.Matches (normalForm (h.multiple (s + t)))) := by
  rw [map_add]
  exact (regular_of_mem d h.mem).loaded.addNormalized_returns (h.represents_multiple hP)
    (h.represents_multiple hQ)

/-- The sum of multiples of the generator and of a multiple, by reduced scalars. -/
theorem mul2_returns [NeZero d.n] {u v : α} {υ ν : ZMod d.n} (hu : Reduced u υ) (hv : Reduced v ν)
    {q : Jacobian α} (hq : q.Represents (d.a : ZMod d.p) d.b (h.multiple s)) :
    Returns ((Curve.ofParameters d).mul2 u (Curve.ofParameters d).g v q)
      (·.Matches (normalForm (h.multiple (υ + ν * s)))) := by
  have hmul := (regular_of_mem d h.mem).loaded.mul2_returns hu.denotes hv.denotes
    h.represents_generator hq
  rwa [h.nsmul_multiple, h.nsmul_multiple, ZMod.natCast_zmod_val, ZMod.natCast_zmod_val, mul_one,
    ← map_add] at hmul

end Generated

end CurveParameters

end TrustedPlatform
