import TrustedPlatform.Engine
import TrustedPlatform.Exchange
import TrustedPlatform.Proofs.Curve.Scalar

/-!
# Agreement of the two parties of an exchange

Each side of an exchange folds its private scalars into one residue modulo the order and takes the
multiple of a point that the peer's scalars fold into another. The shared point is the multiple of
the generator by the product of the two residues, so that both sides meet in it, or both meet a
product of zero. The main theorem is `exchange_agrees`.
-/

namespace TrustedPlatform

open CurveParameters
open LawfulArithmetic (Denotes)
open Limbs (count count_mono)

variable {α : Type} [Arithmetic α] [LawfulArithmetic α]

/-! ### Associate values -/

namespace Exchange

/-- The low bits of a number with the bit above them set. -/
def associateNumber (m bits : Nat) : Nat :=
  m % 2 ^ bits + 2 ^ bits

/-- An associate value has few limbs. -/
theorem count_associateNumber_le (m : Nat) {bits : Nat} (hbits : bits ≤ 528) :
    count (associateNumber m bits) ≤ 64 := by
  have hlow : m % 2 ^ bits < 2 ^ bits := Nat.mod_lt _ (Nat.two_pow_pos bits)
  have hlt : associateNumber m bits < 2 ^ (bits + 1) := by
    rw [associateNumber, Nat.pow_succ]
    omega
  have hcount := Limbs.count_le_of_lt_two_pow hlt
  omega

/-- The associate value of a number is returned. -/
theorem associate_returns {x : α} {m : Nat} (hx : Denotes x m) (hm : count m ≤ 64) {bits : Nat}
    (hbits : bits ≤ 528) : Returns (associate x bits) (Denotes · (associateNumber m bits)) := by
  have hscratch : FixedNat.scratchLimbs = 130 := rfl
  have hlow : count (m % 2 ^ bits) ≤ 64 := (count_mono (Nat.mod_le _ _)).trans hm
  have hhigh : count (2 ^ bits) ≤ 64 := by
    have hlt : 2 ^ bits < 2 ^ (bits + 1) := Nat.pow_lt_pow_succ (by decide)
    have := Limbs.count_le_of_lt_two_pow hlt
    omega
  have hone : count (1 : UInt64).toNat ≤ 1 := by decide
  have hshift : Refines _ Denotes (Arithmetic.shiftLeft (Arithmetic.ofWord 1 : α) bits)
      (.ok ((1 : UInt64).toNat <<< bits)) :=
    LawfulArithmetic.shiftLeft (LawfulArithmetic.ofWord 1) bits
  rw [associate]
  refine (LawfulArithmetic.maskBits_returns hx hm bits).bind fun low hlow' => ?_
  refine (hshift.returns (.inr (by omega))).bind fun high hhigh' => ?_
  rw [UInt64.toNat_one, Nat.one_shiftLeft] at hhigh'
  exact LawfulArithmetic.add_returns hlow' hhigh' hlow hhigh

variable {d : CurveParameters} [Fact d.p.Prime] {h : d.Generated} {s : ZMod d.n}

/-- The number of bits below the top bit of an associate value. -/
def halfBits (d : CurveParameters) : Nat :=
  (d.n.size + 1) / 2

/-- An associate value needs no more bits than the order. -/
theorem halfBits_le (h : d.Generated) : halfBits d ≤ 528 := by
  have hsize := size_order_le h.mem
  rw [halfBits]
  omega

/-- The associate value of a multiple of the generator, above a number of bits. -/
noncomputable def weight (h : d.Generated) (bits : Nat) (s : ZMod d.n) : Nat :=
  associateNumber (normalForm (h.multiple s)).x bits

/-- The associate value of a point is returned. -/
theorem associate_point_returns {P : Jacobian α} (hP : P.Matches (normalForm (h.multiple s)))
    {bits : Nat} (hbits : bits ≤ 528) :
    Returns (associate P.x bits) (Denotes · (weight h bits s)) :=
  associate_returns hP.x (count_normalForm_le h.mem _) hbits

/-- An associate value stands for its residue. -/
theorem residue_weight {bits : Nat} (hbits : bits ≤ 528) {w : α}
    (hw : Denotes w (weight h bits s)) : Residue w (weight h bits s : ZMod d.n) :=
  .of_denotes hw (count_associateNumber_le _ hbits)

/-! ### Shared points -/

/-- The computation gives the multiple of the generator by a residue, or for the zero residue no
result. -/
inductive Meets (h : d.Generated) (x : Checked (Jacobian α)) (s : ZMod d.n) : Prop where
  | noResult (operation : String) (hs : s = 0) (hx : x = .error (.noResult operation))
  | point (hs : s ≠ 0) (hx : Returns x (·.Matches (normalForm (h.multiple s))))

/-- A computation goes on with the value that is returned. -/
theorem Meets.bind {β : Type} {R : β → Prop} {x : Checked β} {f : β → Checked (Jacobian α)}
    {s : ZMod d.n} (hx : Returns x R) (hf : ∀ v, R v → Meets h (f v) s) : Meets h (x >>= f) s := by
  obtain ⟨v, rfl, hv⟩ := hx
  exact hf v hv

variable [Fact d.n.Prime]

/-- A point that may not be infinite. -/
theorem Meets.of_returns {x : Checked (Jacobian α)} {s : ZMod d.n}
    (hx : Returns x (·.Matches (normalForm (h.multiple s)))) (operation : String) :
    Meets h (x >>= fun z => if z.isInfinity then throw (.noResult operation) else return z) s := by
  obtain ⟨z, rfl, hz⟩ := hx
  show Meets h (if z.isInfinity = true then throw (.noResult operation) else pure z) s
  by_cases hs : s = 0
  · rw [if_pos ((h.isInfinity_iff hz).mpr hs)]
    exact .noResult operation hs rfl
  · rw [if_neg (mt (h.isInfinity_iff hz).mp hs)]
    exact .point hs (.ok hz)

/-- The multiple with the cofactor, which is one. -/
theorem cofactorMul_meets {k : α} {t : ZMod d.n} (hk : Reduced k t) {P : Jacobian α}
    (hP : P.Matches (normalForm (h.multiple s))) (operation : String) :
    Meets h (cofactorMul (Curve.ofParameters d) k P operation) (t * s) := by
  have hcount := (order_modulus (α := α) h.mem).count_val_le t
  obtain ⟨hk', hrun, hdenotes⟩ :=
    LawfulArithmetic.mul_returns (denotes_cofactor h.mem) hk.denotes (by decide) hcount
  rw [Nat.one_mul] at hdenotes
  have hmul := h.mul_returns hdenotes hP
  rw [ZMod.natCast_zmod_val] at hmul
  rw [cofactorMul, hrun]
  exact .of_returns hmul operation

variable (h) in
/-- The point of an ephemeral scalar. -/
theorem ephemeralPoint_returns {k : α} (hk : Reduced k s) (hs : s ≠ 0) :
    Returns (ephemeralPoint (Curve.ofParameters d) k) (·.Matches (normalForm (h.multiple s))) := by
  refine (h.mul_generator_returns hk).bind fun q hq => ?_
  rw [if_neg (mt (h.isInfinity_iff hq).mp hs)]
  exact .ok hq

/-! ### Schemes -/

/-- The residue that the static and the ephemeral key of a party fold into in the MQV exchange. -/
noncomputable def mqvResidue (h : d.Generated) (s e : ZMod d.n) : ZMod d.n :=
  e + weight h (halfBits d) e * s

/-- The residue that the static and the ephemeral key of a party fold into in the SM2 exchange. -/
noncomputable def sm2Residue (h : d.Generated) (s e : ZMod d.n) : ZMod d.n :=
  s + weight h (halfBits d - 1) e * e

variable {xs xe : α} {Qs Qe : Jacobian α} {e s' e' : ZMod d.n}

/-- One side of the MQV exchange, in which the weights go to the static keys. -/
theorem mqv_meets (hs : Reduced xs s) (he : Reduced xe e) (hne : e ≠ 0)
    (hQs : Qs.Matches (normalForm (h.multiple s')))
    (hQe : Qe.Matches (normalForm (h.multiple e'))) :
    Meets h (mqv (Curve.ofParameters d) xs xe Qs Qe)
      (mqvResidue h s e * mqvResidue h s' e') := by
  have hn := order_modulus (α := α) h.mem
  have hbits := halfBits_le h
  rw [mqv]
  refine .bind (ephemeralPoint_returns h he hne) fun own hown => ?_
  rw [mqvValue, orderBits_eq]
  refine .bind (associate_point_returns hown hbits) fun w hw => ?_
  refine .bind ((residue_weight hbits hw).mul hn (hs.residue hn)) fun implicit himplicit => ?_
  refine .bind ((he.residue hn).add hn (himplicit.residue hn)) fun t ht => ?_
  rw [mqvValue, orderBits_eq]
  refine .bind (associate_point_returns hQe hbits) fun w' hw' => ?_
  refine .bind (h.mul_returns hw' hQs) fun shifted hshifted => ?_
  refine .bind (h.addNormalized_returns hQe hshifted) fun base hbase => ?_
  by_cases hzero : mqvResidue h s' e' = 0
  · rw [if_pos ((h.isInfinity_iff hbase).mpr hzero)]
    exact .noResult _ (by rw [hzero, mul_zero]) rfl
  · rw [if_neg (mt (h.isInfinity_iff hbase).mp hzero)]
    exact cofactorMul_meets ht hbase _

/-- One side of the SM2 exchange, in which the weights go to the ephemeral keys. -/
theorem sm2_meets (hs : Reduced xs s) (he : Reduced xe e) (hne : e ≠ 0)
    (hQs : Qs.Matches (normalForm (h.multiple s')))
    (hQe : Qe.Matches (normalForm (h.multiple e'))) :
    Meets h (sm2 (Curve.ofParameters d) xs xe Qs Qe)
      (sm2Residue h s e * sm2Residue h s' e') := by
  have hn := order_modulus (α := α) h.mem
  have hbits : halfBits d - 1 ≤ 528 := (Nat.sub_le _ _).trans (halfBits_le h)
  have hcofactor : Residue (Curve.ofParameters d : Curve α).h ((1 : Nat) : ZMod d.n) :=
    .of_denotes (denotes_cofactor h.mem) (by decide)
  rw [sm2]
  refine .bind (ephemeralPoint_returns h he hne) fun own hown => ?_
  rw [sm2Value, orderBits_eq]
  refine .bind (associate_point_returns hown hbits) fun w hw => ?_
  refine .bind ((he.residue hn).mul hn (residue_weight hbits hw)) fun implicit himplicit => ?_
  have himplicit := himplicit.of_eq (mul_comm e _)
  refine .bind ((hs.residue hn).add hn (himplicit.residue hn)) fun t ht => ?_
  refine .bind (hcofactor.mul hn (ht.residue hn)) fun t' ht' => ?_
  rw [Nat.cast_one, one_mul] at ht'
  rw [sm2Value, orderBits_eq]
  refine .bind (associate_point_returns hQe hbits) fun w' hw' => ?_
  refine .bind (h.mul_returns hw' hQe) fun shifted hshifted => ?_
  refine .bind (h.addNormalized_returns hQs hshifted) fun base hbase => ?_
  have hmul := h.mul_returns ht'.denotes hbase
  rw [ZMod.natCast_zmod_val] at hmul
  exact .of_returns hmul _

/-! ### Outcomes on the wire -/

/-- Two sides end in one value, or both in no result. -/
inductive SameOutcome {β : Type} (x y : Checked β) : Prop where
  | value (v : β) (hx : x = .ok v) (hy : y = .ok v)
  | noResult (operation operation' : String) (hx : x = .error (.noResult operation))
      (hy : y = .error (.noResult operation'))

/-- A value that one side ends in is that of the other. -/
theorem SameOutcome.of_ok {β : Type} {x y : Checked β} {v : β} (h : SameOutcome x y)
    (hx : x = .ok v) : y = .ok v := by
  cases h with
  | value w hw hy => rw [hy, ← hw, hx]
  | noResult _ _ he _ => cases he.symm.trans hx

/-- A finite multiple of the generator leaves as the wire form of its normal form. -/
theorem toWire_multiple (h : d.Generated) {P : Jacobian α} {s : ZMod d.n} (hs : s ≠ 0)
    (hP : P.Matches (normalForm (h.multiple s))) :
    Returns ((Curve.ofParameters d : Curve α).toWire P)
      (·.Holds (Bytes.widthOf d.p) (normalForm (h.multiple s))) :=
  toWire_returns h.mem (mt h.multiple_eq_zero_iff.mp hs) (h.represents_multiple hP)

/-- The computation ends in what is made of the wire form of the multiple by a residue, or for the
zero residue in no result. -/
inductive Ends (h : d.Generated) {β : Type} (f : Wire.Point → β) (s : ZMod d.n) (x : Checked β) :
    Prop where
  | noResult (operation : String) (hs : s = 0) (hx : x = .error (.noResult operation))
  | point (q : Wire.Point) (hs : s ≠ 0)
      (hq : q.Holds (Bytes.widthOf d.p) (normalForm (h.multiple s))) (hx : x = .ok (f q))

namespace Ends

variable {β γ : Type} {f : Wire.Point → β} {s : ZMod d.n}

/-- A computation goes on with the value that is returned. -/
theorem bind {R : γ → Prop} {x : Checked γ} {g : γ → Checked β} (hx : Returns x R)
    (hg : ∀ v, R v → Ends h f s (g v)) : Ends h f s (x >>= g) := by
  obtain ⟨v, rfl, hv⟩ := hx
  exact hg v hv

/-- A shared point leaves on the wire. -/
theorem of_meets {x : Checked (Jacobian α)} (hx : Meets h x s) (f : Wire.Point → β) :
    Ends h f s (x >>= fun z => (Curve.ofParameters d).toWire z >>= fun q => pure (f q)) := by
  cases hx with
  | noResult operation hs hx => exact hx ▸ .noResult operation hs rfl
  | point hs hx =>
      refine .bind hx fun P hP => ?_
      refine .bind (toWire_multiple h hs hP) fun q hq => ?_
      exact .point q hs hq rfl

/-- Two sides that end in one residue have the same outcome. -/
theorem sameOutcome {x y : Checked β} (hx : Ends h f s x) (hy : Ends h f s y) :
    SameOutcome x y := by
  cases hx with
  | noResult operation hs hx =>
      cases hy with
      | noResult operation' _ hy => exact .noResult operation operation' hx hy
      | point _ hne => exact absurd hs hne
  | point q hs hq hx =>
      cases hy with
      | noResult _ hzero => exact absurd hzero hs
      | point q' _ hq' hy => exact .value (f q) hx (hq.unique hq' ▸ hy)

end Ends

/-- Where the residue is not zero, a point is met. -/
theorem Meets.returns {x : Checked (Jacobian α)} {s : ZMod d.n} (hx : Meets h x s) (hs : s ≠ 0) :
    Returns x (·.Matches (normalForm (h.multiple s))) := by
  cases hx with
  | noResult _ hzero _ => exact absurd hzero hs
  | point _ hx => exact hx

end Exchange

open Exchange

namespace Curve

/-- The wire form of the public point of a private scalar. -/
def publicPoint {α : Type} [Arithmetic α] (c : Curve α) (privateKey : Bytes) :
    Checked Wire.Point := do
  let x ← c.privateScalar privateKey
  let q ← c.mul x c.g
  c.toWire q

variable {d : CurveParameters} [Fact d.p.Prime] [Fact d.n.Prime]

variable (h : d.Generated)

variable {h} in
/-- A peer's point arrives from its wire form, under every scheme. -/
theorem exchangePeer_returns {q : Wire.Point} {s : ZMod d.n} (hs : s ≠ 0)
    (hq : q.Holds (Bytes.widthOf d.p) (normalForm (h.multiple s))) (scheme : AlgorithmId) :
    Returns ((ofParameters d : Curve α).exchangePeer scheme q)
      (·.Matches (normalForm (h.multiple s))) := by
  obtain ⟨point, hrun, hpoint⟩ :=
    peerPoint_returns (α := α) h.mem hq (mt h.multiple_eq_zero_iff.mp hs)
  rw [exchangePeer, hrun]
  exact .ok hpoint

/-- A private scalar in range, with the wire form of its public point. -/
structure KeyPair (h : d.Generated) (key : Bytes) (q : Wire.Point) : Prop where
  pos : 0 < Bytes.toNat key
  lt : Bytes.toNat key < d.n
  holds : q.Holds (Bytes.widthOf d.p) (normalForm (h.multiple (Bytes.toNat key)))

variable {h} in
/-- The residue of a private scalar in range is not zero. -/
theorem KeyPair.ne_zero {key : Bytes} {q : Wire.Point} (hkey : KeyPair h key q) :
    (Bytes.toNat key : ZMod d.n) ≠ 0 :=
  natCast_ne_zero hkey.pos hkey.lt

/-- The public point of a private scalar in range leaves. -/
theorem publicPoint_returns {key : Bytes} (hpos : 0 < Bytes.toNat key)
    (hlt : Bytes.toNat key < d.n) :
    Returns ((ofParameters d : Curve α).publicPoint key) (KeyPair h key) := by
  refine (privateScalar_returns hpos hlt).bind fun x hx => ?_
  refine (h.mul_generator_returns hx).bind fun q hq => ?_
  exact (toWire_multiple h (natCast_ne_zero hpos hlt) hq).mono fun _ hq => ⟨hpos, hlt, hq⟩

/-- A private scalar in range makes a key pair with the public point that was returned for it. -/
theorem KeyPair.of_publicPoint {key : Bytes} {q : Wire.Point} (hpos : 0 < Bytes.toNat key)
    (hlt : Bytes.toNat key < d.n) (hq : (ofParameters d : Curve α).publicPoint key = .ok q) :
    KeyPair h key q := by
  obtain ⟨q', hq', hpair⟩ := publicPoint_returns (α := α) h hpos hlt
  cases hq.symm.trans hq'
  exact hpair

variable {h} in
/-- A one-pass exchange returns the multiple by the product of the residues. -/
theorem exchangeOnce_returns {key : Bytes} {own q : Wire.Point} (hkey : KeyPair h key own)
    {s : ZMod d.n} (hs : s ≠ 0) (hq : q.Holds (Bytes.widthOf d.p) (normalForm (h.multiple s))) :
    Returns ((ofParameters d : Curve α).exchangeOnce key q)
      (·.Holds (Bytes.widthOf d.p) (normalForm (h.multiple (Bytes.toNat key * s)))) := by
  have hproduct := mul_ne_zero hkey.ne_zero hs
  refine (peerPoint_returns h.mem hq (mt h.multiple_eq_zero_iff.mp hs)).bind fun Q hQ => ?_
  refine (privateScalar_returns hkey.pos hkey.lt).bind fun x hx => ?_
  refine ((cofactorMul_meets hx hQ _).returns hproduct).bind fun z hz => ?_
  exact toWire_multiple h hproduct hz

variable {h} in
/-- Both sides of a one-pass exchange return one point. -/
theorem exchangeOnce_agrees {key key' : Bytes} {q q' : Wire.Point} (hkey : KeyPair h key q)
    (hkey' : KeyPair h key' q') :
    ∃ z, (ofParameters d : Curve α).exchangeOnce key q' = .ok z ∧
      (ofParameters d : Curve α).exchangeOnce key' q = .ok z := by
  obtain ⟨z, hA, hz⟩ := exchangeOnce_returns (α := α) hkey hkey'.ne_zero hkey'.holds
  obtain ⟨w, hB, hw⟩ := exchangeOnce_returns (α := α) hkey' hkey.ne_zero hkey.holds
  rw [mul_comm] at hw
  exact ⟨z, hA, hz.unique hw ▸ hB⟩

section Twice

variable {h} {ds de ds' de' : Bytes} {qs qe qs' qe' : Wire.Point} (hs : KeyPair h ds qs)
  (he : KeyPair h de qe) (hs' : KeyPair h ds' qs') (he' : KeyPair h de' qe')

include hs he hs' he'

/-- One side of the full unified model returns both multiples. -/
theorem exchangeTwice_ecdh :
    Returns ((ofParameters d : Curve α).exchangeTwice .ecdh ds de qs' qe') fun points =>
      ∃ z1 z2 : Wire.Point, points = ⟨z1, some z2⟩ ∧
        z1.Holds (Bytes.widthOf d.p)
          (normalForm (h.multiple (Bytes.toNat ds * Bytes.toNat ds'))) ∧
        z2.Holds (Bytes.widthOf d.p)
          (normalForm (h.multiple (Bytes.toNat de * Bytes.toNat de'))) := by
  have hstatic := mul_ne_zero hs.ne_zero hs'.ne_zero
  have hephemeral := mul_ne_zero he.ne_zero he'.ne_zero
  refine (exchangePeer_returns hs'.ne_zero hs'.holds _).bind fun Qs hQs => ?_
  refine (exchangePeer_returns he'.ne_zero he'.holds _).bind fun Qe hQe => ?_
  refine (privateScalar_returns hs.pos hs.lt).bind fun xs hxs => ?_
  refine (privateScalar_returns he.pos he.lt).bind fun xe hxe => ?_
  rw [if_pos rfl]
  obtain ⟨Z1, hrun1, hZ1⟩ := (cofactorMul_meets hxs hQs "ECDH static").returns hstatic
  obtain ⟨Z2, hrun2, hZ2⟩ := (cofactorMul_meets hxe hQe "ECDH ephemeral").returns hephemeral
  rw [fullUnified, hrun1, hrun2]
  refine (toWire_multiple h hstatic hZ1).bind fun z1 hz1 => ?_
  refine (toWire_multiple h hephemeral hZ2).bind fun z2 hz2 => ?_
  exact .ok ⟨z1, z2, rfl, hz1, hz2⟩

/-- One side of the MQV exchange. -/
theorem exchangeTwice_ecmqv :
    Ends h (fun z => ⟨z, none⟩)
      (mqvResidue h (Bytes.toNat ds) (Bytes.toNat de) *
        mqvResidue h (Bytes.toNat ds') (Bytes.toNat de'))
      ((ofParameters d : Curve α).exchangeTwice .ecmqv ds de qs' qe') := by
  refine .bind (exchangePeer_returns hs'.ne_zero hs'.holds _) fun Qs hQs => ?_
  refine .bind (exchangePeer_returns he'.ne_zero he'.holds _) fun Qe hQe => ?_
  refine .bind (privateScalar_returns hs.pos hs.lt) fun xs hxs => ?_
  refine .bind (privateScalar_returns he.pos he.lt) fun xe hxe => ?_
  rw [if_neg (by decide), if_pos rfl]
  exact .of_meets (mqv_meets hxs hxe he.ne_zero hQs hQe) _

/-- One side of the SM2 exchange. -/
theorem exchangeTwice_sm2 :
    Ends h (fun z => ⟨z, none⟩)
      (sm2Residue h (Bytes.toNat ds) (Bytes.toNat de) *
        sm2Residue h (Bytes.toNat ds') (Bytes.toNat de'))
      ((ofParameters d : Curve α).exchangeTwice .sm2 ds de qs' qe') := by
  refine .bind (exchangePeer_returns hs'.ne_zero hs'.holds _) fun Qs hQs => ?_
  refine .bind (exchangePeer_returns he'.ne_zero he'.holds _) fun Qe hQe => ?_
  refine .bind (privateScalar_returns hs.pos hs.lt) fun xs hxs => ?_
  refine .bind (privateScalar_returns he.pos he.lt) fun xe hxe => ?_
  rw [if_neg (by decide), if_neg (by decide), if_pos rfl]
  exact .of_meets (sm2_meets hxs hxe he.ne_zero hQs hQe) _

/-- Both sides of a two-phase exchange have the same outcome. -/
theorem exchangeTwice_sameOutcome {scheme : AlgorithmId}
    (hscheme : scheme ∈ [AlgorithmId.ecdh, AlgorithmId.ecmqv, AlgorithmId.sm2]) :
    SameOutcome ((ofParameters d : Curve α).exchangeTwice scheme ds de qs' qe')
      ((ofParameters d : Curve α).exchangeTwice scheme ds' de' qs qe) := by
  simp only [List.mem_cons, List.not_mem_nil, or_false] at hscheme
  rcases hscheme with rfl | rfl | rfl
  · obtain ⟨_, hA, z1, z2, rfl, hz1, hz2⟩ := exchangeTwice_ecdh (α := α) hs he hs' he'
    obtain ⟨_, hB, w1, w2, rfl, hw1, hw2⟩ := exchangeTwice_ecdh (α := α) hs' he' hs he
    rw [mul_comm] at hw1 hw2
    refine .value _ hA ?_
    rw [hB, hz1.unique hw1, hz2.unique hw2]
  · have hB := exchangeTwice_ecmqv (α := α) hs' he' hs he
    rw [mul_comm] at hB
    exact (exchangeTwice_ecmqv hs he hs' he').sameOutcome hB
  · have hB := exchangeTwice_sm2 (α := α) hs' he' hs he
    rw [mul_comm] at hB
    exact (exchangeTwice_sm2 hs he hs' he').sameOutcome hB

end Twice

/-- A drawn key pair is a scalar in range with its multiple of the generator. -/
theorem keyPair_yields {σ : Type} [RandomSource σ] :
    ((ofParameters d : Curve α).keyPair : Randomized σ (α × Jacobian α)).Yields fun pair =>
      ∃ s : ZMod d.n, s ≠ 0 ∧ Reduced pair.1 s ∧ pair.2.Matches (normalForm (h.multiple s)) := by
  have hn : 1 < d.n := Nat.Prime.one_lt Fact.out
  refine (randomScalar_yields h.mem hn).bind ?_
  rintro x ⟨m, hx, hpos, hlt⟩
  refine (Randomized.Yields.returns (h.mul_generator_returns (.of_lt hx hlt))).bind fun q hq => ?_
  exact .pure ⟨m, natCast_ne_zero hpos hlt, .of_lt hx hlt, hq⟩

/-- What an exchange under a fresh key pair yields is the multiple by the product of the residues,
beside the public point of the fresh scalar. -/
theorem performExchangeFresh_yields {ε : Type} [EntropySource ε] {id : CurveId}
    (hload : Curve.load α id = .ok (ofParameters d)) {q : Wire.Point} {s : ZMod d.n} (hs : s ≠ 0)
    (hq : q.Holds (Bytes.widthOf d.p) (normalForm (h.multiple s))) :
    Randomized.Yields (Command.performExchangeFresh α id q : Operation ε Response) fun response =>
      ∃ (t : ZMod d.n) (z own : Wire.Point), t ≠ 0 ∧ response = .freshPoint z own ∧
        own.Holds (Bytes.widthOf d.p) (normalForm (h.multiple t)) ∧
        z.Holds (Bytes.widthOf d.p) (normalForm (h.multiple (s * t))) := by
  have hfinite := mt h.multiple_eq_zero_iff.mp hs
  refine (Randomized.Yields.lift fun c hc => Except.ok.inj (hload.symm.trans hc)).bind ?_
  rintro _ rfl
  refine (Randomized.Yields.returns (validatedPoint_returns h.mem hq hfinite)).bind fun Q hQ => ?_
  refine (keyPair_yields h).onGenerator.bind ?_
  rintro ⟨x, own⟩ ⟨t, ht, hx, hown⟩
  have hproduct := mul_ne_zero ht hs
  refine (Randomized.Yields.returns ((cofactorMul_meets hx hQ _).returns hproduct)).bind
    fun z hz => ?_
  refine (Randomized.Yields.returns (toWire_multiple h hproduct hz)).bind fun z hz => ?_
  refine (Randomized.Yields.returns (toWire_multiple h ht hown)).bind fun own hown => ?_
  exact .pure ⟨t, z, own, ht, rfl, hown, mul_comm t s ▸ hz⟩

end Curve

omit [LawfulArithmetic α] in
/-- What an engine answers is what the operation of the command gives. -/
theorem Engine.perform_eq_ok {ε : Type} [EntropySource ε] {engine : Engine ε} {command : Command}
    {response : Response} (hrun : (engine.run α command).1 = .ok response) :
    (Randomized.runFrom (command.perform α engine.config.retries) engine.state).1 =
      .ok response := by
  rw [run, execute] at hrun
  cases hfailure : engine.failure with
  | some code =>
      rw [hfailure] at hrun
      cases hrun
  | none =>
      rw [hfailure] at hrun
      rw [Randomized.runFrom]
      generalize command.perform α engine.config.retries engine.state = outcome at hrun ⊢
      obtain ⟨fault | value, state⟩ := outcome
      · cases hrun
      · cases hrun
        rfl

open Curve in
/-- The point of an exchange under a fresh key pair is the peer's, from the fresh public point. -/
theorem exchangeFresh_agrees {d : CurveParameters} [Fact d.p.Prime] [Fact d.n.Prime]
    {h : d.Generated} {id : CurveId} (hload : Curve.load α id = .ok (ofParameters d))
    {key : Bytes} {q : Wire.Point} (hkey : KeyPair h key q) {ε : Type} [EntropySource ε]
    {engine : Engine ε} {z own : Wire.Point}
    (hrun : (engine.run α (.exchangeFresh id q)).1 = .ok (.freshPoint z own)) :
    (ofParameters d : Curve α).exchangeOnce key own = .ok z := by
  have hyields := performExchangeFresh_yields (ε := ε) h hload hkey.ne_zero hkey.holds
  obtain ⟨t, z', own', ht, heq, hown, hz⟩ := hyields _ _ (Engine.perform_eq_ok hrun)
  cases heq
  obtain ⟨w, hw, hholds⟩ := exchangeOnce_returns (α := α) hkey ht hown
  rw [hw, hholds.unique hz]

open Curve in
/-- On a registered curve whose generator has a prime order, the two parties of an exchange end in
the same shared points, or both in no result, under each two-phase scheme; a one-pass exchange gives
both parties one point; and so does an exchange under a fresh key pair. -/
theorem exchange_agrees {id : CurveId} {c : Curve α} (hc : Curve.load α id = .ok c)
    [Fact c.parameters.p.Prime] [Fact c.parameters.n.Prime]
    (horder : c.parameters.n • c.parameters.point c.parameters.generator = 0)
    {dsA deA dsB deB : Bytes} (hrange : ∀ key ∈ [dsA, deA, dsB, deB],
      0 < Bytes.toNat key ∧ Bytes.toNat key < c.parameters.n) :
    ∃ qsA qeA qsB qeB : Wire.Point,
      (c.publicPoint dsA = .ok qsA ∧ c.publicPoint deA = .ok qeA ∧
        c.publicPoint dsB = .ok qsB ∧ c.publicPoint deB = .ok qeB) ∧
      (∀ scheme ∈ [AlgorithmId.ecdh, AlgorithmId.ecmqv, AlgorithmId.sm2],
        SameOutcome (c.exchangeTwice scheme dsA deA qsB qeB)
          (c.exchangeTwice scheme dsB deB qsA qeA)) ∧
      (∃ z, c.exchangeOnce dsA qsB = .ok z ∧ c.exchangeOnce dsB qsA = .ok z) ∧
      ∀ {ε : Type} [EntropySource ε] (engine : Engine ε) (z own : Wire.Point),
        (engine.run α (.exchangeFresh id qsB)).1 = .ok (.freshPoint z own) →
        c.exchangeOnce dsB own = .ok z := by
  obtain ⟨d, hmem, rfl⟩ := Curve.exists_of_load hc
  have : Fact d.p.Prime := ‹Fact (Curve.ofParameters d : Curve α).parameters.p.Prime›
  have : Fact d.n.Prime := ‹Fact (Curve.ofParameters d : Curve α).parameters.n.Prime›
  have h : d.Generated := ⟨hmem, horder⟩
  obtain ⟨hdsA, hdsA'⟩ := hrange dsA (by simp)
  obtain ⟨hdeA, hdeA'⟩ := hrange deA (by simp)
  obtain ⟨hdsB, hdsB'⟩ := hrange dsB (by simp)
  obtain ⟨hdeB, hdeB'⟩ := hrange deB (by simp)
  obtain ⟨qsA, hrunsA, hsA⟩ := publicPoint_returns (α := α) h hdsA hdsA'
  obtain ⟨qeA, hruneA, heA⟩ := publicPoint_returns (α := α) h hdeA hdeA'
  obtain ⟨qsB, hrunsB, hsB⟩ := publicPoint_returns (α := α) h hdsB hdsB'
  obtain ⟨qeB, hruneB, heB⟩ := publicPoint_returns (α := α) h hdeB hdeB'
  refine ⟨qsA, qeA, qsB, qeB, ⟨hrunsA, hruneA, hrunsB, hruneB⟩, ?_, ?_, ?_⟩
  · exact fun scheme hscheme => exchangeTwice_sameOutcome hsA heA hsB heB hscheme
  · exact exchangeOnce_agrees hsA hsB
  · intro ε _ engine z own hrun
    exact exchangeFresh_agrees hc hsB hrun

open Curve in
/-- Exchanges of two parties with small scalars on the 256-bit curve, one of them of two bytes. The
full unified model returns both parties its two points. -/
theorem exchange_agrees_nistP256 :
    ∃ _ : Fact nistP256.p.Prime, ∃ _ : Fact nistP256.n.Prime, ∃ c : Curve FixedNat,
    ∃ qsA qeA qsB qeB : Wire.Point, Curve.load FixedNat 3 = .ok c ∧
      (c.publicPoint [3] = .ok qsA ∧ c.publicPoint [1, 0] = .ok qeA ∧
        c.publicPoint [7] = .ok qsB ∧ c.publicPoint [11] = .ok qeB) ∧
      (∃ z1 z2 : Wire.Point, c.exchangeTwice .ecdh [3] [1, 0] qsB qeB = .ok ⟨z1, some z2⟩ ∧
        c.exchangeTwice .ecdh [7] [11] qsA qeA = .ok ⟨z1, some z2⟩) ∧
      SameOutcome (c.exchangeTwice .ecmqv [3] [1, 0] qsB qeB)
        (c.exchangeTwice .ecmqv [7] [11] qsA qeA) ∧
      ∃ z, c.exchangeOnce [3] qsB = .ok z ∧ c.exchangeOnce [7] qsA = .ok z := by
  have hp : Fact nistP256.p.Prime := ⟨primes_nistP256.1⟩
  have hn : Fact nistP256.n.Prime := ⟨primes_nistP256.2⟩
  have hload : Curve.load FixedNat 3 = .ok (Curve.ofParameters nistP256) := rfl
  have : Fact (Curve.ofParameters nistP256 : Curve FixedNat).parameters.p.Prime := hp
  have : Fact (Curve.ofParameters nistP256 : Curve FixedNat).parameters.n.Prime := hn
  have hrange : ∀ key ∈ ([[3], [1, 0], [7], [11]] : List Bytes),
      0 < Bytes.toNat key ∧ Bytes.toNat key < nistP256.n := by decide
  obtain ⟨qsA, qeA, qsB, qeB, hpublic, htwice, honce, -⟩ :=
    exchange_agrees hload generated_nistP256.nsmul_generator hrange
  have hpair {key : Bytes} {q : Wire.Point} (hkey : key ∈ ([[3], [1, 0], [7], [11]] : List Bytes))
      (hq : (ofParameters nistP256 : Curve FixedNat).publicPoint key = .ok q) :=
    KeyPair.of_publicPoint generated_nistP256 (hrange key hkey).1 (hrange key hkey).2 hq
  obtain ⟨hsA, heA, hsB, heB⟩ := hpublic
  obtain ⟨_, hrun, z1, z2, rfl, -⟩ := exchangeTwice_ecdh (α := FixedNat) (hpair (by simp) hsA)
    (hpair (by simp) heA) (hpair (by simp) hsB) (hpair (by simp) heB)
  exact ⟨hp, hn, _, qsA, qeA, qsB, qeB, hload, ⟨hsA, heA, hsB, heB⟩,
    ⟨z1, z2, hrun, (htwice .ecdh (by simp)).of_ok hrun⟩, htwice .ecmqv (by simp), honce⟩

end TrustedPlatform
