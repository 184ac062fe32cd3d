import TrustedPlatform.Exchange
import TrustedPlatform.Proofs.Curve.Refinement

/-!
# Key exchange in a lawful arithmetic

Every exchange is composed of operations on scalars and points, which never run out of room. The one
number that is not reduced is the product with the cofactor, which is only multiplied by.
-/

namespace TrustedPlatform

open LawfulArithmetic (Denotes)

variable {α : Type} [Arithmetic α] [LawfulArithmetic α]

omit [LawfulArithmetic α] in
/-- The caller of a two-phase SM2 exchange answers for the peer's points. -/
theorem Curve.exchangePeer_eq (c : Curve α) (scheme : AlgorithmId) (q : Wire.Point) :
    c.exchangePeer scheme q = answeredFor scheme (Exchange.peerPoint c q) := by
  rw [exchangePeer]
  rcases Exchange.peerPoint c q with e | point
  · cases e <;> rfl
  · rfl

/-- The associate value of a number. -/
theorem Exchange.associate_refines {x : α} {n bits : Nat} (hx : Small x n) (hbits : bits < 4095) :
    Refines True Small (associate x bits) (associate n bits) := by
  refine ((hx.maskBits bits).and_of_ok (P := (· < 2 ^ bits)) fun w hw => ?_).bind
    fun low low' ⟨hlow, hlt⟩ => ?_
  · rw [LawfulArithmetic.exact_maskBits] at hw
    cases hw
    exact Nat.mod_lt n (Nat.two_pow_pos bits)
  refine ((Small.shiftLeft_one (by omega)).and_of_ok (P := (· = 2 ^ bits)) fun w hw => ?_).bind
    fun high high' ⟨hhigh, hpow⟩ => ?_
  · cases hw
    exact Nat.one_shiftLeft bits
  refine ((hlow.add hhigh).and_of_ok (P := (· < 2 ^ (bits + 1))) fun w hw => ?_).mono id
    fun _ _ hvalue => .of_lt_two_pow _ hvalue.1 hvalue.2 (by omega)
  cases hw
  rw [hpow, Nat.pow_succ]
  omega

/-- The points of a full unified exchange. -/
structure SmallPoints (v : Jacobian α × Jacobian α) (w : Jacobian Nat × Jacobian Nat) : Prop where
  fst : SmallPoint v.1 w.1
  snd : SmallPoint v.2 w.2

namespace SmallCurve

open Exchange

variable {c : Curve α} {c' : Curve Nat} {P Q : Jacobian α} {P' Q' : Jacobian Nat}
variable {k l : α} {m n : Nat}

/-- Peers' points. -/
theorem peerPoint (hc : SmallCurve c c') (q : Wire.Point) :
    Refines True SmallPoint (peerPoint c q) (peerPoint c' q) := by
  have hq := SmallPoint.ofWire (α := α) q
  rw [Exchange.peerPoint, Exchange.peerPoint]
  refine .ite (by rw [hq.isInfinity_eq]) (fun _ => .refused _) fun _ => ?_
  refine (hc.contains hq).bind fun contained _ hcontained => ?_
  subst hcontained
  exact .ite Iff.rfl (fun _ => .ok hq) fun _ => .refused _

/-- Peers' points in a two-phase exchange. -/
theorem exchangePeer (hc : SmallCurve c c') (scheme : AlgorithmId) (q : Wire.Point) :
    Refines True SmallPoint (c.exchangePeer scheme q) (c'.exchangePeer scheme q) := by
  rw [Curve.exchangePeer_eq, Curve.exchangePeer_eq]
  exact (hc.peerPoint q).answeredFor scheme

/-- Associate values in the MQV exchange. -/
theorem mqvValue (hc : SmallCurve c c') (hP : SmallPoint P P') :
    Refines True Small (mqvValue c P) (mqvValue c' P') := by
  have hbits := hc.orderBits_le
  rw [Exchange.mqvValue, Exchange.mqvValue, hc.orderBits]
  exact associate_refines hP.x (by omega)

/-- Associate values in the SM2 exchange. -/
theorem sm2Value (hc : SmallCurve c c') (hP : SmallPoint P P') :
    Refines True Small (sm2Value c P) (sm2Value c' P') := by
  have hbits := hc.orderBits_le
  rw [Exchange.sm2Value, Exchange.sm2Value, hc.orderBits]
  exact associate_refines hP.x (by omega)

/-- Multiples with the cofactor. -/
theorem cofactorMul (hc : SmallCurve c c') (hk : Small k n) (hP : SmallPoint P P')
    (operation : String) :
    Refines True SmallPoint (cofactorMul c k P operation) (cofactorMul c' n P' operation) := by
  refine (hc.h.mul hk).bind fun hk _ ⟨hhk, _⟩ => ?_
  refine (hc.mul hhk hP).bind fun z _ hz => ?_
  exact .ite (by rw [hz.isInfinity_eq]) (fun _ => .refused _) fun _ => .ok hz

/-- Points of ephemeral scalars. -/
theorem ephemeralPoint (hc : SmallCurve c c') (hk : Small k n) :
    Refines True SmallPoint (ephemeralPoint c k) (ephemeralPoint c' n) := by
  refine (hc.mul hk.denotes hc.g).bind fun q _ hq => ?_
  exact .ite (by rw [hq.isInfinity_eq]) (fun _ => .refused _) fun _ => .ok hq

/-! ### The schemes -/

/-- The full unified model. -/
theorem fullUnified (hc : SmallCurve c c') (hk : Small k m) (hl : Small l n)
    (hP : SmallPoint P P') (hQ : SmallPoint Q Q') :
    Refines True SmallPoints (fullUnified c k l P Q) (fullUnified c' m n P' Q') := by
  refine (hc.cofactorMul hk hP _).bind fun z1 _ hz1 => ?_
  refine (hc.cofactorMul hl hQ _).bind fun z2 _ hz2 => ?_
  exact .ok ⟨hz1, hz2⟩

/-- The MQV exchange. -/
theorem mqv (hc : SmallCurve c c') (hk : Small k m) (hl : Small l n) (hP : SmallPoint P P')
    (hQ : SmallPoint Q Q') :
    Refines True SmallPoint (mqv c k l P Q) (mqv c' m n P' Q') := by
  refine (hc.ephemeralPoint hl).bind fun own _ hown => ?_
  refine (hc.mqvValue hown).bind fun weight _ hweight => ?_
  refine (hweight.modMul hk hc.n).bind fun implicit _ himplicit => ?_
  refine (hl.modAdd himplicit hc.n).bind fun t _ ht => ?_
  refine (hc.mqvValue hQ).bind fun peerWeight _ hpeerWeight => ?_
  refine (hc.mul hpeerWeight.denotes hP).bind fun shifted _ hshifted => ?_
  refine (hc.addNormalized hQ hshifted).bind fun base _ hbase => ?_
  refine .ite (by rw [hbase.isInfinity_eq]) (fun _ => .refused _) fun _ => ?_
  exact hc.cofactorMul ht hbase _

/-- The SM2 exchange. -/
theorem sm2 (hc : SmallCurve c c') (hk : Small k m) (hl : Small l n) (hP : SmallPoint P P')
    (hQ : SmallPoint Q Q') :
    Refines True SmallPoint (sm2 c k l P Q) (sm2 c' m n P' Q') := by
  refine (hc.ephemeralPoint hl).bind fun own _ hown => ?_
  refine (hc.sm2Value hown).bind fun weight _ hweight => ?_
  refine (hl.modMul hweight hc.n).bind fun implicit _ himplicit => ?_
  refine (hk.modAdd himplicit hc.n).bind fun t _ ht => ?_
  refine (hc.h.modMul ht hc.n).bind fun ht' _ hht => ?_
  refine (hc.sm2Value hQ).bind fun peerWeight _ hpeerWeight => ?_
  refine (hc.mul hpeerWeight.denotes hQ).bind fun shifted _ hshifted => ?_
  refine (hc.addNormalized hP hshifted).bind fun base _ hbase => ?_
  refine (hc.mul hht.denotes hbase).bind fun z _ hz => ?_
  exact .ite (by rw [hz.isInfinity_eq]) (fun _ => .refused _) fun _ => .ok hz

/-! ### Exchanges on the wire -/

/-- One-pass exchanges. -/
theorem exchangeOnce (hc : SmallCurve c c') (d : Bytes) (q : Wire.Point) :
    Refines True Eq (c.exchangeOnce d q) (c'.exchangeOnce d q) := by
  refine (hc.peerPoint q).bind fun q _ hq => ?_
  refine (hc.privateScalar d).bind fun d _ hd => ?_
  refine (hc.cofactorMul hd hq _).bind fun z _ hz => ?_
  exact hc.toWire hz

/-- Two-phase exchanges. -/
theorem exchangeTwice (hc : SmallCurve c c') (scheme : AlgorithmId) (ds de : Bytes)
    (qs qe : Wire.Point) :
    Refines True Eq (c.exchangeTwice scheme ds de qs qe) (c'.exchangeTwice scheme ds de qs qe) := by
  refine (hc.exchangePeer scheme qs).bind fun qs _ hqs => ?_
  refine (hc.exchangePeer scheme qe).bind fun qe _ hqe => ?_
  refine (hc.privateScalar ds).bind fun ds _ hds => ?_
  refine (hc.privateScalar de).bind fun de _ hde => ?_
  refine .ite Iff.rfl (fun _ => ?_) fun _ => ?_
  · refine (hc.fullUnified hds hde hqs hqe).bind fun z _ hz => ?_
    refine (hc.toWire hz.fst).bind fun z1 _ hz1 => ?_
    refine (hc.toWire hz.snd).bind fun z2 _ hz2 => ?_
    subst hz1 hz2
    exact .ok rfl
  have hanswer {z : Checked (Jacobian α)} {z' : Checked (Jacobian Nat)}
      (hz : Refines True SmallPoint z z') :
      Refines True Eq (do return (⟨← c.toWire (← z), none⟩ : SharedPoints))
        (do return (⟨← c'.toWire (← z'), none⟩ : SharedPoints)) := by
    refine hz.bind fun z _ hz => (hc.toWire hz).bind fun z _ hz => ?_
    subst hz
    exact .ok rfl
  refine .ite Iff.rfl (fun _ => hanswer (hc.mqv hds hde hqs hqe)) fun _ => ?_
  exact .ite Iff.rfl (fun _ => hanswer (hc.sm2 hds hde hqs hqe)) fun _ => .refused _

end SmallCurve

end TrustedPlatform
