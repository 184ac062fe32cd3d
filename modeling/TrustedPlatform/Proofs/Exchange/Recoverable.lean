import TrustedPlatform.Proofs.Curve.Recoverable
import TrustedPlatform.Proofs.Exchange.Refinement

/-!
# Key exchanges end recoverably

In exact arithmetic, an exchange on a registered curve is fatal only under SM2 in two phases, for a
peer's point off the curve, which the caller answers for.
-/

namespace TrustedPlatform

open Exchange

/-- The associate value of a number. -/
theorem Exchange.associate_recoverable (x bits : Nat) : Recoverable (associate x bits) := by
  refine (Exact.maskBits_recoverable x bits).bind fun low _ => ?_
  exact .value trivial

namespace CurveParameters

variable {d : CurveParameters} [Fact d.p.Prime] {P Q : Jacobian Nat}

/-- Multiples with the cofactor. -/
theorem cofactorMul_recovers (hd : d ∈ all) (hP : d.IsNormal P) (k : Nat) (operation : String) :
    Recovers d.IsNormal (cofactorMul (Curve.ofParameters d) k P operation) := by
  refine (hP.mul hd ((Curve.ofParameters d : Curve Nat).h * k)).bind fun z hz => ?_
  exact .ite (fun _ => .refused rfl) fun _ => .value hz

/-- Points of ephemeral scalars. -/
theorem ephemeralPoint_recovers (hd : d ∈ all) (k : Nat) :
    Recovers d.IsNormal (ephemeralPoint (Curve.ofParameters d) k) := by
  refine ((isNormal_generator hd).mul hd k).bind fun q hq => ?_
  exact .ite (fun _ => .refused rfl) fun _ => .value hq

/-! ### The schemes -/

/-- The full unified model. -/
theorem fullUnified_recovers (hd : d ∈ all) (hP : d.IsNormal P) (hQ : d.IsNormal Q) (k l : Nat) :
    Recovers (fun z => d.IsNormal z.1 ∧ d.IsNormal z.2)
      (fullUnified (Curve.ofParameters d) k l P Q) := by
  refine (cofactorMul_recovers hd hP k _).bind fun z1 hz1 => ?_
  refine (cofactorMul_recovers hd hQ l _).bind fun z2 hz2 => ?_
  exact .value ⟨hz1, hz2⟩

/-- The MQV exchange. -/
theorem mqv_recovers (hd : d ∈ all) (hP : d.IsNormal P) (hQ : d.IsNormal Q) (k l : Nat) :
    Recovers d.IsNormal (mqv (Curve.ofParameters d) k l P Q) := by
  have hn := exact_n_ne_zero hd
  refine (ephemeralPoint_recovers hd l).bind fun own _ => ?_
  refine (associate_recoverable _ _).bind fun weight _ => ?_
  refine (Exact.modMul_recoverable hn weight k).bind fun implicit _ => ?_
  refine (Exact.modAdd_recoverable hn l implicit).bind fun t _ => ?_
  refine (associate_recoverable _ _).bind fun peerWeight _ => ?_
  refine (hP.mul hd peerWeight).bind fun shifted hshifted => ?_
  refine (hQ.addNormalized hd hshifted).bind fun base hbase => ?_
  refine .ite (fun _ => .refused rfl) fun _ => ?_
  exact cofactorMul_recovers hd hbase t _

/-- The SM2 exchange. -/
theorem sm2_recovers (hd : d ∈ all) (hP : d.IsNormal P) (hQ : d.IsNormal Q) (k l : Nat) :
    Recovers d.IsNormal (sm2 (Curve.ofParameters d) k l P Q) := by
  have hn := exact_n_ne_zero hd
  refine (ephemeralPoint_recovers hd l).bind fun own _ => ?_
  refine (associate_recoverable _ _).bind fun weight _ => ?_
  refine (Exact.modMul_recoverable hn l weight).bind fun implicit _ => ?_
  refine (Exact.modAdd_recoverable hn k implicit).bind fun t _ => ?_
  refine (Exact.modMul_recoverable hn _ t).bind fun ht _ => ?_
  refine (associate_recoverable _ _).bind fun peerWeight _ => ?_
  refine (hQ.mul hd peerWeight).bind fun shifted hshifted => ?_
  refine (hP.addNormalized hd hshifted).bind fun base hbase => ?_
  refine (hbase.mul hd ht).bind fun z hz => ?_
  exact .ite (fun _ => .refused rfl) fun _ => .value hz

/-! ### Exchanges on the wire -/

/-- One-pass exchanges. -/
theorem exchangeOnce_recoverable (hd : d ∈ all) (privateKey : Bytes) (q : Wire.Point) :
    Recoverable ((Curve.ofParameters d : Curve Nat).exchangeOnce privateKey q) := by
  rw [Curve.exchangeOnce, exact_peerPoint (prime_of_mem d hd).ne_zero]
  refine (accepted_recovers hd q).bind fun q hq => ?_
  refine (privateScalar_recoverable d privateKey).bind fun k _ => ?_
  refine (cofactorMul_recovers hd hq k _).bind fun z hz => ?_
  exact hz.toWire hd

/-- Two-phase exchanges, unless the caller answers for points off the curve. -/
theorem exchangeTwice_recoverable (hd : d ∈ all) {scheme : AlgorithmId} {qs qe : Wire.Point}
    (hqs : scheme = .sm2 → d.Accepts qs) (hqe : scheme = .sm2 → d.Accepts qe) (ds de : Bytes) :
    Recoverable ((Curve.ofParameters d : Curve Nat).exchangeTwice scheme ds de qs qe) := by
  have hp := (prime_of_mem d hd).ne_zero
  rw [Curve.exchangeTwice, Curve.exchangePeer_eq, Curve.exchangePeer_eq, exact_peerPoint hp,
    exact_peerPoint hp]
  refine (answered_recovers hd hqs).bind fun qs hqs => ?_
  refine (answered_recovers hd hqe).bind fun qe hqe => ?_
  refine (privateScalar_recoverable d ds).bind fun ds _ => ?_
  refine (privateScalar_recoverable d de).bind fun de _ => ?_
  refine .ite (fun _ => ?_) fun _ => ?_
  · refine (fullUnified_recovers hd hqs hqe ds de).bind fun z hz => ?_
    refine (hz.1.toWire hd).bind fun z1 _ => ?_
    refine (hz.2.toWire hd).bind fun z2 _ => ?_
    exact .value trivial
  have hanswer {z : Checked (Jacobian Nat)} (hz : Recovers d.IsNormal z) :
      Recoverable (do return (⟨← (Curve.ofParameters d).toWire (← z), none⟩ : SharedPoints)) :=
    hz.bind fun z hz => (hz.toWire hd).bind fun z _ => .value trivial
  refine .ite (fun _ => hanswer (mqv_recovers hd hqs hqe ds de)) fun _ => ?_
  exact .ite (fun _ => hanswer (sm2_recovers hd hqs hqe ds de)) fun _ => .refused rfl

end CurveParameters

end TrustedPlatform
