import TrustedPlatform.Proofs.Curve.Recoverable
import TrustedPlatform.Proofs.Random.Ending
import TrustedPlatform.Proofs.Signature.Refinement

/-!
# Signatures end recoverably

In exact arithmetic, signing under a registered curve fails fatally only with its source, and a
verification only under SM2 for a public point off the curve, which the caller answers for.
-/

namespace TrustedPlatform

open FixedNat (scratchLimbs)
open Limbs (count count_mono)
open Signature

/-- The response to a challenge. -/
theorem Signature.schnorrResponse_recoverable {n : Nat} (hn : n ≠ 0) (k r d : Nat) :
    Recoverable (schnorrResponse k r d n) := by
  refine (Exact.reduce_recoverable hn r).bind fun r _ => ?_
  refine .ite (fun _ => .refused rfl) fun _ => ?_
  refine (Exact.modMul_recoverable hn r d).bind fun rd _ => ?_
  refine (Exact.modAdd_recoverable hn k rd).bind fun s _ => ?_
  exact .ite (fun _ => .refused rfl) fun _ => .value trivial

namespace CurveParameters

variable {d : CurveParameters} [Fact d.p.Prime] {P : Jacobian Nat}

/-! ### The elliptic curve digital signature algorithm -/

/-- Signing with a given ephemeral scalar. -/
theorem ecdsaSignWith_recoverable (hd : d ∈ all) (x k : Nat) (digest : Bytes) :
    Recoverable (Ecdsa.signWith (Curve.ofParameters d) x k digest) := by
  have hn := exact_n_ne_zero hd
  refine ((isNormal_generator hd).mul hd k).bind fun point hpoint => ?_
  refine .ite (fun _ => .refused rfl) fun _ => ?_
  refine (Exact.reduce_recoverable hn _).bind fun r _ => ?_
  refine .ite (fun _ => .refused rfl) fun _ => ?_
  refine (digestToInt_recoverable d digest).bind fun e _ => ?_
  refine (Exact.modInverse_recoverable hn k).bind fun o _ => ?_
  cases o with
  | none => exact .refused rfl
  | some inverse =>
      refine (Exact.modMul_recoverable hn r x).bind fun rd _ => ?_
      refine (Exact.modAdd_recoverable hn e rd).bind fun sum _ => ?_
      refine (Exact.modMul_recoverable hn inverse sum).bind fun s _ => ?_
      exact .ite (fun _ => .refused rfl) fun _ => .value trivial

/-- Verifying. -/
theorem ecdsaVerify_recoverable (hd : d ∈ all) (hP : d.IsNormal P) (digest : Bytes) (r s : Nat) :
    Recoverable (Ecdsa.verify (Curve.ofParameters d) P digest r s) := by
  have hn := exact_n_ne_zero hd
  refine (Require.signature_recovers _ _).bind fun _ _ => ?_
  refine (digestToInt_recoverable d digest).bind fun e _ => ?_
  refine (Exact.modInverse_recoverable hn s).bind fun o _ => ?_
  cases o with
  | none => exact .refused rfl
  | some w =>
      refine (Exact.reduce_recoverable hn e).bind fun e _ => ?_
      refine (Exact.modMul_recoverable hn e w).bind fun u1 _ => ?_
      refine (Exact.modMul_recoverable hn r w).bind fun u2 _ => ?_
      refine ((isNormal_generator hd).mul2 hd hP u1 u2).bind fun point _ => ?_
      refine .ite (fun _ => .refused rfl) fun _ => ?_
      refine (Exact.reduce_recoverable hn point.x).bind fun v _ => ?_
      exact (Require.signature_recovers _ _).mono fun _ _ => trivial

/-! ### Schnorr signatures -/

omit [Fact d.p.Prime] in
/-- The challenge. -/
theorem schnorrChallenge_recoverable (hd : d ∈ all) (h : Hash) (P : Jacobian Nat)
    (digest : Bytes) : Recoverable (Schnorr.challenge (Curve.ofParameters d) h P digest) := by
  refine (xBytes_recoverable d P).bind fun x _ => ?_
  refine (digestToInt_recoverable d _).bind fun e _ => ?_
  exact Exact.reduce_recoverable (exact_n_ne_zero hd) e

/-- Signing with a given ephemeral scalar. -/
theorem schnorrSignWith_recoverable (hd : d ∈ all) (h : Hash) (x k : Nat) (digest : Bytes) :
    Recoverable (Schnorr.signWith (Curve.ofParameters d) h x k digest) := by
  refine ((isNormal_generator hd).mul hd k).bind fun point _ => ?_
  refine .ite (fun _ => .refused rfl) fun _ => ?_
  refine (schnorrChallenge_recoverable hd h point digest).bind fun r _ => ?_
  refine (schnorrResponse_recoverable (exact_n_ne_zero hd) k r x).bind fun s _ => ?_
  exact .value trivial

/-- Verifying. -/
theorem schnorrVerify_recoverable (hd : d ∈ all) (h : Hash) (hP : d.IsNormal P) (digest : Bytes)
    (r s : Nat) : Recoverable (Schnorr.verify (Curve.ofParameters d) h P digest r s) := by
  refine (Require.signature_recovers _ _).bind fun _ _ => ?_
  refine (Exact.modSub_recoverable (exact_n_ne_zero hd) _ r).bind fun minusR _ => ?_
  refine ((isNormal_generator hd).mul2 hd hP s minusR).bind fun point _ => ?_
  refine .ite (fun _ => .refused rfl) fun _ => ?_
  refine (schnorrChallenge_recoverable hd h point digest).bind fun expected _ => ?_
  exact (Require.signature_recovers _ _).mono fun _ _ => trivial

/-! ### SM2 signatures -/

/-- Signing with a given ephemeral scalar. -/
theorem sm2SignWith_recoverable (hd : d ∈ all) (x k : Nat) (digest : Bytes) :
    Recoverable (Sm2.signWith (Curve.ofParameters d) x k digest) := by
  have hn := exact_n_ne_zero hd
  refine ((isNormal_generator hd).mul hd k).bind fun point _ => ?_
  refine .ite (fun _ => .refused rfl) fun _ => ?_
  refine (Exact.reduce_recoverable hn _).bind fun e _ => ?_
  refine (Exact.modAdd_recoverable hn e point.x).bind fun r _ => ?_
  refine .ite (fun _ => .refused rfl) fun _ => ?_
  refine (Exact.modAdd_recoverable hn r k).bind fun rk _ => ?_
  refine .ite (fun _ => .refused rfl) fun _ => ?_
  refine (Exact.modAdd_recoverable hn _ x).bind fun next _ => ?_
  refine (Exact.modInverse_recoverable hn next).bind fun o _ => ?_
  cases o with
  | none => exact .refused rfl
  | some inverse =>
      refine (Exact.modMul_recoverable hn r x).bind fun rd _ => ?_
      refine (Exact.modSub_recoverable hn k rd).bind fun difference _ => ?_
      refine (Exact.modMul_recoverable hn inverse difference).bind fun s _ => ?_
      exact .ite (fun _ => .refused rfl) fun _ => .value trivial

/-- Verifying. -/
theorem sm2Verify_recoverable (hd : d ∈ all) (hP : d.IsNormal P) (digest : Bytes) (r s : Nat) :
    Recoverable (Sm2.verify (Curve.ofParameters d) P digest r s) := by
  have hn := exact_n_ne_zero hd
  refine (Require.signature_recovers _ _).bind fun _ _ => ?_
  refine (Exact.modAdd_recoverable hn r s).bind fun t _ => ?_
  refine .ite (fun _ => .refused rfl) fun _ => ?_
  refine ((isNormal_generator hd).mul2 hd hP s t).bind fun point _ => ?_
  refine .ite (fun _ => .refused rfl) fun _ => ?_
  refine (Exact.reduce_recoverable hn _).bind fun e _ => ?_
  refine (Exact.modAdd_recoverable hn e point.x).bind fun expected _ => ?_
  exact (Require.signature_recovers _ _).mono fun _ _ => trivial

/-- In buffers, a verification comes as far as the digest when the scalars are in range and the
point that it computes is finite, and runs out of room there when the digest is beyond the scratch
area. -/
theorem sm2Verify_exhausted (hd : d ∈ all) {A : d.curve.Point} {q : Jacobian FixedNat}
    (hq : q.Represents (d.a : ZMod d.p) d.b A) {r s : FixedNat} {m k : Nat} (hr : r.Denotes m)
    (hs : s.Denotes k) (hm : 0 < m ∧ m < d.n) (hk : 0 < k ∧ k < d.n) (hsum : (m + k) % d.n ≠ 0)
    (hfinite : k • d.point d.generator + ((m + k) % d.n) • A ≠ 0) {digest : Bytes}
    (hdigest : scratchLimbs < count (Bytes.toNat digest)) :
    Sm2.verify (Curve.ofParameters d) q digest r s = .error (.fatal .allocation) := by
  have hreg := regular_of_mem d hd
  have hn := order_modulus (α := FixedNat) hd
  have hne : NeZero d.n := ⟨Nat.ne_zero_of_lt hm.2⟩
  have hcount {j : Nat} (hj : j < d.n) : count j ≤ 64 := (count_mono hj.le).trans hn.count_le
  obtain ⟨t, ht, hsumReduced⟩ := (Residue.of_denotes (p := d.n) hr (hcount hm.2)).add hn
    (.of_denotes hs (hcount hk.2))
  have htDenotes := hsumReduced.denotes
  rw [← Nat.cast_add, ZMod.val_natCast] at htDenotes
  have hG := (generator_onCurve d hd).represents hreg (matches_generator (α := FixedNat) d)
  obtain ⟨point, hpoint, hmatches⟩ := hreg.loaded.mul2_returns hs htDenotes hG hq
  have hnonzero : ¬Arithmetic.isZero t = true := by
    rw [LawfulArithmetic.isZero htDenotes, beq_iff_eq]
    exact hsum
  have hpointFinite : ¬point.isInfinity = true := mt hmatches.isInfinity_iff.mp hfinite
  have hreduce : Arithmetic.reduce (Arithmetic.ofBytes digest) (Curve.ofParameters d).n =
      (.error (.fatal .allocation) : Checked FixedNat) :=
    LawfulArithmetic.reduce_exhausted (LawfulArithmetic.ofBytes (α := FixedNat) digest) hn.denotes
      hdigest hne.ne
  rw [Sm2.verify, (inScalarRange_iff hr).mpr hm, (inScalarRange_iff hs).mpr hk]
  show (Arithmetic.modAdd r s (Curve.ofParameters d).n >>= _) = _
  rw [ht]
  show (if Arithmetic.isZero t = true then _ else
    ((Curve.ofParameters d).mul2 s (Curve.ofParameters d).g t q >>= _)) = _
  rw [if_neg hnonzero, hpoint]
  show (if point.isInfinity = true then _ else
    (Arithmetic.reduce (Arithmetic.ofBytes digest) (Curve.ofParameters d).n >>= _)) = _
  rw [if_neg hpointFinite, hreduce]
  rfl

/-! ### Signatures on the wire -/

/-- Verifying, unless the caller answers for a point off the curve. -/
theorem verify_recoverable (hd : d ∈ all) {q : Wire.Point} {signature : Signature}
    (hq : signature.scheme = .sm2 → d.Accepts q) (digest : Bytes) :
    Recoverable ((Curve.ofParameters d : Curve Nat).verify q signature digest) := by
  rw [Curve.verify, Curve.signerPoint_eq, exact_validatedPoint (prime_of_mem d hd).ne_zero]
  refine (answered_recovers hd hq).bind fun point hpoint => ?_
  refine .ite (fun _ => ecdsaVerify_recoverable hd hpoint digest _ _) fun _ => ?_
  refine .ite (fun _ => schnorrVerify_recoverable hd signature.hash hpoint digest _ _) fun _ => ?_
  exact .ite (fun _ => sm2Verify_recoverable hd hpoint digest _ _) fun _ => .refused rfl

variable {σ : Type} [RandomSource σ]

/-- Signing. -/
theorem sign_contained (hd : d ∈ all) (scheme : AlgorithmId) (h : Hash)
    (privateKey digest : Bytes) :
    Contained (fun s : σ => s) True (fun _ => True)
      ((Curve.ofParameters d : Curve Nat).sign scheme h privateKey digest :
        Randomized σ Signature) := by
  refine (Contained.lift (Require.length_recoverable _ _ _)).bind fun _ _ => ?_
  refine (Contained.lift (privateScalar_recoverable d privateKey)).bind fun x _ => ?_
  have hk := randomScalar_contained (σ := σ) hd
  -- what follows the choice of a scheme is shared by its branches
  refine .ite (fun _ => ?_) fun _ => .ite (fun _ => ?_) fun _ => .ite (fun _ => ?_) fun _ => ?_
  case' refine_1 =>
    refine (hk.retry (fun k _ => ecdsaSignWith_recoverable hd x k digest) _ _).bind ?_
  case' refine_2 =>
    refine (hk.retry (fun k _ => schnorrSignWith_recoverable hd h x k digest) _ _).bind ?_
  case' refine_3 =>
    refine (hk.retry (fun k _ => sm2SignWith_recoverable hd x k digest) _ _).bind ?_
  case' refine_4 => refine (Contained.throw (P := fun _ => True) rfl).bind ?_
  all_goals
    intro pair _
    refine (Contained.lift (scalarParameter_recoverable d pair.1)).bind fun r _ => ?_
    refine (Contained.lift (scalarParameter_recoverable d pair.2)).bind fun s _ => ?_
    exact .pure trivial

end CurveParameters

end TrustedPlatform
