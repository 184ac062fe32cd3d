import TrustedPlatform.Proofs.Curve.Refinement
import TrustedPlatform.Proofs.Derivation
import TrustedPlatform.Signature

/-!
# Signatures in a lawful arithmetic

The schemes are composed of operations on scalars and points, which never run out of room; a lawful
arithmetic signs and verifies as exact arithmetic does. The one exception is the digest of an SM2
signature, which is reduced at its full length, so that there has to be room for it.
-/

namespace TrustedPlatform

open LawfulArithmetic (Denotes RoomToReduce)
open Limbs (count)
open FixedNat (scratchLimbs)

variable {α : Type} [Arithmetic α] [LawfulArithmetic α]

omit [LawfulArithmetic α] in
/-- The caller of an SM2 verification answers for the public point. -/
theorem Curve.signerPoint_eq (c : Curve α) (scheme : AlgorithmId) (q : Wire.Point) :
    c.signerPoint scheme q = answeredFor scheme (c.validatedPoint q) := by
  rw [signerPoint]
  rcases c.validatedPoint q with e | point
  · cases e <;> rfl
  · rfl

/-- The two small numbers of a signature. -/
structure SmallPair (v : α × α) (w : Nat × Nat) : Prop where
  fst : Small v.1 w.1
  snd : Small v.2 w.2

/-- The response to a challenge. -/
theorem Signature.schnorrResponse_refines {k r d n : α} {k' r' d' n' : Nat} (hk : Small k k')
    (hr : Small r r') (hd : Small d d') (hn : Small n n') :
    Refines True Small (schnorrResponse k r d n) (schnorrResponse k' r' d' n') := by
  refine (hr.reduce hn).bind fun r _ hr => ?_
  refine .ite (by rw [hr.denotes.isZero_eq]) (fun _ => .refused _) fun _ => ?_
  refine (hr.modMul hd hn).bind fun rd _ hrd => ?_
  refine (hk.modAdd hrd hn).bind fun s _ hs => ?_
  exact .ite (by rw [hs.denotes.isZero_eq]) (fun _ => .refused _) fun _ => .ok hs

namespace SmallCurve

open Signature

variable {c : Curve α} {c' : Curve Nat} {P : Jacobian α} {P' : Jacobian Nat}
variable {d k r s : α} {d' k' r' s' : Nat}

/-- The first check of a signature. -/
theorem requireScalars (hc : SmallCurve c c') (hr : Denotes r r') (hs : Denotes s s')
    (algorithm : String) :
    Refines True (fun _ _ => Small r r' ∧ Small s s')
      (Require.signature (c.inScalarRange r && c.inScalarRange s) algorithm)
      (Require.signature (c'.inScalarRange r' && c'.inScalarRange s') algorithm) := by
  rw [hc.inScalarRange_eq hr, hc.inScalarRange_eq hs]
  refine .ite Iff.rfl (fun h => .ok ?_) fun _ => .refused _
  rw [Bool.and_eq_true] at h
  exact ⟨hc.small_of_inScalarRange hr h.1, hc.small_of_inScalarRange hs h.2⟩

/-! ### The elliptic curve digital signature algorithm -/

/-- Signing with a given ephemeral scalar. -/
theorem ecdsaSignWith (hc : SmallCurve c c') (hd : Small d d') (hk : Small k k') (digest : Bytes) :
    Refines True SmallPair (Ecdsa.signWith c d k digest) (Ecdsa.signWith c' d' k' digest) := by
  have hn := hc.n
  refine (hc.mul hk.denotes hc.g).bind fun point _ hpoint => ?_
  refine .ite (by rw [hpoint.isInfinity_eq]) (fun _ => .refused _) fun _ => ?_
  refine (hpoint.x.reduce hn).bind fun r _ hr => ?_
  refine .ite (by rw [hr.denotes.isZero_eq]) (fun _ => .refused _) fun _ => ?_
  refine (hc.digestToInt digest).bind fun e _ he => ?_
  refine (hk.modInverse hn).bind fun o o' ho => ?_
  cases ho with
  | none => exact .refused _
  | some hinverse =>
      refine (hr.modMul hd hn).bind fun rd _ hrd => ?_
      refine (he.modAdd hrd hn).bind fun sum _ hsum => ?_
      refine (hinverse.modMul hsum hn).bind fun s _ hs => ?_
      exact .ite (by rw [hs.denotes.isZero_eq]) (fun _ => .refused _) fun _ => .ok ⟨hr, hs⟩

/-- Verifying. -/
theorem ecdsaVerify (hc : SmallCurve c c') (hP : SmallPoint P P') (digest : Bytes)
    (hr : Denotes r r') (hs : Denotes s s') :
    Refines True Eq (Ecdsa.verify c P digest r s) (Ecdsa.verify c' P' digest r' s') := by
  have hn := hc.n
  refine (hc.requireScalars hr hs _).bind fun _ _ ⟨hr, hs⟩ => ?_
  refine (hc.digestToInt digest).bind fun e _ he => ?_
  refine (hs.modInverse hn).bind fun o o' ho => ?_
  cases ho with
  | none => exact .refused _
  | some hw =>
      refine (he.reduce hn).bind fun e _ he => ?_
      refine (he.modMul hw hn).bind fun u1 _ hu1 => ?_
      refine (hr.modMul hw hn).bind fun u2 _ hu2 => ?_
      refine (hc.mul2 hu1.denotes hc.g hu2.denotes hP).bind fun point _ hpoint => ?_
      refine .ite (by rw [hpoint.isInfinity_eq]) (fun _ => .refused _) fun _ => ?_
      refine (hpoint.x.reduce hn).bind fun v _ hv => ?_
      exact .of_eq (by rw [hv.denotes.eq_eq hr.denotes])

/-! ### Schnorr signatures -/

/-- The challenge. -/
theorem schnorrChallenge (hc : SmallCurve c c') (h : Hash) (hP : SmallPoint P P')
    (digest : Bytes) :
    Refines True Small (Schnorr.challenge c h P digest) (Schnorr.challenge c' h P' digest) := by
  refine (hc.xBytes hP).bind fun x _ hx => ?_
  subst hx
  refine (hc.digestToInt _).bind fun e _ he => ?_
  exact he.reduce hc.n

/-- Signing with a given ephemeral scalar. -/
theorem schnorrSignWith (hc : SmallCurve c c') (h : Hash) (hd : Small d d') (hk : Small k k')
    (digest : Bytes) :
    Refines True SmallPair (Schnorr.signWith c h d k digest)
      (Schnorr.signWith c' h d' k' digest) := by
  refine (hc.mul hk.denotes hc.g).bind fun point _ hpoint => ?_
  refine .ite (by rw [hpoint.isInfinity_eq]) (fun _ => .refused _) fun _ => ?_
  refine (hc.schnorrChallenge h hpoint digest).bind fun r _ hr => ?_
  refine (schnorrResponse_refines hk hr hd hc.n).bind fun s _ hs => ?_
  exact .ok ⟨hr, hs⟩

/-- Verifying. -/
theorem schnorrVerify (hc : SmallCurve c c') (h : Hash) (hP : SmallPoint P P') (digest : Bytes)
    (hr : Denotes r r') (hs : Denotes s s') :
    Refines True Eq (Schnorr.verify c h P digest r s) (Schnorr.verify c' h P' digest r' s') := by
  refine (hc.requireScalars hr hs _).bind fun _ _ ⟨hr, hs⟩ => ?_
  refine (Small.modSub (.ofWord 0) hr hc.n).bind fun minusR _ hminusR => ?_
  refine (hc.mul2 hs.denotes hc.g hminusR.denotes hP).bind fun point _ hpoint => ?_
  refine .ite (by rw [hpoint.isInfinity_eq]) (fun _ => .refused _) fun _ => ?_
  refine (hc.schnorrChallenge h hpoint digest).bind fun expected _ hexpected => ?_
  exact .of_eq (by rw [hexpected.denotes.eq_eq hr.denotes])

/-! ### SM2 signatures -/

/-- Signing with a given ephemeral scalar. -/
theorem sm2SignWith (hc : SmallCurve c c') (hd : Small d d') (hk : Small k k') {digest : Bytes}
    (hdigest : count (Bytes.toNat digest) ≤ scratchLimbs) :
    Refines True SmallPair (Sm2.signWith c d k digest) (Sm2.signWith c' d' k' digest) := by
  have hn := hc.n
  refine (hc.mul hk.denotes hc.g).bind fun point _ hpoint => ?_
  refine .ite (by rw [hpoint.isInfinity_eq]) (fun _ => .refused _) fun _ => ?_
  refine (Small.reduce_of_count (LawfulArithmetic.ofBytes digest) hdigest hn).bind fun e _ he => ?_
  refine (he.modAdd hpoint.x hn).bind fun r _ hr => ?_
  refine .ite (by rw [hr.denotes.isZero_eq]) (fun _ => .refused _) fun _ => ?_
  refine (hr.modAdd hk hn).bind fun rk _ hrk => ?_
  refine .ite (by rw [hrk.denotes.isZero_eq]) (fun _ => .refused _) fun _ => ?_
  refine (Small.modAdd (.ofWord 1) hd hn).bind fun next _ hnext => ?_
  refine (hnext.modInverse hn).bind fun o o' ho => ?_
  cases ho with
  | none => exact .refused _
  | some hinverse =>
      refine (hr.modMul hd hn).bind fun rd _ hrd => ?_
      refine (hk.modSub hrd hn).bind fun difference _ hdifference => ?_
      refine (hinverse.modMul hdifference hn).bind fun s _ hs => ?_
      exact .ite (by rw [hs.denotes.isZero_eq]) (fun _ => .refused _) fun _ => .ok ⟨hr, hs⟩

/-- Verifying. -/
theorem sm2Verify (hc : SmallCurve c c') (hP : SmallPoint P P') {digest : Bytes}
    (hroom : RoomToReduce α (Bytes.toNat digest)) (hr : Denotes r r') (hs : Denotes s s') :
    Refines True Eq (Sm2.verify c P digest r s) (Sm2.verify c' P' digest r' s') := by
  have hn := hc.n
  have hne (t : Nat) (ht : Arithmetic.modAdd r' s' c'.n = .ok t) : c'.n ≠ 0 := by
    rw [LawfulArithmetic.exact_modAdd] at ht
    exact (Exact.of_unlessZero ht).1
  refine (hc.requireScalars hr hs _).bind fun _ _ ⟨hr, hs⟩ => ?_
  refine ((hr.modAdd hs hn).and_of_ok hne).bind fun t _ ⟨ht, hne⟩ => ?_
  refine .ite (by rw [ht.denotes.isZero_eq]) (fun _ => .refused _) fun _ => ?_
  refine (hc.mul2 hs.denotes hc.g ht.denotes hP).bind fun point _ hpoint => ?_
  refine .ite (by rw [hpoint.isInfinity_eq]) (fun _ => .refused _) fun _ => ?_
  refine (Small.reduce_of_room (LawfulArithmetic.ofBytes digest) hroom hn hne).bind fun e _ he => ?_
  refine (he.modAdd hpoint.x hn).bind fun expected _ hexpected => ?_
  exact .of_eq (by rw [hexpected.denotes.eq_eq hr.denotes])

/-! ### Signatures on the wire -/

/-- Signing. -/
theorem sign {σ : Type} [RandomSource σ] (hc : SmallCurve c c') (scheme : AlgorithmId) (h : Hash)
    (privateKey digest : Bytes) :
    Lockstep Eq (c.sign scheme h privateKey digest : Randomized σ Signature)
      (c'.sign scheme h privateKey digest) := by
  have hlength : Refines True (fun _ _ => digest.length = h.size)
      (Require.length "digest" digest.length h.size)
      (Require.length "digest" digest.length h.size) :=
    .ite Iff.rfl (fun h => .ok h) fun _ => .refused _
  refine (Lockstep.lift hlength).bind fun _ _ hlength => ?_
  refine (Lockstep.lift (hc.privateScalar privateKey)).bind fun d d' hd => ?_
  have hdigest := Limbs.count_toNat_le_scratch
    ((hlength.trans_le h.size_le).trans (show 64 ≤ 1040 by decide))
  -- what follows the choice of a scheme is shared by its branches
  refine .ite Iff.rfl (fun _ => ?_) fun _ => .ite Iff.rfl (fun _ => ?_) fun _ =>
    .ite Iff.rfl (fun _ => ?_) fun _ => ?_
  case' refine_1 =>
    refine (Lockstep.retry hc.randomScalar (fun k k' hk => hc.ecdsaSignWith hd hk digest) _
      _).bind ?_
  case' refine_2 =>
    refine (Lockstep.retry hc.randomScalar (fun k k' hk => hc.schnorrSignWith h hd hk digest) _
      _).bind ?_
  case' refine_3 =>
    refine (Lockstep.retry hc.randomScalar (fun k k' hk => hc.sm2SignWith hd hk hdigest) _
      _).bind ?_
  case' refine_4 => refine (Lockstep.throw (R := SmallPair) (.refl _)).bind ?_
  all_goals
    intro v w hpair
    refine (Lockstep.lift (hc.scalarParameter hpair.fst.denotes)).bind fun r _ hr => ?_
    refine (Lockstep.lift (hc.scalarParameter hpair.snd.denotes)).bind fun s _ hs => ?_
    subst hr hs
    exact .pure rfl

/-- The public point of a signature. -/
theorem signerPoint (hc : SmallCurve c c') (scheme : AlgorithmId) (q : Wire.Point) :
    Refines True SmallPoint (c.signerPoint scheme q) (c'.signerPoint scheme q) := by
  rw [Curve.signerPoint_eq, Curve.signerPoint_eq]
  exact (hc.validatedPoint q).answeredFor scheme

/-- Verifying. -/
theorem verify (hc : SmallCurve c c') (q : Wire.Point) (signature : Signature) {digest : Bytes}
    (hroom : signature.scheme = .sm2 → RoomToReduce α (Bytes.toNat digest)) :
    Refines True Eq (c.verify q signature digest) (c'.verify q signature digest) := by
  refine (hc.signerPoint signature.scheme q).bind fun point _ hpoint => ?_
  have hr := LawfulArithmetic.ofBytes (α := α) signature.r.bytes
  have hs := LawfulArithmetic.ofBytes (α := α) signature.s.bytes
  refine .ite Iff.rfl (fun _ => hc.ecdsaVerify hpoint digest hr hs) fun _ => ?_
  refine .ite Iff.rfl (fun _ => hc.schnorrVerify signature.hash hpoint digest hr hs) fun _ => ?_
  exact .ite Iff.rfl (fun hscheme => hc.sm2Verify hpoint (hroom hscheme) hr hs)
    fun _ => .refused _

end SmallCurve

end TrustedPlatform
