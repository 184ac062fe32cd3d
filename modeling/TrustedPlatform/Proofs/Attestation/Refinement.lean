import TrustedPlatform.Attestation.Commitment
import TrustedPlatform.Attestation.Response
import TrustedPlatform.Proofs.Signature.Refinement

/-!
# Anonymous signatures in a lawful arithmetic

Commitments, responses and their verification are composed of operations on scalars and points,
which never run out of room. The second coordinate that comes with a basename may be of any size,
but one that is not reduced is refused before it is computed with.
-/

namespace TrustedPlatform

open LawfulArithmetic (Denotes)
open Attestation

/-- A computation on an optional value, alike on both sides. -/
theorem Refines.mapM {β γ β' γ' : Type} {room : Prop} {R : β → γ → Prop} {S : β' → γ' → Prop}
    {o : Option β} {o' : Option γ} {f : β → Checked β'} {g : γ → Checked γ'}
    (h : Option.Rel R o o') (hfg : ∀ v w, R v w → Refines room S (f v) (g w)) :
    Refines room (Option.Rel S) (o.mapM f) (o'.mapM g) := by
  cases h with
  | none => exact .ok .none
  | some h => exact (hfg _ _ h).map fun _ _ hvalue => .some hvalue

/-- A computation on one optional value. -/
theorem Refines.mapM_self {β β' γ' : Type} {room : Prop} {S : β' → γ' → Prop} {f : β → Checked β'}
    {g : β → Checked γ'} (o : Option β) (hfg : ∀ v, Refines room S (f v) (g v)) :
    Refines room (Option.Rel S) (o.mapM f) (o.mapM g) := by
  cases o with
  | none => exact .ok .none
  | some v => exact (hfg v).map fun _ _ hvalue => .some hvalue

variable {α : Type} [Arithmetic α] [LawfulArithmetic α]

/-- The points of a commitment, with one counter. -/
structure SmallCommitment (v : Commitment α) (w : Commitment Nat) : Prop where
  counter : v.counter = w.counter
  k : Option.Rel SmallPoint v.k w.k
  l : Option.Rel SmallPoint v.l w.l
  e : SmallPoint v.e w.e

namespace SmallCurve

variable {c : Curve α} {c' : Curve Nat} {P Q : Jacobian α} {P' Q' : Jacobian Nat}
variable {d r s : α} {d' r' s' : Nat}

/-- The base point, which is the generator when none is given. -/
theorem base (hc : SmallCurve c c') {base : Option (Jacobian α)} {base' : Option (Jacobian Nat)}
    (hbase : Option.Rel SmallPoint base base') : SmallPoint (base.getD c.g) (base'.getD c'.g) := by
  cases hbase with
  | none => exact hc.g
  | some h => exact h

/-- The secret scalars of counters. -/
theorem secretScalar (hc : SmallCurve c c') (state : CommitState) (counter : UInt64)
    (name : Bytes) :
    Refines True Small (state.secretScalar c counter name)
      (state.secretScalar c' counter name) := by
  have hbits := hc.orderBits_le
  rw [CommitState.secretScalar, CommitState.secretScalar, hc.orderBits]
  refine (Refines.and_of_ok (.of_eq rfl) (P := (·.length ≤ 512)) fun raw hraw => ?_).bind
    fun raw raw' ⟨hraw, hlen⟩ => ?_
  · rw [Derivation.length_of_deriveA hraw, Derivation.byteCount]
    have hmod := Nat.mod_le c'.orderBits (2 ^ 32)
    rw [UInt32.toNat_ofNat']
    omega
  subst hraw
  refine ((Small.ofBytes hlen).reduce hc.n).bind fun r _ hr => ?_
  exact .ite (by rw [hr.denotes.isZero_eq]) (fun _ => .refused _) fun _ => .ok hr

/-! ### Commitments -/

/-- The points of basenames. -/
theorem basenamePoint (hc : SmallCurve c c') (base : Basename) :
    Refines True SmallPoint (base.point c) (base.point c') := by
  have hdigest : (base.hash.digest base.seed).length ≤ 512 :=
    ((base.hash.length_digest _).trans_le base.hash.size_le).trans (by decide)
  have hy := LawfulArithmetic.ofBytes (α := α) base.y
  refine ((Small.ofBytes hdigest).reduce hc.p).bind fun x x' hx => ?_
  refine (hc.contains_affine hx.denotes hy).bind fun contained _ ⟨hcontained, hreduced⟩ => ?_
  subst hcontained
  exact .ite Iff.rfl (fun h => .ok (.affine hx (.of_le hy (hreduced h).2.le hc.p)))
    fun _ => .refused _

/-- The points that link signatures under one basename. -/
theorem linkPoints (hc : SmallCurve c c') (hd : Small d d') (hr : Small r r')
    (hP : SmallPoint P P') (cancel : CancelSignal) :
    Refines True (fun v w => SmallPoint v.1 w.1 ∧ SmallPoint v.2 w.2) (linkPoints c d r P cancel)
      (linkPoints c' d' r' P' cancel) := by
  refine (Refines.of_eq rfl).bind fun _ _ _ => ?_
  refine (hc.mul hd.denotes hP).bind fun k _ hk => ?_
  refine (Refines.of_eq rfl).bind fun _ _ _ => ?_
  refine (hc.mul hr.denotes hP).bind fun l _ hl => ?_
  exact .ok ⟨hk, hl⟩

/-- The next commitment. -/
theorem nextCommitment (hc : SmallCurve c c') (state : CommitState) (hd : Small d d')
    (name : Bytes) {base : Option (Jacobian α)} {base' : Option (Jacobian Nat)}
    (hbase : Option.Rel SmallPoint base base') (basename : Option Basename)
    (cancel : CancelSignal) :
    Refines True SmallCommitment (nextCommitment c state d name base basename cancel)
      (nextCommitment c' state d' name base' basename cancel) := by
  have hp1 := hc.base hbase
  refine .ite (by rw [hp1.isInfinity_eq]) (fun _ => .refused _) fun _ => ?_
  refine (hc.contains hp1).bind fun contained _ hcontained => ?_
  subst hcontained
  refine .ite Iff.rfl (fun _ => .refused _) fun _ => ?_
  refine (Refines.mapM_self basename hc.basenamePoint).bind fun m m' hm => ?_
  refine (hc.secretScalar state _ name).bind fun r _ hr => ?_
  refine (hc.mul hr.denotes hp1).bind fun e e' he => ?_
  refine (Refines.mapM hm fun m _ hm => hc.linkPoints hd hr hm cancel).bind
    fun links links' hlinks => ?_
  cases hlinks with
  | none =>
      refine .ite (by rw [he.isInfinity_eq]; rfl) (fun _ => .refused _) fun _ => ?_
      exact .ok ⟨rfl, .none, .none, he⟩
  | some hlink =>
      refine .ite (by
        rw [he.isInfinity_eq]
        simp only [Option.any_some, hlink.1.isInfinity_eq, hlink.2.isInfinity_eq])
        (fun _ => .refused _) fun _ => ?_
      exact .ok ⟨rfl, .some hlink.1, .some hlink.2, he⟩

/-- Commitments are recorded together. -/
theorem commit (hc : SmallCurve c c') (state : CommitState) (hd : Small d d')
    (name : Bytes) {base : Option (Jacobian α)} {base' : Option (Jacobian Nat)}
    (hbase : Option.Rel SmallPoint base base') (basename : Option Basename)
    (cancel : CancelSignal) :
    Refines True SmallCommitment (Attestation.commit c state d name base basename cancel).1
        (Attestation.commit c' state d' name base' basename cancel).1 ∧
      (Attestation.commit c state d name base basename cancel).2 =
        (Attestation.commit c' state d' name base' basename cancel).2 := by
  have hrefines := hc.nextCommitment state hd name hbase basename cancel
  rw [Attestation.commit, Attestation.commit]
  generalize Attestation.nextCommitment c state d name base basename cancel = outcome at hrefines
  generalize Attestation.nextCommitment c' state d' name base' basename cancel = outcome'
    at hrefines
  cases hrefines with
  | ok hcommitment =>
      refine ⟨.ok hcommitment, ?_⟩
      show state.record _ = state.record _
      rw [hcommitment.counter]
  | error halike => exact ⟨.error halike, rfl⟩
  | exhausted hroom => exact absurd trivial hroom

/-! ### Responses -/

/-- The challenge. -/
theorem attestationChallenge (hc : SmallCurve c c') (h : Hash) (nonce digest : Bytes) :
    Refines True Small (challenge c h nonce digest) (challenge c' h nonce digest) := by
  refine (hc.digestToInt _).bind fun t _ ht => ?_
  exact ht.reduce hc.n

/-- Responses to the challenge of a nonce. -/
theorem respondWith (hc : SmallCurve c c') (h : Hash) (hd : Small d d') (hr : Small r r')
    (digest nonce : Bytes) :
    Refines True (fun v w => v.1 = w.1 ∧ Small v.2 w.2) (respondWith c h d r digest nonce)
      (respondWith c' h d' r' digest nonce) := by
  refine (hc.attestationChallenge h nonce digest).bind fun t _ ht => ?_
  refine (Signature.schnorrResponse_refines hr ht hd hc.n).bind fun s _ hs => ?_
  exact .ok ⟨rfl, hs⟩

/-- Responses under the secret scalar of a counter. -/
theorem respond {σ : Type} [RandomSource σ] (hc : SmallCurve c c') (state : CommitState)
    (counter : UInt64) (name : Bytes) (h : Hash) (hd : Small d d') (digest : Bytes) :
    Lockstep (fun v w => v.1 = w.1 ∧ Small v.2 w.2)
      (respond c state counter name h d digest : Randomized σ (Bytes × α))
      (respond c' state counter name h d' digest) := by
  refine (Lockstep.lift (hc.secretScalar state counter name)).bind fun r _ hr => ?_
  refine Lockstep.retry (Lockstep.draw h.size) (fun nonce nonce' hnonce => ?_) _ _
  rw [hnonce.1]
  exact hc.respondWith h hd hr digest nonce'

/-- A counter is used up on both sides, and the states afterwards are the same. -/
theorem attest {σ : Type} [RandomSource σ] (hc : SmallCurve c c') (state : CommitState)
    (counter : UInt64) (name : Bytes) (h : Hash) (hd : Small d d') (digest : Bytes) (source : σ) :
    Refines True (fun v w => v.1 = w.1 ∧ Small v.2 w.2)
        (Attestation.sign c state counter name h d digest source).1
        (Attestation.sign c' state counter name h d' digest source).1 ∧
      (Attestation.sign c state counter name h d digest source).2 =
        (Attestation.sign c' state counter name h d' digest source).2 := by
  rw [Attestation.sign, Attestation.sign]
  rcases state.consume counter with ⟨e | _, after⟩
  · exact ⟨.refused e, rfl⟩
  · obtain ⟨hrefines, hsource⟩ := hc.respond after counter name h hd digest source
    exact ⟨hrefines, congrArg (Prod.mk after) hsource⟩

/-- Verifying. -/
theorem verifyAttestation (hc : SmallCurve c c') (h : Hash) {R : Jacobian α} {R' : Jacobian Nat}
    (hP : SmallPoint P P') (hQ : SmallPoint Q Q') (hR : SmallPoint R R') (nonce digest : Bytes)
    (hs : Denotes s s') :
    Refines True Eq (Attestation.verify c h P Q R nonce digest s)
      (Attestation.verify c' h P' Q' R' nonce digest s') := by
  refine Refines.bind (R := Eq) (.of_eq (by rw [hc.inScalarRange_eq hs])) fun _ _ _ => ?_
  refine (hc.attestationChallenge h nonce digest).bind fun t _ ht => ?_
  refine (hc.mul hs hP).bind fun left _ hleft => ?_
  refine (hc.mul ht.denotes hR).bind fun tq _ htq => ?_
  refine (hc.addNormalized hQ htq).bind fun right _ hright => ?_
  exact .of_eq (by rw [hleft.eq_eq hright])

end SmallCurve

end TrustedPlatform
