import TrustedPlatform.Proofs.Attestation.Refinement
import TrustedPlatform.Proofs.Signature.Recoverable

/-!
# Anonymous signatures end recoverably

In exact arithmetic on a registered curve, commitments and verifications of anonymous signatures are
never fatal, and signing is only together with its source.
-/

namespace TrustedPlatform

open Attestation Signature

namespace CurveParameters

variable {d : CurveParameters}

/-- The secret scalars of counters. -/
theorem secretScalar_recoverable (hd : d ∈ all) (state : CommitState) (counter : UInt64)
    (name : Bytes) :
    Recoverable (state.secretScalar (Curve.ofParameters d : Curve Nat) counter name) := by
  have hderive (h : Hash) (key label contextU contextV : Bytes) (bits : UInt32) :
      Recoverable (h.deriveA key label contextU contextV bits) :=
    (Require.parameter_recoverable _ _ _).bind fun _ _ => .value trivial
  refine (hderive _ _ _ _ _ _).bind fun raw _ => ?_
  refine (Exact.reduce_recoverable (exact_n_ne_zero hd) _).bind fun r _ => ?_
  exact .ite (fun _ => .refused rfl) fun _ => .value trivial

/-! ### Responses -/

/-- The challenge. -/
theorem attestationChallenge_recoverable (hd : d ∈ all) (h : Hash) (nonce digest : Bytes) :
    Recoverable (challenge (Curve.ofParameters d : Curve Nat) h nonce digest) := by
  refine (digestToInt_recoverable d _).bind fun t _ => ?_
  exact Exact.reduce_recoverable (exact_n_ne_zero hd) t

/-- Responses to the challenge of a nonce. -/
theorem respondWith_recoverable (hd : d ∈ all) (h : Hash) (x r : Nat) (digest nonce : Bytes) :
    Recoverable (respondWith (Curve.ofParameters d) h x r digest nonce) := by
  refine (attestationChallenge_recoverable hd h nonce digest).bind fun t _ => ?_
  refine (schnorrResponse_recoverable (exact_n_ne_zero hd) r t x).bind fun s _ => ?_
  exact .value trivial

/-- Responses under the secret scalar of a counter. -/
theorem respond_contained {σ : Type} [RandomSource σ] (hd : d ∈ all) (state : CommitState)
    (counter : UInt64) (name : Bytes) (h : Hash) (x : Nat) (digest : Bytes) :
    Contained (fun s : σ => s) True (fun _ => True)
      (respond (Curve.ofParameters d) state counter name h x digest) := by
  refine (Contained.lift (secretScalar_recoverable hd state counter name)).bind fun r _ => ?_
  exact (Contained.draw h.size).retry
    (fun nonce _ => respondWith_recoverable hd h x r digest nonce) _ _

/-- Signing with a counter fails fatally only with its source. -/
theorem attest_ending {σ : Type} [RandomSource σ] (hd : d ∈ all) (state : CommitState)
    (counter : UInt64) (name : Bytes) (h : Hash) (x : Nat) (digest : Bytes) (source : σ) :
    Ending True (fun _ => True) source
      (Attestation.sign (Curve.ofParameters d) state counter name h x digest source).1
      (Attestation.sign (Curve.ofParameters d) state counter name h x digest source).2.2 := by
  rw [Attestation.sign, CommitState.consume]
  split
  · rename_i hconsume
    split at hconsume
    · cases hconsume
    · cases hconsume
      exact .refused rfl
  · exact respond_contained hd _ counter name h x digest source

variable [Fact d.p.Prime] {P Q R : Jacobian Nat}

/-- The base point, which is the generator when none is given. -/
theorem isNormal_base (hd : d ∈ all) {base : Option (Jacobian Nat)}
    (hbase : ∀ P ∈ base, d.IsNormal P) : d.IsNormal (base.getD (Curve.ofParameters d).g) := by
  cases base with
  | none => exact isNormal_generator hd
  | some P => exact hbase P rfl

/-- Verifying. -/
theorem verifyAttestation_recoverable (hd : d ∈ all) (h : Hash) (hP : d.IsNormal P)
    (hQ : d.IsNormal Q) (hR : d.IsNormal R) (nonce digest : Bytes) (s : Nat) :
    Recoverable (Attestation.verify (Curve.ofParameters d) h P Q R nonce digest s) := by
  refine (Require.signature_recovers _ _).bind fun _ _ => ?_
  refine (attestationChallenge_recoverable hd h nonce digest).bind fun t _ => ?_
  refine (hP.mul hd s).bind fun left _ => ?_
  refine (hR.mul hd t).bind fun tq htq => ?_
  refine (hQ.addNormalized hd htq).bind fun right _ => ?_
  exact (Require.signature_recovers _ _).mono fun _ _ => trivial

/-! ### Commitments -/

/-- The points of basenames. -/
theorem basenamePoint_recovers (hd : d ∈ all) (base : Basename) :
    Recovers d.IsNormal (base.point (Curve.ofParameters d)) := by
  have hp := (prime_of_mem d hd).ne_zero
  have hmodulus : (Curve.ofParameters d : Curve Nat).p ≠ 0 := by rwa [exact_p]
  refine (Exact.reduce_recoverable hmodulus _).bind fun x _ => ?_
  dsimp only
  rw [exact_contains_affine hp]
  show Recovers d.IsNormal (if decide (d.Contains x _) = true then _ else _)
  exact .ite (fun h => .value ((of_decide_eq_true h).isNormal hd)) fun _ => .refused rfl

/-- The points that link signatures under one basename. -/
theorem linkPoints_recovers (hd : d ∈ all) (hP : d.IsNormal P) (x r : Nat)
    (cancel : CancelSignal) :
    Recovers (fun link => d.IsNormal link.1 ∧ d.IsNormal link.2)
      (linkPoints (Curve.ofParameters d) x r P cancel) := by
  have hcancel (poll : Nat) : Recoverable (checkCancel cancel poll) :=
    .ite (fun _ => .refused rfl) fun _ => .value trivial
  refine (hcancel 0).bind fun _ _ => ?_
  refine (hP.mul hd x).bind fun k hk => ?_
  refine (hcancel 1).bind fun _ _ => ?_
  refine (hP.mul hd r).bind fun l hl => ?_
  exact .value ⟨hk, hl⟩

/-- The points of the commitment are points of the curve. -/
structure IsNormalCommitment (d : CurveParameters) [Fact d.p.Prime] (m : Commitment Nat) :
    Prop where
  k : ∀ P ∈ m.k, d.IsNormal P
  l : ∀ P ∈ m.l, d.IsNormal P
  e : d.IsNormal m.e

/-- The next commitment. -/
theorem nextCommitment_recovers (hd : d ∈ all) (state : CommitState) (x : Nat) (name : Bytes)
    {base : Option (Jacobian Nat)} (hbase : ∀ P ∈ base, d.IsNormal P) (basename : Option Basename)
    (cancel : CancelSignal) :
    Recovers d.IsNormalCommitment
      (nextCommitment (Curve.ofParameters d) state x name base basename cancel) := by
  have hp1 := isNormal_base hd hbase
  refine .ite (fun _ => .refused rfl) fun _ => ?_
  refine (hp1.contains hd).bind fun contained _ => ?_
  refine .ite (fun _ => .refused rfl) fun _ => ?_
  refine (Recovers.mapM basename fun b _ => basenamePoint_recovers hd b).bind fun m hm => ?_
  refine (secretScalar_recoverable hd state _ name).bind fun r _ => ?_
  refine (hp1.mul hd r).bind fun e he => ?_
  refine (Recovers.mapM m fun m hmem => linkPoints_recovers hd (hm m hmem) x r cancel).bind
    fun links hlinks => ?_
  refine .ite (fun _ => .refused rfl) fun _ => .value ⟨?_, ?_, he⟩
  · intro P hP
    obtain ⟨link, hlink, rfl⟩ := Option.map_eq_some_iff.mp hP
    exact (hlinks link hlink).1
  · intro P hP
    obtain ⟨link, hlink, rfl⟩ := Option.map_eq_some_iff.mp hP
    exact (hlinks link hlink).2

/-- A commitment is recorded or refused recoverably. -/
theorem commit_recovers (hd : d ∈ all) (state : CommitState) (x : Nat) (name : Bytes)
    {base : Option (Jacobian Nat)} (hbase : ∀ P ∈ base, d.IsNormal P) (basename : Option Basename)
    (cancel : CancelSignal) :
    Recovers d.IsNormalCommitment
      (Attestation.commit (Curve.ofParameters d) state x name base basename cancel).1 := by
  have hrecovers := nextCommitment_recovers hd state x name hbase basename cancel
  rw [Attestation.commit]
  generalize nextCommitment (Curve.ofParameters d) state x name base basename cancel = outcome
    at hrecovers
  cases hrecovers with
  | value h => exact .value h
  | refused h => exact .refused h

end CurveParameters

end TrustedPlatform
