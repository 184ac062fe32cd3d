import TrustedPlatform.Proofs.Attestation.SingleUse
import TrustedPlatform.Proofs.Signature.Attempt

/-!
# Completeness of anonymous signatures

The secret scalar of a counter depends on the secret of the state alone, which no call changes, so
that a signature is computed with the scalar `r` of its commitment `E = [r]P1` whatever happened in
between. A verifier who compares `[s]P1` with `E + [t]Q` compares `s` with `r + t * d` modulo the
order of `P1`, and so accepts the one number that signing returns. The main theorem is
`committed_accepted`.
-/

namespace TrustedPlatform.Attestation

open CurveParameters Signature
open LawfulArithmetic (Denotes)

/-! ### Secret scalars -/

/-- A call keeps the secret that scalars are derived from. -/
theorem History.nonce_step (history : History) (call : Call) :
    (history.step call).state.nonce = history.state.nonce := by
  rcases history.step_cases call with hstep | hstep | ⟨counter, -, hstep | hstep⟩
  · rw [hstep]
  · rw [hstep]
    rfl
  · rw [hstep]
    rfl
  · rw [hstep]
    rfl

/-- Calls keep the secret that scalars are derived from. -/
theorem History.nonce_run (history : History) (calls : List Call) :
    (history.run calls).state.nonce = history.state.nonce := by
  induction calls generalizing history with
  | nil => rfl
  | cons call calls ih => exact (ih (history.step call)).trans (history.nonce_step call)

namespace CommitState

variable {α : Type} [Arithmetic α] {state other : CommitState}

/-- States over one secret have the same scalars. -/
theorem secretScalar_eq (h : state.nonce = other.nonce) (c : Curve α) (counter : UInt64)
    (name : Bytes) : state.secretScalar c counter name = other.secretScalar c counter name := by
  rw [secretScalar, secretScalar, h]

/-- A secret scalar is reduced modulo the order. -/
theorem exists_reduced_secretScalar [LawfulArithmetic α] {d : CurveParameters} [NeZero d.n]
    (hd : d ∈ all) {counter : UInt64} {name : Bytes} {r : α}
    (h : state.secretScalar (Curve.ofParameters d) counter name = .ok r) :
    ∃ ρ : ZMod d.n, Reduced r ρ := by
  rw [secretScalar] at h
  obtain ⟨raw, -, h⟩ := exists_of_bind_eq_ok h
  obtain ⟨r, hr, h⟩ := exists_of_bind_eq_ok h
  split at h
  · cases h
  cases h
  exact ⟨_, .of_reduce (order_modulus hd) (LawfulArithmetic.ofBytes raw) hr⟩

end CommitState

/-- After a commitment and any calls, a signature for its counter is the response to a nonce with
the scalar of the commitment. -/
theorem exists_secret_of_sign {α σ : Type} [Arithmetic α] [RandomSource σ] {c : Curve α}
    {state : CommitState} {d : α} {name : Bytes} {base : Option (Jacobian α)}
    {basename : Option Basename} {cancel : CancelSignal} {commitment : Commitment α}
    (hcommit : (commit c state d name base basename cancel).1 = .ok commitment)
    {calls : List Call} {hash : Hash} {digest : Bytes} {source : σ} {signature : Bytes × α}
    (hsign : (sign c
      (History.run ⟨(commit c state d name base basename cancel).2, []⟩ calls).state
      commitment.counter name hash d digest source).1 = .ok signature) :
    ∃ r, state.secretScalar c commitment.counter name = .ok r ∧
      c.mul r (base.getD c.g) = .ok commitment.e ∧
      respondWith c hash d r digest signature.1 = .ok signature := by
  rw [commit] at hcommit hsign
  cases hnext : nextCommitment c state d name base basename cancel with
  | error e =>
      rw [hnext] at hcommit
      cases hcommit
  | ok made =>
      rw [hnext] at hcommit hsign
      cases hcommit
      obtain ⟨r, hmade⟩ := nextCommitment_eq_ok_iff.mp hnext
      obtain ⟨-, r', hr', hresponse⟩ := sign_eq_ok hsign
      -- the state has another counter and other flags by now, but the same secret
      rw [CommitState.secretScalar_eq (History.nonce_run _ calls)] at hr'
      cases hmade.secret.symm.trans hr'
      exact ⟨r, hmade.secret, hmade.e, hresponse⟩

/-! ### Responses and their verification -/

variable {α : Type} [Arithmetic α] [LawfulArithmetic α]
variable {d : CurveParameters} [Fact d.n.Prime]

/-- The challenge for a nonce and a digest, as a residue modulo the order. -/
def challengeResidue (d : CurveParameters) (hash : Hash) (nonce digest : Bytes) : ZMod d.n :=
  d.digestNumber (hash.digestParts [nonce, digest])

/-- The challenge for a nonce and a digest is returned. -/
theorem challenge_returns (hd : d ∈ all) (hash : Hash) (nonce digest : Bytes) :
    Returns (challenge (Curve.ofParameters d : Curve α) hash nonce digest)
      (Reduced · (challengeResidue d hash nonce digest)) :=
  (digestToInt_returns hd _).bind fun _ ht => ht.reduce (order_modulus hd)

/-- A response is the sum of the secret scalar and the challenge times the private scalar, and is
not zero. -/
theorem respondWith_attempt (hd : d ∈ all) (hash : Hash) {x r : α} {ξ ρ : ZMod d.n}
    (hx : Reduced x ξ) (hr : Reduced r ρ) (digest nonce : Bytes) :
    Attempt (respondWith (Curve.ofParameters d) hash x r digest nonce) fun signature =>
      Reduced signature.2 (ρ + challengeResidue d hash nonce digest * ξ) ∧
        ρ + challengeResidue d hash nonce digest * ξ ≠ 0 := by
  rw [respondWith]
  refine .bind (challenge_returns hd hash nonce digest) fun t ht => ?_
  rcases schnorrResponse_attempt hd hr ht hx with ⟨operation, hzero⟩ | ⟨s, hs, hreduced, -, hne⟩
  · rw [hzero]
    exact .noResult operation
  · rw [hs]
    exact .ok ⟨hreduced, hne⟩

variable [Fact d.p.Prime]

/-- The triples stand for a finite point of the order of the curve, and for its multiples by a
secret and by a private scalar. -/
structure Setting (A : d.curve.Point) (ρ ξ : ZMod d.n) (p1 e q : Jacobian α) : Prop where
  ne_zero : A ≠ 0
  order : d.n • A = 0
  base : p1.Represents (d.a : ZMod d.p) d.b A
  commitment : e.Represents (d.a : ZMod d.p) d.b (ρ.val • A)
  signer : q.Represents (d.a : ZMod d.p) d.b (ξ.val • A)

/-- A verifier accepts a number in range exactly when it is the response. -/
theorem Setting.verify_eq_ok_iff {A : d.curve.Point} {ρ ξ σ : ZMod d.n} {p1 e q : Jacobian α}
    (h : Setting A ρ ξ p1 e q) (hd : d ∈ all) (hash : Hash) (nonce digest : Bytes) {s : α}
    (hs : Reduced s σ) (hσ : σ ≠ 0) :
    verify (Curve.ofParameters d) hash p1 e q nonce digest s = .ok () ↔
      σ = ρ + challengeResidue d hash nonce digest * ξ := by
  have hover := (regular_of_mem d hd).loaded (α := α)
  have hcount := hover.modulus.count_le
  obtain ⟨t, ht, hreduced⟩ := challenge_returns (α := α) hd hash nonce digest
  obtain ⟨left, hleft, hleftPoint⟩ := hover.mul_returns hs.denotes h.base
  obtain ⟨tq, htq, htqPoint⟩ := hover.mul_returns hreduced.denotes h.signer
  obtain ⟨right, hright, hrightPoint⟩ :=
    hover.addNormalized_returns h.commitment (htqPoint.represents hcount)
  have hrun : verify (Curve.ofParameters d) hash p1 e q nonce digest s
      = Require.signature (left.eq right) algorithm := by
    rw [verify, inScalarRange_of_ne_zero hs hσ, ht]
    simp only [Require.signature, if_true, bind, Except.bind, hleft, htq, hright]
  -- both sides are multiples of the base point, so that their numbers are compared modulo its order
  have hcompare : left.eq right = true ↔
      σ = ρ + challengeResidue d hash nonce digest * ξ := by
    rw [hleftPoint.eq_iff hrightPoint, ← mul_nsmul', ← add_nsmul,
      nsmul_eq_nsmul_iff h.ne_zero h.order]
    push_cast
    simp only [ZMod.natCast_zmod_val]
  rw [hrun, ← hcompare, Require.signature]
  split
  · rename_i heq
    exact iff_of_true rfl heq
  · rename_i hne
    exact iff_of_false nofun hne

/-- On a registered curve, for every finite base point whose multiple by the prime order is infinite
and every state: when a commitment is returned and, after any calls on the state, a signature for its
counter, then the signature is accepted under the commitment point and the public point, and no
other number in range is accepted in its place. -/
theorem committed_accepted {id : CurveId} {c : Curve α} (hc : Curve.load α id = .ok c)
    [Fact c.parameters.p.Prime] [Fact c.parameters.n.Prime]
    {P Q : Jacobian Nat} {p1 q : Jacobian α} (hP : c.parameters.OnCurve P) (hp1 : p1.Matches P)
    (hfinite : P.z ≠ 0) (horder : c.parameters.n • c.parameters.point P = 0)
    {x : α} {m : Nat} (hx : Denotes x m) (hlt : m < c.parameters.n)
    (hQ : c.parameters.OnCurve Q) (hq : q.Matches Q)
    (hpublic : c.parameters.point Q = m • c.parameters.point P)
    {state : CommitState} {name : Bytes} {base : Option (Jacobian α)}
    (hbase : base.getD c.g = p1) {basename : Option Basename} {cancel : CancelSignal}
    {commitment : Commitment α}
    (hcommit : (commit c state x name base basename cancel).1 = .ok commitment)
    (calls : List Call) {σ : Type} [RandomSource σ] {source : σ} {hash : Hash} {digest : Bytes}
    {signature : Bytes × α}
    (hsign : (sign c
      (History.run ⟨(commit c state x name base basename cancel).2, []⟩ calls).state
      commitment.counter name hash x digest source).1 = .ok signature) :
    verify c hash p1 commitment.e q signature.1 digest signature.2 = .ok () ∧
    ∃ k, Denotes signature.2 k ∧ 0 < k ∧ k < c.parameters.n ∧
      ∀ (s : α) (t : Nat), Denotes s t → 0 < t → t < c.parameters.n →
        verify c hash p1 commitment.e q signature.1 digest s = .ok () → t = k := by
  obtain ⟨d, hmem, rfl⟩ := Curve.exists_of_load hc
  have : Fact d.p.Prime := ‹Fact (Curve.ofParameters d : Curve α).parameters.p.Prime›
  have : Fact d.n.Prime := ‹Fact (Curve.ofParameters d : Curve α).parameters.n.Prime›
  have hd := regular_of_mem d hmem
  have hover := hd.loaded (α := α)
  obtain ⟨r, hr, he, hresponse⟩ := exists_secret_of_sign hcommit hsign
  obtain ⟨ρ, hr⟩ := CommitState.exists_reduced_secretScalar hmem hr
  have hbasePoint := hP.represents hd hp1
  obtain ⟨e, hcommitment, hmatches⟩ := hover.mul_returns hr.denotes hbasePoint
  rw [hbase, hcommitment] at he
  cases he
  have hsetting : Setting (d.point P) ρ (m : ZMod d.n) p1 commitment.e q := by
    refine ⟨hP.point_ne_zero hd hfinite, horder, hbasePoint,
      hmatches.represents hover.modulus.count_le, ?_⟩
    rw [ZMod.val_natCast_of_lt (show m < d.n from hlt),
      ← show d.point Q = m • d.point P from hpublic]
    exact hQ.represents hd hq
  obtain ⟨hs, hne⟩ :=
    (respondWith_attempt hmem hash (.of_lt hx hlt) hr digest signature.1).of_ok hresponse
  refine ⟨(hsetting.verify_eq_ok_iff hmem hash _ digest hs hne).mpr rfl, _, hs.denotes,
    ZMod.val_pos.mpr hne, ZMod.val_lt _, fun s t ht hpos htlt haccepted => ?_⟩
  have hresidue := (hsetting.verify_eq_ok_iff hmem hash _ digest (.of_lt ht htlt)
    (natCast_ne_zero hpos htlt)).mp haccepted
  rw [← hresidue]
  exact (ZMod.val_natCast_of_lt htlt).symm

omit [LawfulArithmetic α] in
/-- A commitment that is returned leaves the state with the next counter, from which a signature
follows the calls in between. -/
theorem exists_signature {σ : Type} [RandomSource σ] (c : Curve α) (state : CommitState) (d : α)
    (name : Bytes) (calls : List Call) (hash : Hash) (digest : Bytes) (source : σ)
    (hcommitted : (commit c state d name none none .never).1.isOk)
    (hsigned : (sign c (History.run ⟨state.record (state.counter + 1), []⟩ calls).state
      (state.counter + 1) name hash d digest source).1.isOk) :
    ∃ commitment signature, (commit c state d name none none .never).1 = .ok commitment ∧
      (sign c (History.run ⟨(commit c state d name none none .never).2, []⟩ calls).state
        commitment.counter name hash d digest source).1 = .ok signature := by
  obtain ⟨signature, hsign⟩ := exists_of_isOk hsigned
  obtain ⟨commitment, hcommit, hcounter⟩ | ⟨e, hrefused⟩ :=
    commit_cases c state d name none none .never
  · refine ⟨commitment, signature, congrArg Prod.fst hcommit, ?_⟩
    rw [hcommit, hcounter]
    exact hsign
  · rw [hrefused] at hcommitted
    cases hcommitted

/-- On the 256-bit curve a commitment for the generator is returned and, after a call that is
refused, a signature that is accepted. -/
theorem committed_accepted_nistP256 :
    ∃ _ : Fact nistP256.p.Prime, ∃ _ : Fact nistP256.n.Prime, ∃ c : Curve Nat, ∃ q : Jacobian Nat,
      let x : Nat := Arithmetic.ofWord 5
      let hash := HashAlgorithm.sha256.hash
      let digest : Bytes := List.replicate 32 0xa5
      let source : ByteStream := ⟨fun i => UInt8.ofNat (i + 1), none, 0⟩
      let committed := commit c (.start (List.replicate 32 0x5a)) x [0x4b] none none .never
      let later := History.run ⟨committed.2, []⟩ [.sign c 2 [0x4b] hash x digest source]
      Curve.load Nat 3 = .ok c ∧ c.mul x c.g = .ok q ∧
      ∃ commitment signature, committed.1 = .ok commitment ∧
        (sign c later.state commitment.counter [0x4b] hash x digest source).1 = .ok signature ∧
        verify c hash c.g commitment.e q signature.1 digest signature.2 = .ok () := by
  have hp : Fact nistP256.p.Prime := ⟨primes_nistP256.1⟩
  have hn : Fact nistP256.n.Prime := ⟨primes_nistP256.2⟩
  have hload : Curve.load Nat 3 = .ok (Curve.ofParameters nistP256) := rfl
  have h := generated_nistP256
  have hfive : Denotes (Arithmetic.ofWord 5 : Nat) 5 := LawfulArithmetic.ofWord 5
  obtain ⟨Q, q, hmul, hmatches, hQ, hpoint⟩ := h.exists_public hfive
  have : Fact (Curve.ofParameters nistP256 : Curve Nat).parameters.p.Prime := hp
  have : Fact (Curve.ofParameters nistP256 : Curve Nat).parameters.n.Prime := hn
  obtain ⟨commitment, signature, hcommit, hsign⟩ := exists_signature (.ofParameters nistP256)
    (.start (List.replicate 32 0x5a)) (Arithmetic.ofWord 5 : Nat) [0x4b]
    [.sign (.ofParameters nistP256 : Curve Nat) 2 [0x4b] HashAlgorithm.sha256.hash
      (Arithmetic.ofWord 5) (List.replicate 32 0xa5)
      (⟨fun i => UInt8.ofNat (i + 1), none, 0⟩ : ByteStream)]
    HashAlgorithm.sha256.hash (List.replicate 32 0xa5)
    (⟨fun i => UInt8.ofNat (i + 1), none, 0⟩ : ByteStream) (by decide +kernel) (by decide +kernel)
  exact ⟨hp, hn, _, q, hload, hmul, commitment, signature, hcommit, hsign,
    (committed_accepted hload (generator_onCurve _ h.mem) (matches_generator nistP256)
      one_ne_zero h.nsmul_generator hfive (by decide) hQ hmatches hpoint rfl hcommit _ hsign).1⟩

end TrustedPlatform.Attestation
