import TrustedPlatform.Proofs.Signature.Attempt

/-!
# Completeness of elliptic curve Schnorr signatures

A signature `(r, s)` under the private scalar `x` and the ephemeral scalar `k` satisfies
`s = k + r * x` modulo the order, so that a verifier who takes `r` times the public point away from
`[s]G` meets the commitment `[k]G` again, in the same coordinates, and hashes the same bytes. The
main theorem is `schnorr_accepted`, for the scheme and for its signatures on the wire.
-/

namespace TrustedPlatform

open LawfulArithmetic (Denotes)

variable {α : Type} [Arithmetic α] [LawfulArithmetic α]

namespace Signature.Schnorr

open CurveParameters

variable {d : CurveParameters} [Fact d.p.Prime]

/-- The challenge for a commitment and a digest, as a residue modulo the order. -/
noncomputable def challengeResidue (hash : Hash) (digest : Bytes) (A : d.curve.Point) : ZMod d.n :=
  d.digestNumber
    (hash.digestParts [Bytes.ofNatWidth (Bytes.widthOf d.p) (normalForm A).x, digest])

variable [Fact d.n.Prime]

/-- The challenge for the normal form of a commitment is returned. -/
theorem challenge_returns (hd : d ∈ all) (hash : Hash) (digest : Bytes) {P : Jacobian α}
    {A : d.curve.Point} (hP : P.Matches (normalForm A)) :
    Returns (challenge (Curve.ofParameters d) hash P digest)
      (Reduced · (challengeResidue hash digest A)) := by
  have hn := order_modulus (α := α) hd
  rw [challenge, xBytes_eq hP]
  refine (digestToInt_returns hd _).bind fun e he => ?_
  exact he.reduce hn

variable (h : d.Generated)

/-- The two residues are those of a signature under a private and an ephemeral scalar. -/
structure Signs (hash : Hash) (digest : Bytes) (x k : ZMod d.n) (r s : ZMod d.n) : Prop where
  r_eq : r = challengeResidue hash digest (h.multiple k)
  s_eq : s = k + r * x
  r_ne_zero : r ≠ 0
  s_ne_zero : s ≠ 0

variable {h} in
/-- The multiples that a verifier adds meet in the commitment. -/
theorem Signs.verifier_eq {hash : Hash} {digest : Bytes} {x k r s : ZMod d.n}
    (hsigns : Signs h hash digest x k r s) : s + (0 - r) * x = k := by
  linear_combination hsigns.s_eq

variable {x k : α} {ξ κ : ZMod d.n}

/-- An attempt on an ephemeral scalar other than zero returns a signature, unless it meets an
unusable zero. -/
theorem signWith_attempt (hash : Hash) (digest : Bytes) (hx : Reduced x ξ) (hk : Reduced k κ) :
    Attempt (signWith (Curve.ofParameters d) hash x k digest) fun signature =>
      ∃ ρ τ, Reduced signature.1 ρ ∧ Reduced signature.2 τ ∧ Signs h hash digest ξ κ ρ τ := by
  rw [signWith]
  refine .bind (h.mul_generator_returns hk) fun point hpoint => ?_
  refine .guarded _ fun _ => ?_
  refine .bind (challenge_returns h.mem hash digest hpoint) fun r hr => ?_
  rcases schnorrResponse_attempt h.mem hk hr hx with ⟨operation, hzero⟩ | ⟨s, hs, hreduced, hρ, hτ⟩
  · rw [hzero]
    exact .noResult operation
  · rw [hs]
    exact .ok ⟨_, _, hr, hreduced, rfl, rfl, hρ, hτ⟩

variable {hash : Hash} {digest : Bytes} {q : Jacobian α} {r s : α} {ρ τ : ZMod d.n}

/-- A verifier rebuilds the commitment of a signature, in the coordinates that it was hashed in. -/
theorem rebuilt_returns (hq : q.Represents (d.a : ZMod d.p) d.b (h.multiple ξ)) (hr : Reduced r ρ)
    (hs : Reduced s τ) (hsigns : Signs h hash digest ξ κ ρ τ) :
    Returns (Arithmetic.modSub (Arithmetic.ofWord 0) r (Curve.ofParameters d : Curve α).n)
      fun minusR => Reduced minusR (0 - ρ) ∧
        Returns ((Curve.ofParameters d : Curve α).mul2 s (Curve.ofParameters d).g minusR q)
          (·.Matches (normalForm (h.multiple κ))) := by
  have hn := order_modulus (α := α) h.mem
  have hzero : Residue (Arithmetic.ofWord 0 : α) (0 : ZMod d.n) :=
    (Residue.ofWord 0).of_eq Nat.cast_zero
  refine (hzero.sub hn (hr.residue hn)).mono fun minusR hminus => ⟨hminus, ?_⟩
  rw [← hsigns.verifier_eq]
  exact h.mul2_returns hs hminus hq

/-- A verifier accepts a signature under any triple that stands for the public point. -/
theorem verify_eq_ok (hq : q.Represents (d.a : ZMod d.p) d.b (h.multiple ξ)) (hr : Reduced r ρ)
    (hs : Reduced s τ) (hκ : κ ≠ 0) (hsigns : Signs h hash digest ξ κ ρ τ) :
    verify (Curve.ofParameters d) hash q digest r s = .ok () := by
  refine Returns.eq_ok ?_
  rw [verify, inScalarRange_of_ne_zero hr hsigns.r_ne_zero,
    inScalarRange_of_ne_zero hs hsigns.s_ne_zero]
  refine (Returns.ok rfl : Returns _ (· = ())).bind fun _ _ => ?_
  refine (rebuilt_returns h hq hr hs hsigns).bind ?_
  rintro minusR ⟨-, hrebuilt⟩
  refine hrebuilt.bind fun point hpoint => ?_
  rw [if_neg (mt (h.isInfinity_iff hpoint).mp hκ)]
  refine (challenge_returns h.mem hash digest hpoint).bind fun expected hexpected => ?_
  rw [(hexpected.eq_iff hr).mpr hsigns.r_eq.symm]
  exact .ok rfl

/-- An attempt gives a signature that is accepted. -/
theorem signWith_accepted (hx : Reduced x ξ) (hk : Reduced k κ) (hκ : κ ≠ 0) :
    Attempt (signWith (Curve.ofParameters d) hash x k digest)
      (Accepted h ξ fun q => verify (Curve.ofParameters d) hash q digest) := by
  refine (signWith_attempt h hash digest hx hk).mono ?_
  rintro signature ⟨ρ, τ, hr, hs, hsigns⟩
  exact ⟨ρ, τ, hr, hs, hsigns.r_ne_zero, hsigns.s_ne_zero, fun hq hr hs =>
    verify_eq_ok h hq hr hs hκ hsigns⟩

omit [LawfulArithmetic α] in
/-- The scheme on the wire is that of the attempts. -/
theorem signsBy (c : Curve α) (hash : Hash) (digest : Bytes) :
    c.SignsBy .ecSchnorr hash digest "EC-Schnorr signing"
      (fun x k => signWith c hash x k digest) fun q => verify c hash q digest :=
  ⟨fun _ _ _ => rfl, fun _ _ _ => rfl⟩

/-- On a registered curve whose generator has a prime order, each ephemeral scalar gives a signature
that is accepted under the public point of the private scalar, for every hash and a digest of any
length, unless it gives an unusable zero; the point that a verifier computes is the commitment, in
its affine coordinates. Signing with scalars from any source gives such signatures on the wire. -/
theorem schnorr_accepted {id : CurveId} {c : Curve α} (hc : Curve.load α id = .ok c)
    [Fact c.parameters.p.Prime] [Fact c.parameters.n.Prime]
    (horder : c.parameters.n • c.parameters.point c.parameters.generator = 0)
    {x : α} {m : Nat} (hx : Denotes x m) (hpos : 0 < m) (hlt : m < c.parameters.n)
    {Q : Jacobian Nat} {q : Jacobian α} (hQ : c.parameters.OnCurve Q) (hq : q.Matches Q)
    (hpublic : c.parameters.point Q = m • c.parameters.point c.parameters.generator)
    (hash : Hash) :
    (∀ (k : α) (t : Nat), Denotes k t → 0 < t → t < c.parameters.n → ∀ digest : Bytes,
      Attempt (signWith c hash x k digest) fun signature => ∃ r s,
        Denotes signature.1 r ∧ Denotes signature.2 s ∧
        0 < r ∧ r < c.parameters.n ∧ 0 < s ∧ s < c.parameters.n ∧
        verify c hash q digest signature.1 signature.2 = .ok () ∧
        Returns (c.mul k c.g)
          (·.Matches (normalForm (t • c.parameters.point c.parameters.generator))) ∧
        Returns (Arithmetic.modSub (Arithmetic.ofWord 0) signature.1 c.n) fun minusR =>
          Denotes minusR (c.parameters.n - r) ∧
          Returns (c.mul2 signature.2 c.g minusR q)
            (·.Matches (normalForm (t • c.parameters.point c.parameters.generator)))) ∧
    ∃ wire, c.toWire q = .ok wire ∧
      ∀ (σ : Type) [RandomSource σ] (privateKey digest : Bytes),
        Bytes.toNat privateKey = m → digest.length = hash.size →
        (c.sign .ecSchnorr hash privateKey digest : Randomized σ Signature).Attempts
          fun signature => signature.r.bytes.length = c.orderBytes ∧
            signature.s.bytes.length = c.orderBytes ∧
            c.verify wire signature digest = .ok () := by
  obtain ⟨d, hmem, rfl⟩ := Curve.exists_of_load hc
  have : Fact d.p.Prime := ‹Fact (Curve.ofParameters d : Curve α).parameters.p.Prime›
  have : Fact d.n.Prime := ‹Fact (Curve.ofParameters d : Curve α).parameters.n.Prime›
  have h : d.Generated := ⟨hmem, horder⟩
  have hrep : q.Represents (d.a : ZMod d.p) d.b (h.multiple m) := h.represents_public hQ hq hpublic
  constructor
  · intro k t hk htpos htlt digest
    have hκ := natCast_ne_zero htpos htlt
    have hk' : Reduced k (t : ZMod d.n) := .of_lt hk htlt
    refine (signWith_attempt h hash digest (.of_lt hx hlt) hk').mono ?_
    rintro ⟨r, s⟩ ⟨ρ, τ, hr, hs, hsigns⟩
    have hcommitment := h.mul_generator_returns hk'
    have hrebuilt := rebuilt_returns h hrep hr hs hsigns
    rw [h.multiple_natCast] at hcommitment hrebuilt
    refine ⟨ρ.val, τ.val, hr.denotes, hs.denotes, ZMod.val_pos.mpr hsigns.r_ne_zero, ZMod.val_lt ρ,
      ZMod.val_pos.mpr hsigns.s_ne_zero, ZMod.val_lt τ, verify_eq_ok h hrep hr hs hκ hsigns,
      hcommitment, hrebuilt.mono ?_⟩
    rintro minusR ⟨hminus, hpoint⟩
    have hdenotes := hminus.denotes
    rw [zero_sub, ZMod.neg_val, if_neg hsigns.r_ne_zero] at hdenotes
    exact ⟨hdenotes, hpoint⟩
  · obtain ⟨wire, hwire, hholds⟩ :=
      toWire_returns hmem (mt h.multiple_eq_zero_iff.mp (natCast_ne_zero hpos hlt)) hrep
    refine ⟨wire, hwire, fun σ _ privateKey digest hprivate hlen => ?_⟩
    rw [orderBytes_eq]
    refine (signsBy _ hash digest).sign_attempts (fun x k κ hx hk hκ => ?_)
      (congrArg Nat.cast hprivate) (hprivate ▸ hpos) (hprivate ▸ hlt) hlen hholds
    exact signWith_accepted h hx hk hκ

/-- On the 256-bit curve a signature with an ephemeral scalar, and one on the wire, are returned and
accepted. -/
theorem schnorr_accepted_nistP256 :
    ∃ _ : Fact nistP256.p.Prime, ∃ _ : Fact nistP256.n.Prime, ∃ c : Curve Nat, ∃ q : Jacobian Nat,
    ∃ wire : Wire.Point,
      Curve.load Nat 3 = .ok c ∧ c.mul (Arithmetic.ofWord 5) c.g = .ok q ∧
      c.toWire q = .ok wire ∧
      (∃ signature, signWith c HashAlgorithm.sha256.hash (Arithmetic.ofWord 5)
          (Arithmetic.ofWord 7) (List.replicate 64 0xa5) = .ok signature ∧
        verify c HashAlgorithm.sha256.hash q (List.replicate 64 0xa5) signature.1 signature.2
          = .ok ()) ∧
      ∃ signature, ((c.sign .ecSchnorr HashAlgorithm.sha256.hash [5] (List.replicate 32 0xa5) :
          Randomized ByteStream Signature).runFrom ⟨fun i => if i = 39 then 6 else 0, none, 0⟩).1
            = .ok signature ∧
        c.verify wire signature (List.replicate 32 0xa5) = .ok () := by
  have hp : Fact nistP256.p.Prime := ⟨primes_nistP256.1⟩
  have hn : Fact nistP256.n.Prime := ⟨primes_nistP256.2⟩
  have hload : Curve.load Nat 3 = .ok (Curve.ofParameters nistP256) := rfl
  have hfive : Denotes (Arithmetic.ofWord 5 : Nat) 5 := LawfulArithmetic.ofWord 5
  obtain ⟨Q, q, hmul, hmatches, hQ, hpoint⟩ := generated_nistP256.exists_public hfive
  have : Fact (Curve.ofParameters nistP256 : Curve Nat).parameters.p.Prime := hp
  have : Fact (Curve.ofParameters nistP256 : Curve Nat).parameters.n.Prime := hn
  obtain ⟨hsign, wire, hwire, hverify⟩ := schnorr_accepted hload
    generated_nistP256.nsmul_generator hfive (by decide) (by decide) hQ hmatches hpoint
    HashAlgorithm.sha256.hash
  refine ⟨hp, hn, _, q, wire, hload, hmul, hwire, ?_, ?_⟩
  · have hok : (signWith (Curve.ofParameters nistP256) HashAlgorithm.sha256.hash
        (Arithmetic.ofWord 5 : Nat) (Arithmetic.ofWord 7) (List.replicate 64 0xa5)).isOk := by
      decide +kernel
    obtain ⟨signature, hsignature⟩ := exists_of_isOk hok
    obtain ⟨r, s, -, -, -, -, -, -, haccepted, -⟩ :=
      (hsign _ 7 (LawfulArithmetic.ofWord 7) (by decide) (by decide) _).of_ok hsignature
    exact ⟨signature, hsignature, haccepted⟩
  · have hok : (((Curve.ofParameters nistP256 : Curve Nat).sign .ecSchnorr
        HashAlgorithm.sha256.hash [5] (List.replicate 32 0xa5) :
          Randomized ByteStream Signature).runFrom
            ⟨fun i => if i = 39 then 6 else 0, none, 0⟩).1.isOk := by
      decide +kernel
    obtain ⟨signature, hsignature⟩ := exists_of_isOk hok
    exact ⟨signature, hsignature,
      ((hverify ByteStream [5] _ rfl (by decide)).of_ok hsignature).2.2⟩

end Signature.Schnorr

end TrustedPlatform
