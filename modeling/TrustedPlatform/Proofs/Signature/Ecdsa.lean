import TrustedPlatform.Proofs.Signature.Attempt
import TrustedPlatform.Proofs.Signature.Refinement

/-!
# Completeness of the elliptic curve digital signature algorithm

A signature `(r, s)` under the private scalar `x` and the ephemeral scalar `k` satisfies
`s * k = e + r * x` modulo the order, so that the two multiples which a verifier adds meet in the
commitment `[k]G` again and have the same first coordinate. The main theorem is
`signature_accepted`, for the scheme and for its signatures on the wire.
-/

namespace TrustedPlatform

open LawfulArithmetic (Denotes)

variable {α : Type} [Arithmetic α] [LawfulArithmetic α]

namespace Signature.Ecdsa

open CurveParameters

variable {d : CurveParameters} [Fact d.p.Prime] [Fact d.n.Prime] (h : d.Generated)

/-- The two residues are those of a signature under a private and an ephemeral scalar. -/
structure Signs (x k e : ZMod d.n) (r s : ZMod d.n) : Prop where
  r_eq : r = abscissa (h.multiple k)
  s_mul : s * k = e + r * x
  r_ne_zero : r ≠ 0
  s_ne_zero : s ≠ 0

variable {h} in
/-- The multiples that a verifier adds meet in the commitment. -/
theorem Signs.verifier_eq {x k e r s : ZMod d.n} (hsigns : Signs h x k e r s) :
    e * s⁻¹ + r * s⁻¹ * x = k := by
  have hs := hsigns.s_ne_zero
  field_simp
  linear_combination -hsigns.s_mul

variable {x k : α} {ξ κ : ZMod d.n}

/-- An attempt on an ephemeral scalar other than zero returns a signature, unless it meets an
unusable zero. -/
theorem signWith_attempt (hx : Reduced x ξ) (hk : Reduced k κ) (hκ : κ ≠ 0) (digest : Bytes) :
    Attempt (signWith (Curve.ofParameters d) x k digest) fun signature =>
      ∃ ρ σ, Reduced signature.1 ρ ∧ Reduced signature.2 σ ∧
        Signs h ξ κ (d.digestNumber digest) ρ σ := by
  have hn := order_modulus (α := α) h.mem
  rw [signWith]
  refine .bind (h.mul_generator_returns hk) fun point hpoint => ?_
  refine .guarded _ fun _ => ?_
  refine .bind ((residue_abscissa h.mem hpoint).reduce hn) fun r hr => ?_
  refine .guarded _ fun hzero => ?_
  refine .bind (digestToInt_returns h.mem digest) fun e he => ?_
  refine .bind ((hk.residue hn).inverse hn hκ) fun o ho => ?_
  obtain ⟨kInverse, rfl, hinverse⟩ := ho
  refine .bind ((hr.residue hn).mul hn (hx.residue hn)) fun rd hrd => ?_
  refine .bind (he.add hn (hrd.residue hn)) fun sum hsum => ?_
  refine .bind ((hinverse.residue hn).mul hn (hsum.residue hn)) fun s hs => ?_
  refine .guarded _ fun hzero' => ?_
  refine .ok ⟨_, _, hr, hs, rfl, ?_, mt hr.isZero_iff.mpr hzero, mt hs.isZero_iff.mpr hzero'⟩
  field_simp

/-- A verifier accepts a signature under any triple that stands for the public point. -/
theorem verify_eq_ok {q : Jacobian α} (hq : q.Represents (d.a : ZMod d.p) d.b (h.multiple ξ))
    {digest : Bytes} {r s : α} {ρ σ : ZMod d.n} (hr : Reduced r ρ) (hs : Reduced s σ)
    (hκ : κ ≠ 0) (hsigns : Signs h ξ κ (d.digestNumber digest) ρ σ) :
    verify (Curve.ofParameters d) q digest r s = .ok () := by
  have hn := order_modulus (α := α) h.mem
  refine Returns.eq_ok ?_
  rw [verify, inScalarRange_of_ne_zero hr hsigns.r_ne_zero,
    inScalarRange_of_ne_zero hs hsigns.s_ne_zero]
  refine (Returns.ok rfl : Returns _ (· = ())).bind fun _ _ => ?_
  refine (digestToInt_returns h.mem digest).bind fun e he => ?_
  refine ((hs.residue hn).inverse hn hsigns.s_ne_zero).bind fun o ho => ?_
  obtain ⟨w, rfl, hw⟩ := ho
  refine (he.reduce hn).bind fun e he => ?_
  refine ((he.residue hn).mul hn (hw.residue hn)).bind fun u1 hu1 => ?_
  refine ((hr.residue hn).mul hn (hw.residue hn)).bind fun u2 hu2 => ?_
  refine (h.mul2_returns hu1 hu2 hq).bind fun point hpoint => ?_
  rw [hsigns.verifier_eq] at hpoint
  have hfinite : ¬point.isInfinity = true := by
    rw [h.isInfinity_iff hpoint]
    exact hκ
  rw [if_neg hfinite]
  refine ((residue_abscissa h.mem hpoint).reduce hn).bind fun v hv => ?_
  rw [(hv.eq_iff hr).mpr hsigns.r_eq.symm]
  exact .ok rfl

/-- An attempt gives a signature that is accepted. -/
theorem signWith_accepted (hx : Reduced x ξ) (hk : Reduced k κ) (hκ : κ ≠ 0) (digest : Bytes) :
    Attempt (signWith (Curve.ofParameters d) x k digest)
      (Accepted h ξ fun q => verify (Curve.ofParameters d) q digest) := by
  refine (signWith_attempt h hx hk hκ digest).mono ?_
  rintro signature ⟨ρ, τ, hr, hs, hsigns⟩
  exact ⟨ρ, τ, hr, hs, hsigns.r_ne_zero, hsigns.s_ne_zero, fun hq hr hs =>
    verify_eq_ok h hq hr hs hκ hsigns⟩

omit [LawfulArithmetic α] in
/-- The scheme on the wire is that of the attempts. -/
theorem signsBy (c : Curve α) (hash : Hash) (digest : Bytes) :
    c.SignsBy .ecdsa hash digest "ECDSA signing" (fun x k => signWith c x k digest)
      fun q => verify c q digest :=
  ⟨fun _ _ _ => rfl, fun _ _ _ => rfl⟩

/-- A signature on the wire has scalars of the width of the order, and is accepted under the wire
form of the public point. -/
theorem sign_verifies {σ : Type} [RandomSource σ] {privateKey : Bytes}
    (hprivate : (Bytes.toNat privateKey : ZMod d.n) = ξ) {wire : Wire.Point}
    (hwire : wire.Holds (Bytes.widthOf d.p) (normalForm (h.multiple ξ))) (hash : Hash)
    (digest : Bytes) :
    ((Curve.ofParameters d : Curve α).sign .ecdsa hash privateKey digest :
      Randomized σ Signature).Yields fun signature =>
        signature.r.bytes.length = Bytes.widthOf d.n ∧
        signature.s.bytes.length = Bytes.widthOf d.n ∧
        (Curve.ofParameters d : Curve α).verify wire signature digest = .ok () := by
  refine (signsBy _ hash digest).sign_yields (fun x k κ hx hk hκ => ?_) hprivate hwire
  exact signWith_accepted h hx hk hκ digest

/-- On a registered curve whose generator has a prime order, each ephemeral scalar gives a signature
that is accepted under the public point of the private scalar, for a digest of any length, unless it
gives an unusable zero; and so does signing with scalars from any source, on the wire. -/
theorem signature_accepted {id : CurveId} {c : Curve α} (hc : Curve.load α id = .ok c)
    [Fact c.parameters.p.Prime] [Fact c.parameters.n.Prime]
    (horder : c.parameters.n • c.parameters.point c.parameters.generator = 0)
    {x : α} {m : Nat} (hx : Denotes x m) (hpos : 0 < m) (hlt : m < c.parameters.n)
    {Q : Jacobian Nat} {q : Jacobian α} (hQ : c.parameters.OnCurve Q) (hq : q.Matches Q)
    (hpublic : c.parameters.point Q = m • c.parameters.point c.parameters.generator) :
    (∀ (k : α) (t : Nat), Denotes k t → 0 < t → t < c.parameters.n → ∀ digest : Bytes,
      Attempt (signWith c x k digest) fun signature => ∃ r s,
        Denotes signature.1 r ∧ Denotes signature.2 s ∧
        0 < r ∧ r < c.parameters.n ∧ 0 < s ∧ s < c.parameters.n ∧
        verify c q digest signature.1 signature.2 = .ok ()) ∧
    ∃ wire, c.toWire q = .ok wire ∧
      ∀ (σ : Type) [RandomSource σ] (source : σ) (hash : Hash) (privateKey digest : Bytes)
        (signature : Signature), Bytes.toNat privateKey = m →
        ((c.sign .ecdsa hash privateKey digest : Randomized σ Signature).runFrom source).1 =
          .ok signature →
        signature.r.bytes.length = c.orderBytes ∧ signature.s.bytes.length = c.orderBytes ∧
        c.verify wire signature digest = .ok () := by
  obtain ⟨d, hmem, rfl⟩ := Curve.exists_of_load hc
  have : Fact d.p.Prime := ‹Fact (Curve.ofParameters d : Curve α).parameters.p.Prime›
  have : Fact d.n.Prime := ‹Fact (Curve.ofParameters d : Curve α).parameters.n.Prime›
  have h : d.Generated := ⟨hmem, horder⟩
  have hrep : q.Represents (d.a : ZMod d.p) d.b (h.multiple m) := by
    rw [h.multiple_natCast, ← show d.point Q = m • d.point d.generator from hpublic]
    exact hQ.represents (regular_of_mem d hmem) hq
  constructor
  · intro k t hk htpos htlt digest
    refine (signWith_attempt h (.of_lt hx hlt) (.of_lt hk htlt) (natCast_ne_zero htpos htlt)
      digest).mono ?_
    rintro ⟨r, s⟩ ⟨ρ, τ, hr, hs, hsigns⟩
    exact ⟨ρ.val, τ.val, hr.denotes, hs.denotes, ZMod.val_pos.mpr hsigns.r_ne_zero, ZMod.val_lt ρ,
      ZMod.val_pos.mpr hsigns.s_ne_zero, ZMod.val_lt τ,
      verify_eq_ok h hrep hr hs (natCast_ne_zero htpos htlt) hsigns⟩
  · obtain ⟨wire, hwire, hholds⟩ :=
      toWire_returns hmem (mt h.multiple_eq_zero_iff.mp (natCast_ne_zero hpos hlt)) hrep
    refine ⟨wire, hwire, ?_⟩
    intro σ _ source hash privateKey digest signature hprivate hrun
    rw [orderBytes_eq]
    exact sign_verifies h (congrArg Nat.cast hprivate) hholds hash digest source signature hrun

/-- A signature of a digest that is longer than the order, and one on the wire, are returned and
accepted on the 256-bit curve. -/
theorem signature_accepted_nistP256 :
    ∃ _ : Fact nistP256.p.Prime, ∃ _ : Fact nistP256.n.Prime, ∃ c : Curve FixedNat,
    ∃ q : Jacobian FixedNat, ∃ wire : Wire.Point,
      Curve.load FixedNat 3 = .ok c ∧ c.mul (Arithmetic.ofWord 5) c.g = .ok q ∧
      c.toWire q = .ok wire ∧
      (∃ signature, signWith c (Arithmetic.ofWord 5) (Arithmetic.ofWord 7) (List.replicate 64 0xa5) =
          .ok signature ∧
        verify c q (List.replicate 64 0xa5) signature.1 signature.2 = .ok ()) ∧
      (∀ (source : ByteStream) (signature : Signature),
        ((c.sign .ecdsa HashAlgorithm.sha256.hash [5] (List.replicate 32 0xa5) :
          Randomized ByteStream Signature).runFrom source).1 = .ok signature →
        c.verify wire signature (List.replicate 32 0xa5) = .ok ()) ∧
      ∃ signature, ((c.sign .ecdsa HashAlgorithm.sha256.hash [5] (List.replicate 32 0xa5) :
          Randomized ByteStream Signature).runFrom ⟨fun i => if i = 39 then 6 else 0, none, 0⟩).1 =
            .ok signature := by
  have hp : Fact nistP256.p.Prime := ⟨primes_nistP256.1⟩
  have hn : Fact nistP256.n.Prime := ⟨primes_nistP256.2⟩
  have hload : Curve.load FixedNat 3 = .ok (Curve.ofParameters nistP256) := rfl
  have hfive : Denotes (Arithmetic.ofWord 5 : FixedNat) 5 := LawfulArithmetic.ofWord 5
  obtain ⟨Q, q, hmul, hmatches, hQ, hpoint⟩ := generated_nistP256.exists_public hfive
  have : Fact (Curve.ofParameters nistP256 : Curve FixedNat).parameters.p.Prime := hp
  have : Fact (Curve.ofParameters nistP256 : Curve FixedNat).parameters.n.Prime := hn
  obtain ⟨hsign, wire, hwire, hverify⟩ := signature_accepted hload
    generated_nistP256.nsmul_generator hfive (by decide) (by decide) hQ hmatches hpoint
  -- exact arithmetic is evaluated, and limbs follow it
  have hsmall := smallCurve (α := FixedNat) generated_nistP256.mem
  refine ⟨hp, hn, _, q, wire, hload, hmul, hwire, ?_, ?_, ?_⟩
  · have hok : (signWith (Curve.ofParameters nistP256) (Arithmetic.ofWord 5 : Nat)
        (Arithmetic.ofWord 7) (List.replicate 64 0xa5)).isOk := by
      decide +kernel
    have hrefines := hsmall.ecdsaSignWith (.ofWord 5) (.ofWord 7) (List.replicate 64 0xa5)
    obtain ⟨signature, hsignature⟩ := hrefines.exists_of_isOk trivial hok
    obtain ⟨r, s, -, -, -, -, -, -, haccepted⟩ :=
      (hsign _ 7 (LawfulArithmetic.ofWord 7) (by decide) (by decide) _).of_ok hsignature
    exact ⟨signature, hsignature, haccepted⟩
  · intro source signature hrun
    exact (hverify ByteStream source _ [5] _ signature rfl hrun).2.2
  · have hok : (((Curve.ofParameters nistP256 : Curve Nat).sign .ecdsa
        HashAlgorithm.sha256.hash [5] (List.replicate 32 0xa5) :
          Randomized ByteStream Signature).runFrom
            ⟨fun i => if i = 39 then 6 else 0, none, 0⟩).1.isOk := by
      decide +kernel
    exact (hsmall.sign .ecdsa _ [5] _ _).1.exists_of_isOk trivial hok

end Signature.Ecdsa

end TrustedPlatform
