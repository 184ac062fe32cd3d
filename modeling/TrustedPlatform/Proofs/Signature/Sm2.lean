import TrustedPlatform.Proofs.Derivation
import TrustedPlatform.Proofs.Signature.Attempt

/-!
# Completeness of SM2 signatures

A signature `(r, s)` under the private scalar `x` and the ephemeral scalar `k` satisfies
`s * (1 + x) = k - r * x` modulo the order, so that `s + (r + s) * x = k`: the multiples of the
generator by `s` and of the public point by `r + s` add up to the commitment `[k]G`. As
`(r + s) * (1 + x) = r + k`, the sum `r + s` is not zero. The private scalar one below the order,
for which `1 + x` has no inverse, signs nothing. The main theorem is `sm2_accepted`.
-/

namespace TrustedPlatform

open LawfulArithmetic (Denotes)

variable {α : Type} [Arithmetic α] [LawfulArithmetic α]

namespace Signature.Sm2

open CurveParameters

variable {d : CurveParameters} [Fact d.n.Prime]

/-- The number of a digest of at most 64 bytes is reduced modulo the order. -/
theorem reduce_digest_returns (hd : d ∈ all) {digest : Bytes} (hlen : digest.length ≤ 64) :
    Returns (Arithmetic.reduce (Arithmetic.ofBytes digest : α) (Curve.ofParameters d).n)
      (Reduced · (Bytes.toNat digest : ZMod d.n)) := by
  have hcount := Limbs.count_toNat_le digest
  exact (Residue.of_denotes (LawfulArithmetic.ofBytes digest) (by omega)).reduce (order_modulus hd)

variable {x k : α} {ξ κ : ZMod d.n} {digest : Bytes}

/-- No attempt under the private scalar one below the order returns a signature. -/
theorem signWith_ne_ok (hd : d ∈ all) (hx : Reduced x ξ) (hξ : 1 + ξ = 0) (signature : α × α) :
    signWith (Curve.ofParameters d) x k digest ≠ .ok signature := by
  have hn := order_modulus (α := α) hd
  have hone : Residue (Arithmetic.ofWord 1 : α) (1 : ZMod d.n) :=
    (Residue.ofWord 1).of_eq Nat.cast_one
  intro hok
  rw [signWith] at hok
  obtain ⟨point, -, hok⟩ := exists_of_bind_eq_ok hok
  split at hok
  · cases hok
  obtain ⟨e, -, hok⟩ := exists_of_bind_eq_ok hok
  obtain ⟨r, -, hok⟩ := exists_of_bind_eq_ok hok
  split at hok
  · cases hok
  obtain ⟨rk, -, hok⟩ := exists_of_bind_eq_ok hok
  split at hok
  · cases hok
  -- the sum with one is zero, for which there is no inverse
  obtain ⟨x', hx', hreduced⟩ := hone.add hn (hx.residue hn)
  rw [hξ] at hreduced
  obtain ⟨o, hinverse, rfl⟩ := (hreduced.residue hn).inverse_zero hn
  rw [hx'] at hok
  simp only [bind, Except.bind, hinverse] at hok
  cases hok

omit [LawfulArithmetic α] in
/-- The scheme on the wire is that of the attempts. -/
theorem signsBy (c : Curve α) (hash : Hash) (digest : Bytes) :
    c.SignsBy .sm2 hash digest "SM2 signing" (fun x k => signWith c x k digest)
      fun q => verify c q digest :=
  ⟨fun _ _ _ => rfl, fun _ _ _ => rfl⟩

/-- Signing on the wire with the private scalar one below the order yields no signature. -/
theorem sign_yields_nothing {σ : Type} [RandomSource σ] (hd : d ∈ all) {privateKey : Bytes}
    (hprivate : 1 + (Bytes.toNat privateKey : ZMod d.n) = 0) (hash : Hash) (digest : Bytes) :
    ((Curve.ofParameters d : Curve α).sign .sm2 hash privateKey digest :
      Randomized σ Signature).Yields fun _ => False := by
  have hn : 1 < d.n := Nat.Prime.one_lt Fact.out
  rw [(signsBy _ hash digest).sign_eq]
  refine (Randomized.Yields.lift fun _ _ => trivial).bind fun _ _ => ?_
  refine (Randomized.Yields.lift fun x hx => privateScalar_eq_ok_iff.mp hx).bind ?_
  rintro x ⟨rfl, -, hlt⟩
  have hx : Reduced (Arithmetic.ofBytes privateKey : α) (Bytes.toNat privateKey : ZMod d.n) :=
    .of_lt (LawfulArithmetic.ofBytes privateKey) hlt
  refine (Randomized.Yields.retry (randomScalar_yields hd hn) ?_ _ _).bind fun _ => False.elim
  exact fun k _ signature hok => signWith_ne_ok hd hx hprivate signature hok

variable [Fact d.p.Prime] (h : d.Generated)

/-- The two residues are those of a signature under a private and an ephemeral scalar. -/
structure Signs (x k e : ZMod d.n) (r s : ZMod d.n) : Prop where
  r_eq : r = e + abscissa (h.multiple k)
  s_mul : s * (1 + x) = k - r * x
  r_ne_zero : r ≠ 0
  s_ne_zero : s ≠ 0
  sum_ne_zero : r + s ≠ 0

variable {h} in
/-- What an attempt computes makes up a signature, unless it meets an unusable zero. -/
theorem Signs.of_attempt {x k e r : ZMod d.n} (hx : 1 + x ≠ 0)
    (hr : r = e + abscissa (h.multiple k)) (hzero : r ≠ 0) (hsum : r + k ≠ 0)
    (hzero' : (1 + x)⁻¹ * (k - r * x) ≠ 0) : Signs h x k e r ((1 + x)⁻¹ * (k - r * x)) := by
  have hmul : (1 + x)⁻¹ * (k - r * x) * (1 + x) = k - r * x := by field_simp
  refine ⟨hr, hmul, hzero, hzero', fun hsum' => hsum ?_⟩
  linear_combination (1 + x) * hsum' - hmul

variable {h} in
/-- The multiples that a verifier adds meet in the commitment. -/
theorem Signs.verifier_eq {x k e r s : ZMod d.n} (hsigns : Signs h x k e r s) :
    s + (r + s) * x = k := by
  linear_combination hsigns.s_mul

/-- An attempt on an ephemeral scalar other than zero returns a signature, unless it meets an
unusable zero. -/
theorem signWith_attempt (hx : Reduced x ξ) (hξ : 1 + ξ ≠ 0) (hk : Reduced k κ)
    (hlen : digest.length ≤ 64) :
    Attempt (signWith (Curve.ofParameters d) x k digest) fun signature =>
      ∃ ρ τ, Reduced signature.1 ρ ∧ Reduced signature.2 τ ∧
        Signs h ξ κ (Bytes.toNat digest) ρ τ := by
  have hn := order_modulus (α := α) h.mem
  have hone : Residue (Arithmetic.ofWord 1 : α) (1 : ZMod d.n) :=
    (Residue.ofWord 1).of_eq Nat.cast_one
  rw [signWith]
  refine .bind (h.mul_generator_returns hk) fun point hpoint => ?_
  refine .guarded _ fun _ => ?_
  refine .bind (reduce_digest_returns h.mem hlen) fun e he => ?_
  refine .bind ((he.residue hn).add hn (residue_abscissa h.mem hpoint)) fun r hr => ?_
  refine .guarded _ fun hzero => ?_
  refine .bind ((hr.residue hn).add hn (hk.residue hn)) fun rk hrk => ?_
  refine .guarded _ fun hzero' => ?_
  refine .bind (hone.add hn (hx.residue hn)) fun x' hx' => ?_
  refine .bind ((hx'.residue hn).inverse hn hξ) fun o ho => ?_
  obtain ⟨inverse, rfl, hinverse⟩ := ho
  refine .bind ((hr.residue hn).mul hn (hx.residue hn)) fun rd hrd => ?_
  refine .bind ((hk.residue hn).sub hn (hrd.residue hn)) fun difference hdifference => ?_
  refine .bind ((hinverse.residue hn).mul hn (hdifference.residue hn)) fun s hs => ?_
  refine .guarded _ fun hzero'' => ?_
  exact .ok ⟨_, _, hr, hs, .of_attempt hξ rfl (mt hr.isZero_iff.mpr hzero)
    (mt hrk.isZero_iff.mpr hzero') (mt hs.isZero_iff.mpr hzero'')⟩

variable {q : Jacobian α} {r s : α} {ρ τ : ZMod d.n}

/-- A verifier accepts a signature under any triple that stands for the public point. -/
theorem verify_eq_ok (hq : q.Represents (d.a : ZMod d.p) d.b (h.multiple ξ)) (hr : Reduced r ρ)
    (hs : Reduced s τ) (hκ : κ ≠ 0) (hlen : digest.length ≤ 64)
    (hsigns : Signs h ξ κ (Bytes.toNat digest) ρ τ) :
    verify (Curve.ofParameters d) q digest r s = .ok () := by
  have hn := order_modulus (α := α) h.mem
  refine Returns.eq_ok ?_
  rw [verify, inScalarRange_of_ne_zero hr hsigns.r_ne_zero,
    inScalarRange_of_ne_zero hs hsigns.s_ne_zero]
  refine (Returns.ok rfl : Returns _ (· = ())).bind fun _ _ => ?_
  refine ((hr.residue hn).add hn (hs.residue hn)).bind fun t ht => ?_
  rw [if_neg (mt ht.isZero_iff.mp hsigns.sum_ne_zero)]
  refine (h.mul2_returns hs ht hq).bind fun point hpoint => ?_
  rw [hsigns.verifier_eq] at hpoint
  rw [if_neg (mt (h.isInfinity_iff hpoint).mp hκ)]
  refine (reduce_digest_returns h.mem hlen).bind fun e he => ?_
  refine ((he.residue hn).add hn (residue_abscissa h.mem hpoint)).bind fun expected hexpected => ?_
  rw [(hexpected.eq_iff hr).mpr hsigns.r_eq.symm]
  exact .ok rfl

/-- An attempt gives a signature that is accepted. -/
theorem signWith_accepted (hx : Reduced x ξ) (hξ : 1 + ξ ≠ 0) (hk : Reduced k κ) (hκ : κ ≠ 0)
    (hlen : digest.length ≤ 64) :
    Attempt (signWith (Curve.ofParameters d) x k digest)
      (Accepted h ξ fun q => verify (Curve.ofParameters d) q digest) := by
  refine (signWith_attempt h hx hξ hk hlen).mono ?_
  rintro signature ⟨ρ, τ, hr, hs, hsigns⟩
  exact ⟨ρ, τ, hr, hs, hsigns.r_ne_zero, hsigns.s_ne_zero, fun hq hr hs =>
    verify_eq_ok h hq hr hs hκ hlen hsigns⟩

/-- On a registered curve whose generator has a prime order, each ephemeral scalar gives a signature
that is accepted under the public point of the private scalar, for a digest of at most 64 bytes,
unless it gives an unusable zero; the sum of its numbers is no multiple of the order. Signing with
scalars from any source gives such signatures on the wire. Under the private scalar one below the
order there are no signatures. -/
theorem sm2_accepted {id : CurveId} {c : Curve α} (hc : Curve.load α id = .ok c)
    [Fact c.parameters.p.Prime] [Fact c.parameters.n.Prime]
    (horder : c.parameters.n • c.parameters.point c.parameters.generator = 0)
    {x : α} {m : Nat} (hx : Denotes x m) (hpos : 0 < m) (hlt : m < c.parameters.n)
    {Q : Jacobian Nat} {q : Jacobian α} (hQ : c.parameters.OnCurve Q) (hq : q.Matches Q)
    (hpublic : c.parameters.point Q = m • c.parameters.point c.parameters.generator) :
    (m + 1 < c.parameters.n →
      (∀ (k : α) (t : Nat), Denotes k t → 0 < t → t < c.parameters.n →
        ∀ digest : Bytes, digest.length ≤ 64 →
        Attempt (signWith c x k digest) fun signature => ∃ r s,
          Denotes signature.1 r ∧ Denotes signature.2 s ∧
          0 < r ∧ r < c.parameters.n ∧ 0 < s ∧ s < c.parameters.n ∧
          ¬c.parameters.n ∣ r + s ∧
          verify c q digest signature.1 signature.2 = .ok ()) ∧
      ∃ wire, c.toWire q = .ok wire ∧
        ∀ (σ : Type) [RandomSource σ] (hash : Hash) (privateKey digest : Bytes),
          Bytes.toNat privateKey = m → digest.length = hash.size →
          (c.sign .sm2 hash privateKey digest : Randomized σ Signature).Attempts
            fun signature => signature.r.bytes.length = c.orderBytes ∧
              signature.s.bytes.length = c.orderBytes ∧
              c.verify wire signature digest = .ok ()) ∧
    (m + 1 = c.parameters.n →
      (∀ (k : α) (digest : Bytes) (signature : α × α), signWith c x k digest ≠ .ok signature) ∧
      ∀ (σ : Type) [RandomSource σ] (source : σ) (hash : Hash) (privateKey digest : Bytes)
        (signature : Signature), Bytes.toNat privateKey = m →
        ((c.sign .sm2 hash privateKey digest : Randomized σ Signature).runFrom source).1
          ≠ .ok signature) := by
  obtain ⟨d, hmem, rfl⟩ := Curve.exists_of_load hc
  have : Fact d.p.Prime := ‹Fact (Curve.ofParameters d : Curve α).parameters.p.Prime›
  have : Fact d.n.Prime := ‹Fact (Curve.ofParameters d : Curve α).parameters.n.Prime›
  have h : d.Generated := ⟨hmem, horder⟩
  have hrep : q.Represents (d.a : ZMod d.p) d.b (h.multiple m) := h.represents_public hQ hq hpublic
  have hx' : Reduced x (m : ZMod d.n) := .of_lt hx hlt
  have hnext : 1 + (m : ZMod d.n) = ((m + 1 : Nat) : ZMod d.n) := by
    rw [Nat.cast_add_one, add_comm]
  refine ⟨fun hbelow => ⟨?_, ?_⟩, fun hlast => ⟨?_, ?_⟩⟩
  · intro k t hk htpos htlt digest hlen
    have hξ : 1 + (m : ZMod d.n) ≠ 0 := hnext ▸ natCast_ne_zero (Nat.succ_pos m) hbelow
    refine (signWith_attempt h hx' hξ (.of_lt hk htlt) hlen).mono ?_
    rintro ⟨r, s⟩ ⟨ρ, τ, hr, hs, hsigns⟩
    refine ⟨ρ.val, τ.val, hr.denotes, hs.denotes, ZMod.val_pos.mpr hsigns.r_ne_zero, ZMod.val_lt ρ,
      ZMod.val_pos.mpr hsigns.s_ne_zero, ZMod.val_lt τ, fun hdvd => hsigns.sum_ne_zero ?_,
      verify_eq_ok h hrep hr hs (natCast_ne_zero htpos htlt) hlen hsigns⟩
    have hzero : ((ρ.val + τ.val : Nat) : ZMod d.n) = 0 := (ZMod.natCast_eq_zero_iff _ _).mpr hdvd
    rwa [Nat.cast_add, ZMod.natCast_zmod_val, ZMod.natCast_zmod_val] at hzero
  · have hξ : 1 + (m : ZMod d.n) ≠ 0 := hnext ▸ natCast_ne_zero (Nat.succ_pos m) hbelow
    obtain ⟨wire, hwire, hholds⟩ :=
      toWire_returns hmem (mt h.multiple_eq_zero_iff.mp (natCast_ne_zero hpos hlt)) hrep
    refine ⟨wire, hwire, fun σ _ hash privateKey digest hprivate hlen => ?_⟩
    rw [orderBytes_eq]
    refine (signsBy _ hash digest).sign_attempts (fun x k κ hx hk hκ => ?_)
      (congrArg Nat.cast hprivate) (hprivate ▸ hpos) (hprivate ▸ hlt) hlen hholds
    exact signWith_accepted h hx hξ hk hκ (hlen.trans_le hash.size_le)
  · intro k digest signature
    exact signWith_ne_ok hmem hx' (by rw [hnext, show m + 1 = d.n from hlast, ZMod.natCast_self]) _
  · intro σ _ source hash privateKey digest signature hprivate hok
    refine sign_yields_nothing hmem ?_ hash digest source signature hok
    rw [hprivate, hnext, show m + 1 = d.n from hlast, ZMod.natCast_self]

/-- On the 256-bit curve a signature of a digest of 64 bytes with an ephemeral scalar, and one on the
wire, are returned and accepted. -/
theorem sm2_accepted_nistP256 :
    ∃ _ : Fact nistP256.p.Prime, ∃ _ : Fact nistP256.n.Prime, ∃ c : Curve Nat, ∃ q : Jacobian Nat,
    ∃ wire : Wire.Point,
      Curve.load Nat 3 = .ok c ∧ c.mul (Arithmetic.ofWord 5) c.g = .ok q ∧
      c.toWire q = .ok wire ∧
      (∃ signature, signWith c (Arithmetic.ofWord 5) (Arithmetic.ofWord 7) (List.replicate 64 0xa5)
          = .ok signature ∧
        verify c q (List.replicate 64 0xa5) signature.1 signature.2 = .ok ()) ∧
      ∃ signature, ((c.sign .sm2 HashAlgorithm.sha256.hash [5] (List.replicate 32 0xa5) :
          Randomized ByteStream Signature).runFrom ⟨fun i => if i = 39 then 6 else 0, none, 0⟩).1
            = .ok signature ∧
        c.verify wire signature (List.replicate 32 0xa5) = .ok () := by
  have hp : Fact nistP256.p.Prime := ⟨primes_nistP256.1⟩
  have hn : Fact nistP256.n.Prime := ⟨primes_nistP256.2⟩
  have hload : Curve.load Nat 3 = .ok (Curve.ofParameters nistP256) := rfl
  have hfive : Denotes (Arithmetic.ofWord 5 : Nat) 5 := LawfulArithmetic.ofWord 5
  obtain ⟨Q, q, hmul, hmatches, hQ, hpoint⟩ := generated_nistP256.exists_public hfive
  have : Fact (Curve.ofParameters nistP256 : Curve Nat).parameters.p.Prime := hp
  have : Fact (Curve.ofParameters nistP256 : Curve Nat).parameters.n.Prime := hn
  obtain ⟨hsign, wire, hwire, hverify⟩ := (sm2_accepted hload generated_nistP256.nsmul_generator
    hfive (by decide) (by decide) hQ hmatches hpoint).1 (by decide)
  refine ⟨hp, hn, _, q, wire, hload, hmul, hwire, ?_, ?_⟩
  · have hok : (signWith (Curve.ofParameters nistP256) (Arithmetic.ofWord 5 : Nat)
        (Arithmetic.ofWord 7) (List.replicate 64 0xa5)).isOk := by
      decide +kernel
    obtain ⟨signature, hsignature⟩ := exists_of_isOk hok
    obtain ⟨r, s, -, -, -, -, -, -, -, haccepted⟩ :=
      (hsign _ 7 (LawfulArithmetic.ofWord 7) (by decide) (by decide) _ (by decide)).of_ok hsignature
    exact ⟨signature, hsignature, haccepted⟩
  · have hok : (((Curve.ofParameters nistP256 : Curve Nat).sign .sm2
        HashAlgorithm.sha256.hash [5] (List.replicate 32 0xa5) :
          Randomized ByteStream Signature).runFrom
            ⟨fun i => if i = 39 then 6 else 0, none, 0⟩).1.isOk := by
      decide +kernel
    obtain ⟨signature, hsignature⟩ := exists_of_isOk hok
    exact ⟨signature, hsignature,
      ((hverify ByteStream _ [5] _ rfl (by decide)).of_ok hsignature).2.2⟩

end Signature.Sm2

end TrustedPlatform
