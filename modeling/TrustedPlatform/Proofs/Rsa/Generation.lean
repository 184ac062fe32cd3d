import Mathlib.Data.Nat.Dist
import TrustedPlatform.Proofs.Random.Conclusion
import TrustedPlatform.Proofs.Rsa.Candidate

/-!
# What generated keys are like

The shape of the two factors makes every later step succeed: their product has exactly twice their
bits, the exponent has an inverse modulo the order, and the parts pass the checks of a key. So a
generation ends in a key of that shape, in the refusal of its arguments, without a result, or in the
fault of a draw.
-/

namespace TrustedPlatform.Rsa

open Bytes (toNat)
open LawfulArithmetic (Denotes)
open Limbs (count)

variable {α : Type} [Arithmetic α] [LawfulArithmetic α] {x y gap : α} {n p q : Nat}

/-! ### The search for a factor -/

section Search

variable {σ : Type} [RandomSource σ] {E : Fault → Prop}

/-- Rounds of a test end in a verdict or in the fault of a draw. -/
theorem Tested.conclusion {rounds : Nat} {s t : σ} {outcome : Checked Bool}
    (h : Tested n rounds s outcome t) : Conclusion (fun _ => True) E s outcome t := by
  induction h with
  | done => exact .value trivial .refl
  | failed hfill => exact .failed .refl hfill
  | refuted hfill _ => exact .value trivial (.single ⟨_, _, hfill⟩)
  | passed hfill _ _ ih => exact ih.after (.single ⟨_, _, hfill⟩)

/-- The test ends in a verdict or in the fault of a draw. -/
theorem isProbablePrime_concludes (hx : Small x n) (rounds : Nat) :
    Concludes (fun _ => True) E (isProbablePrime x rounds : Randomized σ Bool) := by
  by_cases hearly : n < 5 ∨ n % 2 = 0
  · rw [isProbablePrime_of_small_or_even hx.denotes hearly]
    exact .pure trivial
  · have hn : 5 ≤ n := by omega
    have hodd : n % 2 = 1 := by omega
    exact fun s => ((runsInRounds_of_within (by decide) hx.within hn hodd).tested hx.denotes hn hodd
      rounds s).conclusion

/-- Admissible numbers are recognized. -/
theorem isAdmissible_returns (hx : Small x n) (hn : 1000 ≤ n) (e : UInt32) :
    Returns (isAdmissible (Arithmetic.ofWord e.toUInt64) x) fun admissible =>
      admissible = true ↔ Admissible e.toNat n := by
  refine ((isAdmissible_refines (.ofWord e.toUInt64) hx).returns_of_returns trivial
    (isAdmissible_exact _ hn)).mono ?_
  rintro admissible ⟨_, rfl, h⟩
  rwa [UInt32.toNat_toUInt64] at h

/-- The generation of a factor ended without a result. -/
def NoPrime (e : Fault) : Prop :=
  e = .noResult "prime generation"

/-- A candidate is small, and larger than the primes that it is divided by. -/
theorem candidate_small {bits : Nat} (hmin : 512 ≤ bits) (hmax : bits ≤ 4096) {drawn : Bytes}
    (hdrawn : drawn.length = (bits + 7) / 8) :
    Small (Arithmetic.ofBytes (candidateBytes bits drawn) : α) (candidate bits (toNat drawn)) ∧
      1000 ≤ candidate bits (toNat drawn) := by
  have hbits : 2 ≤ bits := by omega
  have hlength : (candidateBytes bits drawn).length ≤ 512 :=
    (length_candidateBytes_le bits drawn).trans (by omega)
  constructor
  · rw [← toNat_candidateBytes hbits hdrawn]
    exact .ofBytes hlength
  · have hsize := (candidate_bits hbits (toNat drawn)).1
    exact le_trans (by decide) (Nat.lt_size.mp (show 10 < _ by omega))

/-- The search for a prime ends in a factor of the right shape, or without a result. -/
theorem searchPrime_concludes {bits : Nat} (hmin : 512 ≤ bits) (hmax : bits ≤ 4096) (e : UInt32)
    (candidates : Nat) :
    Concludes (fun x => ∃ p, Small x p ∧ FactorShape bits e.toNat p) NoPrime
      (searchPrime bits (Arithmetic.ofWord e.toUInt64) candidates : Randomized σ α) := by
  induction candidates with
  | zero => exact .throw rfl
  | succ candidates ih =>
      refine (Concludes.draw _).bind fun drawn hdrawn => ?_
      obtain ⟨hx, hlarge⟩ := candidate_small (α := α) hmin hmax hdrawn
      obtain ⟨hsize, htop, hodd⟩ := candidate_bits (show 2 ≤ bits by omega) (toNat drawn)
      refine (Concludes.returns (isAdmissible_returns hx hlarge e)).bind
        fun admissible hadmissible => ?_
      refine .ite (fun h => ?_) fun _ => (Concludes.pure (P := (· = false)) rfl).bind fun _ h => ?_
      · refine (isProbablePrime_concludes hx witnessRounds).bind fun prime _ => ?_
        exact .ite (fun _ => .pure ⟨_, hx, hsize, htop, hodd, hadmissible.mp h⟩) fun _ => ih
      · subst h
        exact ih

/-- The distance of two numbers. -/
theorem distance_returns (hx : Small x p) (hy : Small y q) :
    Returns (distance x y) fun z => Small z (Nat.dist p q) := by
  have hexact : distance p q = .ok (Nat.dist p q) := by
    rw [distance]
    split
    · rename_i h
      have hle := (Nat.compare_eq_gt.mp h).le
      rw [LawfulArithmetic.exact_sub_of_le hle, Nat.dist_eq_sub_of_le_right hle]
    · rename_i h
      have hle := Nat.le_of_not_lt (mt Nat.compare_eq_gt.mpr h)
      rw [LawfulArithmetic.exact_sub_of_le hle, Nat.dist_eq_sub_of_le hle]
  have hrefines := distance_refines hx hy
  rw [hexact] at hrefines
  exact hrefines.returns trivial

/-- The search for a second factor ends in one at a distance, or without a result. -/
theorem searchDistant_concludes {bits : Nat} (hmin : 512 ≤ bits) (hmax : bits ≤ 4096) (e : UInt32)
    (hx : Small x p) (hgap : Small gap n) (retries : Nat) :
    Concludes (fun y => ∃ q, Small y q ∧ FactorShape bits e.toNat q ∧ n < Nat.dist p q) NoPrime
      (searchDistant bits e x gap retries : Randomized σ α) := by
  induction retries with
  | zero => exact .throw rfl
  | succ retries ih =>
      refine (searchPrime_concludes hmin hmax e maxCandidates).bind fun y ⟨q, hy, hq⟩ => ?_
      refine (Concludes.returns (distance_returns hx hy)).bind fun apart hapart => ?_
      refine .ite (fun h => .pure ⟨q, hy, hq, ?_⟩) fun _ => ih
      rwa [LawfulArithmetic.compare hapart.denotes hgap.denotes, Nat.compare_eq_gt] at h

omit [LawfulArithmetic α] in
/-- A search of more attempts differs only where fewer end without a result. -/
theorem searchDistant_extends (bits : Nat) (e : UInt32) (x gap : α) {retries more : Nat}
    (h : retries ≤ more) :
    Extends NoPrime (searchDistant bits e x gap retries : Randomized σ α)
      (searchDistant bits e x gap more) := by
  induction retries generalizing more with
  | zero => exact .throw (show NoPrime (.noResult _) from rfl) _
  | succ retries ih =>
      obtain ⟨more, rfl⟩ := Nat.exists_eq_add_of_lt h
      exact (Extends.refl _).bind fun y => (Extends.refl _).bind fun apart =>
        .ite (.refl _) (ih (by omega))

/-- A drawn candidate that is admissible and passes the test is taken. -/
theorem generatePrime_of_passed {bits : Nat} (hmin : 512 ≤ bits) (hmax : bits ≤ 4096) {e : UInt32}
    {s t u : σ} {drawn : Bytes} (hfill : RandomSource.fill s ((bits + 7) / 8) = (.ok drawn, t))
    (hadmissible : Admissible e.toNat (candidate bits (toNat drawn)))
    (hpassed : (isProbablePrime (Arithmetic.ofBytes (candidateBytes bits drawn) : α)
      witnessRounds).runFrom t = (.ok true, u)) :
    (generatePrime α bits e).runFrom s =
      (.ok (Arithmetic.ofBytes (candidateBytes bits drawn)), u) := by
  have hdrawn := RandomSource.length_of_fill s _ drawn (congrArg Prod.fst hfill)
  obtain ⟨hx, hlarge⟩ := candidate_small (α := α) hmin hmax hdrawn
  obtain ⟨admissible, hreturns, hiff⟩ := isAdmissible_returns hx hlarge e
  cases hiff.mpr hadmissible
  show (searchPrime bits (Arithmetic.ofWord e.toUInt64 : α) (19999 + 1)).runFrom s = _
  rw [searchPrime, Randomized.runFrom_draw_bind_ok hfill, Randomized.runFrom_lift_bind_ok hreturns,
    if_pos rfl, Randomized.runFrom_bind_ok hpassed]
  rfl

/-- On an endless sequence, the next candidate is taken when it is admissible and passes. -/
theorem generatePrime_of_endless {bits : Nat} (hmin : 512 ≤ bits) (hmax : bits ≤ 4096) {e : UInt32}
    {s : ByteStream} (hs : s.length = none) {n used : Nat}
    (hn : candidate bits
      (toNat ((List.range ((bits + 7) / 8)).map fun i => s.byte (s.used + i))) = n)
    (hadmissible : Admissible e.toNat n)
    (hpassed : ((isProbablePrime n witnessRounds).runFrom
      { s with used := s.used + (bits + 7) / 8 }).1 = .ok true)
    (hused : s.used + (bits + 7) / 8 + witnessRounds * baseWidth n = used) :
    (generatePrime Nat bits e).runFrom s = (.ok n, { s with used := used }) := by
  subst hn hused
  have hfill := ByteStream.fill_of_endless hs ((bits + 7) / 8)
  have hdrawn := RandomSource.length_of_fill s _ _ (congrArg Prod.fst hfill)
  obtain ⟨-, hlarge⟩ := candidate_small (α := Nat) hmin hmax hdrawn
  have hodd (drawn : Nat) : candidate bits drawn % 2 = 1 := (candidate_bits (by omega) drawn).2.2
  have hvalue : Arithmetic.ofBytes (candidateBytes bits _) = candidate bits (toNat _) :=
    toNat_candidateBytes (by omega) hdrawn
  have hfive := (show 5 ≤ 1000 by decide).trans hlarge
  have htested := (exact_runsInRounds hfive (hodd _)).tested rfl hfive (hodd _) witnessRounds
    { s with used := s.used + (bits + 7) / 8 }
  rw [hpassed] at htested
  have hrun := generatePrime_of_passed (α := Nat) hmin hmax hfill hadmissible
    (by rw [hvalue]; exact Prod.ext hpassed (htested.eq_of_endless hs))
  rwa [hvalue] at hrun

/-- A drawn candidate that is an admissible prime is taken. -/
theorem generatePrime_of_prime {bits : Nat} (hmin : 512 ≤ bits) (hmax : bits ≤ 4096) {e : UInt32}
    {I : σ → Prop} (hI : RandomSource.Reliable I) {s t : σ} {drawn : Bytes} (hs : I s)
    (hfill : RandomSource.fill s ((bits + 7) / 8) = (.ok drawn, t))
    (hprime : (candidate bits (toNat drawn)).Prime)
    (hadmissible : Admissible e.toNat (candidate bits (toNat drawn))) :
    ∃ x u, (generatePrime α bits e).runFrom s = (.ok x, u) ∧ I u ∧
      Small x (candidate bits (toNat drawn)) := by
  have hdrawn := RandomSource.length_of_fill s _ drawn (congrArg Prod.fst hfill)
  obtain ⟨hx, -⟩ := candidate_small (α := α) hmin hmax hdrawn
  have ht : I t := (hI.of_fill hs hfill).2
  obtain ⟨u, hu, hpassed⟩ := RunsInRounds.accepts (runsInRounds_of_within (by decide) hx.within)
    hx.denotes hprime hI witnessRounds ht
  exact ⟨_, u, generatePrime_of_passed hmin hmax hfill hadmissible hpassed, hu, hx⟩

/-- A number that the search returned is a factor of the right shape. -/
theorem shape_of_generatePrime {bits : Nat} (hmin : 512 ≤ bits) (hmax : bits ≤ 4096) {e : UInt32}
    {s t : σ} (hrun : (generatePrime α bits e).runFrom s = (.ok x, t)) (hx : Denotes x n) :
    Small x n ∧ FactorShape bits e.toNat n := by
  have hconcludes := searchPrime_concludes (σ := σ) (α := α) hmin hmax e maxCandidates
  obtain ⟨p, hp, hshape⟩ := hconcludes.of_ok (congrArg Prod.fst hrun)
  obtain rfl := LawfulArithmetic.denotes_unique hp.denotes hx
  exact ⟨hp, hshape⟩

end Search

/-! ### The key of two factors -/

/-- A modulus of the right size is that of a public key. -/
theorem PublicKey.ofModulus?_returns {m : Bytes} {e : UInt32}
    (hmin : minModulusBits ≤ (toNat m).size) (hmax : (toNat m).size ≤ maxModulusBits)
    (hodd : toNat m % 2 = 1) (he : ExponentAdmissible e) :
    Returns (PublicKey.ofModulus? m e)
      fun key => key.modulus = m.stripZeros ∧ key.exponent = e := by
  have hbits : m.stripZeros.bitLength = (toNat m).size := by
    rw [Bytes.bitLength_eq, Bytes.toNat_stripZeros]
  have hstripped : m.stripZeros.isOdd = true := by
    rwa [Bytes.isOdd_iff, Bytes.toNat_stripZeros]
  have hexponent : exponentOrDefault e = e := by
    refine if_neg ?_
    rintro rfl
    exact absurd he.2 (by decide)
  rw [← hbits] at hmin hmax
  unfold PublicKey.ofModulus?
  simp only [hexponent, dif_neg (Nat.not_lt_of_le hmin), dif_neg (Nat.not_lt_of_le hmax),
    dif_pos hstripped, dif_pos he]
  exact .ok ⟨rfl, rfl⟩

/-- What a generated key is like. -/
structure GeneratedKey (bits : Nat) (e : UInt32) (key : PrivateKey) : Prop where
  exponent_eq : key.publicKey.exponent = e
  bits_eq : key.publicKey.bits = bits
  modulus_size : (toNat key.publicKey.modulus).size = bits
  mul_eq : toNat key.p * toNat key.q = toNat key.publicKey.modulus
  p_shape : FactorShape (bits / 2) e.toNat (toNat key.p)
  q_shape : FactorShape (bits / 2) e.toNat (toNat key.q)
  apart : 2 ^ (bits / 2 - 100) < Nat.dist (toNat key.p) (toNat key.q)
  inverse : e.toNat * toNat key.d ≡ 1 [MOD (toNat key.p - 1) * (toNat key.q - 1)]

/-- The exponent has an inverse, since it is coprime to both parts of the order. -/
theorem FactorShape.privateExponent_returns {half : Nat} {e : UInt32} (hhalf : 2 ≤ half)
    (hx : Denotes x p) (hy : Denotes y q) (hp : FactorShape half e.toNat p)
    (hq : FactorShape half e.toNat q) (hcount : count (p * q) ≤ 64) :
    Returns (privateExponent x y e) fun z => ∃ d, Denotes z d ∧
      e.toNat * d ≡ 1 [MOD (p - 1) * (q - 1)] := by
  have hpone := hp.one_lt hhalf
  have hqone := hq.one_lt hhalf
  have horder : (p - 1) * (q - 1) ≠ 0 :=
    Nat.mul_ne_zero (Nat.sub_ne_zero_of_lt hpone) (Nat.sub_ne_zero_of_lt hqone)
  obtain ⟨d, hd⟩ := Option.isSome_iff_exists.mp ((Exact.modInverse_isSome _ _).mpr
    (hp.admissible.2.mul_right hq.admissible.2))
  have hrefines := privateExponent_refines hx hy hpone hqone hcount e
  rw [hd] at hrefines
  exact (hrefines.returns trivial).mono fun z hz => ⟨d, hz, (Exact.modInverse_spec horder hd).2⟩

/-- Two factors of the right shape make up a key. -/
theorem ofPrimes_returns {bits : Nat} {e : UInt32} (hmin : minGeneratedBits ≤ bits)
    (hmax : bits ≤ maxModulusBits) (heven : bits % 2 = 0) (he : ExponentAdmissible e)
    (hx : Small x p) (hy : Small y q) (hp : FactorShape (bits / 2) e.toNat p)
    (hq : FactorShape (bits / 2) e.toNat q) (hapart : 2 ^ (bits / 2 - 100) < Nat.dist p q) :
    Returns (PrivateKey.ofPrimes bits e x y) (GeneratedKey bits e) := by
  have hgenerated : minGeneratedBits = 1024 := rfl
  have hmaximal : maxModulusBits = 4096 := rfl
  have hminimal : minModulusBits = 512 := rfl
  have hsize : (p * q).size = bits := (hp.size_mul (by omega) hq).trans (by omega)
  have hcount : count (p * q) ≤ 64 :=
    (Limbs.count_le_of_lt_two_pow (Nat.size_le.mp hsize.le)).trans (by omega)
  refine (LawfulArithmetic.mul_returns hx.denotes hy.denotes hx.count_le hy.count_le).bind
    fun product hproduct => ?_
  refine (hp.privateExponent_returns (by omega) hx.denotes hy.denotes hq hcount).bind
    fun z ⟨d, hz, hinverse⟩ => ?_
  rw [LawfulArithmetic.toBytes hproduct, LawfulArithmetic.toBytes hx.denotes,
    LawfulArithmetic.toBytes hy.denotes, LawfulArithmetic.toBytes hz]
  have hvalue : toNat (Bytes.ofNat (p * q)) = p * q := Bytes.toNat_ofNat _
  refine (PublicKey.ofModulus?_returns (by rw [hvalue]; omega) (by rw [hvalue]; omega)
    (by rw [hvalue, hp.mul_odd hq]) he).bind fun key ⟨hmodulus, hexponent⟩ => ?_
  have hkey : toNat key.modulus = p * q := by rw [hmodulus, Bytes.toNat_stripZeros, hvalue]
  have hbits : key.bits = bits := by rw [PublicKey.bits, Bytes.bitLength_eq, hkey, hsize]
  rw [show Require.invariant (key.bits = bits) .internal = .ok () from
    if_pos (decide_eq_true hbits)]
  show Returns (PrivateKey.ofParts? α key _ _ _) _
  rw [PrivateKey.ofParts?_of_mul_eq _ (by rw [Bytes.toNat_ofNat, Bytes.toNat_ofNat, hkey])]
  have hwritten (m : Nat) : toNat (Bytes.ofNat m).stripZeros = m := by
    rw [Bytes.toNat_stripZeros, Bytes.toNat_ofNat]
  exact .ok
    { exponent_eq := hexponent
      bits_eq := hbits
      modulus_size := by rw [hkey, hsize]
      mul_eq := by rw [hwritten p, hwritten q, hkey]
      p_shape := by rwa [hwritten p]
      q_shape := by rwa [hwritten q]
      apart := by rwa [hwritten p, hwritten q]
      inverse := by rwa [hwritten p, hwritten q, hwritten d] }

/-! ### Generation -/

section Generation

variable {σ : Type} [RandomSource σ]

/-- The distance that the factors must exceed is computed. -/
theorem gap_returns {half : Nat} (h : half ≤ 2048) :
    Returns (Arithmetic.shiftLeft (Arithmetic.ofWord 1 : α) (half - 100))
      (Small · (2 ^ (half - 100))) := by
  have hgap := Small.shiftLeft_one (α := α) (show half - 100 < 4096 by omega)
  rw [show Arithmetic.shiftLeft (Arithmetic.ofWord 1 : Nat) (half - 100) =
    .ok (2 ^ (half - 100)) from congrArg Except.ok (Nat.one_shiftLeft _)] at hgap
  exact hgap.returns trivial

/-- For arguments that are allowed, a key is generated, or none is found, or a draw fails. -/
theorem generateKey_concludes {bits : Nat} {exponent : UInt32} (retries : Nat)
    (hmin : minGeneratedBits ≤ bits) (hmax : bits ≤ maxModulusBits) (heven : bits % 2 = 0)
    (he : ExponentAdmissible (exponentOrDefault exponent)) :
    Concludes (GeneratedKey bits (exponentOrDefault exponent)) NoPrime
      (generateKey α retries bits exponent : Randomized σ PrivateKey) := by
  have hgenerated : minGeneratedBits = 1024 := rfl
  have hmaximal : maxModulusBits = 4096 := rfl
  have hallowed {ok : Bool} (h : ok = true) (name reason : String) :
      Returns (Require.parameter ok name reason) fun _ => True :=
    ⟨(), Require.parameter_of_true h name reason, trivial⟩
  refine (Concludes.returns (hallowed (decide_eq_true ⟨hmin, hmax, heven⟩) _ _)).bind fun _ _ => ?_
  refine (Concludes.returns (hallowed (decide_eq_true he) _ _)).bind fun _ _ => ?_
  refine (searchPrime_concludes (by omega) (by omega) _ maxCandidates).bind fun x ⟨p, hx, hp⟩ => ?_
  refine (Concludes.returns (gap_returns (by omega))).bind fun gap hgap => ?_
  refine (searchDistant_concludes (by omega) (by omega) _ hx hgap retries).bind
    fun y ⟨q, hy, hq, hapart⟩ => ?_
  exact .returns (ofPrimes_returns hmin hmax heven he hx hy hp hq hapart)

/-- Two primes that are found one after the other and lie apart make up a key. -/
theorem generateKey_of_primes {bits : Nat} {exponent : UInt32} (retries : Nat)
    (hmin : minGeneratedBits ≤ bits) (hmax : bits ≤ maxModulusBits) (heven : bits % 2 = 0)
    (he : ExponentAdmissible (exponentOrDefault exponent)) {s t u : σ}
    (hfirst : (generatePrime α (bits / 2) (exponentOrDefault exponent)).runFrom s = (.ok x, t))
    (hsecond : (generatePrime α (bits / 2) (exponentOrDefault exponent)).runFrom t = (.ok y, u))
    (hp : Denotes x p) (hq : Denotes y q) (hapart : 2 ^ (bits / 2 - 100) < Nat.dist p q) :
    ∃ key, (generateKey α (retries + 1) bits exponent).runFrom s = (.ok key, u) := by
  have hgenerated : minGeneratedBits = 1024 := rfl
  have hmaximal : maxModulusBits = 4096 := rfl
  have hallowed : minGeneratedBits ≤ bits ∧ bits ≤ maxModulusBits ∧ bits % 2 = 0 :=
    ⟨hmin, hmax, heven⟩
  have hsize := Require.parameter_of_true (decide_eq_true hallowed) "bits" "unsupported modulus size"
  have hexponent := Require.parameter_of_true (decide_eq_true he) "exponent" "must be odd and > 1"
  obtain ⟨hx, hpshape⟩ := shape_of_generatePrime (by omega) (by omega) hfirst hp
  obtain ⟨hy, hqshape⟩ := shape_of_generatePrime (by omega) (by omega) hsecond hq
  obtain ⟨gap, hgap, hgapSmall⟩ := gap_returns (α := α) (show bits / 2 ≤ 2048 by omega)
  obtain ⟨apart, hdistance, hapartSmall⟩ := distance_returns hx hy
  obtain ⟨key, hkey, -⟩ := ofPrimes_returns hmin hmax heven he hx hy hpshape hqshape hapart
  have hfar : Arithmetic.compare apart gap = .gt := by
    rw [LawfulArithmetic.compare hapartSmall.denotes hgapSmall.denotes]
    exact Nat.compare_eq_gt.mpr hapart
  have hdistant : (searchDistant (bits / 2) (exponentOrDefault exponent) x gap
      (retries + 1)).runFrom t = (.ok y, u) := by
    rw [searchDistant, Randomized.runFrom_bind_ok hsecond,
      Randomized.runFrom_lift_bind_ok hdistance, if_pos hfar]
    rfl
  refine ⟨key, ?_⟩
  rw [generateKey, Randomized.runFrom_lift_bind_ok hsize, Randomized.runFrom_lift_bind_ok hexponent,
    Randomized.runFrom_bind_ok hfirst, Randomized.runFrom_lift_bind_ok hgap,
    Randomized.runFrom_bind_ok hdistant, hkey]
  rfl

omit [LawfulArithmetic α] in
/-- A generation of more retries differs only where fewer end without a result. -/
theorem generateKey_extends (bits : Nat) (exponent : UInt32) {retries more : Nat}
    (h : retries ≤ more) :
    Extends NoPrime (generateKey α retries bits exponent : Randomized σ PrivateKey)
      (generateKey α more bits exponent) :=
  (Extends.refl _).bind fun _ => (Extends.refl _).bind fun _ => (Extends.refl _).bind fun p =>
    (Extends.refl _).bind fun gap => (searchDistant_extends _ _ p gap h).bind fun _ => .refl _

end Generation

/-- How an arithmetic generates keys: arguments that are not allowed are refused without a draw, and
for others the generation concludes in a key of the right shape, or in the fault of a draw; it ends
without a result for want of a prime or of retries, on which no other conclusion depends. A drawn
prime that is admissible is taken. -/
structure GeneratesKeys (α : Type) [Arithmetic α] [LawfulArithmetic α] : Prop where
  refuses_size : ∀ (σ : Type) [RandomSource σ] (retries bits : Nat) (exponent : UInt32) (s : σ),
    ¬(1024 ≤ bits ∧ bits ≤ 4096 ∧ bits % 2 = 0) →
      (generateKey α retries bits exponent).runFrom s =
        (.error (.parameter "bits" "unsupported modulus size"), s)
  refuses_exponent : ∀ (σ : Type) [RandomSource σ] (retries bits : Nat) (exponent : UInt32) (s : σ),
    1024 ≤ bits ∧ bits ≤ 4096 ∧ bits % 2 = 0 → ¬ExponentAdmissible (exponentOrDefault exponent) →
      (generateKey α retries bits exponent).runFrom s =
        (.error (.parameter "exponent" "must be odd and > 1"), s)
  concludes : ∀ (σ : Type) [RandomSource σ] (retries bits : Nat) (exponent : UInt32),
    1024 ≤ bits ∧ bits ≤ 4096 ∧ bits % 2 = 0 → ExponentAdmissible (exponentOrDefault exponent) →
      Concludes (GeneratedKey bits (exponentOrDefault exponent)) NoPrime
        (generateKey α retries bits exponent : Randomized σ PrivateKey)
  continues : ∀ (σ : Type) [RandomSource σ] (retries more bits : Nat) (exponent : UInt32),
    retries ≤ more → Extends NoPrime (generateKey α retries bits exponent : Randomized σ PrivateKey)
      (generateKey α more bits exponent)
  takes_prime : ∀ (σ : Type) [RandomSource σ] (I : σ → Prop), RandomSource.Reliable I →
    ∀ (bits : Nat) (e : UInt32) (s t : σ) (drawn : Bytes), 512 ≤ bits → bits ≤ 4096 → I s →
      RandomSource.fill s ((bits + 7) / 8) = (.ok drawn, t) →
      (candidate bits (toNat drawn)).Prime → Admissible e.toNat (candidate bits (toNat drawn)) →
        ∃ x u, (generatePrime α bits e).runFrom s = (.ok x, u) ∧ I u ∧
          Denotes x (candidate bits (toNat drawn))

/-- Both arithmetics generate keys. -/
theorem generateKey_generatesKeys : GeneratesKeys FixedNat ∧ GeneratesKeys Nat := by
  have hgenerates (α : Type) [Arithmetic α] [LawfulArithmetic α] : GeneratesKeys α :=
    { refuses_size := fun σ _ retries bits exponent s h =>
        Randomized.runFrom_lift_bind_error (Require.parameter_of_false (decide_eq_false h) _ _) _ s
      refuses_exponent := fun σ _ retries bits exponent s h he => by
        have hsize := Require.parameter_of_true (decide_eq_true h) "bits" "unsupported modulus size"
        have hexponent := Require.parameter_of_false (decide_eq_false he) "exponent"
          "must be odd and > 1"
        exact (Randomized.runFrom_lift_bind_ok hsize _ s).trans
          (Randomized.runFrom_lift_bind_error hexponent _ s)
      concludes := fun σ _ retries bits exponent h he =>
        generateKey_concludes retries h.1 h.2.1 h.2.2 he
      continues := fun σ _ retries more bits exponent h => generateKey_extends bits exponent h
      takes_prime := fun σ _ I hI bits e s t drawn hmin hmax hs hfill hprime hadmissible => by
        obtain ⟨x, u, hrun, hu, hx⟩ :=
          generatePrime_of_prime (α := α) hmin hmax hI hs hfill hprime hadmissible
        exact ⟨x, u, hrun, hu, hx.denotes⟩ }
  exact ⟨hgenerates FixedNat, hgenerates Nat⟩

/-- The Mersenne prime of 521 bits is admissible for the default exponent. -/
theorem admissible_mersenne : Admissible 65537 (mersenne 521) :=
  ⟨passesSieve_of_not_dvd (by decide +kernel), by decide +kernel⟩

/-- Bytes that are all ones but for one among those of the second candidate of 521 bits. -/
def onesButOne (i : Nat) : UInt8 :=
  if i = 660 then 0x66 else 0xff

/-- Both candidates are taken, and make up a key. -/
theorem exists_generateKey_onesButOne :
    ∃ key, (generateKey Nat 1 1042 65537).runFrom (⟨onesButOne, none, 0⟩ : ByteStream) =
      (.ok key, ⟨onesButOne, none, 1316⟩) := by
  have hfirst : (generatePrime Nat 521 65537).runFrom (⟨onesButOne, none, 0⟩ : ByteStream) =
      (.ok (mersenne 521), ⟨onesButOne, none, 658⟩) :=
    generatePrime_of_endless (by decide) (by decide) rfl (by decide +kernel) admissible_mersenne
      (by decide +kernel) (by decide +kernel)
  have hadmissible : Admissible 65537 (mersenne 521 - 0x99 * 2 ^ 504) :=
    ⟨passesSieve_of_not_dvd (by decide +kernel), by decide +kernel⟩
  have hsecond : (generatePrime Nat 521 65537).runFrom (⟨onesButOne, none, 658⟩ : ByteStream) =
      (.ok (mersenne 521 - 0x99 * 2 ^ 504), ⟨onesButOne, none, 1316⟩) :=
    generatePrime_of_endless (by decide) (by decide) rfl (by decide +kernel) hadmissible
      (by decide +kernel) (by decide +kernel)
  exact generateKey_of_primes 0 (by decide) (by decide) (by decide) (by decide) hfirst hsecond rfl
    rfl (by decide +kernel)

/-- From bytes that are all ones, a candidate of 521 bits, whose top two bits stand in different
bytes, is a Mersenne prime, and it is taken. With one other byte where the next candidate is drawn, a
key of 1042 bits is generated. -/
theorem generateKey_generatesKeys_mersenne :
    RandomSource.fill (⟨fun _ => 0xff, none, 0⟩ : ByteStream) ((521 + 7) / 8) =
        (.ok (List.replicate 66 0xff), ⟨fun _ => 0xff, none, 66⟩) ∧
      candidate 521 (toNat (List.replicate 66 0xff)) = mersenne 521 ∧
      Nat.Prime (mersenne 521) ∧ Admissible 65537 (mersenne 521) ∧
      (∃ x u, (generatePrime FixedNat 521 65537).runFrom (⟨fun _ => 0xff, none, 0⟩ : ByteStream) =
        (.ok x, u) ∧ Denotes x (mersenne 521)) ∧
      ∃ key, ((generateKey Nat 1 1042 65537).runFrom (⟨onesButOne, none, 0⟩ : ByteStream)).1 =
          .ok key ∧
        GeneratedKey 1042 65537 key := by
  have hconstant : ByteStream.IsConstant 0xff ⟨fun _ => 0xff, none, 0⟩ := ⟨rfl, rfl⟩
  have hfill := hconstant.fill_eq ((521 + 7) / 8)
  have hvalue : candidate 521 (toNat (List.replicate 66 0xff)) = mersenne 521 := by decide +kernel
  have hprime : Nat.Prime (mersenne 521) :=
    lucas_lehmer_sufficiency 521 (by norm_num) (by norm_num)
  obtain ⟨x, u, hrun, -, hx⟩ := generateKey_generatesKeys.1.takes_prime _ _
    (ByteStream.IsConstant.reliable 0xff) 521 65537 _ _ _ (by decide) (by decide) hconstant hfill
    (hvalue ▸ hprime) (hvalue ▸ admissible_mersenne)
  obtain ⟨key, hkey⟩ := exists_generateKey_onesButOne
  have hok := congrArg Prod.fst hkey
  have hconcludes := generateKey_generatesKeys.2.concludes ByteStream 1 1042 65537 (by decide)
    (by decide)
  exact ⟨hfill, hvalue, hprime, admissible_mersenne, ⟨x, u, hrun, hvalue ▸ hx⟩, key, hok,
    hconcludes.of_ok hok⟩

end TrustedPlatform.Rsa
