import TrustedPlatform.Proofs.Random.Lockstep
import TrustedPlatform.Proofs.Rsa.Recovery
import TrustedPlatform.Rsa.KeyPair
import TrustedPlatform.Rsa.Scheme

/-!
# Keys and primes in a lawful arithmetic

A modulus has at most 64 limbs, and so have its factors; what is computed modulo any of them never
runs out of room. Primes are drawn and tested in lockstep with exact arithmetic, so that the same
candidates are taken. Numbers of other sizes come from outside: a prime from which a key is to be
recovered and a private exponent have to fit the scratch area, in which both are reduced.
-/

namespace TrustedPlatform.Rsa

open Bytes (toNat)
open FixedNat (scratchLimbs)
open LawfulArithmetic (Denotes)
open Limbs (count count_mono)

variable {α : Type} [Arithmetic α] [LawfulArithmetic α]
variable {x y n p q top odd : α} {x' y' n' p' q' top' odd' : Nat}

/-- The modulus of a public key is small. -/
theorem small_modulus (key : PublicKey) :
    Small (Arithmetic.ofBytes key.modulus : α) (Arithmetic.ofBytes key.modulus) :=
  ⟨LawfulArithmetic.ofBytes key.modulus, key.count_modulus_le⟩

/-! ### The primality test -/

section Test

variable {limit : Nat}

/-- A number has no more bits than its limbs. -/
theorem size_le_mul_count (n : Nat) : n.size ≤ 64 * count n :=
  Nat.size_le.mpr ((Limbs.lt_size_pow_count n).trans_eq (Limbs.size_pow_eq _))

/-- The sieve. -/
theorem passesSieve_refines (hn : Denotes n n') (primes : List Word) :
    Refines True Eq (passesSieve n primes) (passesSieve n' primes) := by
  induction primes with
  | nil => exact .ok rfl
  | cons p rest ih =>
      refine (LawfulArithmetic.modWord hn p).bind fun remainder _ hremainder => ?_
      subst hremainder
      exact .ite Iff.rfl (fun _ => .ok (hn.eqWord_eq p)) fun _ => ih

/-- The zero bits are counted alike. -/
theorem trailingZeros_eq (hn : Denotes n n') : trailingZeros n = trailingZeros n' := by
  rw [trailingZeros, trailingZeros, hn.bitLength_eq, funext hn.testBit_eq]

/-- Repeated squaring. -/
theorem squaresReach_refines (hlimit : limit + limit ≤ scratchLimbs) (hn : Within limit n n')
    (htop : Denotes top top') (count : Nat) (hx : Within limit x x') :
    Refines True Eq (squaresReach n top count x) (squaresReach n' top' count x') := by
  induction count generalizing x x' with
  | zero => exact .ok rfl
  | succ count ih =>
      refine (hx.modMul hlimit hx hn).bind fun square _ hsquare => ?_
      exact .ite (by rw [hsquare.denotes.eq_eq htop]) (fun _ => .ok rfl) fun _ => ih hsquare

/-- The test with one witness. -/
theorem survives_refines (hlimit : limit + limit ≤ scratchLimbs) (hn : Within limit n n')
    (htop : Denotes top top') (hodd : Denotes odd odd') (twos : Nat) (hx : Within limit x x') :
    Refines True Eq (survives n top odd twos x) (survives n' top' odd' twos x') := by
  refine (hx.modPow hlimit hodd hn).bind fun power _ hpower => ?_
  refine .ite ?_ (fun _ => .ok rfl) fun _ => squaresReach_refines hlimit hn htop _ hpower
  rw [hpower.denotes.eqWord_eq, hpower.denotes.eq_eq htop]

/-- Witnesses. -/
theorem witnessOfBytes_refines (hlimit : limit + limit ≤ scratchLimbs) (hn : Within limit n n')
    {bytes : Bytes} (hlen : bytes.length ≤ 1040) :
    Refines True (Within limit) (witnessOfBytes n bytes) (witnessOfBytes n' bytes) := by
  have hcount := Limbs.count_toNat_le_scratch hlen
  refine ((hn.sub hlimit (LawfulArithmetic.ofWord 3)).and_of_ok fun range hrange =>
    LawfulArithmetic.add_of_exact_sub hrange).bind fun range range' ⟨hrange, hsum⟩ => ?_
  refine ((Within.reduce_of_count hlimit (LawfulArithmetic.ofBytes bytes) hcount hrange).and_of_ok
    fun offset hoffset => LawfulArithmetic.lt_of_exact_reduce hoffset).bind
    fun offset offset' ⟨hoffset, hlt⟩ => ?_
  have hscratch : scratchLimbs = 130 := rfl
  have htwo := (Small.ofWord (α := α) 2).count_le
  have hoffsetCount := hoffset.count_le
  refine hn.refines_of_le ((LawfulArithmetic.add hoffset.denotes (LawfulArithmetic.ofWord 2)).under
    fun _ => by omega) fun w hw => ?_
  cases hw
  exact (Nat.add_le_add hlt.le (by decide)).trans_eq hsum

variable {σ : Type} [RandomSource σ]

/-- The rounds of the test. -/
theorem survivesRounds_lockstep (hlimit : limit + limit ≤ scratchLimbs) (hn : Within limit n n')
    (htop : Denotes top top') (hodd : Denotes odd odd') (twos rounds : Nat) :
    Lockstep Eq (survivesRounds n top odd twos rounds : Randomized σ Bool)
      (survivesRounds n' top' odd' twos rounds) := by
  induction rounds with
  | zero => exact .pure rfl
  | succ rounds ih =>
      -- a witness is drawn from eight bytes more than the number has
      have hbits : Arithmetic.bitLength n' ≤ 64 * limit := by
        rw [LawfulArithmetic.exact_bitLength]
        exact (size_le_mul_count n').trans (Nat.mul_le_mul_left 64 hn.count_le)
      have hscratch : scratchLimbs = 130 := rfl
      rw [survivesRounds, survivesRounds, hn.denotes.bitLength_eq]
      refine (Lockstep.draw _).bind fun bytes bytes' ⟨hbytes, hlen⟩ => ?_
      subst hbytes
      refine (Lockstep.lift (witnessOfBytes_refines hlimit hn (by omega))).bind
        fun witness _ hwitness => ?_
      refine (Lockstep.lift (survives_refines hlimit hn htop hodd twos hwitness)).bind
        fun survived _ hsurvived => ?_
      subst hsurvived
      exact .ite Iff.rfl (fun _ => ih) fun _ => .pure rfl

/-- The test. -/
theorem isProbablePrime_lockstep (hlimit : limit + limit ≤ scratchLimbs) (hn : Within limit n n')
    (rounds : Nat) :
    Lockstep Eq (isProbablePrime n rounds : Randomized σ Bool) (isProbablePrime n' rounds) := by
  rw [isProbablePrime, isProbablePrime, hn.denotes.lt_eq (LawfulArithmetic.ofWord 5),
    hn.denotes.eqWord_eq, hn.denotes.eqWord_eq, hn.denotes.testBit_eq]
  refine .ite Iff.rfl (fun _ => .pure rfl) fun _ => ?_
  refine .ite Iff.rfl (fun _ => ?_) fun _ => .pure rfl
  refine (Lockstep.lift (hn.sub hlimit (LawfulArithmetic.ofWord 1))).bind fun top _ htop => ?_
  rw [trailingZeros_eq htop.denotes]
  refine (Lockstep.lift (htop.shiftRight hlimit _)).bind fun odd _ hodd => ?_
  exact survivesRounds_lockstep hlimit hn htop.denotes hodd.denotes _ rounds

end Test

/-! ### Candidates -/

/-- Admissible candidates. -/
theorem isAdmissible_refines (hx : Small x x') (hn : Small n n') :
    Refines True Eq (isAdmissible x n) (isAdmissible x' n') := by
  refine (passesSieve_refines hn.denotes smallPrimes).bind fun sieved _ hsieved => ?_
  subst hsieved
  refine .ite Iff.rfl (fun _ => ?_) fun _ => .ok rfl
  refine (hn.sub (LawfulArithmetic.ofWord 1)).bind fun below _ hbelow => ?_
  refine ((LawfulArithmetic.gcd hx.denotes hbelow.denotes).under fun _ =>
    max_le hx.count_le_scratch hbelow.count_le_scratch).bind fun common _ hcommon => ?_
  exact .ok (hcommon.eqWord_eq 1)

/-- A candidate is as long as the bytes that it is made from. -/
theorem length_candidateBytes_le (bits : Nat) (drawn : Bytes) :
    (candidateBytes bits drawn).length ≤ max drawn.length 1 := by
  unfold candidateBytes
  dsimp only
  rw [List.length_append, List.length_dropLast, List.length_singleton]
  split
  all_goals
    simp only [List.length_cons, List.length_nil]
    omega

/-! ### Random primes and keys -/

section Drawing

variable {σ : Type} [RandomSource σ]

/-- The search for a prime. -/
theorem searchPrime_lockstep {bits : Nat} (hbits : bits ≤ 4096) (hx : Small x x')
    (candidates : Nat) :
    Lockstep Small (searchPrime bits x candidates : Randomized σ α)
      (searchPrime bits x' candidates) := by
  induction candidates with
  | zero => exact .throw (.refl _)
  | succ candidates ih =>
      refine (Lockstep.draw _).bind fun drawn drawn' ⟨hdrawn, hlen⟩ => ?_
      subst hdrawn
      have hcandidate : (candidateBytes bits drawn).length ≤ 512 :=
        (length_candidateBytes_le bits drawn).trans (by omega)
      have hn := Small.ofBytes (α := α) hcandidate
      refine (Lockstep.lift (isAdmissible_refines hx hn)).bind
        fun admissible _ hadmissible => ?_
      subst hadmissible
      -- only an admissible candidate is tested
      refine .ite Iff.rfl (fun _ => (isProbablePrime_lockstep (by decide) hn.within _).bind ?_)
        fun _ => (Lockstep.pure (R := Eq) rfl).bind ?_
      all_goals
        intro prime _ hprime
        subst hprime
        exact .ite Iff.rfl (fun _ => .pure hn) fun _ => ih

/-- Random primes. -/
theorem generatePrime_lockstep {bits : Nat} (hbits : bits ≤ 4096) (e : UInt32) :
    Lockstep Small (generatePrime α bits e : Randomized σ α) (generatePrime Nat bits e) :=
  searchPrime_lockstep hbits (.ofWord _) maxCandidates

/-- The distance. -/
theorem distance_refines (hx : Small x x') (hy : Small y y') :
    Refines True Small (distance x y) (distance x' y') := by
  refine .ite (by rw [LawfulArithmetic.compare hx.denotes hy.denotes]; rfl)
    (fun _ => hx.sub hy.denotes) fun _ => hy.sub hx.denotes

/-- The search for a prime at a distance. -/
theorem searchDistant_lockstep {bits : Nat} (hbits : bits ≤ 4096) (e : UInt32) (hp : Small p p')
    (hx : Small x x') (retries : Nat) :
    Lockstep Small (searchDistant bits e p x retries : Randomized σ α)
      (searchDistant bits e p' x' retries) := by
  induction retries with
  | zero => exact .throw (.refl _)
  | succ retries ih =>
      refine (generatePrime_lockstep hbits e).bind fun q _ hq => ?_
      refine (Lockstep.lift (distance_refines hp hq)).bind fun apart _ hapart => ?_
      refine .ite (by rw [LawfulArithmetic.compare hapart.denotes hx.denotes]; rfl)
        (fun _ => .pure hq) fun _ => ih

/-- The private exponent of two small primes. -/
theorem privateExponent_small (hp : Small p p') (hq : Small q q') (e : UInt32) :
    Refines True Denotes (privateExponent p q e) (privateExponent p' q' e) := by
  refine (hp.sub (LawfulArithmetic.ofWord 1)).bind fun below _ hbelow => ?_
  refine (hq.sub (LawfulArithmetic.ofWord 1)).bind fun below' _ hbelow' => ?_
  refine (hbelow.mul hbelow').bind fun order order' ⟨horder, hcount⟩ => ?_
  have hscratch : scratchLimbs = 130 := rfl
  refine ((LawfulArithmetic.modInverse (LawfulArithmetic.ofWord e.toUInt64) horder).under
    fun _ => ⟨(Small.ofWord (α := α) _).count_le_scratch, by omega⟩).bind fun o o' ho => ?_
  cases ho with
  | none => exact .refused _
  | some hd => exact .ok hd

/-- The check of the parts of a key whose primes are small. -/
theorem ofParts?_refines (key : PublicKey) {p q : Bytes} (hp : count (toNat p) ≤ 64)
    (hq : count (toNat q) ≤ 64) (d : Bytes) :
    Refines True Eq (PrivateKey.ofParts? α key p q d) (PrivateKey.ofParts? Nat key p q d) := by
  have hp : Small (Arithmetic.ofBytes p : α) (toNat p) := ⟨LawfulArithmetic.ofBytes p, hp⟩
  have hq : Small (Arithmetic.ofBytes q : α) (toNat q) := ⟨LawfulArithmetic.ofBytes q, hq⟩
  refine (hp.mul hq).bind fun product _ ⟨hproduct, _⟩ => ?_
  refine .ite (by rw [hproduct.eq_eq (small_modulus key).denotes]) (fun _ => .ok rfl)
    fun _ => .refused _

/-- The key with two small primes. -/
theorem ofPrimes_refines (bits : Nat) (e : UInt32) (hp : Small p p') (hq : Small q q') :
    Refines True Eq (PrivateKey.ofPrimes bits e p q) (PrivateKey.ofPrimes bits e p' q') := by
  refine (hp.mul hq).bind fun modulus modulus' ⟨hmodulus, _⟩ => ?_
  refine (privateExponent_small hp hq e).bind fun d d' hd => ?_
  rw [hmodulus.toBytes_eq, hp.denotes.toBytes_eq, hq.denotes.toBytes_eq, hd.toBytes_eq]
  refine Refines.bind (R := Eq) (.of_eq rfl) fun key _ hkey => ?_
  subst hkey
  refine Refines.bind (R := Eq) (.of_eq rfl) fun _ _ _ => ?_
  have hwritten {m : Nat} (hm : count m ≤ 64) : count (toNat (Arithmetic.toBytes m)) ≤ 64 := by
    show count (toNat (Bytes.ofNat m)) ≤ 64
    rwa [Bytes.toNat_ofNat]
  exact ofParts?_refines key (hwritten hp.count_le) (hwritten hq.count_le) _

/-- Random keys. -/
theorem generateKey_lockstep (retries bits : Nat) (exponent : UInt32) :
    Lockstep Eq (generateKey α retries bits exponent : Randomized σ PrivateKey)
      (generateKey Nat retries bits exponent) := by
  have hparameter : Refines True (fun _ _ => bits ≤ maxModulusBits)
      (Require.parameter (minGeneratedBits ≤ bits ∧ bits ≤ maxModulusBits ∧ bits % 2 = 0) "bits"
        "unsupported modulus size")
      (Require.parameter (minGeneratedBits ≤ bits ∧ bits ≤ maxModulusBits ∧ bits % 2 = 0) "bits"
        "unsupported modulus size") :=
    .ite Iff.rfl (fun h => .ok (decide_eq_true_iff.mp h).2.1) fun _ => .refused _
  refine (Lockstep.lift hparameter).bind fun _ _ hbits => ?_
  have hhalf : bits / 2 ≤ 4096 := by
    have hmax : maxModulusBits = 4096 := rfl
    omega
  refine (Lockstep.lift (.of_eq rfl)).bind fun _ _ _ => ?_
  refine (generatePrime_lockstep hhalf _).bind fun p _ hp => ?_
  refine (Lockstep.lift (Small.shiftLeft_one (by omega))).bind fun gap _ hgap => ?_
  refine (searchDistant_lockstep hhalf _ hp hgap retries).bind fun q _ hq => ?_
  exact .lift (ofPrimes_refines bits _ hp hq)

end Drawing

/-! ### The two primitives -/

/-- An input of any size is compared with the modulus; one that passes is small. -/
theorem requireBelow_refines (key : PublicKey) (input : Bytes) :
    Refines True (fun _ _ => Small (Arithmetic.ofBytes input : α) (toNat input))
      (Require.parameter
        (Arithmetic.lt (Arithmetic.ofBytes input : α) (Arithmetic.ofBytes key.modulus)) "input"
        "not below the modulus")
      (Require.parameter
        (Arithmetic.lt (Arithmetic.ofBytes input : Nat) (Arithmetic.ofBytes key.modulus)) "input"
        "not below the modulus") := by
  have hn := small_modulus (α := α) key
  have hinput := LawfulArithmetic.ofBytes (α := α) input
  rw [hinput.lt_eq hn.denotes]
  exact .ite Iff.rfl (fun h => .ok (.of_le hinput (LawfulArithmetic.exact_lt_iff.mp h).le hn))
    fun _ => .refused _

/-- The primitive of the public half. -/
theorem publicOp_refines (key : PublicKey) (input : Bytes) :
    Refines True Eq (publicOp α key input) (publicOp Nat key input) := by
  refine (requireBelow_refines key input).bind fun _ _ hm => ?_
  refine (hm.modPow (LawfulArithmetic.ofWord _) (small_modulus key)).bind fun c _ hc => ?_
  exact LawfulArithmetic.toBytesPadded hc.denotes _

namespace PrivateKey

/-- The primes of the key multiply to its modulus, as the check of the parts of a key ensures. -/
def Factors (key : PrivateKey) : Prop :=
  toNat key.p * toNat key.q = toNat key.publicKey.modulus

/-- The check of the parts of a key lets only factors pass. -/
theorem factors_of_ofParts? {key : PublicKey} {p q d : Bytes} {found : PrivateKey}
    (h : ofParts? α key p q d = .ok found) : found.Factors := by
  have hmodulus := LawfulArithmetic.ofBytes (α := α) key.modulus
  rw [ofParts?] at h
  obtain ⟨product, hproduct, hchecked⟩ := exists_of_bind_eq_ok h
  have hrefines := LawfulArithmetic.mul (LawfulArithmetic.ofBytes (α := α) p)
    (LawfulArithmetic.ofBytes (α := α) q)
  rw [hproduct] at hrefines
  obtain ⟨w, hw, hdenotes⟩ := hrefines.of_ok
  cases hw
  split at hchecked
  · rename_i heq
    rw [LawfulArithmetic.eq hdenotes hmodulus, decide_eq_true_eq] at heq
    cases hchecked
    simpa only [Factors, Bytes.toNat_stripZeros] using heq
  · cases hchecked

/-- The primes of a recovered key are factors. -/
theorem factors_of_ofPrime {cache : ExponentCache} (hcache : cache.Genuine) {key : PublicKey}
    {prime : Bytes} {found : PrivateKey} (h : (ofPrime α cache key prime).1 = .ok found) :
    found.Factors := by
  obtain ⟨parts, hparts, rfl⟩ := (ofPrime_eq_ok_iff hcache).mp h
  exact (recoveredFrom_assemble hparts).mul_eq

/-- The primes of a random key are factors. -/
theorem generateKey_yields {σ : Type} [RandomSource σ] (retries bits : Nat) (exponent : UInt32) :
    (generateKey α retries bits exponent : Randomized σ PrivateKey).Yields Factors := by
  have hany {β : Type} {x : Randomized σ β} : x.Yields fun _ => True := fun _ _ _ => trivial
  refine hany.bind fun _ _ => hany.bind fun _ _ => hany.bind fun p _ => hany.bind fun gap _ =>
    hany.bind fun q _ => .lift fun found hfound => ?_
  rw [ofPrimes] at hfound
  obtain ⟨_, -, hfound⟩ := exists_of_bind_eq_ok hfound
  obtain ⟨_, -, hfound⟩ := exists_of_bind_eq_ok hfound
  obtain ⟨_, -, hfound⟩ := exists_of_bind_eq_ok hfound
  obtain ⟨_, -, hfound⟩ := exists_of_bind_eq_ok hfound
  exact factors_of_ofParts? hfound

/-- The primes of a key are not zero, since its modulus is odd. -/
theorem Factors.pos {key : PrivateKey} (h : key.Factors) : 0 < toNat key.p ∧ 0 < toNat key.q := by
  have hpos : 0 < toNat key.p * toNat key.q := by
    have hodd := key.publicKey.toNat_modulus_odd
    rw [h]
    omega
  exact ⟨Nat.pos_of_mul_pos_right hpos, Nat.pos_of_mul_pos_left hpos⟩

/-- The primes of a key are small. -/
theorem Factors.small {key : PrivateKey} (h : key.Factors) :
    Small (Arithmetic.ofBytes key.p : α) (toNat key.p) ∧
      Small (Arithmetic.ofBytes key.q : α) (toNat key.q) := by
  have hn := small_modulus (α := α) key.publicKey
  refine ⟨.of_le (LawfulArithmetic.ofBytes key.p) ?_ hn, .of_le (LawfulArithmetic.ofBytes key.q) ?_ hn⟩
  · exact (Nat.le_mul_of_pos_right _ h.pos.2).trans_eq h
  · exact (Nat.le_mul_of_pos_left _ h.pos.1).trans_eq h

end PrivateKey

/-- The primitive of the private half, where the private exponent is reduced as exact arithmetic
reduces it. -/
theorem privateOp_refines_of_reduce {key : PrivateKey} (hfactors : key.Factors)
    (hreduce : ∀ {z : α} {m : Nat}, Small z m → m + 1 = toNat key.p ∨ m + 1 = toNat key.q →
      Refines True Small (Arithmetic.reduce (Arithmetic.ofBytes key.d) z)
        (Arithmetic.reduce (Arithmetic.ofBytes key.d) m)) (input : Bytes) :
    Refines True Eq (privateOp α key input) (privateOp Nat key input) := by
  obtain ⟨hp, hq⟩ := hfactors.small (α := α)
  have hone := LawfulArithmetic.ofWord (α := α) 1
  refine (requireBelow_refines key.publicKey input).bind fun _ _ hc => ?_
  refine ((hp.sub hone).and_of_ok fun _ => LawfulArithmetic.add_of_exact_sub).bind
    fun p' _ ⟨hp', hpsum⟩ => ?_
  refine (hreduce hp' (.inl hpsum)).bind fun dp _ hdp => ?_
  refine ((hq.sub hone).and_of_ok fun _ => LawfulArithmetic.add_of_exact_sub).bind
    fun q' _ ⟨hq', hqsum⟩ => ?_
  refine (hreduce hq' (.inr hqsum)).bind fun dq _ hdq => ?_
  refine (hq.modInverse hp).bind fun o o' ho => ?_
  cases ho with
  | none => exact .refused _
  | some hinverse =>
      refine (hc.modPow hdp.denotes hp).bind fun m1 _ hm1 => ?_
      refine (hc.modPow hdq.denotes hq).bind fun m2 _ hm2 => ?_
      refine (hm1.modSub hm2 hp).bind fun difference _ hdifference => ?_
      refine (hinverse.modMul hdifference hp).bind fun h _ hh => ?_
      refine (hh.mul hq).bind fun hq _ ⟨hhq, hcount⟩ => ?_
      refine ((LawfulArithmetic.add hm2.denotes hhq).under fun _ => ?_).bind fun m _ hm => ?_
      · have hm2count := hm2.count_le
        have hscratch : scratchLimbs = 130 := rfl
        omega
      · exact LawfulArithmetic.toBytesPadded hm _

/-- The primitive of the private half. -/
theorem privateOp_refines {key : PrivateKey} (hfactors : key.Factors)
    (hd : count (toNat key.d) ≤ scratchLimbs) (input : Bytes) :
    Refines True Eq (privateOp α key input) (privateOp Nat key input) :=
  privateOp_refines_of_reduce hfactors
    (fun hz _ => Small.reduce_of_count (LawfulArithmetic.ofBytes key.d) hd hz) input

/-- The primitive of the private half, with room to reduce the private exponent modulo the numbers
below the factors. -/
theorem privateOp_refines_of_room {key : PrivateKey} (hfactors : key.Factors)
    (hd : LawfulArithmetic.RoomToReduce α (toNat key.d)) (hp : toNat key.p ≠ 1)
    (hq : toNat key.q ≠ 1) (input : Bytes) :
    Refines True Eq (privateOp α key input) (privateOp Nat key input) :=
  privateOp_refines_of_reduce hfactors
    (fun hz hm => Small.reduce_of_room (LawfulArithmetic.ofBytes key.d) hd hz (by omega)) input

/-! ### Schemes -/

variable {σ : Type} [RandomSource σ]

/-- Encryption. -/
theorem encrypt_lockstep (retries : Nat) (key : PublicKey) (scheme : AlgorithmId) (h : Hash)
    (label message : Bytes) :
    Lockstep Eq (encrypt α retries key scheme h label message : Randomized σ Bytes)
      (encrypt Nat retries key scheme h label message) := by
  refine .ite Iff.rfl (fun _ => (Lockstep.refl _).bind ?_) fun _ =>
    .ite Iff.rfl (fun _ => (Lockstep.refl _).bind ?_) fun _ =>
    .ite Iff.rfl (fun _ => (Lockstep.refl _).bind ?_) fun _ => (Lockstep.refl _).bind ?_
  all_goals
    intro encoded _ hencoded
    subst hencoded
    exact .lift (publicOp_refines key encoded)

/-- Signing. -/
theorem sign_lockstep {key : PrivateKey} (hfactors : key.Factors)
    (hd : count (toNat key.d) ≤ scratchLimbs) (scheme : AlgorithmId) (h : Hash) (digest : Bytes) :
    Lockstep Eq (sign α key scheme h digest : Randomized σ Bytes) (sign Nat key scheme h digest) := by
  refine .ite Iff.rfl (fun _ => (Lockstep.refl _).bind ?_) fun _ =>
    .ite Iff.rfl (fun _ => (Lockstep.refl _).bind ?_) fun _ => (Lockstep.refl _).bind ?_
  all_goals
    intro encoded _ hencoded
    subst hencoded
    exact .lift (privateOp_refines hfactors hd encoded)

/-- Decryption. -/
theorem decrypt_refines {key : PrivateKey} (hfactors : key.Factors)
    (hd : count (toNat key.d) ≤ scratchLimbs) (scheme : AlgorithmId) (h : Hash)
    (label ciphertext : Bytes) :
    Refines True Eq (decrypt α key scheme h label ciphertext)
      (decrypt Nat key scheme h label ciphertext) := by
  have hop := privateOp_refines (α := α) hfactors hd ciphertext
  refine Refines.bind (R := Eq) (.of_eq rfl) fun _ _ _ => ?_
  refine .ite Iff.rfl (fun _ => hop.bind fun encoded _ hencoded => hencoded ▸ .of_eq rfl)
    fun _ => ?_
  refine .ite Iff.rfl (fun _ => hop.bind fun encoded _ hencoded => hencoded ▸ .of_eq rfl)
    fun _ => ?_
  exact .ite Iff.rfl (fun _ => hop) fun _ => .refused _

/-- The encoded digest in a signature. -/
theorem recoverEncoded_refines (key : PublicKey) (algorithm : String) (signature : Bytes) :
    Refines True Eq (recoverEncoded α key algorithm signature)
      (recoverEncoded Nat key algorithm signature) := by
  have hop := publicOp_refines (α := α) key signature
  refine Refines.bind (R := Eq) (.of_eq rfl) fun _ _ _ => ?_
  generalize publicOp α key signature = outcome at hop
  generalize publicOp Nat key signature = outcome' at hop
  cases hop with
  | ok hvalue => exact .ok hvalue
  | exhausted hroom => exact absurd trivial hroom
  | error halike =>
      exact .ite (by rw [halike.isFatal_eq]) (fun _ => .error halike) fun _ => .refused _

/-- Verifying. -/
theorem verify_refines (key : PublicKey) (scheme : AlgorithmId) (h : Hash)
    (digest signature : Bytes) :
    Refines True Eq (verify α key scheme h digest signature)
      (verify Nat key scheme h digest signature) := by
  refine .ite Iff.rfl (fun _ => ?_) fun _ => .ite Iff.rfl (fun _ => ?_) fun _ => .refused _
  all_goals
    refine (recoverEncoded_refines key _ signature).bind fun encoded _ hencoded => ?_
    subst hencoded
    exact .of_eq rfl

/-! ### Recovered keys -/

/-- The parts of a recovered key, for a prime that fits the scratch area. -/
theorem deriveParts_small (key : PublicKey) {prime : Bytes}
    (hprime : count (toNat prime) ≤ scratchLimbs) :
    Refines True Eq (deriveParts α key prime) (deriveParts Nat key prime) := by
  have hn := small_modulus (α := α) key
  have hp := LawfulArithmetic.ofBytes (α := α) prime
  have hodd := key.toNat_modulus_odd
  have hnonzero : Refines True (fun _ _ => toNat prime ≠ 0)
      (Require.parameter (!Arithmetic.isZero (Arithmetic.ofBytes prime : α)) "p" "must be non-zero")
      (Require.parameter (!Arithmetic.isZero (Arithmetic.ofBytes prime : Nat)) "p"
        "must be non-zero") := by
    rw [hp.isZero_eq]
    refine .ite Iff.rfl (fun h => .ok ?_) fun _ => .refused _
    exact beq_eq_false_iff_ne.mp (Bool.not_eq_true' _ ▸ h)
  refine hnonzero.bind fun _ _ hne => ?_
  have hdivision (w : Nat × Nat) (hw : Arithmetic.divRem (toNat key.modulus) (toNat prime) = .ok w) :
      w = (toNat key.modulus / toNat prime, toNat key.modulus % toNat prime) :=
    (Exact.of_unlessZero hw).2.symm
  refine (((LawfulArithmetic.divRem hn.denotes hp).under fun _ =>
    max_le hn.count_le_scratch hprime).and_of_ok hdivision).bind
    fun division _ ⟨⟨hq, hr⟩, hvalue⟩ => ?_
  subst hvalue
  refine .ite (by rw [hr.isZero_eq, hq.eqWord_eq, hp.eqWord_eq]; rfl) (fun _ => .refused _)
    fun hguards => ?_
  -- only a proper factor passes, and both factors are small then
  have hfactor := (guards_eq_false_iff hp hq hr (by omega) hne).mp
    (by rw [hr.isZero_eq, hq.eqWord_eq, hp.eqWord_eq]; exact Bool.eq_false_of_not_eq_true hguards)
  have hcofactor := Small.of_le hq (Nat.div_le_self _ _) hn
  refine (privateExponent_small (.of_le hp hfactor.lt.le hn) hcofactor key.exponent).bind
    fun d _ hd => ?_
  rw [hq.toBytes_eq, hd.toBytes_eq]
  exact .ok rfl

/-- Recovered keys, and the cache afterwards. -/
theorem ofPrime_refines {cache : ExponentCache} (hcache : cache.Genuine) (key : PublicKey)
    {prime : Bytes} (hprime : count (toNat prime) ≤ scratchLimbs) :
    Refines True Eq (PrivateKey.ofPrime α cache key prime).1
        (PrivateKey.ofPrime Nat cache key prime).1 ∧
      (PrivateKey.ofPrime α cache key prime).2 = (PrivateKey.ofPrime Nat cache key prime).2 := by
  have hderive (cache : ExponentCache) :
      Refines True Eq (PrivateKey.derive α cache key prime.stripZeros).1
          (PrivateKey.derive Nat cache key prime.stripZeros).1 ∧
        (PrivateKey.derive α cache key prime.stripZeros).2 =
          (PrivateKey.derive Nat cache key prime.stripZeros).2 := by
    have hstripped : count (toNat prime.stripZeros) ≤ scratchLimbs := by
      rwa [Bytes.toNat_stripZeros]
    have hrefines := deriveParts_small (α := α) key hstripped
    rw [PrivateKey.derive, PrivateKey.derive]
    generalize deriveParts α key prime.stripZeros = outcome at hrefines
    generalize deriveParts Nat key prime.stripZeros = outcome' at hrefines
    cases hrefines with
    | ok hparts =>
        subst hparts
        exact ⟨.ok rfl, rfl⟩
    | error halike => exact ⟨.error halike, rfl⟩
    | exhausted hroom => exact absurd trivial hroom
  rw [PrivateKey.ofPrime, PrivateKey.ofPrime]
  split
  case h_1 => exact hderive _
  case h_2 parts after hhit =>
    -- what a genuine cache holds passes the check in any arithmetic
    have hdetermines := (hcache.determines_of_find (congrArg Prod.fst hhit)).1
    rw [PrivateKey.ofParts?_of_determines (α := α) hdetermines,
      PrivateKey.ofParts?_of_determines (α := Nat) hdetermines]
    exact ⟨.ok rfl, rfl⟩

end TrustedPlatform.Rsa
