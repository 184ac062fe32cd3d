import TrustedPlatform.Proofs.Random.Ending
import TrustedPlatform.Proofs.Rsa.Refinement
import TrustedPlatform.Proofs.Rsa.Signature

/-!
# Private keys that do not fail fatally

The parts of a private key may be byte strings of any length, of which only the product of two is
checked. An arithmetic fails on parts beyond its room; and since the private exponent is reduced
modulo each factor less one, a key with a factor of one makes it divide by zero. The main theorem is
`materialContained`: apart from these two, no parts are refused fatally, and no key that is let pass
makes its private half fail fatally.
-/

namespace TrustedPlatform.Rsa

open Bytes (toNat)
open FixedNat (scratchLimbs)
open LawfulArithmetic (Denotes HasRoom)
open Limbs (count count_mono)

/-! ### What is to be shown -/

section Statements

variable (α : Type) [Arithmetic α]

/-- The private keys that an arithmetic lets pass for a public key, checked part by part or recovered
from a prime. -/
inductive PrivateKey.Accepted (key : PublicKey) : PrivateKey → Prop where
  | ofParts {p q d : Bytes} {found : PrivateKey}
      (h : PrivateKey.ofParts? α key p q d = .ok found) : Accepted key found
  | ofPrime {cache : ExponentCache} {prime : Bytes} {found : PrivateKey}
      (hcache : PrivateKey.Reached cache)
      (h : (PrivateKey.ofPrime α cache key prime).1 = .ok found) : Accepted key found

/-- The private half of the key can be computed with: no factor is one, and the private exponent is
within the room. -/
structure PrivateKey.Usable (limit : ℕ∞) (key : PrivateKey) : Prop where
  p_ne_one : toNat key.p ≠ 1
  q_ne_one : toNat key.q ≠ 1
  d_le : (count (toNat key.d) : ℕ∞) ≤ limit

/-- A ciphertext to which decryption applies the private primitive. -/
structure Decrypts (key : PublicKey) (scheme : AlgorithmId) (ciphertext : Bytes) : Prop where
  length_eq : ciphertext.length = key.size
  scheme_eq : scheme = .oaep ∨ scheme = .rsaes ∨ scheme = .null
  lt : toNat ciphertext < toNat key.modulus

/-- What the private keys for a public key and their parts do in an arithmetic with room for numbers
of so many limbs. Parts beyond the room are refused fatally, and no others; a key with a factor of
one or with a private exponent beyond the room fails fatally wherever the private primitive is
applied to a number below the modulus, and no key does anywhere else. -/
structure MaterialContained (limit : ℕ∞) (key : PublicKey) : Prop where
  ofParts_iff : ∀ p q d, Recoverable (PrivateKey.ofParts? α key p q d) ↔
    ((count (toNat p) + count (toNat q) : Nat) : ℕ∞) ≤ limit
  ofPrime_iff : ∀ {cache}, PrivateKey.Reached cache → ∀ prime,
    Recoverable (PrivateKey.ofPrime α cache key prime).1 ↔ (count (toNat prime) : ℕ∞) ≤ limit
  usable_of_ofPrime : ∀ {cache}, PrivateKey.Reached cache → ∀ {prime found},
    (PrivateKey.ofPrime α cache key prime).1 = .ok found → found.Usable limit
  privateOp_iff : ∀ {found}, PrivateKey.Accepted α key found → ∀ input,
    Recoverable (privateOp α found input) ↔ (toNat input < toNat key.modulus → found.Usable limit)
  decrypt_iff : ∀ {found}, PrivateKey.Accepted α key found → ∀ scheme h label ciphertext,
    Recoverable (decrypt α found scheme h label ciphertext) ↔
      (Decrypts key scheme ciphertext → found.Usable limit)
  sign_contained : ∀ {found}, PrivateKey.Accepted α key found → found.Usable limit →
    ∀ {σ : Type} [RandomSource σ] scheme h digest,
      Contained (fun s => s) True (fun _ => True)
        (sign α found scheme h digest : Randomized σ Bytes)
  sign_fatal : ∀ {found}, PrivateKey.Accepted α key found → ¬found.Usable limit →
    ∀ {σ : Type} [RandomSource σ] scheme h digest (s t : σ) encoded,
      (writeDigest key scheme h digest).runFrom s = (.ok encoded, t) →
      ∃ code, (sign α found scheme h digest).runFrom s = (.error (.fatal code), t)

end Statements

variable {α : Type} [Arithmetic α] [LawfulArithmetic α] {limit : ℕ∞} {key : PrivateKey}

/-! ### Keys and their parts -/

/-- The parts of a key are refused recoverably exactly when the product of the primes is within the
room. -/
theorem PrivateKey.ofParts?_recoverable_iff (hroom : HasRoom α limit) (key : PublicKey)
    (p q d : Bytes) : Recoverable (ofParts? α key p q d) ↔
      ((count (toNat p) + count (toNat q) : Nat) : ℕ∞) ≤ limit := by
  rw [ofParts?, recoverable_bind_iff, hroom.mul_recoverable_iff (LawfulArithmetic.ofBytes p)
    (LawfulArithmetic.ofBytes q)]
  exact and_iff_left fun product _ => .ite (fun _ => .value trivial) fun _ => .refused rfl

/-- The parts of a key are derived recoverably exactly when the prime is within the room. -/
theorem deriveParts_recoverable_iff (hroom : HasRoom α limit) (key : PublicKey) (prime : Bytes) :
    Recoverable (deriveParts α key prime) ↔ (count (toNat prime) : ℕ∞) ≤ limit := by
  have hn := LawfulArithmetic.ofBytes (α := α) key.modulus
  have hp := LawfulArithmetic.ofBytes (α := α) prime
  have hodd := key.toNat_modulus_odd
  by_cases hfactor : ProperFactor (toNat prime) (toNat key.modulus)
  case pos =>
    have hcount := (count_mono hfactor.lt.le).trans key.count_modulus_le
    refine iff_of_true ((deriveParts_refines hfactor).recoverable_iff.mpr ?_) (hroom.count_le hcount)
    cases Exact.modInverse key.exponent.toNat _ with
    | none => exact .refused rfl
    | some d => exact .value trivial
  case neg =>
    by_cases hzero : toNat prime = 0
    · rw [deriveParts, LawfulArithmetic.isZero hp, hzero]
      exact iff_of_true (.refused rfl) (hroom.count_le (by decide))
    rw [deriveParts, LawfulArithmetic.isZero hp, beq_eq_false_iff_ne.mpr hzero]
    show Recoverable (Arithmetic.divRem _ _ >>= _) ↔ _
    rcases le_or_gt (count (toNat prime) : ℕ∞) limit with hwithin | hbeyond
    · -- the division is carried out, and its guards refuse the number
      obtain ⟨⟨q, r⟩, hdivision, hq, hr⟩ := hroom.divRem_returns hn hp
        (hroom.count_le key.count_modulus_le) hwithin hzero
      have hguards := mt (guards_eq_false_iff hp hq hr (by omega) hzero).mp hfactor
      rw [Bool.not_eq_false] at hguards
      refine iff_of_true ?_ hwithin
      rw [hdivision]
      show Recoverable (if _ then _ else _)
      rw [if_pos hguards]
      exact .refused rfl
    · rw [hroom.divRem_exhausted hn hp (.inr hbeyond) hzero]
      exact iff_of_false (not_recoverable_fatal _) (not_le_of_gt hbeyond)

/-- A key is recovered or refused recoverably exactly when the prime is within the room. -/
theorem PrivateKey.Reached.ofPrime_recoverable_iff (hroom : HasRoom α limit)
    {cache : ExponentCache} (hcache : Reached cache) (key : PublicKey) (prime : Bytes) :
    Recoverable (PrivateKey.ofPrime α cache key prime).1 ↔ (count (toNat prime) : ℕ∞) ≤ limit := by
  rw [ofPrime_fst hcache.genuine, ← Bytes.toNat_stripZeros prime,
    ← deriveParts_recoverable_iff hroom key]
  cases deriveParts α key prime.stripZeros with
  | ok parts => exact iff_of_true (.value trivial) (.value trivial)
  | error e => exact recoverable_error_iff.trans recoverable_error_iff.symm

/-- A recovered key can be computed with. -/
theorem PrivateKey.RecoveredFrom.usable (hroom : HasRoom α limit) {publicKey : PublicKey}
    {prime : Bytes} (h : key.RecoveredFrom publicKey prime) : key.Usable limit where
  p_ne_one := h.one_lt_p.ne'
  q_ne_one := h.one_lt_q.ne'
  d_le := by
    have horder := Nat.mul_le_mul (Nat.sub_le (toNat key.p) 1) (Nat.sub_le (toNat key.q) 1)
    rw [h.mul_eq] at horder
    exact hroom.count_le ((count_mono (h.d_lt.le.trans horder)).trans publicKey.count_modulus_le)

namespace PrivateKey.Accepted

variable {publicKey : PublicKey}

/-- A key that is let pass has the public half that it was asked for. -/
theorem publicKey_eq (h : key.Accepted α publicKey) : key.publicKey = publicKey := by
  cases h with
  | ofParts h =>
      obtain ⟨product, -, hchecked⟩ := exists_of_bind_eq_ok h
      split at hchecked
      · cases hchecked
        rfl
      · cases hchecked
  | ofPrime hcache h => exact ((hcache.recovers _ _).sound _ h).publicKey_eq

/-- Its primes multiply to its modulus. -/
theorem factors (h : key.Accepted α publicKey) : key.Factors := by
  cases h with
  | ofParts h => exact factors_of_ofParts? h
  | ofPrime hcache h => exact factors_of_ofPrime hcache.genuine h

end PrivateKey.Accepted

/-! ### The private primitive -/

/-- In exact arithmetic, a factor of one is all that the private primitive fails on. -/
theorem PrivateKey.Factors.exact_privateOp_recoverable (hfactors : key.Factors)
    (hp : toNat key.p ≠ 1) (hq : toNat key.q ≠ 1) (input : Bytes) :
    Recoverable (privateOp Nat key input) := by
  obtain ⟨hppos, hqpos⟩ := hfactors.pos
  have hple : 1 ≤ toNat key.p := hppos
  have hqle : 1 ≤ toNat key.q := hqpos
  refine (Require.parameter_recoverable _ _ _).bind fun _ _ => ?_
  refine (Exact.sub_recovers hple).bind fun p' hp' => ?_
  refine (Exact.reduce_recoverable (by omega) _).bind fun dp _ => ?_
  refine (Exact.sub_recovers hqle).bind fun q' hq' => ?_
  refine (Exact.reduce_recoverable (by omega) _).bind fun dq _ => ?_
  refine (Exact.modInverse_recoverable hppos.ne' _).bind fun o _ => ?_
  cases o with
  | none => exact .refused rfl
  | some qInverse =>
      refine (Exact.unlessZero_recoverable hppos.ne' _).bind fun m1 _ => ?_
      refine (Exact.unlessZero_recoverable hqpos.ne' _).bind fun m2 _ => ?_
      refine (Exact.modSub_recoverable hppos.ne' m1 m2).bind fun difference _ => ?_
      refine (Exact.modMul_recoverable hppos.ne' qInverse difference).bind fun h _ => ?_
      exact Exact.toBytesPadded_recoverable _ _

/-- The private primitive of a key that can be computed with recovers on every input. -/
theorem PrivateKey.Usable.privateOp_recoverable (hroom : HasRoom α limit) (h : key.Usable limit)
    (hfactors : key.Factors) (input : Bytes) : Recoverable (privateOp α key input) :=
  (privateOp_refines_of_room hfactors (hroom.roomToReduce h.d_le) h.p_ne_one h.q_ne_one
    input).recoverable_iff.mpr
      (hfactors.exact_privateOp_recoverable h.p_ne_one h.q_ne_one input)

/-- A key with which the private primitive recovers on a number below the modulus can be computed
with: the private exponent was reduced modulo each factor less one. -/
theorem PrivateKey.Factors.usable_of_recoverable (hroom : HasRoom α limit) (hfactors : key.Factors)
    {input : Bytes} (hlt : toNat input < toNat key.publicKey.modulus)
    (h : Recoverable (privateOp α key input)) : key.Usable limit := by
  obtain ⟨hp, hq⟩ := hfactors.small (α := α)
  have hone : Denotes (Arithmetic.ofWord 1 : α) 1 := LawfulArithmetic.ofWord 1
  have hn := LawfulArithmetic.ofBytes (α := α) key.publicKey.modulus
  have hc := LawfulArithmetic.ofBytes (α := α) input
  have hd := LawfulArithmetic.ofBytes (α := α) key.d
  have hpcount := (count_mono (Nat.sub_le (toNat key.p) 1)).trans hp.count_le
  have hqcount := (count_mono (Nat.sub_le (toNat key.q) 1)).trans hq.count_le
  obtain ⟨p', hsubp, hp'⟩ := LawfulArithmetic.sub_returns hp.denotes hone hp.count_le hfactors.pos.1
  obtain ⟨q', hsubq, hq'⟩ := LawfulArithmetic.sub_returns hq.denotes hone hq.count_le hfactors.pos.2
  rw [privateOp, LawfulArithmetic.lt hc hn, decide_eq_true hlt] at h
  have h := (recoverable_bind_iff.mp h).2 () rfl
  obtain ⟨hdp, h⟩ := recoverable_bind_iff.mp ((recoverable_bind_iff.mp h).2 p' hsubp)
  obtain ⟨hpne, hdle⟩ := (hroom.reduce_recoverable_iff hd hp' hpcount).mp hdp
  obtain ⟨dp, hdp, -⟩ := hroom.roomToReduce hdle hd hp' hpcount hpne
  have h := (recoverable_bind_iff.mp (h dp hdp)).2 q' hsubq
  have hqne := ((hroom.reduce_recoverable_iff hd hq' hqcount).mp (recoverable_bind_iff.mp h).1).1
  exact ⟨fun hp => hpne (by omega), fun hq => hqne (by omega), hdle⟩

/-- The private primitive recovers exactly when the key can be computed with or the input is
refused. -/
theorem PrivateKey.Factors.privateOp_recoverable_iff (hroom : HasRoom α limit)
    (hfactors : key.Factors) (input : Bytes) : Recoverable (privateOp α key input) ↔
      (toNat input < toNat key.publicKey.modulus → key.Usable limit) := by
  rcases lt_or_ge (toNat input) (toNat key.publicKey.modulus) with hlt | hge
  · rw [forall_prop_of_true hlt]
    exact ⟨hfactors.usable_of_recoverable hroom hlt,
      fun h => h.privateOp_recoverable hroom hfactors input⟩
  · rw [privateOp_refused hge]
    exact iff_of_true (.refused rfl) fun hlt => absurd hlt (Nat.not_lt.mpr hge)

/-! ### Decryption -/

/-- A wrong padding is refused recoverably. -/
theorem Oaep.decode_recoverable (h : Hash) (label encoded : Bytes) :
    Recoverable (decode h label encoded) := by
  rw [decode]
  refine .ite (fun _ => .refused rfl) fun _ => ?_
  dsimp only
  split
  · exact .ite (fun _ => .value trivial) fun _ => .refused rfl
  · exact .refused rfl

/-- A wrong padding is refused recoverably. -/
theorem Pkcs1.decodeMessage_recoverable (block : Bytes) : Recoverable (decodeMessage block) := by
  unfold decodeMessage
  dsimp only
  split
  · split
    · exact .ite (fun _ => .value trivial) fun _ => .refused rfl
    · exact .refused rfl
  · exact .refused rfl

omit [LawfulArithmetic α] in
/-- Decryption recovers exactly when the private primitive does, if it is applied. -/
theorem decrypt_recoverable_iff (key : PrivateKey) (scheme : AlgorithmId) (h : Hash)
    (label ciphertext : Bytes) : Recoverable (decrypt α key scheme h label ciphertext) ↔
      (ciphertext.length = key.publicKey.size →
        scheme = .oaep ∨ scheme = .rsaes ∨ scheme = .null →
        Recoverable (privateOp α key ciphertext)) := by
  rw [decrypt, Require.length]
  by_cases hlen : ciphertext.length = key.publicKey.size
  case neg =>
    rw [if_neg hlen]
    exact iff_of_true (.refused rfl) fun h => absurd h hlen
  rw [if_pos hlen, forall_prop_of_true hlen]
  by_cases hscheme : scheme = .oaep ∨ scheme = .rsaes ∨ scheme = .null
  case neg =>
    obtain ⟨hoaep, hrsaes, hnull⟩ : scheme ≠ .oaep ∧ scheme ≠ .rsaes ∧ scheme ≠ .null := by
      simpa only [not_or] using hscheme
    rw [if_neg hoaep, if_neg hrsaes, if_neg hnull]
    exact iff_of_true (.refused rfl) fun h => absurd h hscheme
  rw [forall_prop_of_true hscheme]
  obtain rfl | rfl | rfl := hscheme
  · show Recoverable (privateOp α key ciphertext >>= _) ↔ _
    exact recoverable_bind_iff.trans (and_iff_left fun _ _ => Oaep.decode_recoverable _ _ _)
  · show Recoverable (privateOp α key ciphertext >>= _) ↔ _
    exact recoverable_bind_iff.trans (and_iff_left fun _ _ => Pkcs1.decodeMessage_recoverable _)
  · exact Iff.rfl

/-! ### Signing -/

variable {σ : Type} [RandomSource σ]

/-- The encoding of a digest is contained. -/
theorem writeDigest_contained (key : PublicKey) (scheme : AlgorithmId) (h : Hash) (digest : Bytes) :
    Contained (fun s => s) True (fun _ => True)
      (writeDigest key scheme h digest : Randomized σ Bytes) := by
  refine .ite (fun _ => .lift ?_) fun _ => .ite (fun _ => ?_) fun _ => .throw rfl
  · refine (Require.length_recoverable _ _ _).bind fun _ _ => ?_
    exact (Require.parameter_recoverable _ _ _).bind fun _ _ => .value trivial
  · refine (Contained.lift (Require.length_recoverable _ _ _)).bind fun _ _ => ?_
    refine (Contained.lift (Require.parameter_recoverable _ _ _)).bind fun _ _ => ?_
    exact (Contained.draw _).bind fun _ _ => .pure trivial

omit [LawfulArithmetic α] in
/-- Signing with a key whose private primitive recovers is contained. -/
theorem sign_contained (hop : ∀ input, Recoverable (privateOp α key input)) (scheme : AlgorithmId)
    (h : Hash) (digest : Bytes) : Contained (fun s => s) True (fun _ => True)
      (sign α key scheme h digest : Randomized σ Bytes) := by
  rw [sign_eq]
  exact (writeDigest_contained key.publicKey scheme h digest).bind fun encoded _ =>
    .lift (hop encoded)

/-- Every encoding is below the modulus, so that signing fails fatally with a key that cannot be
computed with, as soon as there is one. -/
theorem PrivateKey.Factors.sign_fatal (hroom : HasRoom α limit) (hfactors : key.Factors)
    (husable : ¬key.Usable limit) {scheme : AlgorithmId} {h : Hash} {digest encoded : Bytes}
    {s t : σ}
    (hwritten : (writeDigest key.publicKey scheme h digest).runFrom s = (.ok encoded, t)) :
    ∃ code, (sign α key scheme h digest).runFrom s = (.error (.fatal code), t) := by
  have hlt := (writeDigest_yields key.publicKey scheme h digest s encoded
    (congrArg Prod.fst hwritten)).1
  obtain ⟨code, hcode⟩ := not_recoverable_iff.mp
    (mt (hfactors.usable_of_recoverable hroom hlt) husable)
  refine ⟨code, ?_⟩
  rw [sign_eq, Randomized.runFrom_bind_ok hwritten, hcode]
  rfl

/-! ### Every key that is let pass -/

/-- Within its room, an arithmetic fails on no key material but for a factor of one. -/
theorem materialContained_of_hasRoom (hroom : HasRoom α limit) (key : PublicKey) :
    MaterialContained α limit key where
  ofParts_iff := PrivateKey.ofParts?_recoverable_iff hroom key
  ofPrime_iff hcache := hcache.ofPrime_recoverable_iff hroom key
  usable_of_ofPrime := by
    intro cache hcache prime found hfound
    exact ((hcache.recovers key prime).sound found hfound).usable hroom
  privateOp_iff := by
    intro found haccepted input
    rw [haccepted.factors.privateOp_recoverable_iff hroom, haccepted.publicKey_eq]
  decrypt_iff := by
    intro found haccepted scheme h label ciphertext
    rw [decrypt_recoverable_iff, haccepted.factors.privateOp_recoverable_iff hroom,
      haccepted.publicKey_eq]
    exact ⟨fun hop ⟨hlen, hscheme, hlt⟩ => hop hlen hscheme hlt,
      fun hop hlen hscheme hlt => hop ⟨hlen, hscheme, hlt⟩⟩
  sign_contained haccepted husable _ _ scheme h digest :=
    sign_contained (husable.privateOp_recoverable hroom haccepted.factors) scheme h digest
  sign_fatal := by
    intro found haccepted husable σ _ scheme h digest s t encoded hwritten
    rw [← haccepted.publicKey_eq] at hwritten
    exact haccepted.factors.sign_fatal hroom husable hwritten

/-- Arithmetic in buffers fails on key material with a factor of one or with numbers beyond the
scratch area, exact arithmetic on key material with a factor of one only. -/
theorem materialContained (key : PublicKey) :
    MaterialContained FixedNat scratchLimbs key ∧ MaterialContained Nat ⊤ key :=
  ⟨materialContained_of_hasRoom LawfulArithmetic.hasRoom_fixed key,
    materialContained_of_hasRoom LawfulArithmetic.hasRoom_exact key⟩

/-- The private exponent is divided by zero when the first factor is one. -/
theorem PrivateKey.privateOp_divideByZero (hp : toNat key.p = 1)
    (hd : count (toNat key.d) ≤ scratchLimbs) {input : Bytes}
    (hlt : toNat input < toNat key.publicKey.modulus) :
    privateOp α key input = .error (.fatal .divideByZero) := by
  have hfactor := LawfulArithmetic.ofBytes (α := α) key.p
  rw [hp] at hfactor
  obtain ⟨p', hsub, hp'⟩ := LawfulArithmetic.sub_returns hfactor
    (LawfulArithmetic.ofWord (α := α) 1) (by decide) le_rfl
  have hreduce : Refines _ _ _ (.error (.fatal .divideByZero)) :=
    LawfulArithmetic.reduce (LawfulArithmetic.ofBytes key.d) hp'
  obtain ⟨f, hop⟩ := privateOp_eq_bind_reduce hlt hsub
  rw [hop, hreduce.eq_fatal (max_le hd (by decide))]
  rfl

/-- Every modulus is let pass as the product of one and itself. -/
theorem PrivateKey.ofParts?_one (key : PublicKey) :
    ofParts? α key [1] key.modulus [1] = .ok ⟨key, [1], key.modulus, [1]⟩ := by
  rw [ofParts?_of_mul_eq [1] (Nat.one_mul _), key.stripped]
  rfl

/-- Primes whose product cannot be computed in buffers are refused fatally there. -/
theorem PrivateKey.ofParts?_exhausted (key : PublicKey) {p q : Bytes} (d : Bytes)
    (hroom : scratchLimbs < count (toNat p) + count (toNat q)) :
    ofParts? FixedNat key p q d = .error (.fatal .allocation) := by
  have hp := LawfulArithmetic.ofBytes (α := FixedNat) p
  have hq := LawfulArithmetic.ofBytes (α := FixedNat) q
  rw [ofParts?, LawfulArithmetic.mul_exhausted hp hq hroom]
  rfl

/-- In exact arithmetic, primes that do not multiply to the modulus are refused as such. -/
theorem PrivateKey.exact_ofParts?_refused {key : PublicKey} {p q : Bytes} (d : Bytes)
    (hne : toNat p * toNat q ≠ toNat key.modulus) :
    ofParts? Nat key p q d = .error (.key "p * q does not equal the modulus") := by
  have hdiffers : Arithmetic.eq (toNat p * toNat q) (toNat key.modulus) = false := by
    rw [LawfulArithmetic.eq rfl rfl, decide_eq_false hne]
  show (if Arithmetic.eq (toNat p * toNat q) (toNat key.modulus) = true then _ else _) = _
  rw [hdiffers]
  rfl

/-- A modulus of 648 bits is let pass as the product of one and itself, and the private primitive
divides by zero with that key, in either arithmetic. A first prime of 1041 bytes is refused fatally
in buffers, where exact arithmetic finds that it is no factor. -/
theorem PrivateKey.ofParts?_trivialFactor :
    let key := mersenneKey.publicKey
    let found : PrivateKey := ⟨key, [1], key.modulus, [1]⟩
    let long : Bytes := List.replicate 1041 1
    (ofParts? FixedNat key [1] key.modulus [1] = .ok found ∧
      privateOp FixedNat found [2] = .error (.fatal .divideByZero)) ∧
    (ofParts? Nat key [1] key.modulus [1] = .ok found ∧
      privateOp Nat found [2] = .error (.fatal .divideByZero)) ∧
    ofParts? FixedNat key long [1] [1] = .error (.fatal .allocation) ∧
    ofParts? Nat key long [1] [1] = .error (.key "p * q does not equal the modulus") := by
  intro key found long
  have hone : toNat found.p = 1 := by decide
  have hd : count (toNat found.d) ≤ scratchLimbs := by decide
  have hlt : toNat [2] < toNat key.modulus := by decide +kernel
  have hlong : scratchLimbs < count (toNat long) + count (toNat [1]) :=
    Nat.lt_add_right _ (Limbs.lt_count_iff.mpr (by decide +kernel))
  exact ⟨⟨ofParts?_one key, privateOp_divideByZero hone hd hlt⟩,
    ⟨ofParts?_one key, privateOp_divideByZero hone hd hlt⟩,
    ofParts?_exhausted key [1] hlong, exact_ofParts?_refused [1] (by decide +kernel)⟩

end TrustedPlatform.Rsa
