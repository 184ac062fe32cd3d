import TrustedPlatform.Proofs.Rsa.Cache
import TrustedPlatform.Proofs.Rsa.PrivateKey
import TrustedPlatform.Rsa.Recovery

/-!
# Private keys from one prime are recovered in full

Only one pair of parts belongs to a prime of a modulus and a public exponent, and deriving the parts
gives this pair or none. Every entry of a cache that was filled by recovering keys holds the pair of
its key, so that a key found in the cache is the one that would be derived anew. The main theorem is
`PrivateKey.Reached.recovers`.
-/

namespace TrustedPlatform.Rsa

open Bytes (toNat)
open FixedNat (scratchLimbs)
open LawfulArithmetic (Denotes)
open Limbs (count count_mono)

/-! ### The parts that belong to a prime -/

/-- The parts belong to the prime, the modulus and the exponent of a key: the other factor and the
inverse of the exponent, both written without leading zeros. -/
structure CacheKey.Determines (key : CacheKey) (parts : DerivedParts) : Prop where
  one_lt_prime : 1 < toNat key.prime
  one_lt_cofactor : 1 < toNat parts.cofactor
  mul_eq : toNat key.prime * toNat parts.cofactor = toNat key.modulus
  inverse : key.exponent.toNat * toNat parts.privateExponent ≡ 1
    [MOD (toNat key.prime - 1) * (toNat parts.cofactor - 1)]
  lt_order : toNat parts.privateExponent < (toNat key.prime - 1) * (toNat parts.cofactor - 1)
  cofactor_stripped : parts.cofactor.stripZeros = parts.cofactor
  privateExponent_stripped : parts.privateExponent.stripZeros = parts.privateExponent

namespace CacheKey.Determines

variable {key : CacheKey} {parts other : DerivedParts}

/-- The exponent is coprime to the order, as it has an inverse. -/
theorem coprime (h : key.Determines parts) :
    Nat.Coprime key.exponent.toNat ((toNat key.prime - 1) * (toNat parts.cofactor - 1)) :=
  Nat.coprime_of_mul_modEq_one _ h.inverse

/-- A key determines its parts. -/
theorem unique (h : key.Determines parts) (h' : key.Determines other) : parts = other := by
  have hcofactor : toNat parts.cofactor = toNat other.cofactor :=
    Nat.eq_of_mul_eq_mul_left (Nat.zero_lt_of_lt h.one_lt_prime) (h.mul_eq.trans h'.mul_eq.symm)
  have hexponent : toNat parts.privateExponent = toNat other.privateExponent := by
    have hcongr := h.inverse.trans (hcofactor ▸ h'.inverse).symm
    refine (Nat.ModEq.cancel_left_of_coprime h.coprime.symm hcongr).eq_of_lt_of_lt h.lt_order ?_
    rw [hcofactor]
    exact h'.lt_order
  have hbytes {a b : Bytes} (ha : a.stripZeros = a) (hb : b.stripZeros = b)
      (hab : toNat a = toNat b) : a = b := by
    rw [← ha, ← hb, ← Bytes.ofNat_toNat, ← Bytes.ofNat_toNat, hab]
  obtain ⟨cofactor, privateExponent⟩ := parts
  obtain ⟨cofactor', privateExponent'⟩ := other
  rw [DerivedParts.mk.injEq]
  exact ⟨hbytes h.cofactor_stripped h'.cofactor_stripped hcofactor,
    hbytes h.privateExponent_stripped h'.privateExponent_stripped hexponent⟩

end CacheKey.Determines

/-- A number divides another and is neither one nor the other. -/
structure ProperFactor (p n : Nat) : Prop where
  dvd : p ∣ n
  one_lt : 1 < p
  lt : p < n

namespace ProperFactor

variable {p n : Nat}

/-- The cofactor is not one either. -/
theorem one_lt_cofactor (h : ProperFactor p n) : 1 < n / p :=
  (Nat.lt_div_iff_mul_lt_of_dvd (Nat.ne_zero_of_lt h.one_lt) h.dvd).mpr (by simpa using h.lt)

/-- The order is not zero. -/
theorem order_ne_zero (h : ProperFactor p n) : (p - 1) * (n / p - 1) ≠ 0 :=
  Nat.mul_ne_zero (Nat.sub_ne_zero_of_lt h.one_lt) (Nat.sub_ne_zero_of_lt h.one_lt_cofactor)

end ProperFactor

/-- The prime of a key that determines parts is a proper factor of its modulus. -/
theorem CacheKey.Determines.properFactor {key : CacheKey} {parts : DerivedParts}
    (h : key.Determines parts) : ProperFactor (toNat key.prime) (toNat key.modulus) := by
  refine ⟨h.mul_eq ▸ dvd_mul_right _ _, h.one_lt_prime, ?_⟩
  rw [← h.mul_eq]
  exact (Nat.lt_mul_iff_one_lt_right (Nat.zero_lt_of_lt h.one_lt_prime)).mpr h.one_lt_cofactor

/-- The other factor is the quotient. -/
theorem CacheKey.Determines.cofactor_eq {key : CacheKey} {parts : DerivedParts}
    (h : key.Determines parts) :
    toNat parts.cofactor = toNat key.modulus / toNat key.prime := by
  rw [← h.mul_eq, Nat.mul_div_cancel_left _ (Nat.zero_lt_of_lt h.one_lt_prime)]

/-- The quotient by a proper factor and the inverse of the exponent are the parts of a key. -/
theorem CacheKey.of_determines {prime modulus : Bytes} {exponent : UInt32} {d : Nat}
    (h : ProperFactor (toNat prime) (toNat modulus))
    (hd : Exact.modInverse exponent.toNat
      ((toNat prime - 1) * (toNat modulus / toNat prime - 1)) = some d) :
    (CacheKey.of prime modulus exponent).Determines
      ⟨Bytes.ofNat (toNat modulus / toNat prime), Bytes.ofNat d⟩ := by
  obtain ⟨hbelow, hmul⟩ := Exact.modInverse_spec h.order_ne_zero hd
  constructor <;>
    simp only [CacheKey.of, Bytes.toNat_ofNat, Bytes.toNat_stripZeros, Bytes.stripZeros_ofNat]
  case one_lt_prime => exact h.one_lt
  case one_lt_cofactor => exact h.one_lt_cofactor
  case mul_eq => exact Nat.mul_div_cancel' h.dvd
  case inverse => exact hmul
  case lt_order => exact hbelow

/-- A key determines parts when its prime is a proper factor and its exponent is invertible. -/
theorem CacheKey.exists_determines_iff {prime modulus : Bytes} {exponent : UInt32} :
    (∃ parts, (CacheKey.of prime modulus exponent).Determines parts) ↔
      ProperFactor (toNat prime) (toNat modulus) ∧
        exponent.toNat.Coprime ((toNat prime - 1) * (toNat modulus / toNat prime - 1)) := by
  constructor
  · rintro ⟨parts, h⟩
    have hfactor := h.properFactor
    have hcoprime := h.coprime
    rw [h.cofactor_eq] at hcoprime
    simp only [CacheKey.of, Bytes.toNat_stripZeros] at hfactor hcoprime
    exact ⟨hfactor, hcoprime⟩
  · rintro ⟨hfactor, hcoprime⟩
    obtain ⟨d, hd⟩ := Option.isSome_iff_exists.mp ((Exact.modInverse_isSome _ _).mpr hcoprime)
    exact ⟨_, CacheKey.of_determines hfactor hd⟩

/-- Leading zeros of the prime are not part of a key. -/
theorem CacheKey.of_stripZeros (prime modulus : Bytes) (exponent : UInt32) :
    CacheKey.of prime.stripZeros modulus exponent = .of prime modulus exponent := by
  rw [CacheKey.of, Bytes.stripZeros_stripZeros, CacheKey.of]

/-! ### Deriving the parts -/

section Deriving

variable {α : Type} [Arithmetic α] [LawfulArithmetic α]

/-- The private exponent is the inverse of the public one modulo the order. -/
theorem privateExponent_refines {x y : α} {p q : Nat} (hx : Denotes x p) (hy : Denotes y q)
    (hp : 1 < p) (hq : 1 < q) (hcount : count (p * q) ≤ 64) (e : UInt32) :
    Refines True Denotes (privateExponent x y e)
      (match Exact.modInverse e.toNat ((p - 1) * (q - 1)) with
        | some d => .ok d
        | none => .error (.key "exponent is not invertible")) := by
  have hscratch : scratchLimbs = 130 := rfl
  have hone : Denotes (Arithmetic.ofWord 1 : α) 1 := LawfulArithmetic.ofWord 1
  have he := LawfulArithmetic.ofWord (α := α) e.toUInt64
  rw [UInt32.toNat_toUInt64] at he
  have hpcount : count p ≤ 64 := (count_mono (Nat.le_mul_of_pos_right p (by omega))).trans hcount
  have hqcount : count q ≤ 64 := (count_mono (Nat.le_mul_of_pos_left q (by omega))).trans hcount
  have horder : (p - 1) * (q - 1) ≠ 0 :=
    Nat.mul_ne_zero (Nat.sub_ne_zero_of_lt hp) (Nat.sub_ne_zero_of_lt hq)
  have hordercount : count ((p - 1) * (q - 1)) ≤ 64 :=
    (count_mono (Nat.mul_le_mul (Nat.sub_le p 1) (Nat.sub_le q 1))).trans hcount
  have hecount : count e.toNat ≤ 1 :=
    Limbs.count_le_iff.mpr (e.toNat_lt.trans_le (by decide))
  obtain ⟨p', hp'eq, hp'⟩ := LawfulArithmetic.sub_returns hx hone hpcount hp.le
  obtain ⟨q', hq'eq, hq'⟩ := LawfulArithmetic.sub_returns hy hone hqcount hq.le
  obtain ⟨order, hordereq, horder'⟩ := LawfulArithmetic.mul_returns hp' hq'
    ((count_mono (Nat.sub_le p 1)).trans hpcount) ((count_mono (Nat.sub_le q 1)).trans hqcount)
  have hinverse : Refines _ _ _ (Exact.unlessZero _ fun _ => Exact.modInverse e.toNat _) :=
    LawfulArithmetic.modInverse he horder'
  rw [Exact.unlessZero_of_ne horder] at hinverse
  rw [privateExponent, hp'eq, hq'eq]
  simp only [bind, Except.bind, hordereq]
  refine (hinverse.under fun _ => ⟨by omega, by omega⟩).bind_ok fun o ho => ?_
  generalize Exact.modInverse e.toNat ((p - 1) * (q - 1)) = inverse at ho ⊢
  cases ho with
  | none => exact .refused _
  | some hd => exact .ok hd

variable {key : PublicKey} {prime : Bytes}

/-- The guards on a division let exactly the proper factors pass. -/
theorem guards_eq_false_iff {x q r : α} {n p : Nat} (hx : Denotes x p) (hq : Denotes q (n / p))
    (hr : Denotes r (n % p)) (hn : 0 < n) (hp : p ≠ 0) :
    (!Arithmetic.isZero r || Arithmetic.eqWord q 1 || Arithmetic.eqWord x 1) = false ↔
      ProperFactor p n := by
  have hone : ∀ {y : α} {k : Nat}, Denotes y k → Arithmetic.eqWord y 1 = decide (k = 1) :=
    fun hy => LawfulArithmetic.eq hy (LawfulArithmetic.ofWord 1)
  rw [hone hq, hone hx, LawfulArithmetic.isZero hr, Bool.or_eq_false_iff, Bool.or_eq_false_iff,
    Bool.not_eq_false', beq_iff_eq, decide_eq_false_iff_not, decide_eq_false_iff_not,
    ← Nat.dvd_iff_mod_eq_zero]
  constructor
  · rintro ⟨⟨hdvd, hcofactor⟩, hone⟩
    refine ⟨hdvd, by omega, lt_of_le_of_ne (Nat.le_of_dvd hn hdvd) ?_⟩
    rintro rfl
    exact hcofactor (Nat.div_self hn)
  · rintro ⟨hdvd, hlt, hproper⟩
    refine ⟨⟨hdvd, fun hcofactor => ?_⟩, by omega⟩
    have := Nat.mul_div_cancel' hdvd
    rw [hcofactor] at this
    omega

/-- The parts are the cofactor of a proper factor and the inverse modulo the order it gives. -/
theorem deriveParts_refines (h : ProperFactor (toNat prime) (toNat key.modulus)) :
    Refines True Eq (deriveParts α key prime)
      (match Exact.modInverse key.exponent.toNat
          ((toNat prime - 1) * (toNat key.modulus / toNat prime - 1)) with
        | some d => .ok ⟨Bytes.ofNat (toNat key.modulus / toNat prime), Bytes.ofNat d⟩
        | none => .error (.key "exponent is not invertible")) := by
  have hn := LawfulArithmetic.ofBytes (α := α) key.modulus
  have hp := LawfulArithmetic.ofBytes (α := α) prime
  have hcount := key.count_modulus_le
  obtain ⟨⟨q, r⟩, hdivision, hq, hr⟩ := LawfulArithmetic.divRem_returns hn hp hcount
    ((count_mono h.lt.le).trans hcount) (Nat.ne_zero_of_lt h.one_lt)
  have hnonzero : Arithmetic.isZero (Arithmetic.ofBytes prime : α) = false := by
    rw [LawfulArithmetic.isZero hp, beq_eq_false_iff_ne]
    exact Nat.ne_zero_of_lt h.one_lt
  have hguards := (guards_eq_false_iff hp hq hr (Nat.zero_lt_of_lt h.lt)
    (Nat.ne_zero_of_lt h.one_lt)).mpr h
  rw [← Nat.mul_div_cancel' h.dvd] at hcount
  have hexponent := privateExponent_refines hp hq h.one_lt h.one_lt_cofactor hcount key.exponent
  rw [deriveParts]
  simp only [hnonzero, Bool.not_false, Require.parameter, if_true, hdivision, hguards, bind,
    Except.bind, Bool.false_eq_true, if_false]
  generalize Exact.modInverse key.exponent.toNat _ = inverse at hexponent ⊢
  cases inverse with
  | none => exact hexponent.bind_error
  | some d =>
      refine hexponent.bind_ok fun y hy => .ok ?_
      rw [LawfulArithmetic.toBytes hq, LawfulArithmetic.toBytes hy]

/-- Nothing is derived for a number that is not a proper factor of the modulus. -/
theorem deriveParts_refused (h : ¬ProperFactor (toNat prime) (toNat key.modulus)) :
    ∃ e, deriveParts α key prime = .error e := by
  have hn := LawfulArithmetic.ofBytes (α := α) key.modulus
  have hp := LawfulArithmetic.ofBytes (α := α) prime
  have hodd := key.toNat_modulus_odd
  by_cases hzero : toNat prime = 0
  · refine ⟨.parameter "p" "must be non-zero", ?_⟩
    rw [deriveParts, LawfulArithmetic.isZero hp, hzero]
    rfl
  -- the division may run out of room, as nothing bounds the number
  have hrefines : Refines False Eq (deriveParts α key prime)
      (.error (.key "prime does not divide the modulus")) := by
    have hdivision : Refines _ _ _ (Exact.unlessZero (toNat prime) fun _ =>
        (toNat key.modulus / toNat prime, toNat key.modulus % toNat prime)) :=
      LawfulArithmetic.divRem hn hp
    rw [Exact.unlessZero_of_ne hzero] at hdivision
    rw [deriveParts, LawfulArithmetic.isZero hp, beq_eq_false_iff_ne.mpr hzero]
    show Refines False Eq (Arithmetic.divRem _ _ >>= _) _
    refine (hdivision.under False.elim).bind_ok fun division ⟨hq, hr⟩ => ?_
    have hguards := mt (guards_eq_false_iff hp hq hr (by omega) hzero).mp h
    rw [Bool.not_eq_false] at hguards
    dsimp only
    rw [if_pos hguards]
    exact .refused _
  cases hresult : deriveParts α key prime with
  | error e => exact ⟨e, rfl⟩
  | ok parts =>
      rw [hresult] at hrefines
      cases hrefines

/-- Derived parts are the ones that the key determines. -/
theorem determines_of_deriveParts {parts : DerivedParts}
    (h : deriveParts α key prime = .ok parts) :
    (CacheKey.of prime key.modulus key.exponent).Determines parts := by
  by_cases hfactor : ProperFactor (toNat prime) (toNat key.modulus)
  case neg =>
    obtain ⟨e, he⟩ := deriveParts_refused (α := α) hfactor
    rw [h] at he
    cases he
  case pos =>
    have hrefines := deriveParts_refines (α := α) hfactor
    rw [h] at hrefines
    obtain ⟨w, hw, rfl⟩ := hrefines.of_ok
    split at hw
    case h_1 d hd =>
      cases hw
      exact CacheKey.of_determines hfactor hd
    case h_2 => cases hw

/-- Parts that the key determines are derived. -/
theorem deriveParts_of_determines {parts : DerivedParts}
    (h : (CacheKey.of prime key.modulus key.exponent).Determines parts) :
    deriveParts α key prime = .ok parts := by
  obtain ⟨hfactor, hcoprime⟩ := CacheKey.exists_determines_iff.mp ⟨parts, h⟩
  obtain ⟨d, hd⟩ := Option.isSome_iff_exists.mp ((Exact.modInverse_isSome _ _).mpr hcoprime)
  have hrefines := deriveParts_refines (α := α) hfactor
  rw [hd] at hrefines
  obtain ⟨derived, hderived, -⟩ := hrefines.returns trivial
  rw [hderived, (determines_of_deriveParts hderived).unique h]

/-- Parts that multiply to the modulus make up a private key. -/
theorem PrivateKey.ofParts?_of_mul_eq {q : Bytes} (d : Bytes)
    (h : toNat prime * toNat q = toNat key.modulus) :
    PrivateKey.ofParts? α key prime q d
      = .ok ⟨key, prime.stripZeros, q.stripZeros, d.stripZeros⟩ := by
  have hcount := key.count_modulus_le
  have hpos : 0 < toNat prime * toNat q := by
    have := key.toNat_modulus_odd
    omega
  rw [← h] at hcount
  obtain ⟨product, hproduct, hvalue⟩ := LawfulArithmetic.mul_returns
    (LawfulArithmetic.ofBytes (α := α) prime) (LawfulArithmetic.ofBytes (α := α) q)
    ((count_mono (Nat.le_mul_of_pos_right _ (Nat.pos_of_mul_pos_left hpos))).trans hcount)
    ((count_mono (Nat.le_mul_of_pos_left _ (Nat.pos_of_mul_pos_right hpos))).trans hcount)
  rw [h] at hvalue
  have hequal : Arithmetic.eq product (Arithmetic.ofBytes key.modulus) = true := by
    rw [LawfulArithmetic.eq hvalue (LawfulArithmetic.ofBytes key.modulus)]
    exact decide_eq_true rfl
  rw [PrivateKey.ofParts?, hproduct]
  show (if Arithmetic.eq product _ = true then _ else _) = _
  rw [if_pos hequal]
  rfl

/-- Parts that the key determines make up a private key. -/
theorem PrivateKey.ofParts?_of_determines {parts : DerivedParts}
    (h : (CacheKey.of prime key.modulus key.exponent).Determines parts) :
    PrivateKey.ofParts? α key prime parts.cofactor parts.privateExponent
      = .ok ⟨key, prime.stripZeros, parts.cofactor, parts.privateExponent⟩ := by
  have hmul := h.mul_eq
  simp only [CacheKey.of, Bytes.toNat_stripZeros] at hmul
  rw [ofParts?_of_mul_eq _ hmul, h.cofactor_stripped, h.privateExponent_stripped]

end Deriving

/-! ### Caches of recovered keys -/

/-- Every entry of the cache holds the parts that its key determines. -/
def ExponentCache.Genuine (cache : ExponentCache) : Prop :=
  ∃ map : LruMap, map.WellFormed ∧ cache.Represents map ∧
    ∀ item ∈ map.items, item.1.Determines item.2

namespace ExponentCache.Genuine

variable {cache : ExponentCache} {key : CacheKey} {parts : DerivedParts}

/-- An empty cache has no entry. -/
theorem withCapacity (size : Nat) : (ExponentCache.withCapacity size).Genuine :=
  ⟨_, LruMap.wellFormed_withCapacity (by omega), represents_withCapacity size, by
    simp [LruMap.withCapacity]⟩

/-- Looking for a key adds no entry. -/
theorem find (h : cache.Genuine) (key : CacheKey) : (cache.find key).2.Genuine := by
  obtain ⟨map, hwell, hrepresents, hitems⟩ := h
  exact ⟨_, hwell.find key, (hrepresents.find hwell key).2, fun item hmem =>
    hitems item (LruMap.mem_of_mem_find hmem)⟩

/-- Parts that their key determines may be added. -/
theorem add (h : cache.Genuine) (hparts : key.Determines parts) :
    (cache.add key parts).Genuine := by
  obtain ⟨map, hwell, hrepresents, hitems⟩ := h
  refine ⟨_, hwell.add key parts, hrepresents.add hwell key parts, fun item hmem => ?_⟩
  rcases LruMap.mem_of_mem_add hmem with rfl | hold
  · exact hparts
  · exact hitems item hold

/-- A cleared cache has no entry. -/
theorem clear (h : cache.Genuine) : cache.clear.Genuine := by
  obtain ⟨map, hwell, hrepresents, -⟩ := h
  exact ⟨map.clear, ⟨List.nodup_nil, Nat.zero_le _, hwell.capacity_pos⟩,
    ⟨hrepresents.capacity, List.Perm.refl _⟩, by simp [LruMap.clear]⟩

/-- What is found for a key is what the key determines, and is found again. -/
theorem determines_of_find (h : cache.Genuine) (hfound : (cache.find key).1 = some parts) :
    key.Determines parts ∧ ((cache.find key).2.find key).1 = some parts := by
  obtain ⟨map, hwell, hrepresents, hitems⟩ := h
  obtain ⟨hfind, hafter⟩ := hrepresents.find hwell key
  obtain ⟨hmem, rest, hfirst⟩ := LruMap.exists_of_find_eq_some (hfind ▸ hfound)
  refine ⟨hitems _ hmem, ?_⟩
  rw [(hafter.find (hwell.find key) key).1, LruMap.find_of_items_eq hfirst]

/-- What was added for a key is found. -/
theorem find_add (h : cache.Genuine) (key : CacheKey) (parts : DerivedParts) :
    ((cache.add key parts).find key).1 = some parts := by
  obtain ⟨map, hwell, hrepresents, -⟩ := h
  rw [((hrepresents.add hwell key parts).find (hwell.add key parts) key).1,
    LruMap.find_of_items_eq rfl]

end ExponentCache.Genuine

namespace PrivateKey

/-- The caches that recovering keys and clearing lead to, in whatever arithmetic each key is
recovered. -/
inductive Reached : ExponentCache → Prop where
  | empty (size : Nat) : Reached (.withCapacity size)
  | ofPrime {α : Type} [Arithmetic α] [LawfulArithmetic α] {cache : ExponentCache} (key : PublicKey)
      (prime : Bytes) (h : Reached cache) : Reached (PrivateKey.ofPrime α cache key prime).2
  | clear {cache : ExponentCache} (h : Reached cache) : Reached cache.clear

section Recovering

variable {α : Type} [Arithmetic α] [LawfulArithmetic α]
variable {cache : ExponentCache} {key : PublicKey} {prime : Bytes}

/-- A key is recovered from its prime and the parts that belong to it. -/
def assemble (key : PublicKey) (prime : Bytes) (parts : DerivedParts) : PrivateKey :=
  ⟨key, prime.stripZeros, parts.cofactor, parts.privateExponent⟩

variable (α key prime) in
/-- What the cache holds for a prime makes up the key that would be derived; otherwise it is derived
and its parts are added. -/
theorem ofPrime_cases (h : cache.Genuine) :
    (∃ parts, (CacheKey.of prime key.modulus key.exponent).Determines parts ∧
      (PrivateKey.ofPrime α cache key prime).1 = .ok (assemble key prime parts) ∧
      (PrivateKey.ofPrime α cache key prime).2.Genuine ∧
      ((PrivateKey.ofPrime α cache key prime).2.find (.of prime key.modulus key.exponent)).1
        = some parts) ∨
    (∃ e, deriveParts α key prime.stripZeros = .error e ∧
      PrivateKey.ofPrime α cache key prime = (.error e, cache)) := by
  rw [PrivateKey.ofPrime, CacheKey.of_stripZeros]
  split
  case h_1 after hmiss =>
    have hafter := ExponentCache.find_snd_of_none (congrArg Prod.fst hmiss)
    rw [hmiss] at hafter
    cases hafter
    rw [derive]
    split
    case h_1 e he => exact .inr ⟨e, he, rfl⟩
    case h_2 parts hparts =>
      have hdetermines := determines_of_deriveParts hparts
      rw [CacheKey.of_stripZeros] at hdetermines ⊢
      exact .inl ⟨parts, hdetermines, rfl, h.add hdetermines, h.find_add _ parts⟩
  case h_2 parts after hhit =>
    have hfound := h.determines_of_find (congrArg Prod.fst hhit)
    have hafter := h.find (.of prime key.modulus key.exponent)
    rw [hhit] at hfound hafter
    have hstripped := hfound.1
    rw [← CacheKey.of_stripZeros] at hstripped
    rw [ofParts?_of_determines (α := α) hstripped, Bytes.stripZeros_stripZeros]
    exact .inl ⟨parts, hfound.1, rfl, hafter, hfound.2⟩

omit [Arithmetic α] [LawfulArithmetic α] in
/-- A cache that recovering leads to holds for every key the parts that it determines. -/
theorem Reached.genuine (h : Reached cache) : cache.Genuine := by
  induction h with
  | empty size => exact .withCapacity size
  | clear h ih => exact ih.clear
  | @ofPrime β _ _ cache key prime h ih =>
      obtain ⟨parts, -, -, hgenuine, -⟩ | ⟨e, -, hsame⟩ := ofPrime_cases β _ _ ih
      · exact hgenuine
      · rw [hsame]
        exact ih

/-- A private key that belongs to a public key and a prime: two factors of the modulus, neither of
them one, and the inverse of the exponent modulo the order they give. -/
structure RecoveredFrom (key : PublicKey) (prime : Bytes) (found : PrivateKey) : Prop where
  publicKey_eq : found.publicKey = key
  p_eq : toNat found.p = toNat prime
  one_lt_p : 1 < toNat found.p
  one_lt_q : 1 < toNat found.q
  mul_eq : toNat found.p * toNat found.q = toNat key.modulus
  inverse : key.exponent.toNat * toNat found.d ≡ 1 [MOD (toNat found.p - 1) * (toNat found.q - 1)]
  d_lt : toNat found.d < (toNat found.p - 1) * (toNat found.q - 1)
  p_stripped : found.p.stripZeros = found.p
  q_stripped : found.q.stripZeros = found.q
  d_stripped : found.d.stripZeros = found.d

/-- Parts that a prime determines make up a key that belongs to it. -/
theorem recoveredFrom_assemble {parts : DerivedParts}
    (h : (CacheKey.of prime key.modulus key.exponent).Determines parts) :
    (assemble key prime parts).RecoveredFrom key prime where
  publicKey_eq := rfl
  p_eq := Bytes.toNat_stripZeros prime
  one_lt_p := h.one_lt_prime
  one_lt_q := h.one_lt_cofactor
  mul_eq := h.mul_eq.trans (Bytes.toNat_stripZeros _)
  inverse := h.inverse
  d_lt := h.lt_order
  p_stripped := Bytes.stripZeros_stripZeros prime
  q_stripped := h.cofactor_stripped
  d_stripped := h.privateExponent_stripped

variable (α cache key prime) in
/-- Recovering gives a key exactly for the proper factors of the modulus for which the exponent is
invertible; the key belongs to the factor, is in the cache afterwards, and does not depend on what
was in the cache before; when there is none, the cache is as it was. -/
structure Recovers : Prop where
  returns_iff : (∃ found, (PrivateKey.ofPrime α cache key prime).1 = .ok found) ↔
    toNat prime ∣ toNat key.modulus ∧ 1 < toNat prime ∧ toNat prime < toNat key.modulus ∧
      key.exponent.toNat.Coprime ((toNat prime - 1) * (toNat key.modulus / toNat prime - 1))
  sound : ∀ found, (PrivateKey.ofPrime α cache key prime).1 = .ok found →
    found.RecoveredFrom key prime
  cached : ∀ found, (PrivateKey.ofPrime α cache key prime).1 = .ok found →
    ((PrivateKey.ofPrime α cache key prime).2.find (.of prime key.modulus key.exponent)).1
      = some ⟨found.q, found.d⟩
  eq_of_reached : ∀ other, Reached other →
    (PrivateKey.ofPrime α cache key prime).1 = (PrivateKey.ofPrime α other key prime).1
  unchanged : ∀ e, (PrivateKey.ofPrime α cache key prime).1 = .error e →
    (PrivateKey.ofPrime α cache key prime).2 = cache

/-- Whatever the cache holds, the outcome is the one of deriving the parts anew. -/
theorem ofPrime_fst (h : cache.Genuine) : (PrivateKey.ofPrime α cache key prime).1
    = (deriveParts α key prime.stripZeros).map (assemble key prime) := by
  obtain ⟨parts, hparts, hok, -⟩ | ⟨e, he, hsame⟩ :=
    ofPrime_cases α key prime h
  · rw [← CacheKey.of_stripZeros] at hparts
    rw [hok, deriveParts_of_determines hparts]
    rfl
  · rw [hsame, he]
    rfl

/-- The keys that are recovered are those of the parts that the prime determines. -/
theorem ofPrime_eq_ok_iff (h : cache.Genuine) {found : PrivateKey} :
    (PrivateKey.ofPrime α cache key prime).1 = .ok found ↔
      ∃ parts, (CacheKey.of prime key.modulus key.exponent).Determines parts ∧
        assemble key prime parts = found := by
  rw [ofPrime_fst h, ← CacheKey.of_stripZeros]
  constructor
  · intro hfound
    cases hparts : deriveParts α key prime.stripZeros with
    | error e =>
        rw [hparts] at hfound
        cases hfound
    | ok parts =>
        rw [hparts] at hfound
        cases hfound
        exact ⟨parts, determines_of_deriveParts hparts, rfl⟩
  · rintro ⟨parts, hparts, rfl⟩
    rw [deriveParts_of_determines hparts]
    rfl

/-- From every cache that recovering leads to, and for every public key and every byte string, a
private key is recovered where there is one. -/
theorem Reached.recovers (h : Reached cache) (key : PublicKey) (prime : Bytes) :
    Recovers α cache key prime := by
  have hgenuine := h.genuine
  constructor
  case returns_iff =>
    simp only [ofPrime_eq_ok_iff hgenuine]
    constructor
    · rintro ⟨found, parts, hparts, -⟩
      obtain ⟨hfactor, hcoprime⟩ := CacheKey.exists_determines_iff.mp ⟨parts, hparts⟩
      exact ⟨hfactor.dvd, hfactor.one_lt, hfactor.lt, hcoprime⟩
    · rintro ⟨hdvd, hone, hlt, hcoprime⟩
      obtain ⟨parts, hparts⟩ := CacheKey.exists_determines_iff.mpr ⟨⟨hdvd, hone, hlt⟩, hcoprime⟩
      exact ⟨_, parts, hparts, rfl⟩
  case sound =>
    intro found hfound
    obtain ⟨parts, hparts, rfl⟩ := (ofPrime_eq_ok_iff hgenuine).mp hfound
    exact recoveredFrom_assemble hparts
  case cached =>
    intro found hfound
    obtain ⟨parts, -, hok, -, hcached⟩ | ⟨e, -, hsame⟩ :=
      ofPrime_cases α key prime hgenuine
    · rw [hok] at hfound
      cases hfound
      exact hcached
    · rw [hsame] at hfound
      cases hfound
  case eq_of_reached =>
    intro other hother
    rw [ofPrime_fst hgenuine, ofPrime_fst hother.genuine]
  case unchanged =>
    intro e he
    obtain ⟨parts, -, hok, -⟩ | ⟨e, -, hsame⟩ :=
      ofPrime_cases α key prime hgenuine
    · rw [hok] at he
      cases he
    · rw [hsame]

end Recovering

/-- The key of 648 bits is recovered from its first prime, with a leading zero, when it is in the
cache already. -/
theorem Reached.recovers_mersenne :
    let cache := (PrivateKey.ofPrime FixedNat .empty mersenneKey.publicKey mersenneKey.p).2
    Reached cache ∧ ∃ found,
      (PrivateKey.ofPrime FixedNat cache mersenneKey.publicKey (0 :: mersenneKey.p)).1 = .ok found ∧
        found.RecoveredFrom mersenneKey.publicKey (0 :: mersenneKey.p) := by
  intro cache
  have hcache : Reached cache := .ofPrime mersenneKey.publicKey mersenneKey.p (.empty _)
  have hrecovers := hcache.recovers (α := FixedNat) mersenneKey.publicKey (0 :: mersenneKey.p)
  obtain ⟨found, hfound⟩ := hrecovers.returns_iff.mpr
    ⟨by decide +kernel, by decide +kernel, by decide +kernel, by decide +kernel⟩
  exact ⟨hcache, found, hfound, hrecovers.sound found hfound⟩

end PrivateKey

end TrustedPlatform.Rsa
