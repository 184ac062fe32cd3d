import TrustedPlatform.Proofs.Rsa.Padding
import TrustedPlatform.Proofs.Rsa.PrivateKey
import TrustedPlatform.Rsa.Scheme

/-!
# Decryption undoes encryption

A message is encrypted when it is short enough for the padding, and without a padding when it is
below the modulus; every ciphertext is as long as the modulus, and the message is decrypted from it.
The main theorem is `PrivateKey.Consistent.roundTrip`. The private exponent of the key may be larger
than the order of the unit group; arithmetic in buffers has the room to reduce it as long as it fits
the scratch area, and fails fatally beyond.
-/

namespace TrustedPlatform.Rsa

open Bytes (toNat)
open FixedNat (scratchLimbs)
open LawfulArithmetic (RoomToReduce)
open Limbs (count)

/-! ### What is to be shown -/

/-- The messages that are encrypted under a scheme. -/
def Admits (key : PublicKey) (scheme : AlgorithmId) (h : Hash) (message : Bytes) : Prop :=
  if scheme = .oaep then
    2 * h.size + 2 ≤ key.size ∧ message.length ≤ key.size - (2 * h.size + 2)
  else if scheme = .rsaes then message.length ≤ key.size - 11
  else scheme = .null ∧ message.length ≤ key.size ∧ toNat message < toNat key.modulus

instance (key : PublicKey) (scheme : AlgorithmId) (h : Hash) (message : Bytes) :
    Decidable (Admits key scheme h message) :=
  inferInstanceAs (Decidable (if scheme = .oaep then _ else if scheme = .rsaes then _ else _))

/-- What a ciphertext of a message is decrypted to: without a padding, the zeros that fill the block
cannot be told from the message. -/
def recovered (key : PublicKey) (scheme : AlgorithmId) (message : Bytes) : Bytes :=
  if scheme = .null then message.padLeft key.size else message

variable {α : Type} [Arithmetic α] {σ : Type} [RandomSource σ] {I : σ → Prop}

variable (α I) in
/-- Encryption gives a ciphertext of exactly the messages that the scheme admits, whatever was
drawn, and from each ciphertext the message is decrypted. -/
structure RoundTrip (key : PrivateKey) (scheme : AlgorithmId) (h : Hash) (label message : Bytes) :
    Prop where
  settles : Admits key.publicKey scheme h message → Randomized.Settles I fun retries =>
    (encrypt α retries key.publicKey scheme h label message : Randomized σ Bytes)
  yields : ∀ retries, (encrypt α retries key.publicKey scheme h label message :
      Randomized σ Bytes).Yields fun ciphertext =>
    Admits key.publicKey scheme h message ∧ ciphertext.length = key.publicKey.size ∧
    decrypt α key scheme h label ciphertext = .ok (recovered key.publicKey scheme message)

/-! ### Blocks -/

/-- The block of a message, to which the public primitive is applied. -/
def writeBlock (retries : Nat) (key : PublicKey) (scheme : AlgorithmId) (h : Hash)
    (label message : Bytes) : Randomized σ Bytes :=
  if scheme = .oaep then Oaep.encode h label message key.size
  else if scheme = .rsaes then Pkcs1.encodeMessage retries message key.size
  else if scheme = .null then liftM (encodeRaw message key.size)
  else throw (.scheme "RSA encryption")

/-- The message of a block that the private primitive has given. -/
def readBlock (scheme : AlgorithmId) (h : Hash) (label encoded : Bytes) : Checked Bytes :=
  if scheme = .oaep then Oaep.decode h label encoded
  else if scheme = .rsaes then Pkcs1.decodeMessage encoded
  else if scheme = .null then .ok encoded
  else .error (.scheme "RSA decryption")

variable (α) in
/-- Encryption applies the public primitive to the block of the message. -/
theorem encrypt_eq (retries : Nat) (key : PublicKey) (scheme : AlgorithmId) (h : Hash)
    (label message : Bytes) :
    (encrypt α retries key scheme h label message : Randomized σ Bytes) =
      writeBlock retries key scheme h label message >>= fun encoded =>
        liftM (publicOp α key encoded) := by
  unfold encrypt writeBlock
  split_ifs <;> rfl

/-- Decryption reads the message of the block that the private primitive gives. -/
theorem decrypt_eq {key : PrivateKey} {ciphertext encoded : Bytes}
    (hlen : ciphertext.length = key.publicKey.size)
    (hop : privateOp α key ciphertext = .ok encoded) (scheme : AlgorithmId) (h : Hash)
    (label : Bytes) :
    decrypt α key scheme h label ciphertext = readBlock scheme h label encoded := by
  unfold decrypt readBlock
  rw [Require.length, if_pos hlen, hop]
  rfl

/-- A message that is not longer than the block is filled up with zeros. -/
theorem encodeRaw_eq {message : Bytes} {k : Nat} (hlen : message.length ≤ k) :
    encodeRaw message k = .ok (message.padLeft k) := by
  rw [encodeRaw, Require.maxLength, if_pos hlen]
  rfl

omit [RandomSource σ] in
/-- A block without a padding is the message, filled up with zeros. -/
theorem encodeRaw_yields (message : Bytes) (k : Nat) :
    (liftM (encodeRaw message k) : Randomized σ Bytes).Yields fun encoded =>
      message.length ≤ k ∧ encoded = message.padLeft k := by
  rw [encodeRaw, liftM_bind]
  exact (Randomized.Yields.maxLength _ _ _).bind fun _ hlen => .pure ⟨hlen, rfl⟩

/-- Every block is as long as the modulus; it is below the modulus exactly when the message is one
to be encrypted; and the message is read back from it. -/
theorem writeBlock_yields (retries : Nat) (key : PublicKey) (scheme : AlgorithmId) (h : Hash)
    (label message : Bytes) :
    (writeBlock retries key scheme h label message : Randomized σ Bytes).Yields fun encoded =>
      encoded.length = key.size ∧
      (Admits key scheme h message ↔ toNat encoded < toNat key.modulus) ∧
      readBlock scheme h label encoded = .ok (recovered key scheme message) := by
  refine .ite (fun hoaep => ?_) fun hoaep => .ite (fun hrsaes => ?_) fun hrsaes =>
    .ite (fun hnull => ?_) fun _ => .throw _
  · subst hoaep
    refine (Oaep.encode_yields h label message key.size).mono fun encoded hencoded => ?_
    obtain ⟨hadmits, ⟨hhead, hlen⟩, hread⟩ := hencoded
    exact ⟨hlen, iff_of_true hadmits (key.toNat_lt_of_head? hhead hlen), hread⟩
  · subst hrsaes
    refine (Pkcs1.encodeMessage_yields retries message key.size).mono fun encoded hencoded => ?_
    obtain ⟨hadmits, ⟨hhead, hlen⟩, hread⟩ := hencoded
    exact ⟨hlen, iff_of_true hadmits.2 (key.toNat_lt_of_head? hhead hlen), hread⟩
  · subst hnull
    refine (encodeRaw_yields message key.size).mono fun encoded hencoded => ?_
    obtain ⟨hlen, rfl⟩ := hencoded
    refine ⟨Bytes.length_padLeft hlen, ?_, rfl⟩
    rw [Bytes.toNat_padLeft]
    exact ⟨fun hadmits => hadmits.2.2, fun hlt => ⟨rfl, hlen, hlt⟩⟩

/-- A block is given for every message to be encrypted. -/
theorem writeBlock_settles {key : PublicKey} {scheme : AlgorithmId} {h : Hash} {message : Bytes}
    (hI : RandomSource.Reliable I) (hredraw : scheme = .rsaes → ∀ s, I s → YieldsNonzero s)
    (hadmits : Admits key scheme h message) (label : Bytes) :
    Randomized.Settles I fun retries =>
      (writeBlock retries key scheme h label message : Randomized σ Bytes) := by
  unfold Admits at hadmits
  unfold writeBlock
  split_ifs at hadmits ⊢ with hoaep hrsaes hnull
  · exact Oaep.encode_settles hI hadmits.1 hadmits.2
  · have hk : 11 ≤ key.size := le_trans (by decide) key.le_size
    exact Pkcs1.encodeMessage_settles hI (hredraw hrsaes) hk hadmits
  · exact .lift (encodeRaw_eq hadmits.2.1)
  · exact absurd hadmits.1 hnull

/-! ### The round trip -/

variable [LawfulArithmetic α] {key : PrivateKey}

/-- A block that the public primitive accepts is below the modulus, and the private primitive gives
it back. -/
theorem PrivateKey.Consistent.privateOp_of_publicOp (hkey : key.Consistent)
    (hroom : RoomToReduce α (toNat key.d)) {encoded ciphertext : Bytes}
    (hlen : encoded.length = key.publicKey.size)
    (hop : publicOp α key.publicKey encoded = .ok ciphertext) :
    toNat encoded < toNat key.publicKey.modulus ∧ ciphertext.length = key.publicKey.size ∧
      privateOp α key ciphertext = .ok encoded := by
  obtain ⟨hsize, hbelow, hpower⟩ := hkey.publicOp_eq_ok_iff.mp ⟨hlen, hop⟩
  refine ⟨lt_of_publicOp_eq_ok hop, hsize, ?_⟩
  rw [hkey.privateOp_eq hroom hbelow, hpower, PrivateKey.power]

/-- Decryption undoes encryption in an arithmetic with room to reduce the private exponent. -/
theorem PrivateKey.Consistent.roundTrip_of_room (hkey : key.Consistent)
    (hroom : RoomToReduce α (toNat key.d)) {scheme : AlgorithmId} (hI : RandomSource.Reliable I)
    (hredraw : scheme = .rsaes → ∀ s, I s → YieldsNonzero s) (h : Hash) (label message : Bytes) :
    RoundTrip α I key scheme h label message where
  settles hadmits := by
    simp only [encrypt_eq]
    refine (writeBlock_settles hI hredraw hadmits label).bind_of_yields
      (fun retries => writeBlock_yields retries _ _ _ _ _) fun encoded hencoded => ?_
    exact .lift (publicOp_eq (hencoded.2.1.mp hadmits))
  yields retries := by
    rw [encrypt_eq]
    refine (writeBlock_yields retries _ _ _ _ _).bind fun encoded hencoded => ?_
    obtain ⟨hlen, hadmits, hread⟩ := hencoded
    refine .lift fun ciphertext hop => ?_
    obtain ⟨hlt, hsize, hprivate⟩ := hkey.privateOp_of_publicOp hroom hlen hop
    exact ⟨hadmits.mpr hlt, hsize, (decrypt_eq hsize hprivate _ _ _).trans hread⟩

/-- Decryption undoes encryption: for every key whose parts belong together, every scheme and every
reliable source, whose bytes are at last not zero where zeros are drawn again. Arithmetic in buffers
asks that the private exponent fit the scratch area. -/
theorem PrivateKey.Consistent.roundTrip {key : PrivateKey} (hkey : key.Consistent)
    {scheme : AlgorithmId} (hI : RandomSource.Reliable I)
    (hredraw : scheme = .rsaes → ∀ s, I s → YieldsNonzero s) (h : Hash) (label message : Bytes) :
    (key.d.bitLength ≤ 64 * scratchLimbs → RoundTrip FixedNat I key scheme h label message) ∧
    RoundTrip Nat I key scheme h label message := by
  refine ⟨fun hd => ?_, ?_⟩
  · exact hkey.roundTrip_of_room (roomToReduce_of_bitLength hd) hI hredraw h label message
  · exact hkey.roundTrip_of_room (LawfulArithmetic.roomToReduce_exact _) hI hredraw h label message

/-- The second prime of a key of 648 bits is encrypted with drawn bytes that are all seven, and it
is decrypted again in both arithmetics. -/
theorem PrivateKey.Consistent.roundTrip_mersenne :
    mersenneKey.Consistent ∧ mersenneKey.d.bitLength ≤ 64 * scratchLimbs ∧
    RandomSource.Reliable (ByteStream.IsConstant 7) ∧
    (∀ s, ByteStream.IsConstant 7 s → YieldsNonzero s) ∧
    Admits mersenneKey.publicKey .rsaes HashAlgorithm.sha1.hash mersenneKey.q ∧
    RoundTrip FixedNat (ByteStream.IsConstant 7) mersenneKey .rsaes HashAlgorithm.sha1.hash []
      mersenneKey.q ∧
    RoundTrip Nat (ByteStream.IsConstant 7) mersenneKey .rsaes HashAlgorithm.sha1.hash []
      mersenneKey.q := by
  have hkey := mersenneKey_valid.consistent
  have hd : mersenneKey.d.bitLength ≤ 64 * scratchLimbs := by decide +kernel
  have hreliable := ByteStream.IsConstant.reliable 7
  have hredraw (s : ByteStream) (hs : s.IsConstant 7) : YieldsNonzero s :=
    .found (hs.fill_eq 1) (by decide)
  have hroundTrip := hkey.roundTrip hreliable
    (fun _ : AlgorithmId.rsaes = .rsaes => hredraw) HashAlgorithm.sha1.hash [] mersenneKey.q
  exact ⟨hkey, hd, hreliable, hredraw, by decide +kernel, hroundTrip.1 hd, hroundTrip.2⟩

/-! ### Private exponents beyond the scratch area -/

/-- The private primitive fails fatally in buffers when the private exponent does not fit the
scratch area. -/
theorem PrivateKey.Consistent.privateOp_exhausted {key : PrivateKey} (hkey : key.Consistent)
    (hd : scratchLimbs < count (toNat key.d)) {input : Bytes}
    (hlt : toNat input < toNat key.publicKey.modulus) :
    privateOp FixedNat key input = .error (.fatal .allocation) := by
  have hp := LawfulArithmetic.ofBytes (α := FixedNat) key.p
  have hexponent := LawfulArithmetic.ofBytes (α := FixedNat) key.d
  have hone : LawfulArithmetic.Denotes (Arithmetic.ofWord 1 : FixedNat) 1 :=
    LawfulArithmetic.ofWord 1
  have hple : toNat key.p ≤ toNat key.publicKey.modulus :=
    hkey.mul_eq ▸ Nat.le_mul_of_pos_right _ hkey.prime_q.pos
  have hthree := hkey.three_le_p
  obtain ⟨p', hsub, hp'⟩ := LawfulArithmetic.sub_returns hp hone
    ((Limbs.count_mono hple).trans key.publicKey.count_modulus_le) (by omega)
  obtain ⟨f, hop⟩ := privateOp_eq_bind_reduce hlt hsub
  rw [hop, LawfulArithmetic.reduce_exhausted hexponent hp' hd (by omega)]
  rfl

/-- Decryption of a ciphertext below the modulus then fails fatally under every scheme. -/
theorem PrivateKey.Consistent.decrypt_exhausted {key : PrivateKey} (hkey : key.Consistent)
    (hd : scratchLimbs < count (toNat key.d)) {ciphertext : Bytes}
    (hlen : ciphertext.length = key.publicKey.size)
    (hlt : toNat ciphertext < toNat key.publicKey.modulus) {scheme : AlgorithmId}
    (hscheme : scheme = .oaep ∨ scheme = .rsaes ∨ scheme = .null) (h : Hash) (label : Bytes) :
    decrypt FixedNat key scheme h label ciphertext = .error (.fatal .allocation) := by
  have hop := hkey.privateOp_exhausted hd hlt
  rw [decrypt, Require.length, if_pos hlen, hop]
  obtain rfl | rfl | rfl := hscheme <;> rfl

/-- The key with a multiple of the order of the unit group added to its private exponent. -/
def PrivateKey.lengthen (key : PrivateKey) (multiple : Nat) : PrivateKey :=
  { key with
    d := Bytes.ofNat (toNat key.d + (toNat key.p - 1) * (toNat key.q - 1) * multiple) }

/-- The larger exponent is inverse to the public one as well. -/
theorem PrivateKey.Consistent.lengthen {key : PrivateKey} (hkey : key.Consistent)
    (multiple : Nat) : (key.lengthen multiple).Consistent where
  prime_p := hkey.prime_p
  prime_q := hkey.prime_q
  ne := hkey.ne
  mul_eq := hkey.mul_eq
  inverse := by
    rw [PrivateKey.lengthen, Bytes.toNat_ofNat, Nat.mul_add, Nat.mul_left_comm]
    exact hkey.inverse.add (Nat.modEq_zero_iff_dvd.mpr (dvd_mul_right _ _))

/-- The larger exponent has more limbs than the multiple. -/
theorem PrivateKey.Consistent.lt_count_lengthen {key : PrivateKey} (hkey : key.Consistent)
    (limbs : Nat) : limbs < count (toNat (key.lengthen (UInt64.size ^ limbs)).d) := by
  rw [Limbs.lt_count_iff, PrivateKey.lengthen, Bytes.toNat_ofNat]
  exact (Nat.le_mul_of_pos_left _ (Nat.zero_lt_of_lt hkey.one_lt_order)).trans (Nat.le_add_left _ _)

/-- With a private exponent beyond the scratch area, a message is encrypted without a padding, and
its decryption in buffers fails fatally. -/
theorem PrivateKey.lengthen_exhausted :
    (mersenneKey.lengthen (UInt64.size ^ scratchLimbs)).Consistent ∧
    Admits mersenneKey.publicKey .null HashAlgorithm.sha1.hash [2] ∧
    ∃ ciphertext, (∀ s : ByteStream,
      (encrypt FixedNat 0 mersenneKey.publicKey .null HashAlgorithm.sha1.hash [] [2]).runFrom s =
        (.ok ciphertext, s)) ∧
      decrypt FixedNat (mersenneKey.lengthen (UInt64.size ^ scratchLimbs)) .null
        HashAlgorithm.sha1.hash [] ciphertext = .error (.fatal .allocation) := by
  have hkey := mersenneKey_valid.consistent
  have hadmits : Admits mersenneKey.publicKey .null HashAlgorithm.sha1.hash [2] := by
    decide +kernel
  have hlt : toNat (Bytes.padLeft mersenneKey.publicKey.size [2]) <
      toNat mersenneKey.publicKey.modulus := by
    rw [Bytes.toNat_padLeft]
    exact hadmits.2.2
  obtain ⟨ciphertext, hop, hlen, -, hbelow⟩ := publicOp_returns (α := FixedNat) hlt
  refine ⟨hkey.lengthen _, hadmits, ciphertext, fun s => ?_, ?_⟩
  · have hblock : (writeBlock 0 mersenneKey.publicKey .null HashAlgorithm.sha1.hash [] [2]).runFrom
        s = (.ok (Bytes.padLeft mersenneKey.publicKey.size [2]), s) := by
      show (encodeRaw [2] mersenneKey.publicKey.size, s) = _
      rw [encodeRaw_eq hadmits.2.1]
    rw [encrypt_eq, Randomized.runFrom_bind_ok hblock]
    show (publicOp FixedNat mersenneKey.publicKey _, s) = _
    rw [hop]
  · exact (hkey.lengthen _).decrypt_exhausted (hkey.lt_count_lengthen _) hlen hbelow
      (.inr (.inr rfl)) _ _

end TrustedPlatform.Rsa
