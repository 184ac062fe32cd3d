import TrustedPlatform.Proofs.Rsa.Encryption
import TrustedPlatform.Proofs.Rsa.Pss

/-!
# Signatures are accepted

Every signature that is returned is as long as the modulus and is accepted for the digest that was
signed. With PKCS #1 v1.5 padding nothing else is accepted: the byte strings of any length that pass
for a digest are the one that signing returns for it. The main theorem is
`PrivateKey.Consistent.signatures`. As for decryption, arithmetic in buffers signs only with private
exponents that fit its scratch area; a signature made in one arithmetic is accepted in every other.
-/

namespace TrustedPlatform.Rsa

open Bytes (toNat)
open FixedNat (scratchLimbs)
open LawfulArithmetic (RoomToReduce)
open Limbs (count)

/-! ### What is to be shown -/

section Statements

variable (α β σ : Type) [Arithmetic α] [Arithmetic β] [RandomSource σ]

/-- The signatures over a digest that are made in the arithmetic `β` are as long as the modulus and
accepted in the arithmetic `α`. -/
def SignaturesAccepted (key : PrivateKey) (h : Hash) (digest : Bytes) : Prop :=
  ∀ scheme, (sign β key scheme h digest : Randomized σ Bytes).Yields fun signature =>
    signature.length = key.publicKey.size ∧
    verify α key.publicKey scheme h digest signature = .ok ()

/-- With PKCS #1 v1.5 padding, the byte strings that are accepted in the arithmetic `α` are the one
that is returned in the arithmetic `β`, from every state of the source. There is one when the digest
has the size of the hash and fits the modulus with its identifier. -/
structure SignatureUnique (key : PrivateKey) (h : Hash) (digest : Bytes) : Prop where
  accepted_iff : ∀ (s : σ) signature,
    verify α key.publicKey .rsassa h digest signature = .ok () ↔
      (sign β key .rsassa h digest : Randomized σ Bytes).runFrom s = (.ok signature, s)
  exists_iff : (∃ signature, verify α key.publicKey .rsassa h digest signature = .ok ()) ↔
    digest.length = h.size ∧ (Pkcs1.digestInfo h.algorithm ++ digest).length + 11 ≤ key.publicKey.size

end Statements

/-! ### Blocks -/

namespace Pkcs1

variable {h : Hash} {digest : Bytes} {k : Nat}

/-- The block of `k` bytes with a digest and the identifier of its hash. -/
def digestBlock (h : Hash) (digest : Bytes) (k : Nat) : Bytes :=
  let content := digestInfo h.algorithm ++ digest
  0 :: 1 :: (List.replicate (k - content.length - 3) 0xff ++ 0 :: content)

/-- The digest has the size of its hash, and fits the block with its identifier. -/
def DigestFits (h : Hash) (digest : Bytes) (k : Nat) : Prop :=
  digest.length = h.size ∧ (digestInfo h.algorithm ++ digest).length + 11 ≤ k

/-- A digest that fits is encoded. -/
theorem encodeDigest_eq (hfits : DigestFits h digest k) :
    encodeDigest h digest k = .ok (digestBlock h digest k) := by
  rw [encodeDigest, Require.length, if_pos hfits.1]
  show (Require.parameter (decide ((digestInfo h.algorithm ++ digest).length + 11 ≤ k)) _ _ >>= _) =
    _
  rw [decide_eq_true hfits.2]
  rfl

/-- A digest that does not fit is refused. -/
theorem exists_error_of_not_fits (hfits : ¬DigestFits h digest k) :
    ∃ e, encodeDigest h digest k = .error e := by
  rw [encodeDigest, Require.length]
  by_cases hlen : digest.length = h.size
  · have hroom : ¬(digestInfo h.algorithm ++ digest).length + 11 ≤ k := fun hle => hfits ⟨hlen, hle⟩
    refine ⟨.parameter "modulus" "too small for this DigestInfo", ?_⟩
    rw [if_pos hlen]
    show (Require.parameter (decide ((digestInfo h.algorithm ++ digest).length + 11 ≤ k)) _ _ >>=
      _) = _
    rw [decide_eq_false hroom]
    rfl
  · rw [if_neg hlen]
    exact ⟨_, rfl⟩

/-- What is encoded is the block of a digest that fits. -/
theorem encodeDigest_eq_ok_iff {block : Bytes} :
    encodeDigest h digest k = .ok block ↔ DigestFits h digest k ∧ block = digestBlock h digest k := by
  by_cases hfits : DigestFits h digest k
  · rw [encodeDigest_eq hfits, Except.ok.injEq, eq_comm]
    exact (and_iff_right hfits).symm
  · obtain ⟨e, herror⟩ := exists_error_of_not_fits hfits
    rw [herror]
    exact iff_of_false nofun fun h => hfits h.1

/-- The block fills its bytes. -/
theorem length_digestBlock (hfits : DigestFits h digest k) : (digestBlock h digest k).length = k := by
  have hroom := hfits.2
  simp only [digestBlock, List.length_cons, List.length_append, List.length_replicate] at hroom ⊢
  omega

end Pkcs1

/-- The modulus has the bits of the key. -/
theorem PublicKey.two_pow_le (key : PublicKey) : 2 ^ (key.bits - 1) ≤ toNat key.modulus := by
  have hbits : 512 ≤ key.bits := key.le_bitLength
  have hsize : key.bits = (toNat key.modulus).size := Bytes.bitLength_eq _
  rw [← Nat.lt_size]
  omega

/-- A byte string, as long as the modulus, that encodes a digest under a scheme. Under the
probabilistic one, the encoded digest stands behind the zeros that fill the block. -/
def EncodesDigest (key : PublicKey) (scheme : AlgorithmId) (h : Hash) (digest block : Bytes) : Prop :=
  if scheme = .rsassa then Pkcs1.encodeDigest h digest key.size = .ok block
  else if scheme = .rsapss then
    let lead := key.size - Pss.encodedLength key.bits
    (block.take lead).all (· == 0) = true ∧
      Pss.accepts h digest (block.drop lead) key.bits = true
  else False

/-- The encoding of a digest, to which the private primitive is applied. -/
def writeDigest {σ : Type} [RandomSource σ] (key : PublicKey) (scheme : AlgorithmId) (h : Hash)
    (digest : Bytes) : Randomized σ Bytes :=
  if scheme = .rsassa then liftM (Pkcs1.encodeDigest h digest key.size)
  else if scheme = .rsapss then Pss.encode h digest key.bits
  else throw (.scheme "RSA signing")

/-- The encoded digest is a byte shorter than the modulus at most. -/
theorem PublicKey.encodedLength_le (key : PublicKey) : Pss.encodedLength key.bits ≤ key.size := by
  show (key.bits - 1 + 7) / 8 ≤ (key.bits + 7) / 8
  omega

variable {σ : Type} [RandomSource σ]

/-- Every encoding is below the modulus, and it encodes the digest when it is written in as many
bytes as the modulus has. -/
theorem writeDigest_yields (key : PublicKey) (scheme : AlgorithmId) (h : Hash) (digest : Bytes) :
    (writeDigest key scheme h digest : Randomized σ Bytes).Yields fun encoded =>
      toNat encoded < toNat key.modulus ∧
      EncodesDigest key scheme h digest (Bytes.ofNatWidth key.size (toNat encoded)) := by
  unfold EncodesDigest
  refine .ite (fun hrsassa => ?_) fun hrsassa => .ite (fun hrsapss => ?_) fun _ => .throw _
  · subst hrsassa
    refine .lift fun block hblock => ?_
    obtain ⟨hfits, rfl⟩ := Pkcs1.encodeDigest_eq_ok_iff.mp hblock
    have hlen := Pkcs1.length_digestBlock hfits
    refine ⟨key.toNat_lt_of_head? rfl hlen, ?_⟩
    rwa [if_pos rfl, Bytes.ofNatWidth_of_length hlen]
  · subst hrsapss
    refine (Pss.encode_yields h digest key.bits).mono fun encoded hencoded => ?_
    obtain ⟨hlen, hbits, haccepts⟩ := hencoded
    have hlt := hbits.trans_le key.two_pow_le
    have hpad : Bytes.ofNatWidth key.size (toNat encoded) = encoded.padLeft key.size := by
      refine Bytes.eq_of_toNat_eq ?_ ?_
      · rw [Bytes.length_ofNatWidth, Bytes.length_padLeft (hlen ▸ key.encodedLength_le)]
      · rw [key.toNat_ofNatWidth_size hlt, Bytes.toNat_padLeft]
    have hlead : (List.replicate (key.size - encoded.length) (0 : UInt8)).length =
        key.size - Pss.encodedLength key.bits := by
      rw [List.length_replicate, hlen]
    refine ⟨hlt, ?_⟩
    rw [if_neg (by decide), if_pos rfl, hpad, Bytes.padLeft]
    refine ⟨?_, ?_⟩
    · rw [List.take_left' hlead]
      simp
    · rwa [List.drop_left' hlead]

variable (α : Type) [Arithmetic α]

/-- A signature is the private primitive of an encoding. -/
theorem sign_eq (key : PrivateKey) (scheme : AlgorithmId) (h : Hash) (digest : Bytes) :
    (sign α key scheme h digest : Randomized σ Bytes) =
      writeDigest key.publicKey scheme h digest >>= fun encoded =>
        liftM (privateOp α key encoded) := by
  unfold sign writeDigest
  split_ifs <;> rfl

variable {α}

/-- A byte string is recovered from when it is as long as the modulus and below it. -/
theorem recoverEncoded_eq_ok_iff {key : PublicKey} {algorithm : String} {signature block : Bytes} :
    recoverEncoded α key algorithm signature = .ok block ↔
      signature.length = key.size ∧ publicOp α key signature = .ok block := by
  rw [recoverEncoded, Require.signature]
  by_cases hlen : signature.length = key.size
  · rw [decide_eq_true hlen, and_iff_right hlen]
    cases publicOp α key signature with
    | ok encoded => exact Iff.rfl
    | error e =>
        refine iff_of_false (fun herror => ?_) (by rintro ⟨⟩)
        have hrefused : (if e.isFatal then throw e else throw (.signature algorithm) : Checked Bytes)
            = .ok block := herror
        split at hrefused <;> cases hrefused
  · rw [decide_eq_false hlen]
    exact iff_of_false (by rintro ⟨⟩) fun h => hlen h.1

/-- A check of a signature comes out true when its condition holds. -/
theorem signature_eq_ok_iff {ok : Bool} {algorithm : String} :
    Require.signature ok algorithm = .ok () ↔ ok = true := by
  cases ok
  · exact iff_of_false nofun nofun
  · exact iff_of_true rfl rfl

/-- A check is passed and leaves the rest to be done. -/
theorem signature_bind_eq_ok_iff {ok : Bool} {algorithm : String} {rest : Checked Unit} :
    (Require.signature ok algorithm >>= fun _ => rest) = .ok () ↔ ok = true ∧ rest = .ok () := by
  cases ok
  · exact iff_of_false nofun nofun
  · exact (and_iff_right rfl).symm

/-- A byte string is accepted as a signature when it is as long as the modulus and the public
primitive gives an encoding of the digest. -/
theorem verify_eq_ok_iff {key : PublicKey} {scheme : AlgorithmId} {h : Hash}
    {digest signature : Bytes} :
    verify α key scheme h digest signature = .ok () ↔ signature.length = key.size ∧
      ∃ block, publicOp α key signature = .ok block ∧ EncodesDigest key scheme h digest block := by
  have hrecover {algorithm : String} {rest : Bytes → Checked Unit} :
      (recoverEncoded α key algorithm signature >>= rest) = .ok () ↔ signature.length = key.size ∧
        ∃ block, publicOp α key signature = .ok block ∧ rest block = .ok () := by
    constructor
    · intro hok
      obtain ⟨block, hblock, hrest⟩ := exists_of_bind_eq_ok hok
      obtain ⟨hlen, hop⟩ := recoverEncoded_eq_ok_iff.mp hblock
      exact ⟨hlen, block, hop, hrest⟩
    · rintro ⟨hlen, block, hop, hrest⟩
      rw [recoverEncoded_eq_ok_iff.mpr ⟨hlen, hop⟩]
      exact hrest
  unfold verify EncodesDigest
  split_ifs with hrsassa hrsapss
  · refine hrecover.trans (and_congr_right fun _ => exists_congr fun block => ?_)
    refine and_congr_right fun _ => ?_
    cases Pkcs1.encodeDigest h digest key.size with
    | ok expected =>
        rw [Except.ok.injEq]
        exact signature_eq_ok_iff.trans (Bytes.ctEq_iff _ _)
    | error e => exact iff_of_false nofun nofun
  · refine hrecover.trans (and_congr_right fun _ => exists_congr fun block => ?_)
    refine and_congr_right fun _ => ?_
    exact signature_bind_eq_ok_iff.trans (and_congr_right fun _ => signature_eq_ok_iff)
  · exact iff_of_false nofun fun h => h.2.elim fun _ h => h.2

variable [LawfulArithmetic α] {key : PrivateKey}

/-- With PKCS #1 v1.5 padding, the power of the block of a digest is accepted, and nothing else. -/
theorem PrivateKey.Consistent.verify_rsassa_iff (hkey : key.Consistent) {h : Hash}
    {digest signature : Bytes} :
    verify α key.publicKey .rsassa h digest signature = .ok () ↔
      Pkcs1.DigestFits h digest key.publicKey.size ∧
        signature = key.power (toNat (Pkcs1.digestBlock h digest key.publicKey.size)) := by
  rw [verify_eq_ok_iff]
  simp only [EncodesDigest, if_pos]
  constructor
  · rintro ⟨hlen, block, hop, hblock⟩
    obtain ⟨-, -, hpower⟩ := hkey.publicOp_eq_ok_iff.mp ⟨hlen, hop⟩
    obtain ⟨hfits, rfl⟩ := Pkcs1.encodeDigest_eq_ok_iff.mp hblock
    exact ⟨hfits, hpower⟩
  · rintro ⟨hfits, hpower⟩
    have hsize := Pkcs1.length_digestBlock hfits
    obtain ⟨hlen, hop⟩ := (hkey.publicOp_eq_ok_iff (α := α)).mpr
      ⟨hsize, key.publicKey.toNat_lt_of_head? rfl hsize, hpower⟩
    exact ⟨hlen, _, hop, Pkcs1.encodeDigest_eq hfits⟩

/-! ### Signatures -/

variable {β : Type} [Arithmetic β]

variable (β) in
/-- Whenever the private primitive gives a byte string in an arithmetic, it is the power of the
input. -/
def PrivateKey.RaisesOnly (key : PrivateKey) : Prop :=
  ∀ input output, toNat input < toNat key.publicKey.modulus → privateOp β key input = .ok output →
    output = key.power (toNat input)

/-- With room to reduce the private exponent, the private primitive gives the power of the input. -/
theorem PrivateKey.Consistent.raisesOnly_of_room (hkey : key.Consistent)
    (hroom : RoomToReduce α (toNat key.d)) : key.RaisesOnly α := by
  intro input output hlt hop
  rw [hkey.privateOp_eq hroom hlt] at hop
  exact (Except.ok.inj hop).symm

/-- In buffers, the private primitive gives the power of the input or runs out of room. -/
theorem PrivateKey.Consistent.raisesOnly_fixed (hkey : key.Consistent) :
    key.RaisesOnly FixedNat := by
  by_cases hd : count (toNat key.d) ≤ scratchLimbs
  · exact hkey.raisesOnly_of_room (LawfulArithmetic.roomToReduce_of_count hd)
  · intro input output hlt hop
    rw [hkey.privateOp_exhausted (Nat.lt_of_not_le hd) hlt] at hop
    cases hop

/-- Signatures made by powers of encodings are accepted. -/
theorem PrivateKey.Consistent.signaturesAccepted (hkey : key.Consistent) (hraises : key.RaisesOnly β)
    (h : Hash) (digest : Bytes) : SignaturesAccepted α β σ key h digest := by
  intro scheme
  rw [sign_eq]
  refine (writeDigest_yields key.publicKey scheme h digest).bind fun encoded hencoded => ?_
  obtain ⟨hlt, hencodes⟩ := hencoded
  refine .lift fun signature hop => ?_
  obtain rfl := hraises encoded signature hlt hop
  have hlen : (key.power (toNat encoded)).length = key.publicKey.size :=
    Bytes.length_ofNatWidth _ _
  exact ⟨hlen, verify_eq_ok_iff.mpr ⟨hlen, _, hkey.publicOp_power hlt, hencodes⟩⟩

/-- With room to reduce the private exponent, what is accepted is what is returned. -/
theorem PrivateKey.Consistent.signatureUnique [LawfulArithmetic β] (hkey : key.Consistent)
    (hroom : RoomToReduce β (toNat key.d)) (h : Hash) (digest : Bytes) :
    SignatureUnique α β σ key h digest where
  accepted_iff s signature := by
    rw [hkey.verify_rsassa_iff, sign_eq]
    by_cases hfits : Pkcs1.DigestFits h digest key.publicKey.size
    · have hlt := key.publicKey.toNat_lt_of_head? rfl (Pkcs1.length_digestBlock hfits)
      have hrun : (sign β key .rsassa h digest : Randomized σ Bytes).runFrom s =
          (privateOp β key (Pkcs1.digestBlock h digest key.publicKey.size), s) := by
        rw [sign_eq, writeDigest, if_pos rfl, Pkcs1.encodeDigest_eq hfits]
        rfl
      rw [sign_eq, hkey.privateOp_eq hroom hlt] at hrun
      rw [hrun, and_iff_right hfits, Prod.mk.injEq, Except.ok.injEq, and_iff_left rfl, eq_comm]
      exact Iff.rfl
    · obtain ⟨e, herror⟩ := Pkcs1.exists_error_of_not_fits hfits
      have hrun : (writeDigest key.publicKey .rsassa h digest : Randomized σ Bytes).runFrom s =
          (.error e, s) := by
        rw [writeDigest, if_pos rfl, herror]
        rfl
      rw [Randomized.runFrom_bind_error hrun]
      exact iff_of_false (fun haccepted => hfits haccepted.1) nofun
  exists_iff := by
    simp only [hkey.verify_rsassa_iff, exists_and_left, exists_eq, and_true]
    exact Iff.rfl

/-- The signatures of a key whose parts belong together are accepted in every arithmetic, whichever
of the two made them; and with PKCS #1 v1.5 padding they are the only byte strings that are accepted.
Signing in buffers asks that the private exponent fit the scratch area. -/
theorem PrivateKey.Consistent.signatures (hkey : key.Consistent) (h : Hash) (digest : Bytes) :
    (SignaturesAccepted α FixedNat σ key h digest ∧
      (key.d.bitLength ≤ 64 * scratchLimbs → SignatureUnique α FixedNat σ key h digest)) ∧
    SignaturesAccepted α Nat σ key h digest ∧ SignatureUnique α Nat σ key h digest := by
  have hexact : RoomToReduce Nat (toNat key.d) := LawfulArithmetic.roomToReduce_exact _
  refine ⟨⟨?_, fun hd => ?_⟩, ?_, ?_⟩
  · exact hkey.signaturesAccepted hkey.raisesOnly_fixed h digest
  · exact hkey.signatureUnique (roomToReduce_of_bitLength hd) h digest
  · exact hkey.signaturesAccepted (hkey.raisesOnly_of_room hexact) h digest
  · exact hkey.signatureUnique hexact h digest

/-- The default exponent is one that a key may have. -/
theorem defaultExponent_admissible : ExponentAdmissible defaultExponent := by
  decide +kernel

/-- A key of 609 bits, so that the bits of an encoded digest fill whole bytes: the encoded digest is
a byte shorter than the modulus. -/
def wholeBytesKey : PrivateKey where
  publicKey :=
    { modulus := Bytes.ofNat (3 * mersenne 607)
      exponent := defaultExponent
      stripped := by decide +kernel
      le_bitLength := by decide +kernel
      bitLength_le := by decide +kernel
      isOdd := by decide +kernel
      admissible := defaultExponent_admissible }
  p := [3]
  q := Bytes.ofNat (mersenne 607)
  d := Bytes.ofNat ((1 + 21846 * (2 * (mersenne 607 - 1))) / 65537)

/-- The parts of the key belong together. -/
theorem wholeBytesKey_consistent : wholeBytesKey.Consistent where
  prime_p := show Nat.Prime 3 from Nat.prime_three
  prime_q := by
    rw [wholeBytesKey, Bytes.toNat_ofNat]
    exact lucas_lehmer_sufficiency 607 (by norm_num) (by norm_num)
  ne := by decide +kernel
  mul_eq := by decide +kernel
  inverse := by decide +kernel

/-- A digest of 32 bytes is signed with the key, whose encoded digests are a byte shorter than its
modulus, and there is one byte string that is accepted with PKCS #1 v1.5 padding. -/
theorem PrivateKey.Consistent.signatures_wholeBytes :
    wholeBytesKey.Consistent ∧ wholeBytesKey.d.bitLength ≤ 64 * scratchLimbs ∧
    Pss.encodedLength wholeBytesKey.publicKey.bits + 1 = wholeBytesKey.publicKey.size ∧
    SignaturesAccepted FixedNat FixedNat ByteStream wholeBytesKey HashAlgorithm.sha256.hash
      (List.replicate 32 7) ∧
    SignatureUnique FixedNat FixedNat ByteStream wholeBytesKey HashAlgorithm.sha256.hash
      (List.replicate 32 7) ∧
    ∃ signature, verify FixedNat wholeBytesKey.publicKey .rsassa HashAlgorithm.sha256.hash
      (List.replicate 32 7) signature = .ok () := by
  have hd : wholeBytesKey.d.bitLength ≤ 64 * scratchLimbs := by decide +kernel
  have hsignatures := wholeBytesKey_consistent.signatures (α := FixedNat) (σ := ByteStream)
    HashAlgorithm.sha256.hash (List.replicate 32 7)
  have hunique := hsignatures.1.2 hd
  exact ⟨wholeBytesKey_consistent, hd, by decide +kernel, hsignatures.1.1, hunique,
    hunique.exists_iff.mpr (by decide +kernel)⟩

/-! ### Private exponents beyond the scratch area -/

/-- Signing fails fatally in buffers when the private exponent does not fit the scratch area. -/
theorem PrivateKey.Consistent.sign_exhausted (hkey : key.Consistent)
    (hd : scratchLimbs < count (toNat key.d)) {h : Hash} {digest : Bytes}
    (hfits : Pkcs1.DigestFits h digest key.publicKey.size) (s : σ) :
    (sign FixedNat key .rsassa h digest : Randomized σ Bytes).runFrom s =
      (.error (.fatal .allocation), s) := by
  have hlt := key.publicKey.toNat_lt_of_head? rfl (Pkcs1.length_digestBlock hfits)
  have hrun : (writeDigest key.publicKey .rsassa h digest : Randomized σ Bytes).runFrom s =
      (.ok (Pkcs1.digestBlock h digest key.publicKey.size), s) := by
    rw [writeDigest, if_pos rfl, Pkcs1.encodeDigest_eq hfits]
    rfl
  rw [sign_eq, Randomized.runFrom_bind_ok hrun, hkey.privateOp_exhausted hd hlt]
  rfl

/-- With a private exponent beyond the scratch area, a byte string is accepted as a signature, and
signing in buffers does not return it but fails fatally. -/
theorem PrivateKey.lengthen_unsigned :
    (mersenneKey.lengthen (UInt64.size ^ scratchLimbs)).Consistent ∧
    (List.replicate 20 (7 : UInt8)).length = HashAlgorithm.sha1.hash.size ∧
    (∃ signature, verify FixedNat mersenneKey.publicKey .rsassa HashAlgorithm.sha1.hash
      (List.replicate 20 7) signature = .ok ()) ∧
    ∀ s : ByteStream, (sign FixedNat (mersenneKey.lengthen (UInt64.size ^ scratchLimbs)) .rsassa
      HashAlgorithm.sha1.hash (List.replicate 20 7)).runFrom s =
        (.error (.fatal .allocation), s) := by
  have hkey := mersenneKey_valid.consistent
  have hfits : Pkcs1.DigestFits HashAlgorithm.sha1.hash (List.replicate 20 7)
      mersenneKey.publicKey.size := ⟨by decide, by decide +kernel⟩
  refine ⟨hkey.lengthen _, by decide, ⟨_, hkey.verify_rsassa_iff.mpr ⟨hfits, rfl⟩⟩, fun s => ?_⟩
  exact (hkey.lengthen _).sign_exhausted (hkey.lt_count_lengthen _) hfits s

end TrustedPlatform.Rsa
