import TrustedPlatform.Proofs.Derivation
import TrustedPlatform.Proofs.Random.Outcome
import TrustedPlatform.Rsa.Pss

/-!
# What probabilistic signature padding accepts

An encoded digest has one bit less than the modulus and as many bytes as these bits take, so that
its number is below the modulus whether or not the bits fill whole bytes. It is accepted for the
digest that it was made for, whatever salt was drawn and however long it is, and nothing else is
accepted. The main theorem is `verify_accepts`.
-/

namespace TrustedPlatform.Rsa.Pss

open Bytes (toNat)
open TrustedPlatform.Derivation

variable {h : Hash} {digest salt encoded : Bytes} {bits length : Nat}

/-! ### Data blocks -/

/-- The data block of a salt, before it is masked. -/
def saltBlock (length : Nat) (salt : Bytes) : Bytes :=
  List.replicate (length - salt.length - 1) 0 ++ 1 :: salt

/-- A data block takes a byte one and the salt, or more. -/
theorem length_saltBlock (hsalt : salt.length < length) :
    (saltBlock length salt).length = length := by
  simp only [saltBlock, List.length_append, List.length_replicate, List.length_cons]
  omega

/-- The first byte of a data block is zero or one, so it has no high bits. -/
theorem clearHighBits_saltBlock (bits length : Nat) (salt : Bytes) :
    clearHighBits bits (saltBlock length salt) = saltBlock length salt := by
  unfold saltBlock
  cases length - salt.length - 1 with
  | zero => exact clearHighBits_of_le_one bits (by decide) salt
  | succ zeros =>
      rw [List.replicate_succ, List.cons_append]
      exact clearHighBits_of_le_one bits (by decide) _

/-- The salt stands behind the first byte that is not zero. -/
theorem dropWhile_saltBlock (length : Nat) (salt : Bytes) :
    (saltBlock length salt).dropWhile (· == 0) = 1 :: salt := by
  have hzeros : ∀ b ∈ List.replicate (length - salt.length - 1) (0 : UInt8), (b == 0) = true := by
    intro b hb
    simp [List.eq_of_mem_replicate hb]
  rw [saltBlock, List.dropWhile_append_of_pos hzeros]
  rfl

/-! ### Encodings -/

/-- A tag is as long as a digest. -/
theorem length_tag (h : Hash) (digest salt : Bytes) : (tag h digest salt).length = h.size :=
  h.length_digest _

/-- The masked data block of a digest and a salt. -/
def maskedBlock (h : Hash) (digest : Bytes) (bits : Nat) (salt : Bytes) : Bytes :=
  clearHighBits (encodedBits bits) (Bytes.xor (saltBlock (blockLength h bits) salt)
    (h.mask (tag h digest salt) (blockLength h bits)))

/-- An encoded digest is a masked data block, the tag and a mark. -/
theorem encodeWith_eq (h : Hash) (digest : Bytes) (bits : Nat) (salt : Bytes) :
    encodeWith h digest bits salt =
      maskedBlock h digest bits salt ++ (tag h digest salt ++ [0xbc]) :=
  List.append_assoc _ _ _

/-- A masked data block is as long as the data block. -/
theorem length_maskedBlock (hsalt : salt.length < blockLength h bits) :
    (maskedBlock h digest bits salt).length = blockLength h bits := by
  rw [maskedBlock, length_clearHighBits, Bytes.length_xor, length_saltBlock hsalt, Hash.length_mask,
    Nat.min_self]

/-- Masking twice gives the data block back, its high bits being clear from the start. -/
theorem unmask_maskedBlock (hsalt : salt.length < blockLength h bits) :
    clearHighBits (encodedBits bits) (Bytes.xor (maskedBlock h digest bits salt)
      (h.mask (tag h digest salt) (blockLength h bits))) =
        saltBlock (blockLength h bits) salt := by
  have hmask : (saltBlock (blockLength h bits) salt).length ≤
      (h.mask (tag h digest salt) (blockLength h bits)).length :=
    ((length_saltBlock hsalt).trans (Hash.length_mask ..).symm).le
  rw [clearHighBits_xor, maskedBlock, clearHighBits_clearHighBits, ← clearHighBits_xor,
    Bytes.xor_xor_cancel hmask, clearHighBits_saltBlock]

/-- The parts of an encoded digest fill it. -/
theorem length_encodeWith (hsize : h.size + 2 ≤ encodedLength bits)
    (hsalt : salt.length < blockLength h bits) :
    (encodeWith h digest bits salt).length = encodedLength bits := by
  have hblock : blockLength h bits = encodedLength bits - h.size - 1 := rfl
  rw [encodeWith_eq, List.length_append, List.length_append, length_maskedBlock hsalt, length_tag,
    List.length_singleton]
  omega

/-- The high bits of an encoded digest are clear. -/
theorem clearHighBits_encodeWith (hsalt : salt.length < blockLength h bits) :
    clearHighBits (encodedBits bits) (encodeWith h digest bits salt) =
      encodeWith h digest bits salt := by
  have hne : maskedBlock h digest bits salt ≠ [] := by
    rw [← List.length_pos_iff, length_maskedBlock hsalt]
    exact Nat.zero_lt_of_lt hsalt
  rw [encodeWith_eq, clearHighBits_append _ hne, maskedBlock, clearHighBits_clearHighBits]

/-- The number of an encoded digest has one bit less than the modulus. -/
theorem toNat_encodeWith_lt (hsize : h.size + 2 ≤ encodedLength bits)
    (hsalt : salt.length < blockLength h bits) :
    toNat (encodeWith h digest bits salt) < 2 ^ (bits - 1) := by
  rw [← clearHighBits_encodeWith hsalt]
  exact toNat_clearHighBits_lt (length_encodeWith hsize hsalt)

/-- The tag stands behind the masked data block. -/
theorem tag_of_encodeWith (hsalt : salt.length < blockLength h bits) :
    ((encodeWith h digest bits salt).drop (blockLength h bits)).take h.size =
      tag h digest salt := by
  rw [encodeWith_eq, List.drop_left' (length_maskedBlock hsalt), List.take_left' (length_tag ..)]

/-- The data block is read back from an encoded digest. -/
theorem unmask_encodeWith (hsalt : salt.length < blockLength h bits) :
    unmask h bits (encodeWith h digest bits salt) = saltBlock (blockLength h bits) salt := by
  unfold unmask
  simp only [tag_of_encodeWith hsalt]
  rw [encodeWith_eq, List.take_left' (length_maskedBlock hsalt), unmask_maskedBlock hsalt]

/-- An encoded digest is accepted. -/
theorem accepts_encodeWith (hdigest : digest.length = h.size)
    (hsize : h.size + 2 ≤ encodedLength bits) (hsalt : salt.length < blockLength h bits) :
    accepts h digest (encodeWith h digest bits salt) bits = true := by
  have hlast : (encodeWith h digest bits salt).getLast? = some 0xbc := by
    rw [encodeWith, List.getLast?_concat]
  unfold accepts
  rw [unmask_encodeWith hsalt, dropWhile_saltBlock, tag_of_encodeWith hsalt,
    clearHighBits_encodeWith hsalt, length_encodeWith hsize hsalt, hlast]
  simp [hdigest, hsize, Bytes.ctEq_iff]

/-- A byte string that is given encodes the digest in one bit less than the modulus has, and is
accepted. -/
theorem encode_yields {σ : Type} [RandomSource σ] (h : Hash) (digest : Bytes) (bits : Nat) :
    (encode h digest bits : Randomized σ Bytes).Yields fun encoded =>
      encoded.length = encodedLength bits ∧ toNat encoded < 2 ^ (bits - 1) ∧
      accepts h digest encoded bits = true := by
  refine (Randomized.Yields.length _ _ _).bind fun _ hdigest => ?_
  refine (Randomized.Yields.parameter _ _ _).bind fun _ hroom => ?_
  refine (Randomized.Yields.draw _).bind fun salt hdrawn => .pure ?_
  have hsize : h.size + 2 ≤ encodedLength bits := of_decide_eq_true hroom
  have hsalt : salt.length < blockLength h bits := by
    rw [hdrawn, saltLength, blockLength]
    omega
  exact ⟨length_encodeWith hsize hsalt, toNat_encodeWith_lt hsize hsalt,
    accepts_encodeWith hdigest hsize hsalt⟩

/-! ### The format -/

/-- The data block of a salt under its mask, with the tag and the mark, before any bit is cleared. -/
def assemble (h : Hash) (digest : Bytes) (bits : Nat) (salt : Bytes) : Bytes :=
  Bytes.xor (saltBlock (blockLength h bits) salt)
      (h.mask (tag h digest salt) (blockLength h bits)) ++
    (tag h digest salt ++ [0xbc])

/-- A byte string encodes a digest with a salt: it has as many bytes as one bit less than the modulus
takes, and it denotes the assembled number without the bits above. -/
structure Encodes (h : Hash) (digest : Bytes) (bits : Nat) (salt encoded : Bytes) : Prop where
  digest_length : digest.length = h.size
  room : h.size + 2 ≤ encodedLength bits
  salt_fits : salt.length ≤ encodedLength bits - h.size - 2
  length_eq : encoded.length = encodedLength bits
  toNat_eq : toNat encoded = toNat (assemble h digest bits salt) % 2 ^ (bits - 1)

/-- A salt fits when the data block has room for a byte one before it. -/
theorem lt_blockLength (hsize : h.size + 2 ≤ encodedLength bits)
    (hfits : salt.length ≤ encodedLength bits - h.size - 2) :
    salt.length < blockLength h bits := by
  rw [blockLength]
  omega

/-- A masked data block is as long as the data block. -/
theorem length_xor_saltBlock (hsalt : salt.length < blockLength h bits) (tag : Bytes) :
    (Bytes.xor (saltBlock (blockLength h bits) salt) (h.mask tag (blockLength h bits))).length =
      blockLength h bits := by
  rw [Bytes.length_xor, length_saltBlock hsalt, Hash.length_mask, Nat.min_self]

/-- Only the masked data block has bits to clear. -/
theorem encodeWith_eq_clearHighBits (hsalt : salt.length < blockLength h bits) :
    encodeWith h digest bits salt =
      clearHighBits (encodedBits bits) (assemble h digest bits salt) := by
  have hne : Bytes.xor (saltBlock (blockLength h bits) salt)
      (h.mask (tag h digest salt) (blockLength h bits)) ≠ [] := by
    rw [← List.length_pos_iff, length_xor_saltBlock hsalt]
    exact Nat.zero_lt_of_lt hsalt
  rw [encodeWith_eq, assemble, clearHighBits_append _ hne, maskedBlock]

/-- The one byte string that encodes a digest with a salt. -/
theorem encodes_iff : Encodes h digest bits salt encoded ↔ digest.length = h.size ∧
    h.size + 2 ≤ encodedLength bits ∧ salt.length ≤ encodedLength bits - h.size - 2 ∧
      encodeWith h digest bits salt = encoded := by
  have hnumber (hsize : h.size + 2 ≤ encodedLength bits)
      (hfits : salt.length ≤ encodedLength bits - h.size - 2) :
      toNat (encodeWith h digest bits salt) =
        toNat (assemble h digest bits salt) % 2 ^ (bits - 1) := by
    have hsalt := lt_blockLength hsize hfits
    have hlength : (assemble h digest bits salt).length = encodedLength bits := by
      have hencoded : (encodeWith h digest bits salt).length = encodedLength bits :=
        length_encodeWith hsize hsalt
      rwa [encodeWith_eq_clearHighBits hsalt, length_clearHighBits] at hencoded
    rw [encodeWith_eq_clearHighBits hsalt]
    exact toNat_clearHighBits hlength
  constructor
  · rintro ⟨hdigest, hsize, hfits, hlength, hvalue⟩
    refine ⟨hdigest, hsize, hfits, Bytes.eq_of_toNat_eq ?_ ?_⟩
    · rw [length_encodeWith hsize (lt_blockLength hsize hfits), hlength]
    · rw [hnumber hsize hfits, hvalue]
  · rintro ⟨hdigest, hsize, hfits, rfl⟩
    exact ⟨hdigest, hsize, hfits, length_encodeWith hsize (lt_blockLength hsize hfits),
      hnumber hsize hfits⟩

/-- A byte string with the mark at its end is a data block, what stands for a tag, and the mark. -/
theorem exists_append_of_getLast? (hlength : encoded.length = encodedLength bits)
    (hsize : h.size + 2 ≤ encodedLength bits) (hlast : encoded.getLast? = some 0xbc) :
    encoded = encoded.take (blockLength h bits) ++
      ((encoded.drop (blockLength h bits)).take h.size ++ [0xbc]) := by
  obtain ⟨front, rfl⟩ := List.getLast?_eq_some_iff.mp hlast
  have hfront : front.length = blockLength h bits + h.size := by
    rw [List.length_append, List.length_singleton] at hlength
    rw [blockLength]
    omega
  have htake : (front ++ [0xbc]).take (blockLength h bits) = front.take (blockLength h bits) :=
    List.take_append_of_le_length (by omega)
  have hdrop : ((front ++ [0xbc]).drop (blockLength h bits)).take h.size =
      front.drop (blockLength h bits) := by
    rw [List.drop_append_of_le_length (by omega)]
    exact List.take_left' (by rw [List.length_drop]; omega)
  rw [htake, hdrop, ← List.append_assoc, List.take_append_drop]

/-- A masked data block without high bits is the mask over the data block that it hides. -/
theorem xor_clearHighBits_cancel {masked mask block : Bytes} (bits : Nat)
    (hclear : clearHighBits bits masked = masked) (hlength : masked.length ≤ mask.length)
    (hblock : clearHighBits bits (Bytes.xor masked mask) = block) :
    clearHighBits bits (Bytes.xor block mask) = masked := by
  have hmask : masked.length ≤ (clearHighBits bits mask).length := by
    rwa [length_clearHighBits]
  rw [← hblock, clearHighBits_xor, clearHighBits_clearHighBits, clearHighBits_xor, hclear,
    Bytes.xor_xor_cancel hmask]

/-- What is accepted is an encoding with the salt behind the byte one. -/
theorem exists_encodes_of_accepts (haccepts : accepts h digest encoded bits = true) :
    ∃ salt, Encodes h digest bits salt encoded := by
  unfold accepts at haccepts
  simp only [Bool.and_eq_true, beq_iff_eq, decide_eq_true_eq] at haccepts
  obtain ⟨⟨⟨⟨⟨hdigest, hlength⟩, hsize⟩, hlast⟩, hclear⟩, hsalted⟩ := haccepts
  split at hsalted
  case h_2 => cases hsalted
  case h_1 salt hfound =>
    have htag := (Bytes.ctEq_iff _ _).mp hsalted
    obtain ⟨zeros, hzeros⟩ := Bytes.dropWhile_eq_cons_one_iff.mp hfound
    have hsplit := exists_append_of_getLast? hlength hsize hlast
    generalize hmasked : encoded.take (blockLength h bits) = masked at hsplit
    rw [← htag] at hsplit
    have hblockLength : masked.length = blockLength h bits := by
      rw [← hmasked, List.length_take, hlength]
      exact Nat.min_eq_left (by rw [blockLength]; omega)
    have hmaskLength (t : Bytes) : masked.length ≤ (h.mask t (blockLength h bits)).length := by
      rw [Hash.length_mask, hblockLength]
    -- the zeros fill the data block up
    have hunmask : clearHighBits (encodedBits bits)
        (Bytes.xor masked (h.mask (tag h digest salt) (blockLength h bits))) =
          List.replicate zeros 0 ++ 1 :: salt := by
      rw [← hzeros, unmask, hmasked, htag]
    have hfill := congrArg List.length hunmask
    rw [length_clearHighBits, Bytes.length_xor, Nat.min_eq_left (hmaskLength _), hblockLength,
      List.length_append, List.length_replicate, List.length_cons] at hfill
    have hblock : List.replicate zeros 0 ++ 1 :: salt = saltBlock (blockLength h bits) salt := by
      rw [saltBlock, show blockLength h bits - salt.length - 1 = zeros by omega]
    -- only the masked data block can have high bits
    have hmaskedClear : clearHighBits (encodedBits bits) masked = masked := by
      have hne : masked ≠ [] := by
        rw [← List.length_pos_iff, hblockLength]
        omega
      rw [hsplit, clearHighBits_append _ hne] at hclear
      exact List.append_cancel_right hclear
    refine ⟨salt, encodes_iff.mpr ⟨hdigest, hsize, ?_, ?_⟩⟩
    · have hlong : blockLength h bits = encodedLength bits - h.size - 1 := rfl
      omega
    · rw [encodeWith_eq, maskedBlock, xor_clearHighBits_cancel _ hmaskedClear (hmaskLength _)
        (hunmask.trans hblock), ← hsplit]

/-- Exactly the encodings are accepted. -/
theorem accepts_iff : accepts h digest encoded bits = true ↔
    ∃ salt, Encodes h digest bits salt encoded := by
  refine ⟨exists_encodes_of_accepts, ?_⟩
  rintro ⟨salt, hencodes⟩
  obtain ⟨hdigest, hsize, hfits, rfl⟩ := encodes_iff.mp hencodes
  exact accepts_encodeWith hdigest hsize (lt_blockLength hsize hfits)

/-- An encoding has no other salt. -/
theorem Encodes.salt_unique {salt' : Bytes} (hencodes : Encodes h digest bits salt encoded)
    (hencodes' : Encodes h digest bits salt' encoded) : salt = salt' := by
  have hsalt {s : Bytes} (hs : Encodes h digest bits s encoded) :
      (unmask h bits encoded).dropWhile (· == 0) = 1 :: s := by
    obtain ⟨-, hsize, hfits, rfl⟩ := encodes_iff.mp hs
    rw [unmask_encodeWith (lt_blockLength hsize hfits), dropWhile_saltBlock]
  exact (List.cons.inj ((hsalt hencodes).symm.trans (hsalt hencodes'))).2

/-- How an encoding ends: a digest of the wrong length and a modulus that is too small are refused
before anything is drawn; a salt is drawn of the length of a digest, or of what fits; and the digest
is encoded with it, unless the source fails. -/
inductive Ends {σ : Type} [RandomSource σ] (h : Hash) (digest : Bytes) (bits : Nat) (s : σ) :
    Checked Bytes × σ → Prop where
  | wrongLength (hdigest : digest.length ≠ h.size) :
      Ends h digest bits s (.error (.length "PSS digest" h.size digest.length), s)
  | tooSmall (hdigest : digest.length = h.size) (hroom : encodedLength bits < h.size + 2) :
      Ends h digest bits s
        (.error (.parameter "modulus" "too small for PSS with this hash"), s)
  | sourceFailed {e : Fault} {t : σ} (hdigest : digest.length = h.size)
      (hroom : h.size + 2 ≤ encodedLength bits)
      (hfill : RandomSource.fill s (min h.size (encodedLength bits - h.size - 2)) = (.error e, t)) :
      Ends h digest bits s (.error e, t)
  | encoded {salt encoded : Bytes} {t : σ}
      (hfill : RandomSource.fill s (min h.size (encodedLength bits - h.size - 2)) = (.ok salt, t))
      (hlength : salt.length = min h.size (encodedLength bits - h.size - 2))
      (hencodes : Encodes h digest bits salt encoded) : Ends h digest bits s (.ok encoded, t)

/-- Encoding a digest ends in one of these ways. -/
theorem encode_ends {σ : Type} [RandomSource σ] (h : Hash) (digest : Bytes) (bits : Nat) (s : σ) :
    Ends h digest bits s ((encode h digest bits).runFrom s) := by
  by_cases hdigest : digest.length = h.size
  case neg =>
    have hlength : Require.length "PSS digest" digest.length h.size =
        .error (.length "PSS digest" h.size digest.length) := if_neg hdigest
    rw [encode, Randomized.runFrom_lift_bind_error hlength]
    exact .wrongLength hdigest
  have hlength : Require.length "PSS digest" digest.length h.size = .ok () := if_pos hdigest
  rw [encode, Randomized.runFrom_lift_bind_ok hlength]
  by_cases hroom : h.size + 2 ≤ encodedLength bits
  case neg =>
    have hparameter : Require.parameter (h.size + 2 ≤ encodedLength bits) "modulus"
        "too small for PSS with this hash" =
          .error (.parameter "modulus" "too small for PSS with this hash") :=
      if_neg (by rwa [decide_eq_true_iff])
    rw [Randomized.runFrom_lift_bind_error hparameter]
    exact .tooSmall hdigest (Nat.lt_of_not_le hroom)
  have hparameter : Require.parameter (h.size + 2 ≤ encodedLength bits) "modulus"
      "too small for PSS with this hash" = .ok () := if_pos (decide_eq_true hroom)
  rw [Randomized.runFrom_lift_bind_ok hparameter]
  rcases hfill : RandomSource.fill s (saltLength h bits) with ⟨e | salt, t⟩
  · rw [Randomized.runFrom_draw_bind_error hfill]
    exact .sourceFailed hdigest hroom hfill
  · have hsalt : salt.length = min h.size (encodedLength bits - h.size - 2) :=
      RandomSource.length_of_fill s _ salt (congrArg Prod.fst hfill)
    rw [Randomized.runFrom_draw_bind_ok hfill]
    exact .encoded hfill hsalt (encodes_iff.mpr
      ⟨hdigest, hroom, hsalt.trans_le (Nat.min_le_right _ _), rfl⟩)

/-- Whatever the hash, the digest, the byte string and the size of the modulus: the byte string is
accepted exactly when it encodes the digest with some salt, from none up to all that fits; it then
encodes the digest with no other salt, its unused bits are clear, and every other byte string is
refused with the one fault. Whatever the source, encoding refuses what it has to, or draws a salt of
the length of a digest, or of what fits, and gives the encoding with it. -/
theorem verify_accepts (h : Hash) (digest encoded : Bytes) (bits : Nat) :
    (verify h digest encoded bits = .ok () ↔ ∃ salt, Encodes h digest bits salt encoded) ∧
    (∀ salt salt', Encodes h digest bits salt encoded → Encodes h digest bits salt' encoded →
      salt = salt') ∧
    ((∃ salt, Encodes h digest bits salt encoded) → toNat encoded < 2 ^ (bits - 1)) ∧
    ((¬∃ salt, Encodes h digest bits salt encoded) →
      verify h digest encoded bits = .error (.signature "RSASSA-PSS")) ∧
    ∀ {σ : Type} [RandomSource σ] (s : σ),
      Ends h digest bits s ((encode h digest bits).runFrom s) := by
  refine ⟨?_, fun _ _ => Encodes.salt_unique, ?_, fun hnone => ?_, encode_ends h digest bits⟩
  · rw [← accepts_iff, verify, Require.signature]
    split
    · exact iff_of_true rfl ‹_›
    · exact iff_of_false nofun ‹_›
  · rintro ⟨salt, hencodes⟩
    rw [hencodes.toNat_eq]
    exact Nat.mod_lt _ (Nat.two_pow_pos _)
  · exact if_neg (mt accepts_iff.mp hnone)

end TrustedPlatform.Rsa.Pss
