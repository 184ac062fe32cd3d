import TrustedPlatform.Proofs.Derivation.Loop
import TrustedPlatform.Proofs.Rsa.Oaep
import TrustedPlatform.Proofs.Rsa.Pss
import TrustedPlatform.Rsa.Masking

/-!
# Masks cover what they are combined with

A combination in place is the exclusive-or of a buffer and a mask exactly when the mask is as long
as the buffer, or longer. The lengths that the paddings compute for their masks are those of the
buffers whenever the checks before them pass, so the paddings in place give what the paddings by
whole exclusive-ors give. The main theorem, about the derivations and their masks together, is
`Derivation.Loop.derives_exactly`.
-/

namespace TrustedPlatform

/-! ### Combinations -/

namespace Bytes

/-- A buffer keeps its length. -/
@[simp] theorem length_xorInto (data mask : Bytes) : (xorInto data mask).length = data.length := by
  induction data, mask using xorInto.induct with
  | case1 mask => rfl
  | case2 data hne => cases data <;> rfl
  | case3 b data m mask ih => exact congrArg (· + 1) ih

/-- A mask that is long enough is combined with the whole buffer. -/
theorem xorInto_eq_xor {data mask : Bytes} (h : data.length ≤ mask.length) :
    xorInto data mask = xor data mask := by
  induction data generalizing mask with
  | nil => rfl
  | cons b data ih =>
      cases mask with
      | nil => exact absurd h (Nat.not_succ_le_zero _)
      | cons m mask => exact congrArg ((b ^^^ m) :: ·) (ih (Nat.le_of_succ_le_succ h))

end Bytes

namespace Rsa

open TrustedPlatform.Derivation

/-- The mask reaches every byte of the buffer. -/
def Masking.Covers (m : Masking) : Prop :=
  m.data.length ≤ m.mask.length

/-- The mask reaches every byte exactly when the buffer becomes the exclusive-or. -/
theorem Masking.result_eq_xor_iff (m : Masking) :
    m.result = Bytes.xor m.data m.mask ↔ m.Covers := by
  constructor
  · intro h
    have hlength := congrArg List.length h
    rw [result, Bytes.length_xorInto, Bytes.length_xor] at hlength
    exact min_eq_left_iff.mp hlength.symm
  · exact Bytes.xorInto_eq_xor

/-! ### Optimal asymmetric padding -/

namespace Oaep

variable {h : Hash} {label message seed : Bytes} {k : Nat}

/-- The data block of a message that is short enough fills what the seed and the first byte leave. -/
theorem length_dataBlock_of_overhead (hk : overhead h ≤ k)
    (hlen : message.length ≤ k - overhead h) :
    (dataBlock h label message (k - h.size - 1)).length = k - h.size - 1 := by
  unfold overhead at hk hlen
  exact length_dataBlock (by omega)

/-- The masks of an encoding cover the data block and the seed. -/
theorem encodeMaskings_cover (hk : overhead h ≤ k) (hlen : message.length ≤ k - overhead h)
    (hseed : seed.length = h.size) :
    (encodeMaskings h label message k seed).block.Covers ∧
      (encodeMaskings h label message k seed).seed.Covers := by
  constructor
  · show (dataBlock h label message (k - h.size - 1)).length ≤ (Loop.mask h seed _).length
    rw [length_dataBlock_of_overhead hk hlen, Loop.mask_eq, Hash.length_mask]
  · show seed.length ≤ (Loop.mask h _ h.size).length
    rw [hseed, Loop.mask_eq, Hash.length_mask]

/-- The masks of a decoding cover the masked data block and the masked seed. -/
theorem decodeMaskings_cover (h : Hash) (encoded : Bytes) :
    (decodeMaskings h encoded).block.Covers ∧ (decodeMaskings h encoded).seed.Covers := by
  constructor
  · show (encoded.drop (1 + h.size)).length ≤ (Loop.mask h _ (encoded.length - h.size - 1)).length
    rw [Loop.mask_eq, Hash.length_mask, List.length_drop]
    omega
  · show ((encoded.drop 1).take h.size).length ≤ (Loop.mask h _ h.size).length
    rw [Loop.mask_eq, Hash.length_mask, List.length_take]
    exact Nat.min_le_left _ _

/-- Every encoding that is given was made with masks that cover. -/
theorem encodeInPlace_yields {σ : Type} [RandomSource σ] (h : Hash) (label message : Bytes)
    (k : Nat) :
    (encodeInPlace h label message k : Randomized σ Bytes).Yields fun encoded =>
      ∃ seed, let maskings := encodeMaskings h label message k seed
        (maskings.block.Covers ∧ maskings.seed.Covers) ∧
          encoded = 0 :: (maskings.seed.result ++ maskings.block.result) := by
  refine (Randomized.Yields.parameter _ _ _).bind fun _ hk => ?_
  refine (Randomized.Yields.maxLength _ _ _).bind fun _ hlen => ?_
  refine (Randomized.Yields.draw _).bind fun seed hseed => .pure ⟨seed, ?_, rfl⟩
  exact encodeMaskings_cover (of_decide_eq_true hk) hlen hseed

/-- Seed and data block are masked as wholes. -/
theorem encodeMaskings_result (hk : overhead h ≤ k) (hlen : message.length ≤ k - overhead h)
    (hseed : seed.length = h.size) :
    0 :: ((encodeMaskings h label message k seed).seed.result ++
      (encodeMaskings h label message k seed).block.result) = encodeWith h label message k seed := by
  obtain ⟨hblock, hmasked⟩ :
      (encodeMaskings h label message k seed).block.Covers ∧
        (encodeMaskings h label message k seed).seed.Covers :=
    encodeMaskings_cover hk hlen hseed
  have hblockResult : (encodeMaskings h label message k seed).block.result =
      Bytes.xor (dataBlock h label message (k - h.size - 1)) (h.mask seed (k - h.size - 1)) := by
    rw [(Masking.result_eq_xor_iff _).mpr hblock, ← Loop.mask_eq]
    rfl
  have hseedResult : (encodeMaskings h label message k seed).seed.result =
      Bytes.xor seed (h.mask (encodeMaskings h label message k seed).block.result h.size) := by
    rw [(Masking.result_eq_xor_iff _).mpr hmasked, ← Loop.mask_eq]
    rfl
  rw [hseedResult, hblockResult, encodeWith, maskWith, length_dataBlock_of_overhead hk hlen]

/-- An encoding in place is the encoding. -/
theorem encodeInPlace_eq {σ : Type} [RandomSource σ] (h : Hash) (label message : Bytes) (k : Nat) :
    (encodeInPlace h label message k : Randomized σ Bytes) = encode h label message k := by
  refine (Randomized.Yields.parameter _ _ _).bind_congr fun _ hk => ?_
  refine (Randomized.Yields.maxLength _ _ _).bind_congr fun _ hlen => ?_
  refine (Randomized.Yields.draw _).bind_congr fun seed hseed => ?_
  exact congrArg pure (encodeMaskings_result (of_decide_eq_true hk) hlen hseed)

/-- Decoding in place is decoding. -/
theorem decodeInPlace_eq (h : Hash) (label encoded : Bytes) :
    decodeInPlace h label encoded = decode h label encoded := by
  obtain ⟨hblock, hseed⟩ := decodeMaskings_cover h encoded
  have hunmask : (decodeMaskings h encoded).block.result = unmask h encoded := by
    rw [(Masking.result_eq_xor_iff _).mpr hblock]
    show Bytes.xor (encoded.drop (1 + h.size))
      (Loop.mask h (decodeMaskings h encoded).seed.result (encoded.length - h.size - 1)) = _
    rw [(Masking.result_eq_xor_iff _).mpr hseed, unmask]
    simp only [decodeMaskings, Loop.mask_eq]
  rw [← decodeScanning_eq, decodeInPlace, hunmask, decodeScanning]

end Oaep

/-! ### Probabilistic signature padding -/

namespace Pss

variable {h : Hash} {salt : Bytes} {bits : Nat}

/-- The mask of an encoding covers the data block. -/
theorem encodeMasking_covers (digest : Bytes) (hsize : h.size + 2 ≤ encodedLength bits)
    (hsalt : salt.length = saltLength h bits) : (encodeMasking h digest bits salt).Covers := by
  have hblock : (saltBlock (blockLength h bits) salt).length = blockLength h bits :=
    length_saltBlock (by
      rw [hsalt, saltLength, blockLength]
      omega)
  show (saltBlock (blockLength h bits) salt).length ≤ (Loop.mask h _ (blockLength h bits)).length
  rw [hblock, Loop.mask_eq, Hash.length_mask]

/-- The mask of a check covers the masked data block. -/
theorem verifyMasking_covers (h : Hash) (bits : Nat) (encoded : Bytes) :
    (verifyMasking h bits encoded).Covers := by
  show (encoded.take (blockLength h bits)).length ≤ (Loop.mask h _ (blockLength h bits)).length
  rw [Loop.mask_eq, Hash.length_mask, List.length_take]
  exact Nat.min_le_left _ _

/-- Every encoding that is given was made with a mask that covers. -/
theorem encodeInPlace_yields {σ : Type} [RandomSource σ] (h : Hash) (digest : Bytes) (bits : Nat) :
    (encodeInPlace h digest bits : Randomized σ Bytes).Yields fun encoded =>
      ∃ salt, (encodeMasking h digest bits salt).Covers ∧
        encoded = clearHighBits (encodedBits bits) (encodeMasking h digest bits salt).result
          ++ tag h digest salt ++ [0xbc] := by
  refine Randomized.Yields.bind (P := fun _ => True) (.lift fun _ _ => trivial) fun _ _ => ?_
  refine (Randomized.Yields.parameter _ _ _).bind fun _ hsize => ?_
  refine (Randomized.Yields.draw _).bind fun salt hsalt => .pure ⟨salt, ?_, rfl⟩
  exact encodeMasking_covers digest (of_decide_eq_true hsize) hsalt

/-- An encoding in place is the encoding. -/
theorem encodeInPlace_eq {σ : Type} [RandomSource σ] (h : Hash) (digest : Bytes) (bits : Nat) :
    (encodeInPlace h digest bits : Randomized σ Bytes) = encode h digest bits := by
  refine congrArg (_ >>= ·) (funext fun _ => ?_)
  refine (Randomized.Yields.parameter _ _ _).bind_congr fun _ hsize => ?_
  refine (Randomized.Yields.draw _).bind_congr fun salt hsalt => ?_
  have hcovers : (encodeMasking h digest bits salt).Covers :=
    encodeMasking_covers digest (of_decide_eq_true hsize) hsalt
  show pure (clearHighBits _ (encodeMasking h digest bits salt).result ++ _ ++ _) = _
  rw [(Masking.result_eq_xor_iff _).mpr hcovers, encodeWith, encodeMasking, Loop.mask_eq]

/-- Two checks of a signature are one. -/
theorem signature_bind (first second : Bool) (algorithm : String) :
    (do Require.signature first algorithm; Require.signature second algorithm) =
      Require.signature (first && second) algorithm := by
  cases first <;> rfl

/-- A check in place is the check. -/
theorem verifyInPlace_eq (h : Hash) (digest encoded : Bytes) (bits : Nat) :
    verifyInPlace h digest encoded bits = verify h digest encoded bits := by
  have hunmask : clearHighBits (encodedBits bits) (verifyMasking h bits encoded).result =
      unmask h bits encoded := by
    rw [(Masking.result_eq_xor_iff _).mpr (verifyMasking_covers h bits encoded), unmask,
      verifyMasking, Loop.mask_eq]
  have hchecks (found : Bool) :
      (decide (digest.length = h.size ∧ encoded.length = encodedLength bits
          ∧ h.size + 2 ≤ encodedLength bits)
        && (decide (encoded.getLast? = some 0xbc)
        && (decide (clearHighBits (encodedBits bits) encoded = encoded) && found))) =
      (digest.length == h.size && encoded.length == encodedLength bits
        && h.size + 2 ≤ encodedLength bits && encoded.getLast? == some 0xbc
        && clearHighBits (encodedBits bits) encoded == encoded && found) := by
    simp only [Bool.decide_and, Bool.and_assoc, beq_eq_decide]
  unfold verifyInPlace verify accepts
  dsimp only
  rw [hunmask, signature_bind, signature_bind, signature_bind]
  exact congrArg (Require.signature · "RSASSA-PSS") (hchecks _)

end Pss

/-- The masks of both paddings cover what they are combined with, whatever is encoded or decoded. -/
structure MasksCover (h : Hash) : Prop where
  /-- Every message is encoded with masks that cover. -/
  oaep_encode : ∀ {σ : Type} [RandomSource σ] (label message : Bytes) (k : Nat),
    (Oaep.encodeInPlace h label message k : Randomized σ Bytes).Yields fun encoded =>
      ∃ seed, let maskings := Oaep.encodeMaskings h label message k seed
        (maskings.block.Covers ∧ maskings.seed.Covers) ∧
          encoded = 0 :: (maskings.seed.result ++ maskings.block.result)
  /-- Every byte string is decoded with masks that cover. -/
  oaep_decode : ∀ encoded, (Oaep.decodeMaskings h encoded).block.Covers ∧
    (Oaep.decodeMaskings h encoded).seed.Covers
  /-- Every digest is encoded with a mask that covers. -/
  pss_encode : ∀ {σ : Type} [RandomSource σ] (digest : Bytes) (bits : Nat),
    (Pss.encodeInPlace h digest bits : Randomized σ Bytes).Yields fun encoded =>
      ∃ salt, (Pss.encodeMasking h digest bits salt).Covers ∧
        encoded = clearHighBits (Pss.encodedBits bits) (Pss.encodeMasking h digest bits salt).result
          ++ Pss.tag h digest salt ++ [0xbc]
  /-- Every byte string is checked with a mask that covers. -/
  pss_verify : ∀ bits encoded, (Pss.verifyMasking h bits encoded).Covers

/-- The masks always cover. -/
theorem masksCover (h : Hash) : MasksCover h where
  oaep_encode := Oaep.encodeInPlace_yields h
  oaep_decode := Oaep.decodeMaskings_cover h
  pss_encode := Pss.encodeInPlace_yields h
  pss_verify := Pss.verifyMasking_covers h

end Rsa

/-! ### The derivations and their masks -/

namespace Derivation.Loop

/-- Both derivations give exactly the bits that are asked for, out of blocks with counters that do
not come back; a zero byte behind a label derives the same bits, unless the label ends in one; a
mask is as long as asked for and stands at the front of every longer one; and the masks of the
paddings cover what they are combined with. -/
theorem derives_exactly (h : Hash) {bits : UInt32} (hbits : 0 < bits) :
    (∀ key label contextU contextV, ∃ out,
      deriveA h key label contextU contextV bits = .ok out ∧
      Derives (.ofKey h key label contextU contextV bits) bits out) ∧
    (∀ z label partyU partyV, ∃ out,
      deriveE h z label partyU partyV bits = .ok out ∧
      Derives (.ofSecret h z label partyU partyV) bits out) ∧
    (∀ label : Bytes, label.getLast? ≠ some 0 →
      (∀ key contextU contextV,
        deriveA h key (label ++ [0]) contextU contextV bits =
          deriveA h key label contextU contextV bits) ∧
      ∀ z partyU partyV,
        deriveE h z (label ++ [0]) partyU partyV bits = deriveE h z label partyU partyV bits) ∧
    (∀ seed length,
      (mask h seed length).length = length ∧
      (∀ short ≤ length, mask h seed short <+: mask h seed length) ∧
      (length ≤ 2 ^ 32 * h.size →
        ((BlockFunction.ofSeed h seed).counters length 0 []).Nodup)) ∧
    Rsa.MasksCover h := by
  have hpass : Require.parameter (0 < bits) "bits" "KDF output must be non-empty" = .ok () :=
    if_pos (decide_eq_true hbits)
  refine ⟨fun key label contextU contextV => ⟨_, ?_, derives_cut_extend _ hbits⟩,
    fun z label partyU partyV => ⟨_, ?_, derives_cut_extend _ hbits⟩, fun label hlabel => ⟨?_, ?_⟩,
    fun seed length => ⟨?_, fun short hshort => ?_, fun hlength => ?_⟩, Rsa.masksCover h⟩
  · rw [deriveA, hpass]
    rfl
  · rw [deriveE, hpass]
    rfl
  · exact fun key contextU contextV => deriveA_append_zero h hlabel key contextU contextV bits
  · exact fun z partyU partyV => deriveE_append_zero h hlabel z partyU partyV bits
  · rw [mask_eq, Hash.length_mask]
  · rw [mask_eq, mask_eq]
    exact counterMode_isPrefix 0 h.size_pos (fun _ => h.length_digest _) hshort
  · refine (BlockFunction.ofSeed h seed).nodup_counters length ?_
    rw [Nat.zero_add]
    exact blockCount_le h.size_pos hlength

/-- Twelve bits derived from a key take two bytes, and the label with a zero byte behind it derives
the same. -/
theorem derives_exactly_twelve_bits :
    (0 : UInt32) < 12 ∧ ∃ out,
      deriveA HashAlgorithm.sha256.hash [1] [0x49, 0x44] [] [] 12 = .ok out ∧
      deriveA HashAlgorithm.sha256.hash [1] [0x49, 0x44, 0] [] [] 12 = .ok out ∧
      out.length = 2 ∧ Bytes.toNat out < 2 ^ 12 := by
  obtain ⟨hcodes, -, hlabel, -⟩ :=
    derives_exactly HashAlgorithm.sha256.hash (by decide : (0 : UInt32) < 12)
  obtain ⟨out, hok, hout⟩ := hcodes [1] [0x49, 0x44] [] []
  have hzero := (hlabel [0x49, 0x44] (by decide)).1 [1] [] []
  exact ⟨by decide, out, hok, hzero.trans hok, hout.length_eq, hout.toNat_lt⟩

end Derivation.Loop

end TrustedPlatform
