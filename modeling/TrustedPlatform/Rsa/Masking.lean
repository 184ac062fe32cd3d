import TrustedPlatform.Derivation.Loop
import TrustedPlatform.Rsa.Oaep
import TrustedPlatform.Rsa.Pss

/-!
# Masking in place

The paddings as they run. A mask is combined with a buffer in place, and the combination stops at
the end of the shorter one, so that bytes which the mask does not reach stay as they are. The length
of a mask is computed from the sizes of the encoding and of a digest, never read off the buffer. A
`Masking` is one such combination.
-/

namespace TrustedPlatform

/-- A buffer after a mask is combined with it in place. -/
def Bytes.xorInto : Bytes → Bytes → Bytes
  | [], _ => []
  | data, [] => data
  | b :: data, m :: mask => (b ^^^ m) :: xorInto data mask

namespace Rsa

open TrustedPlatform.Derivation

/-- A buffer and the mask that is combined with it. -/
structure Masking where
  /-- The buffer. -/
  data : Bytes
  /-- The mask. -/
  mask : Bytes

/-- The buffer afterwards. -/
def Masking.result (m : Masking) : Bytes :=
  m.data.xorInto m.mask

namespace Oaep

/-- The two combinations of an encoding or a decoding. -/
structure Maskings where
  /-- The one that masks or unmasks the data block. -/
  block : Masking
  /-- The one that masks or unmasks the seed. -/
  seed : Masking

/-- The combinations that encode a message in `k` bytes under a seed, first the one of the data
block. -/
def encodeMaskings (h : Hash) (label message : Bytes) (k : Nat) (seed : Bytes) : Maskings :=
  let length := k - h.size - 1
  let block : Masking := ⟨dataBlock h label message length, Loop.mask h seed length⟩
  ⟨block, ⟨seed, Loop.mask h block.result h.size⟩⟩

/-- The encoding of a message in `k` bytes under a drawn seed. -/
def encodeInPlace {σ : Type} [RandomSource σ] (h : Hash) (label message : Bytes) (k : Nat) :
    Randomized σ Bytes := do
  Require.parameter (overhead h ≤ k) "modulus" "too small for OAEP with this hash"
  Require.maxLength "OAEP message" message.length (k - overhead h)
  let seed ← draw h.size
  let maskings := encodeMaskings h label message k seed
  return 0 :: (maskings.seed.result ++ maskings.block.result)

/-- The combinations that decode an encoded message, first the one of the seed. -/
def decodeMaskings (h : Hash) (encoded : Bytes) : Maskings :=
  let maskedBlock := encoded.drop (1 + h.size)
  let seed : Masking := ⟨(encoded.drop 1).take h.size, Loop.mask h maskedBlock h.size⟩
  ⟨⟨maskedBlock, Loop.mask h seed.result (encoded.length - h.size - 1)⟩, seed⟩

/-- The message in an encoded message. -/
def decodeInPlace (h : Hash) (label encoded : Bytes) : Checked Bytes :=
  let refusal := Fault.decryption "OAEP"
  if encoded.length < overhead h then .error refusal
  else
    let block := (decodeMaskings h encoded).block.result
    let good := encoded.head? == some 0 && Bytes.ctEq (block.take h.size) (h.digest label)
    let s := Scan.run ⟨true, good, 0⟩ h.size (block.drop h.size)
    if s.good && !s.looking then .ok (block.drop (s.index + 1)) else .error refusal

end Oaep

namespace Pss

/-- The combination that encodes a digest with a salt. -/
def encodeMasking (h : Hash) (digest : Bytes) (bits : Nat) (salt : Bytes) : Masking :=
  let length := blockLength h bits
  ⟨List.replicate (length - salt.length - 1) 0 ++ 1 :: salt,
    Loop.mask h (tag h digest salt) length⟩

/-- The encoding of a digest with a drawn salt. -/
def encodeInPlace {σ : Type} [RandomSource σ] (h : Hash) (digest : Bytes) (bits : Nat) :
    Randomized σ Bytes := do
  Require.length "PSS digest" digest.length h.size
  Require.parameter (h.size + 2 ≤ encodedLength bits) "modulus" "too small for PSS with this hash"
  let salt ← draw (saltLength h bits)
  let block := (encodeMasking h digest bits salt).result
  return clearHighBits (encodedBits bits) block ++ tag h digest salt ++ [0xbc]

/-- The combination that checks an encoded digest. -/
def verifyMasking (h : Hash) (bits : Nat) (encoded : Bytes) : Masking :=
  let length := blockLength h bits
  ⟨encoded.take length, Loop.mask h ((encoded.drop length).take h.size) length⟩

/-- Accept a byte string that encodes a digest with some salt. -/
def verifyInPlace (h : Hash) (digest encoded : Bytes) (bits : Nat) : Checked Unit := do
  let algorithm := "RSASSA-PSS"
  Require.signature (digest.length = h.size ∧ encoded.length = encodedLength bits
    ∧ h.size + 2 ≤ encodedLength bits) algorithm
  Require.signature (encoded.getLast? = some 0xbc) algorithm
  Require.signature (clearHighBits (encodedBits bits) encoded = encoded) algorithm
  let block := clearHighBits (encodedBits bits) (verifyMasking h bits encoded).result
  let accepted :=
    match block.dropWhile (· == 0) with
    | 1 :: salt =>
        Bytes.ctEq (tag h digest salt) ((encoded.drop (blockLength h bits)).take h.size)
    | _ => false
  Require.signature accepted algorithm

end Pss

end Rsa

end TrustedPlatform
