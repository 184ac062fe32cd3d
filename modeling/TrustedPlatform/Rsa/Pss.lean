import TrustedPlatform.Derivation
import TrustedPlatform.Random.Source

/-!
# Probabilistic signature padding

An encoded digest is a masked data block, a tag and a byte `bc`, in as many bytes as one bit less
than the modulus takes. The tag is a digest over the signed digest and a salt, and the data block
holds zeros, a byte one and the salt. Any salt length is accepted; the salt that is written is as
long as a digest, or as long as fits.
-/

namespace TrustedPlatform.Rsa.Pss

open TrustedPlatform.Derivation

/-- The number of bits in an encoded digest for a modulus of `bits` bits. -/
def encodedBits (bits : Nat) : Nat :=
  bits - 1

/-- The number of bytes in an encoded digest for a modulus of `bits` bits. -/
def encodedLength (bits : Nat) : Nat :=
  (encodedBits bits + 7) / 8

/-- The number of bytes in the data block. -/
def blockLength (h : Hash) (bits : Nat) : Nat :=
  encodedLength bits - h.size - 1

/-- The number of bytes in the salt that is written. -/
def saltLength (h : Hash) (bits : Nat) : Nat :=
  min h.size (encodedLength bits - h.size - 2)

/-- The tag over a digest and a salt. -/
def tag (h : Hash) (digest salt : Bytes) : Bytes :=
  h.digestParts [List.replicate 8 0, digest, salt]

/-- The encoding of a digest with a salt. -/
def encodeWith (h : Hash) (digest : Bytes) (bits : Nat) (salt : Bytes) : Bytes :=
  let t := tag h digest salt
  let length := blockLength h bits
  let block := List.replicate (length - salt.length - 1) 0 ++ 1 :: salt
  clearHighBits (encodedBits bits) (Bytes.xor block (h.mask t length)) ++ t ++ [0xbc]

/-- The encoding of a digest with a drawn salt. -/
def encode {σ : Type} [RandomSource σ] (h : Hash) (digest : Bytes) (bits : Nat) :
    Randomized σ Bytes := do
  Require.length "PSS digest" digest.length h.size
  Require.parameter (h.size + 2 ≤ encodedLength bits) "modulus" "too small for PSS with this hash"
  let salt ← draw (saltLength h bits)
  return encodeWith h digest bits salt

/-- The data block of an encoded digest. -/
def unmask (h : Hash) (bits : Nat) (encoded : Bytes) : Bytes :=
  let length := blockLength h bits
  let t := (encoded.drop length).take h.size
  clearHighBits (encodedBits bits) (Bytes.xor (encoded.take length) (h.mask t length))

/-- A byte string encodes a digest with some salt. -/
def accepts (h : Hash) (digest encoded : Bytes) (bits : Nat) : Bool :=
  digest.length == h.size && encoded.length == encodedLength bits
    && h.size + 2 ≤ encodedLength bits && encoded.getLast? == some 0xbc
    && clearHighBits (encodedBits bits) encoded == encoded
    && match (unmask h bits encoded).dropWhile (· == 0) with
      | 1 :: salt =>
          Bytes.ctEq (tag h digest salt) ((encoded.drop (blockLength h bits)).take h.size)
      | _ => false

/-- Accept a byte string that encodes a digest with some salt. -/
def verify (h : Hash) (digest encoded : Bytes) (bits : Nat) : Checked Unit :=
  Require.signature (accepts h digest encoded bits) "RSASSA-PSS"

end TrustedPlatform.Rsa.Pss
