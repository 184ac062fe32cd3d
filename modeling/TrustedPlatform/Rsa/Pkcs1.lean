import TrustedPlatform.Hash
import TrustedPlatform.Random.Source

/-!
# PKCS #1 v1.5 padding

Two block formats share their outline. A message to be encrypted is preceded by at least eight
random bytes, none of them zero, between the marks `00 02` and `00`. A digest to be signed is
preceded by the identifier of its hash and by at least eight bytes `ff`, between the marks `00 01`
and `00`. `decodeScanning` decodes a message without an early exit, by a scan of the whole block.
-/

namespace TrustedPlatform.Rsa.Pkcs1

/-- The smallest number of padding bytes. -/
def minPadding : Nat := 8

/-- The number of bytes that a block takes apart from its content, at the least. -/
def overhead : Nat :=
  minPadding + 3

section Encryption

variable {σ : Type} [RandomSource σ]

/-- Draw single bytes until one is not zero, at most as many as the first argument tells. -/
def drawNonzero : Nat → Randomized σ UInt8
  | 0 => throw (.noResult "PKCS#1 v1.5 padding")
  | retries + 1 => do
      let bytes ← draw 1
      let b := bytes.headD 0
      if b = 0 then drawNonzero retries else return b

/-- Replace each zero byte by a drawn one that is not zero. -/
def replaceZeros (retries : Nat) : Bytes → Randomized σ Bytes
  | [] => return []
  | b :: rest => do
      let b ← if b = 0 then drawNonzero retries else pure b
      let rest ← replaceZeros retries rest
      return b :: rest

/-- The block of `k` bytes for a message. Each padding byte is drawn again while it is zero, up to
the given number of times. -/
def encodeMessage (retries : Nat) (message : Bytes) (k : Nat) : Randomized σ Bytes := do
  Require.parameter (overhead ≤ k) "modulus" "too small for PKCS#1 v1.5"
  Require.maxLength "PKCS#1 v1.5 message" message.length (k - overhead)
  let drawn ← draw (k - message.length - 3)
  let padding ← replaceZeros retries drawn
  return 0 :: 2 :: (padding ++ 0 :: message)

end Encryption

/-- The message in a block. -/
def decodeMessage (block : Bytes) : Checked Bytes :=
  let refusal := Fault.decryption "PKCS#1 v1.5"
  match block with
  | 0 :: 2 :: rest =>
      match rest.dropWhile (· != 0) with
      | _ :: message =>
          if minPadding ≤ (rest.takeWhile (· != 0)).length then .ok message else .error refusal
      | [] => .error refusal
  | _ => .error refusal

/-! ### Decoding without an early exit -/

/-- The scan for the zero behind the padding. -/
structure Scan where
  /-- No zero was met yet. -/
  looking : Bool
  /-- The position of the first zero. -/
  index : Nat

/-- The scan after the byte at a position. -/
def Scan.step (s : Scan) (i : Nat) (byte : UInt8) : Scan :=
  let isZero := byte == 0
  { looking := s.looking && !isZero
    index := if s.looking && isZero then i else s.index }

/-- The scan after all bytes from a position on. -/
def Scan.run (s : Scan) : Nat → Bytes → Scan
  | _, [] => s
  | i, byte :: rest => (s.step i byte).run (i + 1) rest

/-- The message in a block, found by a scan. -/
def decodeScanning (block : Bytes) : Checked Bytes :=
  let refusal := Fault.decryption "PKCS#1 v1.5"
  if block.length < overhead then .error refusal
  else
    let marked := block.take 2 == [0, 2]
    let s := Scan.run ⟨true, 0⟩ 2 (block.drop 2)
    if marked && !s.looking && minPadding + 2 ≤ s.index then .ok (block.drop (s.index + 1))
    else .error refusal

/-! ### Digests -/

/-- The identifier of a hash, in the form that precedes a digest. -/
def digestInfo : HashAlgorithm → Bytes
  | .sha1 =>
      [0x30, 0x21, 0x30, 0x09, 0x06, 0x05, 0x2b, 0x0e, 0x03, 0x02, 0x1a, 0x05, 0x00, 0x04, 0x14]
  | .sha256 =>
      [0x30, 0x31, 0x30, 0x0d, 0x06, 0x09, 0x60, 0x86, 0x48, 0x01, 0x65, 0x03, 0x04, 0x02, 0x01,
        0x05, 0x00, 0x04, 0x20]
  | .sha384 =>
      [0x30, 0x41, 0x30, 0x0d, 0x06, 0x09, 0x60, 0x86, 0x48, 0x01, 0x65, 0x03, 0x04, 0x02, 0x02,
        0x05, 0x00, 0x04, 0x30]
  | .sha512 =>
      [0x30, 0x51, 0x30, 0x0d, 0x06, 0x09, 0x60, 0x86, 0x48, 0x01, 0x65, 0x03, 0x04, 0x02, 0x03,
        0x05, 0x00, 0x04, 0x40]

/-- The block of `k` bytes for a digest. -/
def encodeDigest (h : Hash) (digest : Bytes) (k : Nat) : Checked Bytes := do
  Require.length "RSASSA digest" digest.length h.size
  let content := digestInfo h.algorithm ++ digest
  Require.parameter (content.length + overhead ≤ k) "modulus" "too small for this DigestInfo"
  return 0 :: 1 :: (List.replicate (k - content.length - 3) 0xff ++ 0 :: content)

end TrustedPlatform.Rsa.Pkcs1
