import TrustedPlatform.Derivation
import TrustedPlatform.Random.Source

/-!
# Optimal asymmetric encryption padding

An encoded message of `k` bytes is a zero byte, a masked seed and a masked data block. The data
block is the digest of the label, zeros, a byte one and the message. Decoding refuses every byte
string that does not have this form, always with the same fault. `decodeScanning` decodes without an
early exit, by a scan of the whole data block.
-/

namespace TrustedPlatform.Rsa.Oaep

/-- The number of bytes that the encoding adds to a message. -/
def overhead (h : Hash) : Nat :=
  2 * h.size + 2

/-- The data block for a message, `length` bytes long. -/
def dataBlock (h : Hash) (label message : Bytes) (length : Nat) : Bytes :=
  h.digest label ++ List.replicate (length - h.size - 1 - message.length) 0 ++ 1 :: message

/-- The encoding of a data block under a seed. -/
def maskWith (h : Hash) (seed block : Bytes) : Bytes :=
  let maskedBlock := Bytes.xor block (h.mask seed block.length)
  let maskedSeed := Bytes.xor seed (h.mask maskedBlock h.size)
  0 :: (maskedSeed ++ maskedBlock)

/-- The encoding of a message in `k` bytes under a seed. -/
def encodeWith (h : Hash) (label message : Bytes) (k : Nat) (seed : Bytes) : Bytes :=
  maskWith h seed (dataBlock h label message (k - h.size - 1))

/-- The encoding of a message in `k` bytes under a drawn seed. -/
def encode {σ : Type} [RandomSource σ] (h : Hash) (label message : Bytes) (k : Nat) :
    Randomized σ Bytes := do
  Require.parameter (overhead h ≤ k) "modulus" "too small for OAEP with this hash"
  Require.maxLength "OAEP message" message.length (k - overhead h)
  let seed ← draw h.size
  return encodeWith h label message k seed

/-- The data block of an encoded message. -/
def unmask (h : Hash) (encoded : Bytes) : Bytes :=
  let maskedSeed := (encoded.drop 1).take h.size
  let maskedBlock := encoded.drop (1 + h.size)
  let seed := Bytes.xor maskedSeed (h.mask maskedBlock h.size)
  Bytes.xor maskedBlock (h.mask seed (encoded.length - h.size - 1))

/-- The message in an encoded message. -/
def decode (h : Hash) (label encoded : Bytes) : Checked Bytes :=
  let refusal := Fault.decryption "OAEP"
  if encoded.length < overhead h then .error refusal
  else
    let block := unmask h encoded
    match (block.drop h.size).dropWhile (· == 0) with
    | 1 :: message =>
        if encoded.head? = some 0 ∧ Bytes.ctEq (block.take h.size) (h.digest label) then .ok message
        else .error refusal
    | _ => .error refusal

/-! ### Decoding without an early exit -/

/-- The scan for the byte one behind the zeros. -/
structure Scan where
  /-- The byte one was not met yet. -/
  looking : Bool
  /-- Nothing was met before it that is not zero. -/
  good : Bool
  /-- The position of the byte one. -/
  index : Nat

/-- The scan after the byte at a position. -/
def Scan.step (s : Scan) (i : Nat) (byte : UInt8) : Scan :=
  let isOne := byte == 1
  let isZero := byte == 0
  { looking := s.looking && !isOne
    good := s.good && !(s.looking && !isOne && !isZero)
    index := if s.looking && isOne then i else s.index }

/-- The scan after all bytes from a position on. -/
def Scan.run (s : Scan) : Nat → Bytes → Scan
  | _, [] => s
  | i, byte :: rest => (s.step i byte).run (i + 1) rest

/-- The message in an encoded message, found by a scan. -/
def decodeScanning (h : Hash) (label encoded : Bytes) : Checked Bytes :=
  let refusal := Fault.decryption "OAEP"
  if encoded.length < overhead h then .error refusal
  else
    let block := unmask h encoded
    let good := encoded.head? == some 0 && Bytes.ctEq (block.take h.size) (h.digest label)
    let s := Scan.run ⟨true, good, 0⟩ h.size (block.drop h.size)
    if s.good && !s.looking then .ok (block.drop (s.index + 1)) else .error refusal

end TrustedPlatform.Rsa.Oaep
