import TrustedPlatform.Algorithm
import TrustedPlatform.Hash.Sha256
import TrustedPlatform.Hash.Sha512

/-!
# Hash functions

A `Hash` is a function from byte strings to digests of the length that its algorithm prescribes;
`HashAlgorithm.hash` gives the standard function of each algorithm. What is built from a hash in
this library uses the function through that length alone. `Hash.mac` is the keyed construction of
two nested digests.
-/

namespace TrustedPlatform

/-- A hash function with a fixed output length. -/
structure Hash where
  /-- The algorithm, which fixes the sizes. -/
  algorithm : HashAlgorithm
  /-- The digest of a message. -/
  digest : Bytes → Bytes
  /-- Every digest has the output length of the algorithm. -/
  length_digest : ∀ message, (digest message).length = algorithm.digestSize

/-- The standard function of an algorithm. -/
def HashAlgorithm.hash : HashAlgorithm → Hash
  | sha1 => ⟨sha1, Sha1.digest, Sha1.length_digest⟩
  | sha256 => ⟨sha256, Sha256.digest, Sha256.length_digest⟩
  | sha384 => ⟨sha384, Sha512.digest384, Sha512.length_digest384⟩
  | sha512 => ⟨sha512, Sha512.digest, Sha512.length_digest⟩

namespace Hash

/-- The number of bytes in a digest. -/
def size (h : Hash) : Nat :=
  h.algorithm.digestSize

/-- A digest is not empty. -/
theorem size_pos (h : Hash) : 0 < h.size := by
  show 0 < h.algorithm.digestSize
  cases h.algorithm <;> decide

/-- The digest of several byte strings, one after the other. -/
def digestParts (h : Hash) (parts : List Bytes) : Bytes :=
  h.digest parts.flatten

/-- A key filled up with zeros to one block; a longer key is replaced by its digest. -/
def blockKey (h : Hash) (key : Bytes) : Bytes :=
  let block := h.algorithm.blockSize
  let key := if block < key.length then h.digest key else key
  key ++ List.replicate (block - key.length) 0

/-- The message authentication code of a message under a key. -/
def mac (h : Hash) (key message : Bytes) : Bytes :=
  let key := h.blockKey key
  let inner := h.digest (key.map (· ^^^ 0x36) ++ message)
  h.digest (key.map (· ^^^ 0x5c) ++ inner)

/-- A message authentication code is as long as a digest. -/
theorem length_mac (h : Hash) (key message : Bytes) : (h.mac key message).length = h.size :=
  h.length_digest _

end Hash

/-! ### Running digests -/

/-- A digest or an authentication code over bytes that arrive piece by piece. -/
structure Running where
  /-- The function applied to all bytes in the end. -/
  finish : Bytes → Bytes
  /-- The bytes that have arrived. -/
  absorbed : Bytes

namespace Running

/-- The start of a digest. -/
def digest (h : Hash) : Running :=
  ⟨h.digest, []⟩

/-- The start of an authentication code. -/
def mac (h : Hash) (key : Bytes) : Running :=
  ⟨h.mac key, []⟩

/-- The state after more bytes. -/
def update (s : Running) (bytes : Bytes) : Running :=
  { s with absorbed := s.absorbed ++ bytes }

/-- The state after the four bytes of a counter or a length. -/
def updateUInt32 (s : Running) (w : UInt32) : Running :=
  s.update (Bytes.ofUInt32 w)

/-- The value over the bytes that have arrived. -/
def result (s : Running) : Bytes :=
  s.finish s.absorbed

end Running

end TrustedPlatform
