import TrustedPlatform.Derivation

/-!
# Key derivation as loops

The derivations as they run. A loop appends one block after the other to a buffer until the buffer
holds the requested length; its 32-bit counter wraps around. Then the buffer is cut and the high
bits of its first byte are cleared. A block absorbs its input piece by piece.
-/

namespace TrustedPlatform

open TrustedPlatform.Derivation

namespace Running

/-- The state after a label, and after a zero byte unless the label ends in one. -/
def absorbLabel (s : Running) (label : Bytes) : Running :=
  let s := s.update label
  if label.getLast? = some 0 then s else s.update [0]

/-- A label is absorbed as one that ends in a zero byte. -/
theorem absorbLabel_eq (s : Running) (label : Bytes) :
    s.absorbLabel label = s.update (terminated label) := by
  unfold absorbLabel terminated
  split
  · rfl
  · simp only [update, List.append_assoc]

end Running

namespace Derivation

/-- A function from counters to blocks of one length. -/
structure BlockFunction where
  /-- The block with a counter. -/
  block : UInt32 → Bytes
  /-- The number of bytes in a block. -/
  size : Nat
  /-- A block is not empty. -/
  size_pos : 0 < size
  /-- Every block has the length. -/
  length_block : ∀ counter, (block counter).length = size

namespace BlockFunction

/-- The block with a counter brings the end closer. -/
theorem remaining_lt (f : BlockFunction) {length : Nat} {out : Bytes} (h : out.length < length)
    (counter : UInt32) : length - (out ++ f.block counter).length < length - out.length := by
  have hsize := f.size_pos
  rw [List.length_append, f.length_block]
  omega

/-- A buffer after the loop that appends blocks to it until it holds a length. -/
def extend (f : BlockFunction) (length : Nat) (counter : UInt32) (out : Bytes) : Bytes :=
  if out.length < length then f.extend length (counter + 1) (out ++ f.block counter) else out
termination_by length - out.length
decreasing_by
  next h => exact f.remaining_lt h counter

/-- The blocks of `deriveA`. -/
def ofKey (h : Hash) (key label contextU contextV : Bytes) (bits : UInt32) : BlockFunction where
  block counter :=
    ((((Running.mac h key).updateUInt32 counter).absorbLabel label).update contextU
      |>.update contextV |>.updateUInt32 bits).result
  size := h.size
  size_pos := h.size_pos
  length_block _ := by
    rw [Running.absorbLabel_eq]
    exact h.length_mac _ _

/-- The blocks of `deriveE`. -/
def ofSecret (h : Hash) (z label partyU partyV : Bytes) : BlockFunction where
  block counter :=
    (((Running.digest h).updateUInt32 counter |>.update z).absorbLabel label
      |>.update partyU |>.update partyV).result
  size := h.size
  size_pos := h.size_pos
  length_block _ := by
    rw [Running.absorbLabel_eq]
    exact h.length_digest _

/-- The blocks of `mask`. -/
def ofSeed (h : Hash) (seed : Bytes) : BlockFunction where
  block counter := ((Running.digest h).update seed |>.updateUInt32 counter).result
  size := h.size
  size_pos := h.size_pos
  length_block _ := h.length_digest _

end BlockFunction

namespace Loop

/-- A buffer cut to a number of bits, which stand at its low end. -/
def cut (out : Bytes) (bits : UInt32) : Bytes :=
  clearHighBits bits.toNat (out.take (byteCount bits))

/-- Bits derived from a key for a label and two contexts. -/
def deriveA (h : Hash) (key label contextU contextV : Bytes) (bits : UInt32) : Checked Bytes := do
  Require.parameter (0 < bits) "bits" "KDF output must be non-empty"
  let blocks := BlockFunction.ofKey h key label contextU contextV bits
  return cut (blocks.extend (byteCount bits) 1 []) bits

/-- Bits derived from a shared secret for a label and two parties. -/
def deriveE (h : Hash) (z label partyU partyV : Bytes) (bits : UInt32) : Checked Bytes := do
  Require.parameter (0 < bits) "bits" "KDF output must be non-empty"
  let blocks := BlockFunction.ofSecret h z label partyU partyV
  return cut (blocks.extend (byteCount bits) 1 []) bits

/-- The mask of `length` bytes that a seed generates. -/
def mask (h : Hash) (seed : Bytes) (length : Nat) : Bytes :=
  ((BlockFunction.ofSeed h seed).extend length 0 []).take length

end Loop

end Derivation

end TrustedPlatform
