import TrustedPlatform.Failure
import TrustedPlatform.Hash

/-!
# Key derivation

All three derivations cut the concatenation of blocks with consecutive counters to the requested
length: `deriveA` takes its blocks from an authentication code, `deriveE` from a hash over a shared
secret, and `mask` from a hash over a seed. When a number of bits is asked for that does not fill
whole bytes, the unused high bits of the first byte are cleared.
-/

namespace TrustedPlatform

namespace Derivation

/-- The first `length` bytes of the blocks with counters `start`, `start + 1` and so on, each of
`size` bytes. -/
def counterMode (block : UInt32 → Bytes) (size start length : Nat) : Bytes :=
  ((List.range ((length + size - 1) / size)).flatMap fun i => block (UInt32.ofNat (start + i))).take
    length

/-- A label that ends in a zero byte, one being added when it does not. -/
def terminated (label : Bytes) : Bytes :=
  if label.getLast? = some 0 then label else label ++ [0]

/-- The byte string with the bits of its first byte above the low `bits % 8` cleared, when `bits`
does not fill whole bytes. -/
def clearHighBits (bits : Nat) : Bytes → Bytes
  | [] => []
  | b :: rest =>
      if bits % 8 = 0 then b :: rest
      else (b &&& ((1 <<< UInt8.ofNat (bits % 8)) - 1)) :: rest

/-- The number of bytes that hold a number of bits. -/
def byteCount (bits : UInt32) : Nat :=
  (bits.toNat + 7) / 8

end Derivation

open TrustedPlatform.Derivation

namespace Hash

/-- One block of `deriveA`. -/
def deriveABlock (h : Hash) (key label contextU contextV : Bytes) (bits counter : UInt32) :
    Bytes :=
  h.mac key (Bytes.ofUInt32 counter ++ terminated label ++ contextU ++ contextV
    ++ Bytes.ofUInt32 bits)

/-- Bits derived from a key for a label and two contexts. -/
def deriveA (h : Hash) (key label contextU contextV : Bytes) (bits : UInt32) : Checked Bytes := do
  Require.parameter (0 < bits) "bits" "KDF output must be non-empty"
  let block := h.deriveABlock key label contextU contextV bits
  return clearHighBits bits.toNat (counterMode block h.size 1 (byteCount bits))

/-- One block of `deriveE`. -/
def deriveEBlock (h : Hash) (z label partyU partyV : Bytes) (counter : UInt32) : Bytes :=
  h.digest (Bytes.ofUInt32 counter ++ z ++ terminated label ++ partyU ++ partyV)

/-- Bits derived from a shared secret for a label and two parties. -/
def deriveE (h : Hash) (z label partyU partyV : Bytes) (bits : UInt32) : Checked Bytes := do
  Require.parameter (0 < bits) "bits" "KDF output must be non-empty"
  let block := h.deriveEBlock z label partyU partyV
  return clearHighBits bits.toNat (counterMode block h.size 1 (byteCount bits))

/-- The mask of `length` bytes that a seed generates. -/
def mask (h : Hash) (seed : Bytes) (length : Nat) : Bytes :=
  counterMode (fun counter => h.digest (seed ++ Bytes.ofUInt32 counter)) h.size 0 length

end Hash

end TrustedPlatform
