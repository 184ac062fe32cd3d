import TrustedPlatform.Random.Conditioning

/-!
# Conditioning in a buffer

The conditioning of seed material as it runs. One buffer holds a free block and behind it the framed
input. Each pass writes its counter over the first four bytes of that buffer, in which everything
else stays from pass to pass, and takes the whole blocks of the buffer through the chained cipher.
As in the other modules about buffers, `none` stands for an access out of bounds.
-/

namespace TrustedPlatform.Conditioning.InPlace

/-- A buffer with a byte string written over its front. -/
def overwriteFront : Bytes → Bytes → Option Bytes
  | [], buffer => some buffer
  | _ :: _, [] => none
  | b :: bytes, _ :: buffer => do return b :: (← overwriteFront bytes buffer)

/-- The buffer before the passes. The filling counts the free block, too. -/
def buffer (input : Bytes) : Bytes :=
  let filled := List.replicate 16 0 ++ Bytes.ofUInt32 (UInt32.ofNat input.length)
    ++ Bytes.ofUInt32 (UInt32.ofNat seedLength) ++ input ++ [0x80]
  filled ++ (List.replicate 16 0).take ((16 - filled.length % 16) % 16)

/-- A pass over the buffer. -/
structure Pass where
  /-- The buffer with the counter of the pass in it. -/
  buffer : Bytes
  /-- The block that the pass gives. -/
  block : Aes.Block

/-- A number of passes over a buffer, with counters from `i` on. -/
def passes (keys : List Aes.Block) (i : Nat) : Nat → Bytes → Option (List Pass)
  | 0, _ => some []
  | count + 1, s => do
      let s ← overwriteFront (Bytes.ofUInt32 (UInt32.ofNat i)) s
      return ⟨s, chain keys s⟩ :: (← passes keys (i + 1) count s)

/-- The passes over the framed input, one for each block of a seed. -/
def run (input : Bytes) : Option (List Pass) :=
  passes (Aes.roundKeys fixedKey) 0 (seedLength / 16) (buffer input)

/-- The seed that an input is conditioned to. -/
def derive (input : Bytes) : Option Bytes := do
  let material := (← run input).flatMap fun pass => pass.block.toBytes
  let keys := Aes.roundKeys (material.take 32)
  return iterate keys (seedLength / 16) (Aes.Block.ofBytes (material.drop 32))

end TrustedPlatform.Conditioning.InPlace
