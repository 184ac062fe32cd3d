import TrustedPlatform.Cipher.Aes

/-!
# Conditioning of seed material

`Conditioning.derive` compresses an input of any length into forty-eight bytes of seed. The input
is framed by its length, the length of the result, a closing byte and padding; three passes of a
chained cipher over the frame, each begun with its own counter, give a key and a block, and the
seed is what three further encryptions under that key make of the block.
-/

namespace TrustedPlatform

/-- The number of bytes in a seed: a cipher key and a cipher block. -/
def seedLength : Nat := 48

namespace Conditioning

/-- The last block of a chained encryption of the whole blocks of a byte string. -/
def chain (keys : List Aes.Block) (bytes : Bytes) : Aes.Block :=
  ((bytes.chunks 16).filter fun piece => piece.length == 16).foldl
    (fun value piece => Aes.encryptWith keys (value.add (Aes.Block.ofBytes piece)))
    (Aes.Block.ofBytes [])

/-- An input between its length and a closing byte, filled up with zeros to whole blocks. -/
def frame (input : Bytes) : Bytes :=
  let framed := Bytes.ofUInt32 (UInt32.ofNat input.length)
    ++ Bytes.ofUInt32 (UInt32.ofNat seedLength) ++ input ++ [0x80]
  framed ++ List.replicate ((16 - framed.length % 16) % 16) 0

/-- The block that starts pass number `i`. -/
def counterBlock (i : Nat) : Bytes :=
  Bytes.ofUInt32 (UInt32.ofNat i) ++ List.replicate 12 0

/-- The key of the three passes: the bytes 0 to 31. -/
def fixedKey : Bytes :=
  (List.range 32).map UInt8.ofNat

/-- The concatenation of `count` blocks, each the encryption of the one before. -/
def iterate (keys : List Aes.Block) : Nat → Aes.Block → Bytes
  | 0, _ => []
  | count + 1, block =>
      let next := Aes.encryptWith keys block
      next.toBytes ++ iterate keys count next

/-- The seed that an input is conditioned to. -/
def derive (input : Bytes) : Bytes :=
  let keys := Aes.roundKeys fixedKey
  let framed := frame input
  let material := (List.range 3).flatMap fun i => (chain keys (counterBlock i ++ framed)).toBytes
  iterate (Aes.roundKeys (material.take 32)) 3 (Aes.Block.ofBytes (material.drop 32))

end Conditioning

end TrustedPlatform
