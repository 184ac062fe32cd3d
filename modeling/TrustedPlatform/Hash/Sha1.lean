import TrustedPlatform.Bytes

/-!
# SHA-1

A message is padded to whole blocks, each block is expanded to eighty words, and eighty steps mix
them into a chaining value of five words. `Sha1.digest` is the chaining value after the last block,
written in twenty bytes.
-/

namespace TrustedPlatform

/-- A message padded for hashing: one bit set, then zeros, then the length of the message in bits,
written in `lengthBytes` bytes at the end of a block of `block` bytes. -/
def Bytes.padMessage (block lengthBytes : Nat) (message : Bytes) : Bytes :=
  let used := message.length + 1 + lengthBytes
  message ++ 0x80 :: List.replicate ((block - used % block) % block) 0
    ++ Bytes.ofNatWidth lengthBytes (8 * message.length)

namespace Sha1

/-- The word rotated left by `count` bits. -/
@[inline] def rotateLeft (x : UInt32) (count : UInt32) : UInt32 :=
  (x <<< count) ||| (x >>> (32 - count))

/-- A chaining value. -/
structure State where
  a : UInt32
  b : UInt32
  c : UInt32
  d : UInt32
  e : UInt32

/-- The chaining value before the first block. -/
def initial : State :=
  ⟨0x67452301, 0xefcdab89, 0x98badcfe, 0x10325476, 0xc3d2e1f0⟩

/-- The words of a block after `count` more of them, latest first. -/
def expand : Nat → List UInt32 → List UInt32
  | 0, ws => ws
  | count + 1, ws =>
      let next := ws.getD 2 0 ^^^ ws.getD 7 0 ^^^ ws.getD 13 0 ^^^ ws.getD 15 0
      expand count (rotateLeft next 1 :: ws)

/-- The eighty words of a block. -/
def schedule (block : Bytes) : List UInt32 :=
  (expand 64 ((block.chunks 4).map Bytes.toUInt32).reverse).reverse

/-- The mixing function and the constant of a step. -/
def mixing (step : Nat) (b c d : UInt32) : UInt32 × UInt32 :=
  if step < 20 then ((b &&& c) ||| (~~~b &&& d), 0x5a827999)
  else if step < 40 then (b ^^^ c ^^^ d, 0x6ed9eba1)
  else if step < 60 then ((b &&& c) ||| (b &&& d) ||| (c &&& d), 0x8f1bbcdc)
  else (b ^^^ c ^^^ d, 0xca62c1d6)

/-- The state after the steps that start at number `step`, one for each word. -/
def steps : Nat → List UInt32 → State → State
  | _, [], s => s
  | step, w :: ws, s =>
      let (f, k) := mixing step s.b s.c s.d
      let t := rotateLeft s.a 5 + f + s.e + k + w
      steps (step + 1) ws ⟨t, s.a, rotateLeft s.b 30, s.c, s.d⟩

/-- The chaining value after one block. -/
def compress (s : State) (block : Bytes) : State :=
  let t := steps 0 (schedule block) s
  ⟨s.a + t.a, s.b + t.b, s.c + t.c, s.d + t.d, s.e + t.e⟩

/-- The twenty bytes of a chaining value. -/
def State.toBytes (s : State) : Bytes :=
  [s.a, s.b, s.c, s.d, s.e].flatMap Bytes.ofUInt32

/-- The digest of a message. -/
def digest (message : Bytes) : Bytes :=
  (((message.padMessage 64 8).chunks 64).foldl compress initial).toBytes

/-- A digest has twenty bytes. -/
theorem length_digest (message : Bytes) : (digest message).length = 20 := rfl

end Sha1

end TrustedPlatform
