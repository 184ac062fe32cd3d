/-!
# Limbs

A limb is a 64-bit word. The three steps that every carry chain of this library is made of are
`Word.addCarry`, `Word.subBorrow` and `Word.mulAdd`; each returns the low word of its exact result
together with what is carried into the next limb.
-/

namespace TrustedPlatform

/-- One limb of a multi-precision integer. -/
abbrev Word := UInt64

namespace Word

/-- The number of bits in a limb. -/
def width : Nat := 64

/-- The number of limbs that `bits` bits fill. -/
def countForBits (bits : Nat) : Nat :=
  (bits + 63) / 64

/-- The number of limbs that `bytes` bytes fill. -/
def countForBytes (bytes : Nat) : Nat :=
  (bytes + 7) / 8

/-- The sum of two words and a carry, as the low word and the new carry. -/
@[inline] def addCarry (x y : Word) (carry : Bool) : Word × Bool :=
  let s := x + y
  let t := s + carry.toUInt64
  (t, s < x || t < s)

/-- The difference of two words and a borrow, as the low word and the new borrow. -/
@[inline] def subBorrow (x y : Word) (borrow : Bool) : Word × Bool :=
  let s := x - y
  let t := s - borrow.toUInt64
  (t, x < y || s < t)

/-- The exact value of `x * y + a + c`, as low and high word. The four half-word products are
added in an order in which no partial sum leaves 64 bits. -/
@[inline] def mulAdd (x y a c : Word) : Word × Word :=
  let x0 := x &&& 0xffffffff
  let x1 := x >>> 32
  let y0 := y &&& 0xffffffff
  let y1 := y >>> 32
  let low := x0 * y0
  let middle := x1 * y0 + (low >>> 32)
  let cross := x0 * y1 + (middle &&& 0xffffffff)
  let high := x1 * y1 + (middle >>> 32) + (cross >>> 32)
  let s := x * y
  let t := s + a
  let u := t + c
  (u, high + (t < s : Bool).toUInt64 + (u < t : Bool).toUInt64)

/-- The bits of `x` that a left shift by `count < 64` pushes out of the word. -/
@[inline] def spill (x : Word) (count : Nat) : Word :=
  if count = 0 then 0 else x >>> UInt64.ofNat (64 - count)

/-- The bits of `x` that a right shift by `count < 64` pushes out of the word, at its top. -/
@[inline] def spillRight (x : Word) (count : Nat) : Word :=
  if count = 0 then 0 else x <<< UInt64.ofNat (64 - count)

/-- The number of bits up to and including the highest set bit. -/
def bitLength (x : Word) : Nat :=
  if x = 0 then 0 else x.toNat.log2 + 1

/-- The number of zero bits above the highest set bit. -/
def leadingZeros (x : Word) : Nat :=
  64 - x.bitLength

/-- The first word, or the second when the condition holds, chosen by masking. -/
def select (a b : Word) (condition : Bool) : Word :=
  let mask := 0 - condition.toUInt64
  a ^^^ (mask &&& (a ^^^ b))

end Word

end TrustedPlatform
