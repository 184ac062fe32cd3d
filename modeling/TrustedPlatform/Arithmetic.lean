import TrustedPlatform.Failure
import TrustedPlatform.Integer.Word

/-!
# Arithmetic of natural numbers

Everything above the integers is written once, over a type that carries the operations of
`Arithmetic`. Two types do: `Nat`, whose operations never run out of room, and `FixedNat`, whose
operations are fatal where an intermediate result leaves the scratch area. The operations derived
here are the same for both.
-/

namespace TrustedPlatform

/-- The operations on natural numbers that curves and keys are computed with. -/
class Arithmetic (α : Type) where
  /-- The name of the arithmetic. -/
  name : String
  /-- The number that a byte string denotes. -/
  ofBytes : Bytes → α
  /-- The shortest byte string that denotes a number. -/
  toBytes : α → Bytes
  /-- The byte string of a given width that denotes a number. -/
  toBytesPadded : α → Nat → Checked Bytes
  /-- A single word. -/
  ofWord : Word → α
  /-- The number is zero. -/
  isZero : α → Bool
  /-- The number of bits up to and including the highest set bit. -/
  bitLength : α → Nat
  /-- The bit at a position. -/
  testBit : α → Nat → Bool
  /-- The order of two numbers. -/
  compare : α → α → Ordering
  /-- The sum of two numbers. -/
  add : α → α → Checked α
  /-- The difference of two numbers; fatal when the second is the larger. -/
  sub : α → α → Checked α
  /-- The product of two numbers. -/
  mul : α → α → Checked α
  /-- The quotient and the remainder of a division; fatal for a zero divisor. -/
  divRem : α → α → Checked (α × α)
  /-- The remainder of a division by a word; fatal for a zero divisor. -/
  modWord : α → Word → Checked Word
  /-- The product with a power of two. -/
  shiftLeft : α → Nat → Checked α
  /-- The quotient by a power of two. -/
  shiftRight : α → Nat → Checked α
  /-- The product of two numbers modulo a third; fatal for a zero modulus. -/
  modMul : α → α → α → Checked α
  /-- The inverse of a number modulo another, or `none`; fatal for a zero modulus. -/
  modInverse : α → α → Checked (Option α)
  /-- The greatest common divisor of two numbers. -/
  gcd : α → α → Checked α
  /-- The power of a number modulo a third; fatal for a zero modulus. -/
  modPow : α → α → α → Checked α

namespace Arithmetic

variable {α : Type} [Arithmetic α]

/-- The remainder of a division. -/
def reduce (a m : α) : Checked α := do
  let (_, r) ← divRem a m
  return r

/-- The sum of two numbers modulo a third. -/
def modAdd (a b m : α) : Checked α := do
  let sum ← add a b
  reduce sum m

/-- The difference of two numbers modulo a third. -/
def modSub (a b m : α) : Checked α := do
  let a ← reduce a m
  let b ← reduce b m
  if compare a b ≠ .lt then sub a b
  else do
    let lifted ← add a m
    sub lifted b

/-- The low bits of a number. -/
def maskBits (a : α) (bits : Nat) : Checked α := do
  let high ← shiftRight a bits
  let high ← shiftLeft high bits
  sub a high

/-- The number equals a single word. -/
def eqWord (a : α) (w : Word) : Bool :=
  compare a (ofWord w) == .eq

/-- The first number is smaller than the second. -/
def lt (a b : α) : Bool :=
  compare a b == .lt

/-- The two numbers are equal. -/
def eq (a b : α) : Bool :=
  compare a b == .eq

end Arithmetic

end TrustedPlatform
