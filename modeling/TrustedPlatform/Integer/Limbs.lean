import TrustedPlatform.Integer.Word

/-!
# Lists of limbs

A list of limbs, least significant first, denotes the natural number `Limbs.value`. The operations
here work limb by limb and make room for every carry, so that each of them is exact: the length of
a result depends on the lengths of the operands alone, and `value` commutes with addition,
subtraction of a smaller number, multiplication, shifts and masking.
-/

namespace TrustedPlatform

/-- A list of limbs, least significant first. -/
abbrev Limbs := List Word

namespace Limbs

/-- The natural number that a list of limbs denotes. -/
def value : Limbs → Nat
  | [] => 0
  | w :: ws => w.toNat + UInt64.size * value ws

/-- The number of limbs up to and including the highest one that is not zero. -/
def significant : Limbs → Nat
  | [] => 0
  | w :: ws =>
      match significant ws with
      | 0 => if w = 0 then 0 else 1
      | n + 1 => n + 2

/-- The list without its high zero limbs. -/
def trim (ws : Limbs) : Limbs :=
  ws.take (significant ws)

/-- The order of two lists as numbers, a missing limb counting as zero. Every limb of both lists
is visited. -/
def compare : Limbs → Limbs → Ordering
  | [], [] => .eq
  | x :: xs, [] => (compare xs []).then (Ord.compare x 0)
  | [], y :: ys => (compare [] ys).then (Ord.compare 0 y)
  | x :: xs, y :: ys => (compare xs ys).then (Ord.compare x y)

/-- The sum with a carry, one limb longer than the longer operand. -/
def add : Limbs → Limbs → Bool → Limbs
  | [], [], carry => [carry.toUInt64]
  | x :: xs, [], carry =>
      let (s, c) := Word.addCarry x 0 carry
      s :: add xs [] c
  | [], y :: ys, carry =>
      let (s, c) := Word.addCarry 0 y carry
      s :: add [] ys c
  | x :: xs, y :: ys, carry =>
      let (s, c) := Word.addCarry x y carry
      s :: add xs ys c

/-- The difference with a borrow, as long as the minuend; high limbs of the subtrahend beyond
that length are not read. -/
def sub : Limbs → Limbs → Bool → Limbs
  | [], _, _ => []
  | x :: xs, [], borrow =>
      let (d, b) := Word.subBorrow x 0 borrow
      d :: sub xs [] b
  | x :: xs, y :: ys, borrow =>
      let (d, b) := Word.subBorrow x y borrow
      d :: sub xs ys b

/-- One row of a product: `x * ys` added into an accumulator no longer than `ys`, the last carry
becoming the top limb. -/
def mulRow (x : Word) : Limbs → Limbs → Word → Limbs
  | [], _, carry => [carry]
  | y :: ys, [], carry =>
      let (low, high) := Word.mulAdd x y 0 carry
      low :: mulRow x ys [] high
  | y :: ys, o :: os, carry =>
      let (low, high) := Word.mulAdd x y o carry
      low :: mulRow x ys os high

/-- The schoolbook product of two lists, added to an accumulator no longer than the second one:
each row settles its lowest limb and hands the rest to the next row. -/
def mulAcc : Limbs → Limbs → Limbs → Limbs
  | [], _, acc => acc
  | x :: xs, ys, acc =>
      match mulRow x ys acc 0 with
      | [] => mulAcc xs ys []
      | low :: rest => low :: mulAcc xs ys rest

/-- The schoolbook product. -/
def mul (xs ys : Limbs) : Limbs :=
  mulAcc xs ys []

/-- The list shifted left by `count < 64` bits above the bits of `carry`, one limb longer. -/
def shiftLeftBits (count : Nat) : Limbs → Word → Limbs
  | [], carry => [carry]
  | w :: ws, carry =>
      ((w <<< UInt64.ofNat count) ||| carry) :: shiftLeftBits count ws (w.spill count)

/-- The list shifted right by `count < 64` bits, of the same length. -/
def shiftRightBits (count : Nat) : Limbs → Limbs
  | [] => []
  | [w] => [w >>> UInt64.ofNat count]
  | w :: v :: ws =>
      ((w >>> UInt64.ofNat count) ||| v.spillRight count) :: shiftRightBits count (v :: ws)

/-- The list shifted left by any number of bits. -/
def shiftLeft (ws : Limbs) (bits : Nat) : Limbs :=
  List.replicate (bits / 64) 0 ++ shiftLeftBits (bits % 64) ws 0

/-- The list shifted right by any number of bits. -/
def shiftRight (ws : Limbs) (bits : Nat) : Limbs :=
  shiftRightBits (bits % 64) (ws.drop (bits / 64))

/-- The list with every bit at or above position `bits` cleared, of the same length. -/
def mask : Limbs → Nat → Limbs
  | [], _ => []
  | w :: ws, bits =>
      if 64 ≤ bits then w :: mask ws (bits - 64)
      else (w &&& ((1 <<< UInt64.ofNat bits) - 1)) :: ws.map fun _ => 0

/-- The number of bits up to and including the highest set bit. -/
def bitLength : Limbs → Nat
  | [] => 0
  | w :: ws =>
      match bitLength ws with
      | 0 => w.bitLength
      | n + 1 => n + 1 + 64

/-- The limb at a position, zero beyond the end. -/
def get (ws : Limbs) (i : Nat) : Word :=
  ws.getD i 0

/-- The bit at a position, clear beyond the end. -/
def testBit (ws : Limbs) (bit : Nat) : Bool :=
  (ws.get (bit / 64) >>> UInt64.ofNat (bit % 64)) &&& 1 == 1

end Limbs

end TrustedPlatform
