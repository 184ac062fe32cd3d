import TrustedPlatform.Integer.ScratchDivision

/-!
# Arithmetic in a scratch area

Sums, differences, products, shifts, masks and the comparison carried out in place: limb by limb in
arrays of fixed length, with a word for each carry and borrow and a double word for each partial
product. As in the division, `none` stands for an access out of bounds or an overflow.
-/

namespace TrustedPlatform.Limbs.Scratch

/-! ### Arrays -/

/-- The whole scratch area, cleared. -/
def area : Limbs :=
  List.replicate FixedNat.scratchLimbs 0

/-- The first limbs of an array, which has as many. -/
def slice (length : Nat) (xs : Limbs) : Option Limbs :=
  if length ≤ xs.length then some (xs.take length) else none

/-- The array with `count` limbs from position `i` computed one by one, the lowest first. -/
def fillUp (limb : Nat → Option Word) : Nat → Nat → Limbs → Option Limbs
  | 0, _, xs => some xs
  | count + 1, i, xs => do
      let xs ← store xs i (← limb i)
      fillUp limb count (i + 1) xs

/-! ### Sums and differences -/

/-- The low word of a sum, and whether the sum overflowed. -/
def overflowingAdd (x y : Word) : Word × Bool :=
  (x + y, UInt64.size ≤ x.toNat + y.toNat)

/-- The low word of a difference, and whether the difference went below zero. -/
def overflowingSub (x y : Word) : Word × Bool :=
  (x - y, x.toNat < y.toNat)

/-- Two words and a carry, added one after the other; either addition may overflow. -/
def carrying (x y carry : Word) : Word × Bool :=
  let (t, c1) := overflowingAdd x y
  let (t, c2) := overflowingAdd t carry
  (t, c1 || c2)

/-- A word less a word and a borrow, taken away one after the other; either may go below zero. -/
def borrowing (x y borrow : Word) : Word × Bool :=
  let (t, b1) := overflowingSub x y
  let (t, b2) := overflowingSub t borrow
  (t, b1 || b2)

/-- The array with a step taken at `count` limbs from position `i`, each handing its flag to the
next, and the last flag. Beyond its size a number has zero limbs. -/
def ripple (step : Word → Word → Word → Word × Bool) (a b : FixedNat) :
    Nat → Nat → Limbs → Word → Option (Limbs × Word)
  | 0, _, scratch, flag => some (scratch, flag)
  | count + 1, i, scratch, flag => do
      let (t, next) := step (a.word i) (b.word i) flag
      let scratch ← store scratch i t
      ripple step a b count (i + 1) scratch next.toUInt64

/-- The limbs of a sum, with the last carry on top. -/
def sum (a b : FixedNat) : Option Limbs := do
  let length := max a.size b.size
  let (scratch, carry) ← ripple carrying a b length 0 area 0
  let scratch ← store scratch length carry
  slice (length + 1) scratch

/-- The limbs of a difference, without its last borrow. -/
def difference (a b : FixedNat) : Option Limbs := do
  let (scratch, _) ← ripple borrowing a b a.size 0 area 0
  slice a.size scratch

/-! ### Products -/

/-- The array with `x` times `count` limbs of the list from position `j` added at position `i + j`,
and the carry. -/
def addRow (x : Word) (ys : Limbs) (i : Nat) : Nat → Nat → Limbs → Nat → Option (Limbs × Nat)
  | 0, _, out, carry => some (out, carry)
  | count + 1, j, out, carry => do
      let t ← unsigned (x.toNat * (← ys[j]?).toNat)
      let t ← unsigned (t + (← out[i + j]?).toNat)
      let t ← unsigned (t + carry)
      let out ← store out (i + j) (UInt64.ofNat t)
      addRow x ys i count (j + 1) out (t / UInt64.size)

/-- The array with the rows of `count` limbs of the first list from position `i`, each row with its
carry on top. -/
def addRows (xs ys : Limbs) : Nat → Nat → Limbs → Option Limbs
  | 0, _, out => some out
  | count + 1, i, out => do
      let (out, carry) ← addRow (← xs[i]?) ys i ys.length 0 out 0
      let out ← store out (i + ys.length) (UInt64.ofNat carry)
      addRows xs ys count (i + 1) out

/-- The limbs of a product. -/
def product (a b : FixedNat) : Option Limbs := do
  addRows a.words b.words a.words.length 0 (← array (a.size + b.size))

/-! ### Shifts and masks -/

/-- The array with `count` limbs from position `i` shifted left by whole words and `bits` bits; what
a limb spills is in the limb above before that one is reached. -/
def shiftUp (a : FixedNat) (words bits : Nat) : Nat → Nat → Limbs → Option Limbs
  | 0, _, scratch => some scratch
  | count + 1, i, scratch => do
      let w := a.word i
      if bits = 0 then do
        let scratch ← store scratch (i + words) w
        shiftUp a words bits count (i + 1) scratch
      else do
        let below ← scratch[i + words]?
        let scratch ← store scratch (i + words) (below ||| (← shiftLeft w bits))
        let scratch ← store scratch (i + words + 1) (← shiftRight w (64 - bits))
        shiftUp a words bits count (i + 1) scratch

/-- The limbs of a number shifted left. -/
def shiftedLeft (a : FixedNat) (bits : Nat) : Option Limbs := do
  let scratch ← shiftUp a (bits / 64) (bits % 64) a.size 0 area
  slice (a.size + bits / 64 + 1) scratch

/-- A limb of a number shifted right by whole words and `bits` bits. -/
def shiftedLimb (a : FixedNat) (words bits i : Nat) : Option Word := do
  let low := a.word (i + words)
  if bits = 0 then return low
  else return (← shiftRight low bits) ||| (← shiftLeft (a.word (i + words + 1)) (64 - bits))

/-- The limbs of a number shifted right. -/
def shiftedRight (a : FixedNat) (bits : Nat) : Option Limbs := do
  let length := a.size - bits / 64
  let scratch ← fillUp (shiftedLimb a (bits / 64) (bits % 64)) length 0 area
  slice length scratch

/-- A limb of a buffer with every bit at or above position `bits` cleared. -/
def maskedLimb (xs : Limbs) (bits i : Nat) : Option Word := do
  let w ← xs[i]?
  if bits / 64 < i ∨ (i = bits / 64 ∧ bits % 64 = 0) then return 0
  else if i = bits / 64 then return w &&& ((← shiftLeft 1 (bits % 64)) - 1)
  else return w

/-- The buffer of a number with every bit at or above position `bits` cleared. -/
def masked (a : FixedNat) (bits : Nat) : Option Limbs :=
  fillUp (maskedLimb a.limbs bits) a.capacity 0 a.limbs

/-! ### Order -/

/-- A truth value as an integer. -/
def flag (p : Prop) [Decidable p] : Int :=
  if p then 1 else 0

/-- A comparison taken one limb further down: the first limbs to differ decide it. -/
def decideLimb (x y : Word) (result : Int) : Int :=
  result + flag (result = 0) * (flag (y < x) - flag (x < y))

/-- A comparison taken through all limbs below a position, the highest first. -/
def scan (a b : FixedNat) : Nat → Int → Int
  | 0, result => result
  | i + 1, result => scan a b i (decideLimb (a.limbs.get i) (b.limbs.get i) result)

/-- The order of two numbers, from every limb of the wider buffer. -/
def order (a b : FixedNat) : Ordering :=
  Ord.compare (scan a b (max a.capacity b.capacity) 0) 0

end TrustedPlatform.Limbs.Scratch
