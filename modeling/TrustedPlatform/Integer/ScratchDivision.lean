import TrustedPlatform.Integer.Arithmetic
import TrustedPlatform.Integer.LongDivision

/-!
# Long division in a scratch area

The division of `Limbs.div` carried out in place: limb by limb in arrays of fixed length, with
every intermediate in a double word. Each position is checked against its array and each
intermediate against the range of its double word, so that `none` stands for an access out of
bounds, for an overflow, or for a division by zero. The estimates of the quotient limbs are kept as
the loop that lowers them leaves them.
-/

namespace TrustedPlatform.Limbs.Scratch

/-! ### Double words and arrays -/

/-- A number in an unsigned double word, unless it overflows. -/
def unsigned (n : Nat) : Option Nat :=
  if n < UInt64.size * UInt64.size then some n else none

/-- The least number too large for a signed double word. -/
def signedLimit : Nat :=
  UInt64.size * UInt64.size / 2

/-- An integer in a signed double word, unless it overflows. -/
def signed (t : Int) : Option Int :=
  if -signedLimit ≤ t ∧ t < signedLimit then some t else none

/-- A word shifted left, by less than its width. -/
def shiftLeft (w : Word) (count : Nat) : Option Word :=
  if count < 64 then some (w <<< UInt64.ofNat count) else none

/-- A word shifted right, by less than its width. -/
def shiftRight (w : Word) (count : Nat) : Option Word :=
  if count < 64 then some (w >>> UInt64.ofNat count) else none

/-- The first `length` limbs of a scratch array, which is no longer than the scratch area. -/
def array (length : Nat) : Option Limbs :=
  if length ≤ FixedNat.scratchLimbs then some (List.replicate length 0) else none

/-- The array with the limb at a position replaced. -/
def store (xs : Limbs) (i : Nat) (w : Word) : Option Limbs :=
  if i < xs.length then some (xs.set i w) else none

/-- The array with its first limbs computed one by one, the highest first. -/
def fill (limb : Nat → Option Word) : Nat → Limbs → Option Limbs
  | 0, xs => some xs
  | i + 1, xs => do
      let xs ← store xs i (← limb i)
      fill limb i xs

/-! ### Division by one limb -/

/-- The quotient limbs below a position, and the remainder. -/
def divideByLimb (d : Word) (a : Limbs) : Nat → Limbs → Nat → Option (Limbs × Nat)
  | 0, quotient, remainder => some (quotient, remainder)
  | i + 1, quotient, remainder =>
      if d = 0 then none
      else do
        let current ← unsigned (remainder * UInt64.size + (← a[i]?).toNat)
        let quotient ← store quotient i (UInt64.ofNat (current / d.toNat))
        divideByLimb d a i quotient (current % d.toNat)

/-! ### Scaling -/

/-- A limb of the list shifted left by `shift`; the limb below gives its high bits. -/
def scaledLimb (shift : Nat) (xs : Limbs) : Nat → Option Word
  | 0 => do shiftLeft (← xs[0]?) shift
  | i + 1 => do
      let w ← xs[i + 1]?
      if shift = 0 then return w
      else return (← shiftLeft w shift) ||| (← shiftRight (← xs[i]?) (64 - shift))

/-- What the highest limb of the list spills when it is shifted left by `shift`. -/
def spilledLimb (shift : Nat) (xs : Limbs) : Option Word :=
  if shift = 0 then some 0
  else do shiftRight (← xs[xs.length - 1]?) (64 - shift)

/-- The list shifted left by `shift`, in an array one limb longer than the scratch area. -/
def scaledDividend (shift : Nat) (xs : Limbs) : Option Limbs := do
  let spill ← spilledLimb shift xs
  let array ← store (List.replicate (FixedNat.scratchLimbs + 1) 0) xs.length spill
  fill (scaledLimb shift xs) xs.length array

/-- A limb of the list shifted right by `shift`; the limb above gives its low bits. -/
def unscaledLimb (shift : Nat) (xs : Limbs) (i : Nat) : Option Word := do
  let w ← xs[i]?
  if shift = 0 then return w
  else return (← shiftRight w shift) ||| (← shiftLeft (← xs[i + 1]?) (64 - shift))

/-! ### One limb of the quotient -/

/-- The estimate does not fit a limb, or its product with the second divisor limb exceeds what the
estimate's remainder leaves. The product is formed only of an estimate that fits a limb. -/
def isTooLarge (next below estimate remainder : Nat) : Option Bool :=
  if UInt64.size ≤ estimate then some true
  else do
    let product ← unsigned (estimate * next)
    let bound ← unsigned (remainder * UInt64.size + below)
    return decide (bound < product)

/-- The estimate lowered while it is too large, until its remainder no longer fits a limb. -/
def lowerEstimate (top next below : Nat) : Nat → Nat → Option Nat
  | 0, remainder => do
      if ← isTooLarge next below 0 remainder then none else some 0
  | estimate + 1, remainder => do
      if ← isTooLarge next below (estimate + 1) remainder then do
        let remainder ← unsigned (remainder + top)
        if UInt64.size ≤ remainder then some estimate
        else lowerEstimate top next below estimate remainder
      else some (estimate + 1)

/-- The estimate of a quotient limb from the three highest limbs `u2 u1 u0` of a window and the
two highest limbs `top next` of the divisor. -/
def estimateLimb (u2 u1 u0 top next : Word) : Option Nat :=
  if top = 0 then none
  else do
    let n ← unsigned (u2.toNat * UInt64.size + u1.toNat)
    lowerEstimate top.toNat next.toNat u0.toNat (n / top.toNat) (n % top.toNat)

/-- The window at position `j` less `estimate` times `count` limbs of the divisor from position
`i`, and what is carried into the limb above. -/
def subtract (estimate : Nat) (divisor : Limbs) (j : Nat) :
    Nat → Nat → Limbs → Int → Option (Limbs × Int)
  | 0, _, dividend, carry => some (dividend, carry)
  | count + 1, i, dividend, carry => do
      let product ← unsigned (estimate * (← divisor[i]?).toNat)
      let difference ← signed ((← dividend[i + j]?).toNat - carry)
      let difference ← signed (difference - (product % UInt64.size : Nat))
      let dividend ← store dividend (i + j) (UInt64.ofInt difference)
      let carry ← signed ((product / UInt64.size : Nat) - difference / UInt64.size)
      subtract estimate divisor j count (i + 1) dividend carry

/-- The window at position `j` with `count` limbs of the divisor from position `i` added, and the
carry into the limb above. -/
def addDivisor (divisor : Limbs) (j : Nat) : Nat → Nat → Limbs → Nat → Option (Limbs × Nat)
  | 0, _, dividend, carry => some (dividend, carry)
  | count + 1, i, dividend, carry => do
      let sum ← unsigned ((← dividend[i + j]?).toNat + (← divisor[i]?).toNat)
      let sum ← unsigned (sum + carry)
      let dividend ← store dividend (i + j) (UInt64.ofNat sum)
      addDivisor divisor j count (i + 1) dividend (sum / UInt64.size)

/-- The window at position `j` with the divisor added to it and the carry to its top limb. -/
def restore (divisor : Limbs) (n j : Nat) (dividend : Limbs) : Option Limbs := do
  let (dividend, carry) ← addDivisor divisor j n 0 dividend 0
  store dividend (j + n) ((← dividend[j + n]?) + UInt64.ofNat carry)

/-- The arrays of a division: the scaled dividend, of which the low limbs that are left and the
remainder so far are in use, and the quotient; with the estimates of the quotient limbs found. -/
structure State where
  dividend : Limbs
  quotient : Limbs
  estimates : List Nat

/-- The estimate of the quotient limb at position `j`. -/
def estimateAt (divisor : Limbs) (n j : Nat) (dividend : Limbs) : Option Nat := do
  estimateLimb (← dividend[j + n]?) (← dividend[j + n - 1]?) (← dividend[j + n - 2]?)
    (← divisor[n - 1]?) (← divisor[n - 2]?)

/-- The step that finds the quotient limb at position `j`: estimate, multiply and subtract, and add
the divisor back when the difference went below zero. -/
def findLimb (divisor : Limbs) (n j : Nat) (s : State) : Option State := do
  let estimate ← estimateAt divisor n j s.dividend
  let (dividend, carry) ← subtract estimate divisor j n 0 s.dividend 0
  let top ← signed ((← dividend[j + n]?).toNat - carry)
  let dividend ← store dividend (j + n) (UInt64.ofInt top)
  let quotient ← store s.quotient j (UInt64.ofNat estimate)
  if top < 0 then do
    let quotient ← store quotient j (UInt64.ofNat estimate - 1)
    let dividend ← restore divisor n j dividend
    return ⟨dividend, quotient, estimate :: s.estimates⟩
  else return ⟨dividend, quotient, estimate :: s.estimates⟩

/-- The quotient limbs below a position, the highest first. -/
def findLimbs (divisor : Limbs) (n : Nat) : Nat → State → Option State
  | 0, s => some s
  | j + 1, s => do
      let s ← findLimb divisor n j s
      findLimbs divisor n j s

/-! ### Whole divisions -/

/-- A division with the estimates of its quotient limbs; there are none when the divisor is a
single limb. -/
structure Run where
  estimates : List Nat
  division : Division

/-- Division of a list by one no longer than it, whose top limb is not zero. -/
def divide (a d : Limbs) : Option Run :=
  let m := a.length
  let n := d.length
  if m < n then none
  else do
    let quotient ← array (m - n + 1)
    let remainder ← array n
    if n = 1 then do
      let (quotient, rest) ← divideByLimb (← d[0]?) a m quotient 0
      let remainder ← store remainder 0 (UInt64.ofNat rest)
      return ⟨[], ⟨quotient, remainder⟩⟩
    else do
      let shift := (← d[n - 1]?).leadingZeros
      let divisor ← fill (scaledLimb shift d) n (List.replicate FixedNat.scratchLimbs 0)
      let dividend ← scaledDividend shift a
      let s ← findLimbs divisor n (m - n + 1) ⟨dividend, quotient, []⟩
      let remainder ← fill (unscaledLimb shift s.dividend) n remainder
      return ⟨s.estimates, ⟨s.quotient, remainder⟩⟩

end TrustedPlatform.Limbs.Scratch
