import TrustedPlatform.Integer.Arithmetic
import TrustedPlatform.Integer.LongDivision

/-!
# Division of numbers of fixed capacity

`FixedNat.division` gives the limbs of quotient and remainder, and the other operations move the
part they need into a buffer. Division by zero is fatal. The greatest common divisor is found by
repeated remainders.
-/

namespace TrustedPlatform

namespace FixedNat

/-- The limbs of the quotient and of the remainder of a division. -/
def division (a d : FixedNat) : Checked Limbs.Division :=
  if d.isZero then .error (.fatal .divideByZero)
  else if scratchLimbs < a.size ∨ scratchLimbs < d.size then .error (.fatal .allocation)
  else if a.compare d = .lt then .ok ⟨[], a.words⟩
  else .ok (Limbs.div a.words d.words)

/-- The quotient and the remainder of a division, each with its own capacity. -/
def divRem (quotientCapacity remainderCapacity : Nat) (a d : FixedNat) :
    Checked (FixedNat × FixedNat) := do
  let result ← division a d
  let q ← ofLimbs? quotientCapacity result.quotient
  let r ← ofLimbs? remainderCapacity result.remainder
  return (q, r)

/-- The remainder of a division. -/
def mod (capacity : Nat) (a d : FixedNat) : Checked FixedNat := do
  let result ← division a d
  ofLimbs? capacity result.remainder

/-- The remainder of a list of scratch limbs by a number. -/
def modLimbs (capacity : Nat) (a : Limbs) (d : FixedNat) : Checked FixedNat :=
  if d.isZero then .error (.fatal .divideByZero)
  else
    let a := a.trim
    if a.length < d.size then ofLimbs? capacity a
    else ofLimbs? capacity (Limbs.div a d.words).remainder

/-- The remainder of a number by a word. -/
def modWord (a : FixedNat) (w : Word) : Checked Word :=
  if w = 0 then .error (.fatal .divideByZero) else .ok (Limbs.modWord w a.words)

/-- The last number that is not zero in the sequence of remainders that starts with `x`, `y`. Two
steps at least halve a number, so twice its bit length and one more are enough of them. -/
def remainderSequence (capacity : Nat) : Nat → FixedNat → FixedNat → Checked FixedNat
  | 0, _, _ => .error (.fatal .internal)
  | steps + 1, x, y =>
      if y.isZero then .ok x
      else do
        let r ← mod capacity x y
        remainderSequence capacity steps y r

/-- The greatest common divisor of two numbers. -/
def gcd (capacity : Nat) (a b : FixedNat) : Checked FixedNat := do
  let working := max (max a.size b.size) 1
  let x ← a.resized working
  let y ← b.resized working
  let g ← remainderSequence working (2 * b.bitLength + 2) x y
  g.resized capacity

end FixedNat

end TrustedPlatform
