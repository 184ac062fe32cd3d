import TrustedPlatform.Integer.FixedNat

/-!
# Arithmetic on numbers of fixed capacity

Each operation computes its exact result in a scratch area of `FixedNat.scratchLimbs` limbs and
then moves it into a buffer of the requested capacity. It is fatal for the result to need more
scratch than there is, or more room than the buffer has; subtraction is fatal as well when the
subtrahend is the larger number.
-/

namespace TrustedPlatform

namespace FixedNat

/-- The number of limbs in the scratch area: two moduli of 4096 bits and two limbs for carries. -/
def scratchLimbs : Nat := 130

/-- A computation that needs `count` limbs of scratch, refused when there are not as many. -/
def withScratch (count : Nat) (limbs : Limbs) (capacity : Nat) : Checked FixedNat :=
  if scratchLimbs < count then .error (.fatal .allocation) else ofLimbs? capacity limbs

/-- The sum of two numbers. -/
def add (capacity : Nat) (a b : FixedNat) : Checked FixedNat :=
  withScratch (max a.size b.size + 1) (Limbs.add a.words b.words false) capacity

/-- The sum of a number and a word. -/
def addWord (capacity : Nat) (a : FixedNat) (w : Word) : Checked FixedNat :=
  add capacity a (ofWord w 1)

/-- The difference of two numbers; fatal when the second is the larger. -/
def sub (capacity : Nat) (a b : FixedNat) : Checked FixedNat :=
  if a.compare b = .lt then .error (.fatal .parameter)
  else withScratch a.size (Limbs.sub a.words b.words false) capacity

/-- The difference of a number and a word; fatal when the word is the larger. -/
def subWord (capacity : Nat) (a : FixedNat) (w : Word) : Checked FixedNat :=
  sub capacity a (ofWord w 1)

/-- The product of two numbers. -/
def mul (capacity : Nat) (a b : FixedNat) : Checked FixedNat :=
  if scratchLimbs < a.size + b.size then .error (.fatal .allocation)
  else ofLimbs? capacity (Limbs.mul a.words b.words)

/-- The number times a power of two. -/
def shiftLeft (capacity : Nat) (a : FixedNat) (bits : Nat) : Checked FixedNat :=
  if a.isZero then .ok (zero capacity)
  else if scratchLimbs < a.size + bits / 64 + 1 then .error (.fatal .allocation)
  else ofLimbs? capacity (a.words.shiftLeft bits)

/-- The quotient of the number by a power of two. -/
def shiftRight (capacity : Nat) (a : FixedNat) (bits : Nat) : Checked FixedNat :=
  if a.size ≤ bits / 64 then .ok (zero capacity)
  else withScratch (a.size - bits / 64) (a.words.shiftRight bits) capacity

end FixedNat

end TrustedPlatform
