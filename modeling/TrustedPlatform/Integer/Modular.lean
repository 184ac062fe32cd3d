import TrustedPlatform.Integer.Division

/-!
# Modular arithmetic on numbers of fixed capacity

Products are reduced directly from the scratch area. Powers are taken with windows of four bits:
each window squares four times and multiplies once by an entry of a table of sixteen powers, which
is selected by masking all of them.
Inverses come from the remainder sequence of the modulus and the number, carried along with the
cofactor of the number as a sign and a magnitude.
-/

namespace TrustedPlatform

namespace FixedNat

/-- The product of two numbers modulo a third. -/
def modMul (capacity : Nat) (a b m : FixedNat) : Checked FixedNat :=
  if scratchLimbs < a.size + b.size then .error (.fatal .allocation)
  else modLimbs capacity (Limbs.mul a.words b.words) m

/-! ### Powers -/

/-- The number of bits in a window of an exponent. -/
def windowBits : Nat := 4

/-- The `count` further numbers after `x` in the geometric sequence with ratio `b` modulo `m`,
preceded by `x`. -/
def geometric (capacity : Nat) (b m : FixedNat) : Nat → FixedNat → Checked (List FixedNat)
  | 0, x => .ok [x]
  | count + 1, x => do
      let next ← modMul capacity x b m
      let rest ← geometric capacity b m count next
      return x :: rest

/-- The number after `count` squarings modulo `m`. -/
def squarings (capacity : Nat) (m : FixedNat) : Nat → FixedNat → Checked FixedNat
  | 0, x => .ok x
  | count + 1, x => do
      let y ← modMul capacity x x m
      squarings capacity m count y

/-- The window of an exponent that starts at bit `4 * w`. -/
def window (e : FixedNat) (w : Nat) : Nat :=
  (e.testBit (4 * w + 3)).toNat * 8 + (e.testBit (4 * w + 2)).toNat * 4
    + (e.testBit (4 * w + 1)).toNat * 2 + (e.testBit (4 * w)).toNat

/-- The limbs after every entry of a table was masked into them, of which only the one at `index`
leaves its own; the first entry has position `i`. -/
def maskEntries (index : Nat) : Nat → List FixedNat → Limbs → Limbs
  | _, [], out => out
  | i, entry :: table, out =>
      maskEntries index (i + 1) table
        (out.mapIdx fun j w => Word.select w (entry.word j) (i == index))

/-- The entry of a table at an index, in a buffer of the given capacity. Every limb of every entry
is read. -/
def selectEntry (capacity : Nat) (table : List FixedNat) (index : Nat) : FixedNat :=
  let limbs := maskEntries index 0 table (zero capacity).limbs
  ⟨limbs, limbs.significant⟩

/-- The accumulator after the `count` lowest windows of an exponent, from the highest of them
down. -/
def windowSteps (capacity : Nat) (table : List FixedNat) (e m : FixedNat) :
    Nat → FixedNat → Checked FixedNat
  | 0, acc => .ok acc
  | w + 1, acc => do
      let acc ← squarings capacity m windowBits acc
      let acc ← modMul capacity acc (selectEntry capacity table (e.window w)) m
      windowSteps capacity table e m w acc

/-- The power `base ^ e` modulo `m`. -/
def modPow (capacity : Nat) (base e m : FixedNat) : Checked FixedNat :=
  if m.isZero then .error (.fatal .divideByZero)
  else if m.eqWord 1 then .ok (zero capacity)
  else do
    let working := m.size
    let b ← mod working base m
    let table ← geometric working b m (1 <<< windowBits - 1) (ofWord 1 working)
    let windows := (e.bitLength + windowBits - 1) / windowBits
    let result ← windowSteps working table e m windows (ofWord 1 working)
    result.resized capacity

/-! ### Inverses -/

/-- An integer as a magnitude and a sign. -/
structure Signed where
  magnitude : FixedNat
  negative : Bool

namespace Signed

/-- The difference of an integer and a natural multiple, given as a magnitude with the sign of the
multiplied integer. -/
def sub (capacity : Nat) (x : Signed) (magnitude : FixedNat) (negative : Bool) :
    Checked Signed :=
  if x.negative ≠ negative then do
    let sum ← add capacity x.magnitude magnitude
    return ⟨sum, x.negative⟩
  else if x.magnitude.compare magnitude ≠ .lt then do
    let difference ← FixedNat.sub capacity x.magnitude magnitude
    return ⟨difference, x.negative⟩
  else do
    let difference ← FixedNat.sub capacity magnitude x.magnitude
    return ⟨difference, !x.negative⟩

end Signed

/-- The last remainder that is not zero in the sequence that starts with `r0`, `r1`, with its
cofactor; `t0` and `t1` are the cofactors of `r0` and `r1`. -/
def cofactorSequence (capacity : Nat) :
    Nat → FixedNat → FixedNat → Signed → Signed → Checked (FixedNat × Signed)
  | 0, _, _, _, _ => .error (.fatal .internal)
  | steps + 1, r0, r1, t0, t1 =>
      if r1.isZero then .ok (r0, t0)
      else do
        let (q, r2) ← divRem capacity capacity r0 r1
        let product ← mul capacity q t1.magnitude
        let t2 ← t0.sub capacity product t1.negative
        cofactorSequence capacity steps r1 r2 t1 t2

/-- The inverse of `a` modulo `m`, or `none` when there is none. -/
def modInverse (capacity : Nat) (a m : FixedNat) : Checked (Option FixedNat) :=
  if m.isZero then .error (.fatal .divideByZero)
  else do
    let working := 2 * max m.size a.size + 2
    let r0 ← m.resized working
    let r1 ← mod working a m
    let (divisor, cofactor) ← cofactorSequence working (2 * r1.bitLength + 2) r0 r1
      ⟨zero working, false⟩ ⟨ofWord 1 working, false⟩
    if divisor.eqWord 1 then do
      let reduced ← mod working cofactor.magnitude m
      if cofactor.negative && !reduced.isZero then do
        let positive ← sub working m reduced
        let result ← positive.resized capacity
        return some result
      else do
        let result ← reduced.resized capacity
        return some result
    else return none

end FixedNat

end TrustedPlatform
