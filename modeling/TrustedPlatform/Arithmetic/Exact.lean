import TrustedPlatform.Arithmetic

/-!
# Exact arithmetic

The natural numbers themselves carry the operations of `Arithmetic`. No operation runs out of
room; what is left to refuse is a zero divisor, a subtraction below zero and an encoding that is
too narrow.
-/

namespace TrustedPlatform

namespace Exact

/-- The power of a number modulo `m`, by squaring. -/
def modPow (m : Nat) (base e : Nat) : Nat :=
  if e = 0 then 1 % m
  else
    let half := modPow m (base * base % m) (e / 2)
    if e % 2 = 1 then base * half % m else half
termination_by e

/-- The greatest common divisor of `r0` and `r1` with its cofactor, where `t0` and `t1` are the
cofactors of `r0` and `r1`. -/
def cofactor (r0 : Nat) : Nat → Int → Int → Nat × Int
  | 0, t0, _ => (r0, t0)
  | r1 + 1, t0, t1 =>
      cofactor (r1 + 1) (r0 % (r1 + 1)) t1 (t0 - (r0 / (r1 + 1) : Nat) * t1)
termination_by r1 => r1
decreasing_by exact Nat.mod_lt _ (Nat.succ_pos r1)

/-- The inverse of `a` modulo `m`, or `none` when there is none. -/
def modInverse (a m : Nat) : Option Nat :=
  let (divisor, t) := cofactor m (a % m) 0 1
  if divisor = 1 then some (t % (m : Int)).toNat else none

/-- The byte string of a given width that denotes a number. -/
def toBytesPadded (a width : Nat) : Checked Bytes :=
  let needed := Bytes.widthOf a
  if width < needed then .error (.length "BigUint encoding" needed width)
  else .ok (Bytes.ofNatWidth width a)

/-- The value of an operation that a zero divisor makes fatal. -/
def unlessZero {β : Type} (d : Nat) (value : Unit → β) : Checked β :=
  if d = 0 then .error (.fatal .divideByZero) else .ok (value ())

end Exact

/-- Arithmetic on the natural numbers. -/
instance : Arithmetic Nat where
  name := "num-bigint"
  ofBytes := Bytes.toNat
  toBytes := Bytes.ofNat
  toBytesPadded := Exact.toBytesPadded
  ofWord w := w.toNat
  isZero a := a == 0
  bitLength a := if a = 0 then 0 else a.log2 + 1
  testBit a bit := a.testBit bit
  compare a b := Ord.compare a b
  add a b := .ok (a + b)
  sub a b := if a < b then .error (.fatal .parameter) else .ok (a - b)
  mul a b := .ok (a * b)
  divRem a d := Exact.unlessZero d fun _ => (a / d, a % d)
  modWord a w := Exact.unlessZero w.toNat fun _ => UInt64.ofNat (a % w.toNat)
  shiftLeft a bits := .ok (a <<< bits)
  shiftRight a bits := .ok (a >>> bits)
  modMul a b m := Exact.unlessZero m fun _ => a * b % m
  modInverse a m := Exact.unlessZero m fun _ => Exact.modInverse a m
  gcd a b := .ok (Nat.gcd a b)
  modPow base e m := Exact.unlessZero m fun _ => Exact.modPow m base e

end TrustedPlatform
