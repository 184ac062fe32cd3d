import TrustedPlatform.Integer.Limbs

/-!
# Long division of limbs

Division by one limb takes the quotient limb by limb. Division by two or more limbs scales both
operands until the top bit of the divisor is set, and then estimates each quotient limb from the
three highest limbs of the current window and the two highest of the divisor. The estimate is
exact or one too large, so a single addition mends a subtraction that went below zero.
-/

namespace TrustedPlatform

namespace Limbs

/-- A quotient with its remainder. -/
structure Division where
  quotient : Limbs
  remainder : Limbs

/-- Division by a single limb, the quotient as long as the dividend. -/
def divWord (d : Word) : Limbs → Limbs × Word
  | [] => ([], 0)
  | w :: ws =>
      let (q, r) := divWord d ws
      let current := r.toNat * UInt64.size + w.toNat
      (UInt64.ofNat (current / d.toNat) :: q, UInt64.ofNat (current % d.toNat))

/-- The remainder of a division by a single limb. -/
def modWord (d : Word) (ws : Limbs) : Word :=
  ws.foldr (fun w r => UInt64.ofNat ((r.toNat * UInt64.size + w.toNat) % d.toNat)) 0

/-- Lower an estimated quotient limb while it does not fit a limb or its product with the second
divisor limb exceeds what the estimate's remainder leaves; stop as soon as that remainder itself
no longer fits a limb. -/
def correctEstimate (top next below : Nat) (estimate remainder : Nat) : Nat :=
  if 0 < estimate ∧
      (UInt64.size ≤ estimate ∨ remainder * UInt64.size + below < estimate * next) then
    if UInt64.size ≤ remainder + top then estimate - 1
    else correctEstimate top next below (estimate - 1) (remainder + top)
  else estimate
termination_by estimate

/-- The estimate of a quotient limb from the three highest limbs `u2 u1 u0` of a window and the
two highest limbs `top next` of the divisor. -/
def estimate (u2 u1 u0 top next : Word) : Word :=
  let n := u2.toNat * UInt64.size + u1.toNat
  UInt64.ofNat
    (correctEstimate top.toNat next.toNat u0.toNat (n / top.toNat) (n % top.toNat))

/-- A difference of limbs together with the borrow out of its top limb. -/
structure Difference where
  limbs : Limbs
  borrow : Bool

/-- The window less `q` times the divisor, limb by limb; the limb above the divisor's highest
takes the last carry. -/
def mulSub (q : Word) : Limbs → Limbs → Word → Difference
  | [], _, _ => ⟨[], false⟩
  | u :: _, [], carry => ⟨[u - carry], u < carry⟩
  | u :: us, v :: vs, carry =>
      let (low, high) := Word.mulAdd q v 0 carry
      -- the borrow of this limb joins the carry into the next; the sum does not wrap, because
      -- `low` is zero where `high` is the largest word
      let rest := mulSub q us vs (high + (u < low : Bool).toUInt64)
      ⟨(u - low) :: rest.limbs, rest.borrow⟩

/-- The sum of two lists cut to the length of the second. -/
def addBack : Limbs → Limbs → Bool → Limbs
  | _, [], _ => []
  | [], v :: vs, carry =>
      let (s, c) := Word.addCarry 0 v carry
      s :: addBack [] vs c
  | u :: us, v :: vs, carry =>
      let (s, c) := Word.addCarry u v carry
      s :: addBack us vs c

/-- One step of long division: the quotient limb of a window one limb longer than the divisor,
and the remainder, as long as the divisor. -/
def divStep (window divisor : Limbs) : Word × Limbs :=
  let n := divisor.length
  let q := estimate (window.get n) (window.get (n - 1)) (window.get (n - 2))
    (divisor.get (n - 1)) (divisor.get (n - 2))
  let difference := mulSub q window divisor 0
  -- the top limb of the window ends up zero either way, so the remainder leaves it out
  if difference.borrow then (q - 1, addBack difference.limbs divisor false)
  else (q, difference.limbs.take n)

/-- Long division of a list of low limbs that follow an initial remainder. -/
def divLimbs (divisor : Limbs) : Limbs → Limbs → Division
  | [], remainder => ⟨[], remainder⟩
  | w :: ws, remainder =>
      let high := divLimbs divisor ws remainder
      let (q, r) := divStep (w :: high.remainder) divisor
      ⟨q :: high.quotient, r⟩

/-- Division of a list by one no longer than it, whose top limb is not zero. -/
def div (a d : Limbs) : Division :=
  match d with
  | [] => ⟨[], []⟩
  | [w] =>
      let (q, r) := divWord w a
      ⟨q, [r]⟩
  | d =>
      let n := d.length
      let shift := (d.get (n - 1)).leadingZeros
      let divisor := (shiftLeftBits shift d 0).take n
      let dividend := shiftLeftBits shift a 0
      let k := a.length + 1 - n
      let result := divLimbs divisor (dividend.take k) (dividend.drop k)
      ⟨result.quotient, shiftRightBits shift result.remainder⟩

end Limbs

end TrustedPlatform
