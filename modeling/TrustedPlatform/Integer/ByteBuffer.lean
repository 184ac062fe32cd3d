import TrustedPlatform.Integer.FixedNat

/-!
# Byte strings loaded into buffers and written out of them

The conversions of `FixedNat` carried out in place. A byte string is cut into pieces of eight bytes
from its end, and these replace the limbs of a cleared buffer one after the other; a number is
written into a caller's buffer byte by byte, each byte taken from the limb that holds it. As in the
scratch area, `none` stands for an access out of bounds.
-/

namespace TrustedPlatform.FixedNat.InPlace

/-! ### Loading -/

/-- The byte string cut into pieces of eight bytes from its end; the last piece may be shorter. -/
def endPieces : Bytes → List Bytes
  | [] => []
  | b :: rest =>
      let start := (b :: rest).length - 8
      (b :: rest).drop start :: endPieces ((b :: rest).take start)
termination_by bytes => bytes.length
decreasing_by
  simp only [List.length_take, List.length_cons]
  omega

/-- The limbs, each replaced by the word of the piece at its position. The replacing ends with the
shorter of the two lists. -/
def loadPieces : Limbs → List Bytes → Limbs
  | _ :: ws, piece :: pieces => Bytes.toUInt64 piece :: loadPieces ws pieces
  | ws, _ => ws

/-- A size lowered past the high zero limbs below it. -/
def trimmedSize (ws : Limbs) : Nat → Option Nat
  | 0 => some 0
  | size + 1 => do
      let top ← ws[size]?
      if top = 0 then trimmedSize ws size else return size + 1

/-- The buffer cleared and loaded with the number that a byte string denotes. -/
def load (a : FixedNat) (bytes : Bytes) : Option FixedNat := do
  let ws := loadPieces (a.limbs.map fun _ => 0) (endPieces bytes)
  let size ← trimmedSize ws (min (Word.countForBytes bytes.length) ws.length)
  return ⟨ws, size⟩

/-- The buffer after a byte string without its leading zeros was put into it, or as it was when its
limbs are too few. -/
def setBytes (a : FixedNat) (bytes : Bytes) : Option (FixedNat × Checked Unit) := do
  let bytes := bytes.stripZeros
  if a.capacity < Word.countForBytes bytes.length then return (a, .error (.fatal .allocation))
  else return (← load a bytes, .ok ())

/-! ### Writing -/

/-- The number of bits up to and including the highest set bit, read off the highest used limb. -/
def usedBits (a : FixedNat) : Option Nat :=
  if a.size = 0 then some 0
  else do
    let top ← a.limbs[a.size - 1]?
    return a.size * Word.width - top.leadingZeros

/-- The byte of a number at a rank, zero beyond the used limbs. -/
def byteAt (a : FixedNat) (rank : Nat) : Option UInt8 :=
  if rank / 8 < a.size then do
    let w ← a.limbs[rank / 8]?
    return (w >>> UInt64.ofNat (rank % 8 * 8)).toUInt8
  else some 0

/-- The bytes of a buffer of `length` bytes from position `i` on, each overwritten by the byte of a
number at its rank. -/
def overwriteFrom (a : FixedNat) (length : Nat) : Nat → Bytes → Option Bytes
  | _, [] => some []
  | i, _ :: rest => do
      let b ← byteAt a (length - 1 - i)
      return b :: (← overwriteFrom a length (i + 1) rest)

/-- A caller's buffer after a number was written into all of it, or as it was when it is too
short. -/
def write (a : FixedNat) (buffer : Bytes) : Option (Bytes × Checked Unit) := do
  let needed := ((← usedBits a) + 7) / 8
  if buffer.length < needed then
    return (buffer, .error (.length "BigNum encoding" needed buffer.length))
  else return (← overwriteFrom a buffer.length 0 buffer, .ok ())

/-- The shortest byte string of a number, written into a buffer of just its length. -/
def shortest (a : FixedNat) : Option Bytes := do
  let length := ((← usedBits a) + 7) / 8
  overwriteFrom a length 0 (List.replicate length 0)

end TrustedPlatform.FixedNat.InPlace
