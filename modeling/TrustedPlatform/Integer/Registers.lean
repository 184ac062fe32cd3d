import TrustedPlatform.Integer.Modular

/-!
# A register file of fixed-capacity numbers

An `Instruction` writes its result into registers, and `Registers.step` says what the file holds
afterwards, whether the instruction succeeded or not. Arithmetic keeps the capacity of the register
it writes; a refused instruction leaves the file as it was, except that a division may already
have written its quotient when the remainder finds no room.
-/

namespace TrustedPlatform

/-- A file of numbered registers. -/
abbrev Registers := Nat → FixedNat

/-- An instruction of the register file. The first register named is the one written. -/
inductive Instruction where
  /-- A fresh zero with the given capacity in limbs. -/
  | create (r capacity : Nat)
  /-- A fresh zero with room for a number of bits. -/
  | createBits (r bits : Nat)
  /-- A fresh single word with the given capacity. -/
  | createWord (r : Nat) (w : Word) (capacity : Nat)
  /-- A fresh number as wide as its bytes. -/
  | createBytes (r : Nat) (bytes : Bytes)
  /-- A fresh number with the given capacity. -/
  | createBytesWithin (r : Nat) (bytes : Bytes) (capacity : Nat)
  /-- A fresh copy with another capacity. -/
  | createResized (r a capacity : Nat)
  /-- The number that bytes denote. -/
  | setBytes (r : Nat) (bytes : Bytes)
  /-- A single word. -/
  | setWord (r : Nat) (w : Word)
  /-- Zero. -/
  | setZero (r : Nat)
  /-- The used size, recomputed. -/
  | normalize (r : Nat)
  /-- The low bits alone. -/
  | maskBits (r bits : Nat)
  /-- One more bit set. -/
  | setBit (r bit : Nat)
  /-- The number of another register. -/
  | copy (r a : Nat)
  /-- A sum. -/
  | add (r a b : Nat)
  /-- A difference. -/
  | sub (r a b : Nat)
  /-- A product. -/
  | mul (r a b : Nat)
  /-- A greatest common divisor. -/
  | gcd (r a b : Nat)
  /-- A sum with a word. -/
  | addWord (r a : Nat) (w : Word)
  /-- A difference with a word. -/
  | subWord (r a : Nat) (w : Word)
  /-- A product with a power of two. -/
  | shiftLeft (r a bits : Nat)
  /-- A quotient by a power of two. -/
  | shiftRight (r a bits : Nat)
  /-- A product modulo a third register. -/
  | modMul (r a b m : Nat)
  /-- A power modulo a third register. -/
  | modPow (r a b m : Nat)
  /-- An inverse modulo another register; nothing is written when there is none. -/
  | modInverse (r a m : Nat)
  /-- A quotient and a remainder, each written only when a register is named for it. -/
  | divRem (quotient remainder : Option Nat) (a d : Nat)

namespace Registers

/-- The file with one register replaced. -/
def set (file : Registers) (r : Nat) (a : FixedNat) : Registers :=
  fun i => if i = r then a else file i

/-- A file whose registers are all zero, with one limb each. -/
def initial : Registers :=
  fun _ => FixedNat.zero 1

/-- Write a computed number, or keep the file when there is none. The flag tells whether the
register was written. -/
def write (file : Registers) (r : Nat) : Checked FixedNat → Registers × Checked Bool
  | .ok a => (file.set r a, .ok true)
  | .error e => (file, .error e)

/-- Write a part of a division when a register is named for it. -/
def writeLimbs (file : Registers) (target : Option Nat) (ws : Limbs) : Registers × Checked Bool :=
  match target with
  | none => (file, .ok true)
  | some r => file.write r (FixedNat.ofLimbs? (file r).capacity ws)

/-- Write the parts of a division, the quotient first. -/
def writeDivision (file : Registers) (quotient remainder : Option Nat) :
    Checked Limbs.Division → Registers × Checked Bool
  | .error e => (file, .error e)
  | .ok result =>
      match file.writeLimbs quotient result.quotient with
      | (file, .error e) => (file, .error e)
      | (file, .ok _) => file.writeLimbs remainder result.remainder

/-- The file after an instruction, and whether the instruction wrote its target or why it was
refused. -/
def step (file : Registers) : Instruction → Registers × Checked Bool
  | .create r capacity => file.write r (.ok (.zero capacity))
  | .createBits r bits => file.write r (.ok (.zeroOfBits bits))
  | .createWord r w capacity => file.write r (.ok (.ofWord w capacity))
  | .createBytes r bytes => file.write r (.ok (.ofBytes bytes))
  | .createBytesWithin r bytes capacity => file.write r (FixedNat.ofBytes? capacity bytes)
  | .createResized r a capacity => file.write r ((file a).resized capacity)
  | .setBytes r bytes => file.write r (FixedNat.ofBytes? (file r).capacity bytes)
  | .setWord r w => file.write r (.ok (.ofWord w (file r).capacity))
  | .setZero r => file.write r (.ok (.zero (file r).capacity))
  | .normalize r => file.write r (.ok (file r).normalize)
  | .maskBits r bits => file.write r (.ok ((file r).maskBits bits))
  | .setBit r bit => file.write r ((file r).setBit bit)
  | .copy r a => file.write r ((file a).resized (file r).capacity)
  | .add r a b => file.write r (FixedNat.add (file r).capacity (file a) (file b))
  | .sub r a b => file.write r (FixedNat.sub (file r).capacity (file a) (file b))
  | .mul r a b => file.write r (FixedNat.mul (file r).capacity (file a) (file b))
  | .gcd r a b => file.write r (FixedNat.gcd (file r).capacity (file a) (file b))
  | .addWord r a w => file.write r (FixedNat.addWord (file r).capacity (file a) w)
  | .subWord r a w => file.write r (FixedNat.subWord (file r).capacity (file a) w)
  | .shiftLeft r a bits => file.write r (FixedNat.shiftLeft (file r).capacity (file a) bits)
  | .shiftRight r a bits => file.write r (FixedNat.shiftRight (file r).capacity (file a) bits)
  | .modMul r a b m => file.write r
      (FixedNat.modMul (file r).capacity (file a) (file b) (file m))
  | .modPow r a b m => file.write r
      (FixedNat.modPow (file r).capacity (file a) (file b) (file m))
  | .modInverse r a m =>
      match FixedNat.modInverse (file r).capacity (file a) (file m) with
      | .ok (some inverse) => (file.set r inverse, .ok true)
      | .ok none => (file, .ok false)
      | .error e => (file, .error e)
  | .divRem quotient remainder a d =>
      file.writeDivision quotient remainder ((file a).division (file d))

end Registers

end TrustedPlatform
