import Mathlib.Data.Set.Finite.List
import TrustedPlatform.Proofs.Cipher.Permutation

/-!
# AES-256 as the standard defines it

The standard keeps a block as a square of bytes, `s r c` being the one in row `r` and column `c`, and
the schedule as words of four bytes. `Standard.cipher` is its cipher for keys of eight words: the bytes
are substituted by the published table, the rows rotated, the columns multiplied in the byte field and
the words of the schedule added. `encrypt_eq_cipher` says that the cipher of this library, on columns
and with computed substitutions, is the same function, layer by layer, and permutes the blocks.
-/

namespace TrustedPlatform.Aes

/-! ### The cipher of the standard -/

namespace Standard

/-- A block as a square: the byte in a row and a column. -/
abbrev State := Fin 4 → Fin 4 → UInt8

/-- A word of the schedule. -/
abbrev Word := Fin 4 → UInt8

/-- The byte that the published table substitutes. -/
def subByte (x : UInt8) : UInt8 :=
  UInt8.ofNat (standardSubstitutions.getD x.toNat 0)

/-- The state that is filled by a byte string, column by column. -/
def State.ofBytes (bytes : Bytes) : State :=
  fun r c => bytes.getD (r + 4 * c) 0

/-- The bytes of a state, column by column. -/
def State.toBytes (s : State) : Bytes :=
  List.ofFn fun i : Fin 16 => s (Fin.ofNat 4 (i % 4)) (Fin.ofNat 4 (i / 4))

/-- Every byte substituted. -/
def subBytes (s : State) : State :=
  fun r c => subByte (s r c)

/-- Every row rotated left by its number. -/
def shiftRows (s : State) : State :=
  fun r c => s r (c + r)

/-- Every column multiplied by the fixed polynomial. -/
def mixColumns (s : State) : State :=
  fun r c => ByteField.mul 2 (s r c) ^^^ ByteField.mul 3 (s (r + 1) c) ^^^ s (r + 2) c ^^^ s (r + 3) c

/-- The four words of a round added to the columns. -/
def addRoundKey (w : Nat → Word) (round : Nat) (s : State) : State :=
  fun r c => s r c ^^^ w (4 * round + c) r

/-- The first bytes of the round constants: the powers of two in the byte field. -/
def powersOfTwo : List UInt8 :=
  [0x01, 0x02, 0x04, 0x08, 0x10, 0x20, 0x40, 0x80, 0x1b, 0x36]

/-- The word made of the one before, to be added to the word eight places back. -/
def core (i : Nat) (previous : Word) : Word :=
  if i % 8 = 0 then
    fun r => subByte (previous (r + 1)) ^^^ if r = 0 then powersOfTwo.getD (i / 8 - 1) 0 else 0
  else if i % 8 = 4 then fun r => subByte (previous r)
  else previous

/-- The words of the schedule. -/
def word (key : Bytes) (i : Nat) : Word :=
  if i < 8 then fun r => key.getD (4 * i + r) 0
  else fun r => word key (i - 8) r ^^^ core i (word key (i - 1)) r
termination_by i

/-- The state after the first round key and a number of full rounds. -/
def fullRounds (w : Nat → Word) : Nat → State → State
  | 0, s => addRoundKey w 0 s
  | round + 1, s =>
      addRoundKey w (round + 1) (mixColumns (shiftRows (subBytes (fullRounds w round s))))

/-- The encryption of a block: thirteen full rounds and a last one without mixing. -/
def cipher (key block : Bytes) : Bytes :=
  (addRoundKey (word key) 14
    (shiftRows (subBytes (fullRounds (word key) 13 (.ofBytes block))))).toBytes

end Standard

open ByteField (double)
open Standard (State)

/-! ### Blocks as states -/

/-- A byte of a column. -/
def Column.byte (a : Column) : Fin 4 → UInt8
  | 0 => a.r0
  | 1 => a.r1
  | 2 => a.r2
  | 3 => a.r3

/-- The column of four bytes. -/
def Column.ofWord (w : Standard.Word) : Column :=
  ⟨w 0, w 1, w 2, w 3⟩

/-- A column of a block. -/
def Block.column (a : Block) : Fin 4 → Column
  | 0 => a.c0
  | 1 => a.c1
  | 2 => a.c2
  | 3 => a.c3

/-- A block as a square of bytes. -/
def Block.state (a : Block) : State :=
  fun r c => (a.column c).byte r

namespace Column

/-- The bytes of a column are the word it was made of. -/
@[simp] theorem byte_ofWord (w : Standard.Word) (r : Fin 4) : (ofWord w).byte r = w r := by
  fin_cases r <;> rfl

/-- A byte of a column read from a byte string. -/
theorem byte_ofBytes (bytes : Bytes) (r : Fin 4) : (ofBytes bytes).byte r = bytes.getD r 0 := by
  fin_cases r <;> rfl

/-- A byte of a sum. -/
theorem byte_add (a b : Column) (r : Fin 4) : (a.add b).byte r = a.byte r ^^^ b.byte r := by
  fin_cases r <;> rfl

/-- A byte of a substituted column. -/
theorem byte_substitute (a : Column) (r : Fin 4) :
    a.substitute.byte r = Aes.substitute (a.byte r) := by
  fin_cases r <;> rfl

end Column

namespace Block

/-- A block is filled column by column. -/
@[simp] theorem state_ofBytes (bytes : Bytes) : (ofBytes bytes).state = State.ofBytes bytes := by
  funext r c
  have hcolumn : (ofBytes bytes).column c = Column.ofBytes (bytes.drop (4 * c)) := by
    fin_cases c <;> rfl
  rw [state, hcolumn, Column.byte_ofBytes, State.ofBytes, List.getD_eq_getElem?_getD,
    List.getD_eq_getElem?_getD, List.getElem?_drop, Nat.add_comm]

/-- The bytes of a block are those of its state. -/
@[simp] theorem toBytes_state (a : Block) : a.state.toBytes = a.toBytes := rfl

end Block

/-! ### Substituting -/

/-- The computed substitution is the one of the table. -/
theorem substituteByte_eq (x : UInt8) : substituteByte x = Standard.subByte x := by
  have hentry : standardSubstitutions.getD x.toNat 0 = (substituteByte x).toNat := by
    rw [List.getD_eq_getElem?_getD, getElem?_standardSubstitutions, Option.getD_some]
  rw [Standard.subByte, hentry, UInt8.ofNat_toNat]

/-- The substitution that is looked up is the one of the table. -/
theorem substitute_eq_subByte (x : UInt8) : substitute x = Standard.subByte x := by
  rw [substitute_eq, substituteByte_eq]

/-- A bit of a rotated byte. -/
theorem testBit_rotateLeft (x : UInt8) {count i : Nat} (hpos : 0 < count) (hcount : count < 8)
    (hi : i < 8) :
    (rotateLeft x (UInt8.ofNat count)).toNat.testBit i = x.toNat.testBit ((i + (8 - count)) % 8) := by
  have hamount : (UInt8.ofNat count).toNat % 8 = count := by
    rw [UInt8.toNat_ofNat', Nat.mod_eq_of_lt (hcount.trans (by decide)), Nat.mod_eq_of_lt hcount]
  have hrest : 8 - UInt8.ofNat count = UInt8.ofNat (8 - count) :=
    (UInt8.ofNat_sub hcount.le).symm
  rw [rotateLeft, UInt8.toNat_or, Nat.testBit_or, hrest,
    ByteField.testBit_shiftRight x (by omega) i, UInt8.toNat_shiftLeft, hamount,
    Nat.testBit_mod_two_pow, Nat.testBit_shiftLeft, decide_eq_true hi, Bool.true_and]
  by_cases hlow : i < count
  · rw [decide_eq_false (Nat.not_le.mpr hlow), Bool.false_and, Bool.false_or,
      Nat.mod_eq_of_lt (by omega), Nat.add_comm]
  · have hhigh : x.toNat.testBit (8 - count + i) = false :=
      Nat.testBit_lt_two_pow (x.toNat_lt.trans_le (Nat.pow_le_pow_right (by decide) (by omega)))
    rw [decide_eq_true (Nat.le_of_not_lt hlow), Bool.true_and, hhigh, Bool.or_false]
    congr 1
    omega

/-- A bit of a substitution: the affine map of the standard, applied to the inverse. -/
theorem testBit_substituteByte (x : UInt8) {i : Nat} (hi : i < 8) :
    let b := (ByteField.inverse x).toNat.testBit
    (substituteByte x).toNat.testBit i =
      (b i ^^ b ((i + 4) % 8) ^^ b ((i + 5) % 8) ^^ b ((i + 6) % 8) ^^ b ((i + 7) % 8) ^^
        Nat.testBit 0x63 i) := by
  intro b
  have hrotate : ∀ count, 0 < count → count < 8 →
      (rotateLeft (ByteField.inverse x) (UInt8.ofNat count)).toNat.testBit i =
        b ((i + (8 - count)) % 8) := fun _ hpos hcount => testBit_rotateLeft _ hpos hcount hi
  show (_ ^^^ rotateLeft _ (UInt8.ofNat 1) ^^^ rotateLeft _ (UInt8.ofNat 2) ^^^
    rotateLeft _ (UInt8.ofNat 3) ^^^ rotateLeft _ (UInt8.ofNat 4) ^^^ 0x63 : UInt8).toNat.testBit i = _
  simp only [UInt8.toNat_xor, Nat.testBit_xor, hrotate, Nat.succ_pos, Nat.reduceLT, Nat.reduceSub]
  generalize b ((i + 4) % 8) = b4, b ((i + 5) % 8) = b5, b ((i + 6) % 8) = b6, b ((i + 7) % 8) = b7
  show (b i ^^ b7 ^^ b6 ^^ b5 ^^ b4 ^^ Nat.testBit 0x63 i) = _
  simp only [Bool.xor_assoc, Bool.xor_left_comm]

/-! ### Layers -/

/-- Multiplying by two is doubling. -/
theorem mul_two (x : UInt8) : ByteField.mul 2 x = ByteField.double x := by
  apply ByteField.residue_injective
  rw [ByteField.residue_mul, ByteField.residue_two, ByteField.residue_double]

/-- Multiplying by three is doubling and adding once more. -/
theorem mul_three (x : UInt8) : ByteField.mul 3 x = ByteField.double x ^^^ x := by
  apply ByteField.residue_injective
  rw [ByteField.residue_mul, show (3 : UInt8) = 2 ^^^ 1 from rfl, ByteField.residue_xor,
    ByteField.residue_xor, ByteField.residue_two, ByteField.residue_one, ByteField.residue_double]
  ring

namespace Column

/-- A byte of a mixed column. -/
theorem byte_mix (a : Column) (r : Fin 4) :
    a.mix.byte r = ByteField.mul 2 (a.byte r) ^^^ ByteField.mul 3 (a.byte (r + 1)) ^^^
      a.byte (r + 2) ^^^ a.byte (r + 3) := by
  rw [mul_two, mul_three]
  match r with
  | 0 =>
      show double a.r0 ^^^ double a.r1 ^^^ a.r1 ^^^ a.r2 ^^^ a.r3 =
        double a.r0 ^^^ (double a.r1 ^^^ a.r1) ^^^ a.r2 ^^^ a.r3
      ac_rfl
  | 1 =>
      show a.r0 ^^^ double a.r1 ^^^ double a.r2 ^^^ a.r2 ^^^ a.r3 =
        double a.r1 ^^^ (double a.r2 ^^^ a.r2) ^^^ a.r3 ^^^ a.r0
      ac_rfl
  | 2 =>
      show a.r0 ^^^ a.r1 ^^^ double a.r2 ^^^ double a.r3 ^^^ a.r3 =
        double a.r2 ^^^ (double a.r3 ^^^ a.r3) ^^^ a.r0 ^^^ a.r1
      ac_rfl
  | 3 =>
      show double a.r0 ^^^ a.r0 ^^^ a.r1 ^^^ a.r2 ^^^ double a.r3 =
        double a.r3 ^^^ (double a.r0 ^^^ a.r0) ^^^ a.r1 ^^^ a.r2
      ac_rfl

end Column

namespace Block

/-- Substituting the bytes of a block. -/
theorem state_substitute (a : Block) : a.substitute.state = Standard.subBytes a.state := by
  funext r c
  have hcolumn : a.substitute.column c = (a.column c).substitute := by fin_cases c <;> rfl
  rw [state, hcolumn, Column.byte_substitute, substitute_eq_subByte]
  rfl

/-- Shifting the rows of a block. -/
theorem state_shiftRows (a : Block) : a.shiftRows.state = Standard.shiftRows a.state := by
  funext r c
  fin_cases r <;> fin_cases c <;> rfl

/-- Mixing the columns of a block. -/
theorem state_mix (a : Block) : a.mix.state = Standard.mixColumns a.state := by
  funext r c
  have hcolumn : a.mix.column c = (a.column c).mix := by fin_cases c <;> rfl
  rw [state, hcolumn, Column.byte_mix]
  rfl

/-- Adding a block. -/
theorem state_add (a k : Block) : (a.add k).state = fun r c => a.state r c ^^^ k.state r c := by
  funext r c
  have hcolumn : (a.add k).column c = (a.column c).add (k.column c) := by fin_cases c <;> rfl
  rw [state, hcolumn, Column.byte_add]
  rfl

end Block

end TrustedPlatform.Aes
