import TrustedPlatform.Bytes
import TrustedPlatform.Cipher.Field

/-!
# AES-256

A block is four columns of four bytes. Encryption adds fifteen round keys to the block; before each
but the first the bytes are substituted and the rows shifted, and in all those rounds but the last
the columns are mixed. The substitution is inversion in the byte field followed by an affine map,
tabulated once.
-/

namespace TrustedPlatform

namespace Aes

/-- A column of a block. -/
structure Column where
  r0 : UInt8
  r1 : UInt8
  r2 : UInt8
  r3 : UInt8
  deriving DecidableEq, Repr

/-- A block. -/
structure Block where
  c0 : Column
  c1 : Column
  c2 : Column
  c3 : Column
  deriving DecidableEq, Repr

/-- A byte rotated left by `count` bits. -/
def rotateLeft (x : UInt8) (count : UInt8) : UInt8 :=
  (x <<< count) ||| (x >>> (8 - count))

/-- The substitution of a byte, computed in the field. -/
def substituteByte (x : UInt8) : UInt8 :=
  let i := ByteField.inverse x
  i ^^^ rotateLeft i 1 ^^^ rotateLeft i 2 ^^^ rotateLeft i 3 ^^^ rotateLeft i 4 ^^^ 0x63

/-- The substitutions of all bytes. -/
def substitutions : Vector UInt8 256 :=
  Vector.ofFn fun i => substituteByte (UInt8.ofNat i)

/-- The substitution of a byte, looked up. -/
@[inline] def substitute (x : UInt8) : UInt8 :=
  substitutions.get ⟨x.toNat, x.toNat_lt⟩

namespace Column

/-- The exclusive-or of two columns. -/
def add (a b : Column) : Column :=
  ⟨a.r0 ^^^ b.r0, a.r1 ^^^ b.r1, a.r2 ^^^ b.r2, a.r3 ^^^ b.r3⟩

/-- The column with each byte substituted. -/
def substitute (a : Column) : Column :=
  ⟨Aes.substitute a.r0, Aes.substitute a.r1, Aes.substitute a.r2, Aes.substitute a.r3⟩

/-- The column with its first byte moved to the end. -/
def rotate (a : Column) : Column :=
  ⟨a.r1, a.r2, a.r3, a.r0⟩

/-- The column times the fixed polynomial of the cipher. -/
def mix (a : Column) : Column :=
  let d0 := ByteField.double a.r0
  let d1 := ByteField.double a.r1
  let d2 := ByteField.double a.r2
  let d3 := ByteField.double a.r3
  ⟨d0 ^^^ d1 ^^^ a.r1 ^^^ a.r2 ^^^ a.r3, a.r0 ^^^ d1 ^^^ d2 ^^^ a.r2 ^^^ a.r3,
    a.r0 ^^^ a.r1 ^^^ d2 ^^^ d3 ^^^ a.r3, d0 ^^^ a.r0 ^^^ a.r1 ^^^ a.r2 ^^^ d3⟩

/-- The bytes of a column. -/
def toBytes (a : Column) : Bytes :=
  [a.r0, a.r1, a.r2, a.r3]

/-- The column of four bytes at a position of a byte string, zero beyond its end. -/
def ofBytes (bytes : Bytes) : Column :=
  ⟨bytes.getD 0 0, bytes.getD 1 0, bytes.getD 2 0, bytes.getD 3 0⟩

end Column

namespace Block

/-- The exclusive-or of two blocks. -/
def add (a b : Block) : Block :=
  ⟨a.c0.add b.c0, a.c1.add b.c1, a.c2.add b.c2, a.c3.add b.c3⟩

/-- The block with each byte substituted. -/
def substitute (a : Block) : Block :=
  ⟨a.c0.substitute, a.c1.substitute, a.c2.substitute, a.c3.substitute⟩

/-- The block with row `r` rotated left by `r` places. -/
def shiftRows (a : Block) : Block :=
  ⟨⟨a.c0.r0, a.c1.r1, a.c2.r2, a.c3.r3⟩, ⟨a.c1.r0, a.c2.r1, a.c3.r2, a.c0.r3⟩,
    ⟨a.c2.r0, a.c3.r1, a.c0.r2, a.c1.r3⟩, ⟨a.c3.r0, a.c0.r1, a.c1.r2, a.c2.r3⟩⟩

/-- The block with each column mixed. -/
def mix (a : Block) : Block :=
  ⟨a.c0.mix, a.c1.mix, a.c2.mix, a.c3.mix⟩

/-- The sixteen bytes of a block. -/
def toBytes (a : Block) : Bytes :=
  a.c0.toBytes ++ a.c1.toBytes ++ a.c2.toBytes ++ a.c3.toBytes

/-- The block of the first sixteen bytes of a byte string, filled up with zeros. -/
def ofBytes (bytes : Bytes) : Block :=
  ⟨Column.ofBytes bytes, Column.ofBytes (bytes.drop 4), Column.ofBytes (bytes.drop 8),
    Column.ofBytes (bytes.drop 12)⟩

end Block

/-! ### Key schedule -/

/-- The constant that enters column `i` of the schedule when `i` is a multiple of eight. -/
def roundConstant (i : Nat) : Column :=
  ⟨1 <<< UInt8.ofNat (i / 8 - 1), 0, 0, 0⟩

/-- The column that is added to the one eight places back to make column `i`. -/
def scheduleCore (i : Nat) (previous : Column) : Column :=
  if i % 8 = 0 then previous.rotate.substitute.add (roundConstant i)
  else if i % 8 = 4 then previous.substitute
  else previous

/-- The columns of the schedule from number `i` on, after `count` more of them, latest first. -/
def expand : Nat → Nat → List Column → List Column
  | _, 0, columns => columns
  | i, count + 1, columns =>
      let previous := columns.getD 0 ⟨0, 0, 0, 0⟩
      let old := columns.getD 7 ⟨0, 0, 0, 0⟩
      expand (i + 1) count (old.add (scheduleCore i previous) :: columns)

/-- The columns of a list, four at a time. -/
def groupBlocks : List Column → List Block
  | c0 :: c1 :: c2 :: c3 :: rest => ⟨c0, c1, c2, c3⟩ :: groupBlocks rest
  | _ => []

/-- The number of rounds under a key of thirty-two bytes. -/
def roundCount : Nat := 14

/-- The round keys of a key of thirty-two bytes, one more than there are rounds. -/
def roundKeys (key : Bytes) : List Block :=
  let columns := (List.range 8).map fun i => Column.ofBytes (key.drop (4 * i))
  groupBlocks (expand 8 (4 * (roundCount + 1) - 8) columns.reverse).reverse

/-! ### Encryption -/

/-- The block after the rounds that use a list of round keys, the last of them without mixing. -/
def rounds : List Block → Block → Block
  | [], a => a
  | [last], a => a.substitute.shiftRows.add last
  | key :: keys, a => rounds keys (a.substitute.shiftRows.mix.add key)

/-- The encryption of a block under expanded round keys. -/
def encryptWith (keys : List Block) (a : Block) : Block :=
  match keys with
  | [] => a
  | first :: rest => rounds rest (a.add first)

/-- The encryption of a block of sixteen bytes under a key of thirty-two. -/
def encrypt (key block : Bytes) : Bytes :=
  (encryptWith (roundKeys key) (Block.ofBytes block)).toBytes

end Aes

end TrustedPlatform
