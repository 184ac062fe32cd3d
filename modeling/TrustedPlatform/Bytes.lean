/-!
# Byte strings

Byte strings are lists of bytes, most significant byte first wherever a number is meant. The
module holds the big-endian reading `Bytes.toNat`, the minimal and the fixed-width writings
`Bytes.ofNat` and `Bytes.ofNatWidth`, and the small operations (bitwise difference, zero
stripping, hexadecimal text) that the formats of this library are built from.
-/

namespace TrustedPlatform

/-- A byte string. -/
abbrev Bytes := List UInt8

namespace Hex

/-- The lower-case digits of `n` in base sixteen, `0` for zero. -/
def ofNat (n : Nat) : String :=
  String.ofList (Nat.toDigits 16 n)

/-- The lower-case digits of `n` in base sixteen, filled up with zeros to `width`. -/
def ofNatPadded (width n : Nat) : String :=
  let digits := Nat.toDigits 16 n
  String.ofList (List.replicate (width - digits.length) '0' ++ digits)

/-- The digit of a value below sixteen. -/
def digit (n : Nat) : Char :=
  Nat.digitChar n

/-- Two lower-case digits for each byte. -/
def ofBytes (bytes : Bytes) : String :=
  String.ofList (bytes.flatMap fun b => [digit (b.toNat / 16), digit (b.toNat % 16)])

end Hex

namespace Bytes

/-- The number that a byte string denotes, most significant byte first. -/
def toNat (bytes : Bytes) : Nat :=
  bytes.foldl (fun n b => n * 256 + b.toNat) 0

/-- The `width` low bytes of `n`, least significant first. -/
def lowBytes : Nat → Nat → Bytes
  | 0, _ => []
  | width + 1, n => UInt8.ofNat n :: lowBytes width (n / 256)

/-- The `width` low bytes of `n`, most significant first. -/
def ofNatWidth (width n : Nat) : Bytes :=
  (lowBytes width n).reverse

/-- The number of bytes needed to write `n`; zero needs none. -/
def widthOf (n : Nat) : Nat :=
  if n = 0 then 0 else n.log2 / 8 + 1

/-- The shortest byte string that denotes `n`. -/
def ofNat (n : Nat) : Bytes :=
  ofNatWidth (widthOf n) n

/-- The byte string without its leading zero bytes. -/
def stripZeros (bytes : Bytes) : Bytes :=
  bytes.dropWhile (· == 0)

/-- The bytewise exclusive-or, as long as the shorter operand. -/
def xor (a b : Bytes) : Bytes :=
  List.zipWith (· ^^^ ·) a b

/-- The byte string cut into pieces of `size` bytes; the last piece may be shorter. -/
def chunks (size : Nat) : Bytes → List Bytes
  | [] => []
  | b :: rest => (b :: rest).take (max size 1) :: chunks size (rest.drop (size - 1))
termination_by bytes => bytes.length
decreasing_by
  simp only [List.length_drop, List.length_cons]
  omega

/-- The byte string filled up on the left with zeros to `width`. -/
def padLeft (width : Nat) (bytes : Bytes) : Bytes :=
  List.replicate (width - bytes.length) 0 ++ bytes

/-- Two byte strings are equal when they have one length and the disjunction of their bytewise
differences is zero; every byte of both is read. -/
def ctEq (a b : Bytes) : Bool :=
  a.length == b.length && (xor a b).foldl (· ||| ·) 0 == 0

/-- The four bytes of a 32-bit word, most significant first. -/
def ofUInt32 (w : UInt32) : Bytes :=
  [(w >>> 24).toUInt8, (w >>> 16).toUInt8, (w >>> 8).toUInt8, w.toUInt8]

/-- The eight bytes of a 64-bit word, most significant first. -/
def ofUInt64 (w : UInt64) : Bytes :=
  [(w >>> 56).toUInt8, (w >>> 48).toUInt8, (w >>> 40).toUInt8, (w >>> 32).toUInt8,
    (w >>> 24).toUInt8, (w >>> 16).toUInt8, (w >>> 8).toUInt8, w.toUInt8]

/-- The 32-bit word that a byte string denotes, high bytes beyond four being lost. -/
def toUInt32 (bytes : Bytes) : UInt32 :=
  bytes.foldl (fun w b => (w <<< 8) ||| b.toUInt32) 0

/-- The 64-bit word that a byte string denotes, high bytes beyond eight being lost. -/
def toUInt64 (bytes : Bytes) : UInt64 :=
  bytes.foldl (fun w b => (w <<< 8) ||| b.toUInt64) 0

end Bytes

end TrustedPlatform
