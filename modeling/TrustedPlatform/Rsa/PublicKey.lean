import TrustedPlatform.Failure

/-!
# Public keys

A public key is an odd modulus of 512 to 4096 bits, written without leading zeros, with an odd
exponent above one. `PublicKey.ofModulus?` refuses everything else and names the first rule that
is broken.
-/

namespace TrustedPlatform

/-- The number of bits up to and including the highest set bit. -/
def Bytes.bitLength (bytes : Bytes) : Nat :=
  match bytes.stripZeros with
  | [] => 0
  | b :: rest => 8 * rest.length + (b.toNat.log2 + 1)

/-- The lowest bit of the number is set. -/
def Bytes.isOdd (bytes : Bytes) : Bool :=
  (bytes.getLastD 0) &&& 1 == 1

/-- Leading zeros are stripped once. -/
theorem Bytes.stripZeros_stripZeros (bytes : Bytes) :
    bytes.stripZeros.stripZeros = bytes.stripZeros := by
  unfold Bytes.stripZeros
  induction bytes with
  | nil => rfl
  | cons b rest ih =>
      by_cases h : b = 0
      · simpa [List.dropWhile_cons, h] using ih
      · simp [h]

namespace Rsa

/-- The number of bits in the largest modulus. -/
abbrev maxModulusBits : Nat := 4096

/-- The number of bits in the smallest modulus of a key that is used. -/
abbrev minModulusBits : Nat := 512

/-- The number of bits in the smallest modulus that is generated. -/
abbrev minGeneratedBits : Nat := 1024

/-- The exponent that stands in for zero. -/
abbrev defaultExponent : UInt32 := 65537

/-- The given exponent, or the default one for zero. -/
def exponentOrDefault (exponent : UInt32) : UInt32 :=
  if exponent = 0 then defaultExponent else exponent

/-- A public exponent is odd and above one. -/
def ExponentAdmissible (exponent : UInt32) : Prop :=
  exponent.toNat % 2 = 1 ∧ 1 < exponent.toNat

instance (exponent : UInt32) : Decidable (ExponentAdmissible exponent) :=
  inferInstanceAs (Decidable (_ ∧ _))

/-- A modulus with a public exponent. -/
structure PublicKey where
  /-- The modulus, without leading zeros. -/
  modulus : Bytes
  /-- The public exponent. -/
  exponent : UInt32
  stripped : modulus.stripZeros = modulus
  le_bitLength : minModulusBits ≤ modulus.bitLength
  bitLength_le : modulus.bitLength ≤ maxModulusBits
  isOdd : modulus.isOdd = true
  admissible : ExponentAdmissible exponent

namespace PublicKey

/-- The public key with a modulus and an exponent, zero standing for the default exponent. -/
def ofModulus? (modulus : Bytes) (exponent : UInt32) : Checked PublicKey :=
  let m := modulus.stripZeros
  let e := exponentOrDefault exponent
  if hmin : m.bitLength < minModulusBits then .error (.parameter "modulus" "too small")
  else if hmax : maxModulusBits < m.bitLength then .error (.parameter "modulus" "too large")
  else if hodd : m.isOdd = true then
    if he : ExponentAdmissible e then
      .ok
        { modulus := m
          exponent := e
          stripped := Bytes.stripZeros_stripZeros modulus
          le_bitLength := Nat.le_of_not_lt hmin
          bitLength_le := Nat.le_of_not_lt hmax
          isOdd := hodd
          admissible := he }
    else .error (.parameter "exponent" "must be odd and > 1")
  else .error (.parameter "modulus" "must be odd")

/-- The number of bits in the modulus. -/
def bits (key : PublicKey) : Nat :=
  key.modulus.bitLength

/-- The number of bytes in the modulus, and so in every ciphertext and signature. -/
def size (key : PublicKey) : Nat :=
  (key.bits + 7) / 8

/-- The parts of the key, the modulus byte by byte. -/
def describe (key : PublicKey) : String :=
  "RsaPublicKey \x7b modulus: [" ++ ", ".intercalate (key.modulus.map fun b => b.toNat.repr)
    ++ "], exponent: " ++ key.exponent.toNat.repr ++ ", bits: " ++ key.bits.repr ++ " \x7d"

end PublicKey

end Rsa

end TrustedPlatform
