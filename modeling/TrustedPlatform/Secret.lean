import TrustedPlatform.Bytes

/-!
# Secret byte strings

A secret compares in time that depends on its length alone and shows nothing but its length when
it is printed.
-/

namespace TrustedPlatform

/-- A secret byte string of any length. -/
structure Secret where
  bytes : Bytes

namespace Secret

/-- A secret of `length` zero bytes. -/
def zeroed (length : Nat) : Secret :=
  ⟨List.replicate length 0⟩

/-- The secret with bytes appended. -/
def append (s : Secret) (bytes : Bytes) : Secret :=
  ⟨s.bytes ++ bytes⟩

/-- The secret cut to at most `length` bytes. -/
def truncate (s : Secret) (length : Nat) : Secret :=
  ⟨s.bytes.take length⟩

/-- The secret with every byte changed by a function. -/
def map (s : Secret) (f : UInt8 → UInt8) : Secret :=
  ⟨s.bytes.map f⟩

/-- The two secrets are equal. -/
def eq (s t : Secret) : Bool :=
  s.bytes.ctEq t.bytes

/-- The length of the secret, with its content withheld. -/
def describe (s : Secret) : String :=
  "SecretVec(len=" ++ s.bytes.length.repr ++ ", [REDACTED])"

end Secret

/-- A secret of a fixed number of bytes. -/
structure SecretBuffer (length : Nat) where
  bytes : Vector UInt8 length

namespace SecretBuffer

variable {length : Nat}

/-- A secret whose bytes are all zero. -/
def zeroed (length : Nat) : SecretBuffer length :=
  ⟨Vector.replicate length 0⟩

/-- Every byte is zero. -/
def isZeroed (s : SecretBuffer length) : Bool :=
  s.bytes.toList.all (· == 0)

/-- The secret with one byte combined with a mask by exclusive-or. -/
def xorAt (s : SecretBuffer length) (i : Nat) (mask : UInt8) : SecretBuffer length :=
  if h : i < length then ⟨s.bytes.set i (s.bytes[i] ^^^ mask)⟩ else s

/-- The length of the secret, with its content withheld. -/
def describe (_ : SecretBuffer length) : String :=
  "SecretBuffer<" ++ length.repr ++ ">([REDACTED])"

end SecretBuffer

end TrustedPlatform
