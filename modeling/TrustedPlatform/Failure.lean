import TrustedPlatform.Bytes

/-!
# Refusals and failures

A primitive answers with a value or with a `Fault`, which names the cause: an input that it
refuses, a zero intermediate that asks for a retry, or a fatal condition with its `FailureCode`.
A command answers its caller with a `CommandError`, which keeps the kind of the cause and drops
the detail; `Fault.toCommandError` is that projection, and it maps exactly the fatal faults to
`CommandError.failure`.
-/

namespace TrustedPlatform

/-- The recorded cause of a fatal condition. -/
inductive FailureCode where
  /-- A result did not fit the storage it was given. -/
  | allocation
  /-- A division or reduction by zero. -/
  | divideByZero
  /-- A caller inside the library broke a precondition. -/
  | parameter
  /-- A self test failed. -/
  | selfTest
  /-- The entropy source failed its continuous test or stopped responding. -/
  | entropy
  /-- An arithmetic operation gave an unusable result. -/
  | mathLibrary
  /-- Any other inconsistency. -/
  | internal
  deriving DecidableEq, Repr, Inhabited

/-- Every failure code. -/
def FailureCode.all : List FailureCode :=
  [allocation, divideByZero, parameter, selfTest, entropy, mathLibrary, internal]

/-- The short stable name of a failure code. -/
def FailureCode.name : FailureCode → String
  | allocation => "allocation"
  | divideByZero => "divide-by-zero"
  | parameter => "parameter"
  | selfTest => "self-test"
  | entropy => "entropy"
  | mathLibrary => "math-library"
  | internal => "internal"

/-- Why a primitive gave no value. -/
inductive Fault where
  /-- A parameter is refused, for the given reason. -/
  | parameter (name reason : String)
  /-- A length, in bytes, is not the expected one. -/
  | length (context : String) (expected actual : Nat)
  /-- A signature did not verify. -/
  | signature (algorithm : String)
  /-- An intermediate value was zero; a fresh ephemeral value is needed. -/
  | noResult (operation : String)
  /-- A point failed validation against its curve. -/
  | pointNotOnCurve
  /-- No registered curve has this identifier. -/
  | unknownCurve (id : UInt16)
  /-- A scheme is not supported here. -/
  | scheme (context : String)
  /-- Key material is inconsistent. -/
  | key (context : String)
  /-- A padding or range check failed while decrypting. -/
  | decryption (padding : String)
  /-- The cancel signal was seen between two steps. -/
  | canceled
  /-- A generator has used up its seed. -/
  | reseedRequired
  /-- A fatal condition. -/
  | fatal (code : FailureCode)
  deriving DecidableEq, Repr, Inhabited

/-- The outcome of a primitive. -/
abbrev Checked := Except Fault

namespace Fault

/-- Fatal faults are the ones that put an engine into failure mode. -/
def isFatal : Fault → Bool
  | fatal _ => true
  | _ => false

/-- The name of the kind of a fault. -/
def kind : Fault → String
  | parameter .. => "Parameter"
  | length .. => "Length"
  | signature .. => "Signature"
  | noResult .. => "NoResult"
  | pointNotOnCurve => "PointNotOnCurve"
  | unknownCurve .. => "UnknownCurve"
  | scheme .. => "Scheme"
  | key .. => "Key"
  | decryption .. => "Decryption"
  | canceled => "Canceled"
  | reseedRequired => "ReseedRequired"
  | fatal .. => "Fatal"

/-- The text that describes a fault; a fatal one is described by its code alone. -/
def message : Fault → String
  | parameter name reason => "Invalid parameter '" ++ name ++ "': " ++ reason
  | length context expected actual =>
      "Invalid length for " ++ context ++ ": expected " ++ expected.repr ++ ", got " ++ actual.repr
  | signature algorithm => algorithm ++ " signature is not valid"
  | noResult operation => operation ++ " produced a zero value"
  | pointNotOnCurve => "Point is not on the curve"
  | unknownCurve id => "Curve 0x" ++ Hex.ofNatPadded 4 id.toNat ++ " is not registered"
  | scheme context => "Scheme not supported for " ++ context
  | key context => "Inconsistent key material: " ++ context
  | decryption padding => padding ++ " decryption failed"
  | canceled => "Operation canceled"
  | reseedRequired => "DRBG reseed required"
  | fatal code => code.name

end Fault

/-- What a command tells its caller when it gives no value. -/
inductive CommandError where
  /-- The signature did not verify. -/
  | signature
  /-- The scheme is not supported for this key or operation. -/
  | scheme
  /-- A zero intermediate was produced. -/
  | noResult
  /-- A point is not on the selected curve. -/
  | eccPoint
  /-- The curve identifier is not registered. -/
  | curve
  /-- A value is out of range, or padding did not check out. -/
  | value
  /-- A buffer or a length does not match. -/
  | size
  /-- Key material is inconsistent. -/
  | key
  /-- The cancel signal was seen. -/
  | canceled
  /-- A seeded generator has used up its seed. -/
  | reseedRequired
  /-- The instance is in failure mode. -/
  | failure (code : FailureCode)
  deriving DecidableEq, Repr, Inhabited

namespace CommandError

/-- The recorded cause of a fatal outcome. -/
def failureCode? : CommandError → Option FailureCode
  | failure code => some code
  | _ => none

/-- Fatal outcomes are the ones that carry a failure code. -/
def isFatal (e : CommandError) : Bool :=
  e.failureCode?.isSome

/-- The name of the kind of an outcome. -/
def kind : CommandError → String
  | signature => "Signature"
  | scheme => "Scheme"
  | noResult => "NoResult"
  | eccPoint => "EccPoint"
  | curve => "Curve"
  | value => "Value"
  | size => "Size"
  | key => "Key"
  | canceled => "Canceled"
  | reseedRequired => "ReseedRequired"
  | failure .. => "Failure"

/-- The text that describes an outcome. -/
def message : CommandError → String
  | signature => "signature is not valid"
  | scheme => "scheme is not supported"
  | noResult => "computation produced no usable result"
  | eccPoint => "point is not on the curve"
  | curve => "curve is not supported"
  | value => "value is out of range"
  | size => "size is not valid"
  | key => "key is not valid"
  | canceled => "operation was canceled"
  | reseedRequired => "generator must be reseeded"
  | failure code => "failure mode (" ++ code.name ++ ")"

end CommandError

/-- The kind of a fault, as a command reports it. -/
def Fault.toCommandError : Fault → CommandError
  | parameter _ _ => .value
  | length _ _ _ => .size
  | signature _ => .signature
  | noResult _ => .noResult
  | pointNotOnCurve => .eccPoint
  | unknownCurve _ => .curve
  | scheme _ => .scheme
  | key _ => .key
  | decryption _ => .value
  | canceled => .canceled
  | reseedRequired => .reseedRequired
  | fatal code => .failure code

/-! ### Checks

Each check succeeds when its condition holds and otherwise names the broken rule. -/

namespace Require

/-- A parameter satisfies its condition. -/
def parameter (ok : Bool) (name reason : String) : Checked Unit :=
  if ok then .ok () else .error (.parameter name reason)

/-- A length is the expected one. -/
def length (context : String) (actual expected : Nat) : Checked Unit :=
  if actual = expected then .ok () else .error (.length context expected actual)

/-- A length is at least the bound. -/
def minLength (context : String) (actual bound : Nat) : Checked Unit :=
  if bound ≤ actual then .ok () else .error (.length context bound actual)

/-- A length is at most the bound. -/
def maxLength (context : String) (actual bound : Nat) : Checked Unit :=
  if actual ≤ bound then .ok () else .error (.length context bound actual)

/-- A signature check came out true. -/
def signature (ok : Bool) (algorithm : String) : Checked Unit :=
  if ok then .ok () else .error (.signature algorithm)

/-- A condition that the library itself guarantees holds; its violation is fatal. -/
def invariant (ok : Bool) (code : FailureCode) : Checked Unit :=
  if ok then .ok () else .error (.fatal code)

end Require

end TrustedPlatform
