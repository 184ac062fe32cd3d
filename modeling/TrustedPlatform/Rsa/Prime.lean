import TrustedPlatform.Arithmetic
import TrustedPlatform.Random.Source
import TrustedPlatform.Rsa.PublicKey

/-!
# Random primes

Candidates are drawn with their two top bits and their lowest bit set. A candidate is passed on
when it has no odd prime factor below one thousand, when it is one more than a number coprime to
the public exponent, and when it survives the Miller-Rabin test for a number of random witnesses.
-/

namespace TrustedPlatform.Rsa

open Arithmetic

/-- A number has no divisor above one and below itself. -/
def hasNoDivisor (n : Nat) : Bool :=
  (List.range n).all fun d => d < 2 || n % d != 0

/-- The odd primes below one thousand, in order. -/
def smallPrimes : List Word :=
  ((List.range 1000).filter fun n => 2 < n && hasNoDivisor n).map UInt64.ofNat

/-- The number of witnesses tried for a candidate. -/
abbrev witnessRounds : Nat := 8

/-- The number of candidates drawn for one prime. -/
abbrev maxCandidates : Nat := 20000

variable {α : Type} [Arithmetic α]

/-- None of the primes divides the number, or the first that does is the number itself. -/
def passesSieve (n : α) : List Word → Checked Bool
  | [] => .ok true
  | p :: rest => do
      let remainder ← modWord n p
      if remainder = 0 then return eqWord n p else passesSieve n rest

/-- The number of zero bits below the lowest set bit of a number that is not zero. -/
def trailingZeros (n : α) : Nat :=
  ((List.range (bitLength n)).find? fun i => testBit n i).getD 0

/-- One of the first `count` repeated squares of a number modulo `n` is one less than `n`. -/
def squaresReach (n top : α) : Nat → α → Checked Bool
  | 0, _ => .ok false
  | count + 1, x => do
      let square ← modMul x x n
      if eq square top then return true else squaresReach n top count square

/-- The witness does not show that `n` is composite, where `top` is one less than `n` and equals
`odd` times `2 ^ twos`. -/
def survives (n top odd : α) (twos : Nat) (witness : α) : Checked Bool := do
  let x ← modPow witness odd n
  if eqWord x 1 || eq x top then return true else squaresReach n top (twos - 1) x

/-- The witness between two and two less than `n` that a drawn byte string stands for. -/
def witnessOfBytes (n : α) (bytes : Bytes) : Checked α := do
  let range ← sub n (ofWord 3)
  let offset ← reduce (ofBytes bytes) range
  Arithmetic.add offset (ofWord 2)

/-- The candidate that a drawn byte string stands for: `bits` bits, the top two and the lowest of
them set. -/
def candidateBytes (bits : Nat) (drawn : Bytes) : Bytes :=
  let excess := 8 * drawn.length - bits
  let low : UInt8 := 0xff >>> UInt8.ofNat excess
  let raised :=
    -- a first byte with one bit in use leaves the second highest bit to the next byte
    match drawn, 7 - excess with
    | first :: second :: rest, 0 => ((first &&& low) ||| 1) :: (second ||| 0x80) :: rest
    | first :: rest, top =>
        ((first &&& low) ||| (1 <<< UInt8.ofNat top) ||| (1 <<< UInt8.ofNat (top - 1))) :: rest
    | [], _ => []
  raised.dropLast ++ [raised.getLastD 0 ||| 1]

/-- The candidate has no small factor, and the exponent is coprime to the number below it. -/
def isAdmissible (e n : α) : Checked Bool := do
  let sieved ← passesSieve n smallPrimes
  if sieved then
    let below ← sub n (ofWord 1)
    let common ← gcd e below
    return eqWord common 1
  else return false

section Drawing

variable {σ : Type} [RandomSource σ]

/-- The number survives a number of random witnesses. -/
def survivesRounds (n top odd : α) (twos : Nat) : Nat → Randomized σ Bool
  | 0 => return true
  | rounds + 1 => do
      let bytes ← draw ((bitLength n + 7) / 8 + 8)
      let witness ← witnessOfBytes n bytes
      let survived ← survives n top odd twos witness
      if survived then survivesRounds n top odd twos rounds else return false

/-- The number is two or three, or it is odd and survives a number of random witnesses. -/
def isProbablePrime (n : α) (rounds : Nat) : Randomized σ Bool := do
  if lt n (ofWord 5) then return eqWord n 2 || eqWord n 3
  else if testBit n 0 then
    let top ← sub n (ofWord 1)
    let twos := trailingZeros top
    let odd ← shiftRight top twos
    survivesRounds n top odd twos rounds
  else return false

/-- The first of the drawn candidates that is admissible and probably prime; the last argument is
the number of candidates that are drawn at most. -/
def searchPrime (bits : Nat) (e : α) : Nat → Randomized σ α
  | 0 => throw (.noResult "prime generation")
  | candidates + 1 => do
      let drawn ← draw ((bits + 7) / 8)
      let n : α := ofBytes (candidateBytes bits drawn)
      let admissible ← isAdmissible e n
      let prime ← if admissible then isProbablePrime n witnessRounds else pure false
      if prime then return n else searchPrime bits e candidates

variable (α)

/-- A random prime of `bits` bits, one more than a number coprime to the exponent. -/
def generatePrime (bits : Nat) (e : UInt32) : Randomized σ α :=
  searchPrime bits (ofWord e.toUInt64) maxCandidates

end Drawing

end TrustedPlatform.Rsa
