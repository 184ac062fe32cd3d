import TrustedPlatform.Failure
import TrustedPlatform.Integer.Limbs

/-!
# Natural numbers of fixed capacity

A `FixedNat` is a buffer of limbs whose length never changes, together with the number of limbs
in use. It is well formed when the buffer is not empty, the used limbs end in one that is not zero
and all limbs above them are zero; `FixedNat.ofLimbs?` is the one gate through which computed limbs
enter a buffer, and it refuses exactly the numbers that do not fit.
-/

namespace TrustedPlatform

/-- A natural number held in a buffer of fixed capacity. -/
structure FixedNat where
  /-- The whole buffer, least significant limb first. -/
  limbs : Limbs
  /-- The number of limbs in use. -/
  size : Nat
  deriving Repr, Inhabited

namespace FixedNat

/-- The number of limbs in the buffer. -/
def capacity (a : FixedNat) : Nat :=
  a.limbs.length

/-- The limbs in use. -/
def words (a : FixedNat) : Limbs :=
  a.limbs.take a.size

/-- The number held in the buffer. -/
def value (a : FixedNat) : Nat :=
  a.words.value

/-- The buffer is not empty, its used limbs fit it and end in one that is not zero, and all limbs
above them are zero. -/
structure WellFormed (a : FixedNat) : Prop where
  capacity_pos : 1 ≤ a.capacity
  size_le : a.size ≤ a.capacity
  top_ne_zero : ∀ n, a.size = n + 1 → a.limbs.get n ≠ 0
  above_zero : ∀ i, a.size ≤ i → a.limbs.get i = 0

/-! ### Construction -/

/-- Zero in a buffer of at least one limb. -/
def zero (capacity : Nat) : FixedNat :=
  ⟨List.replicate (max capacity 1) 0, 0⟩

/-- Zero in a buffer with room for `bits` bits. -/
def zeroOfBits (bits : Nat) : FixedNat :=
  zero (Word.countForBits bits)

/-- The number that a list of limbs denotes, in a buffer of the given capacity; fatal when it does
not fit. -/
def ofLimbs? (capacity : Nat) (ws : Limbs) : Checked FixedNat :=
  let used := ws.significant
  let capacity := max capacity 1
  if capacity < used then .error (.fatal .allocation)
  else .ok ⟨ws.take used ++ List.replicate (capacity - used) 0, used⟩

/-- A single word in a buffer of at least one limb. -/
def ofWord (w : Word) (capacity : Nat) : FixedNat :=
  ⟨w :: List.replicate (capacity - 1) 0, if w = 0 then 0 else 1⟩

/-- The limbs of a byte string given least significant byte first. -/
def limbsOfBytes : Bytes → Limbs
  | [] => []
  | b :: bytes => Bytes.toUInt64 ((b :: bytes).take 8).reverse :: limbsOfBytes (bytes.drop 7)
termination_by bytes => bytes.length
decreasing_by
  simp only [List.length_drop, List.length_cons]
  omega

/-- The number that a byte string denotes, in a buffer as wide as the string. -/
def ofBytes (bytes : Bytes) : FixedNat :=
  let ws := limbsOfBytes bytes.reverse
  ⟨if ws = [] then [0] else ws, ws.significant⟩

/-- The number that a byte string denotes, in a buffer of the given capacity; leading zero bytes
take no room. -/
def ofBytes? (capacity : Nat) (bytes : Bytes) : Checked FixedNat :=
  ofLimbs? capacity (limbsOfBytes bytes.stripZeros.reverse)

/-- The same number in a buffer of another capacity; fatal when it does not fit. -/
def resized (a : FixedNat) (capacity : Nat) : Checked FixedNat :=
  ofLimbs? capacity a.words

/-! ### Observation -/

/-- The limb at a position, zero at or beyond the used size. -/
def word (a : FixedNat) (i : Nat) : Word :=
  if i < a.size then a.limbs.get i else 0

/-- No limb is in use. -/
def isZero (a : FixedNat) : Bool :=
  a.size == 0

/-- The number equals a single word. -/
def eqWord (a : FixedNat) (w : Word) : Bool :=
  match a.size with
  | 0 => w == 0
  | 1 => a.limbs.get 0 == w
  | _ => false

/-- The number of bits up to and including the highest set bit. -/
def bitLength (a : FixedNat) : Nat :=
  a.words.bitLength

/-- The bit at a position, clear beyond the used limbs. -/
def testBit (a : FixedNat) (bit : Nat) : Bool :=
  a.words.testBit bit

/-- The order of two numbers; the whole of both buffers is read. -/
def compare (a b : FixedNat) : Ordering :=
  a.limbs.compare b.limbs

/-- The order of a number and a single word. -/
def compareWord (a : FixedNat) (w : Word) : Ordering :=
  if 1 < a.size then .gt else Ord.compare (a.word 0) w

/-- The `count` low bytes of the used limbs, most significant first. -/
def lowBytes (a : FixedNat) (count : Nat) : Bytes :=
  let bytes := (a.words.flatMap fun w => (Bytes.ofUInt64 w).reverse).take count
  (bytes ++ List.replicate (count - bytes.length) 0).reverse

/-- The length of the shortest byte string that denotes the number. -/
def byteLength (a : FixedNat) : Nat :=
  (a.bitLength + 7) / 8

/-- The shortest byte string that denotes the number. -/
def toBytes (a : FixedNat) : Bytes :=
  a.lowBytes a.byteLength

/-- The byte string of exactly `width` bytes that denotes the number. -/
def toBytesPadded (a : FixedNat) (width : Nat) : Checked Bytes :=
  if width < a.byteLength then .error (.length "BigNum encoding" a.byteLength width)
  else .ok (a.lowBytes width)

/-- A caller's buffer after the number was written into all of it; a buffer that is too short is left
as it was. -/
def writeBytes (a : FixedNat) (buffer : Bytes) : Bytes × Checked Unit :=
  match a.toBytesPadded buffer.length with
  | .ok bytes => (bytes, .ok ())
  | .error e => (buffer, .error e)

/-- The number in hexadecimal with its capacity. -/
def describe (a : FixedNat) : String :=
  let digits :=
    match a.words.reverse with
    | [] => "0"
    | top :: rest =>
        rest.foldl (fun text w => text ++ Hex.ofNatPadded 16 w.toNat) (Hex.ofNat top.toNat)
  "BigNum(0x" ++ digits ++ ", cap=" ++ a.capacity.repr ++ ")"

/-! ### Changes in place -/

/-- The number with the used size lowered past high zero limbs. -/
def normalize (a : FixedNat) : FixedNat :=
  { a with size := a.words.significant }

/-- The number with one bit set; fatal when the bit lies outside the buffer. -/
def setBit (a : FixedNat) (bit : Nat) : Checked FixedNat :=
  let i := bit / 64
  if a.capacity ≤ i then .error (.fatal .allocation)
  else
    let w := a.limbs.get i ||| (1 <<< UInt64.ofNat (bit % 64))
    .ok ⟨a.limbs.set i w, max a.size (i + 1)⟩

/-- The number with every bit at or above position `bits` cleared. -/
def maskBits (a : FixedNat) (bits : Nat) : FixedNat :=
  normalize ⟨a.limbs.mask bits, a.size⟩

end FixedNat

end TrustedPlatform
