import TrustedPlatform.Failure

/-!
# Size-prefixed buffers

The wire form of a buffer is its length in two bytes, most significant first, followed by its
content. Reading takes the buffer from the front of its input and tells how many bytes it used;
it refuses a length above the capacity and an input that ends too early.
-/

namespace TrustedPlatform.Wire

/-- A byte string of at most `capacity` bytes. -/
structure Buffer (capacity : Nat) where
  bytes : Bytes
  length_le : bytes.length ≤ capacity

namespace Buffer

variable {capacity : Nat}

/-- The buffer without content. -/
def empty : Buffer capacity :=
  ⟨[], Nat.zero_le capacity⟩

/-- A buffer with the given content, refused when it is too long. -/
def ofBytes? (bytes : Bytes) : Except CommandError (Buffer capacity) :=
  if h : bytes.length ≤ capacity then .ok ⟨bytes, h⟩ else .error .size

/-- The buffer after an assignment, and whether it was accepted; content that is too long leaves
the buffer as it was. -/
def assign (buffer : Buffer capacity) (bytes : Bytes) :
    Buffer capacity × Except CommandError Unit :=
  match ofBytes? bytes with
  | .ok assigned => (assigned, .ok ())
  | .error e => (buffer, .error e)

/-- The number of content bytes. -/
def length (buffer : Buffer capacity) : Nat :=
  buffer.bytes.length

/-- The buffer has no content. -/
def isEmpty (buffer : Buffer capacity) : Bool :=
  buffer.bytes.isEmpty

/-- Two buffers are equal when their contents are. -/
instance : DecidableEq (Buffer capacity) := fun a b =>
  if h : a.bytes = b.bytes then
    isTrue (by cases a; cases b; cases h; rfl)
  else isFalse fun e => h (e ▸ rfl)

/-- The wire form of a buffer. -/
def marshal (buffer : Buffer capacity) : Bytes :=
  let n := UInt16.ofNat buffer.length
  (n >>> 8).toUInt8 :: n.toUInt8 :: buffer.bytes

/-- The buffer at the front of an input, with the number of bytes it takes there. -/
def unmarshal? (input : Bytes) : Except CommandError (Buffer capacity × Nat) :=
  match input with
  | high :: low :: rest =>
      let size := high.toNat * 256 + low.toNat
      if capacity < size ∨ rest.length < size then .error .size
      else do
        let buffer ← ofBytes? (rest.take size)
        return (buffer, 2 + size)
  | _ => .error .size

/-- The capacity of the buffer and its content in hexadecimal. -/
def describe (buffer : Buffer capacity) : String :=
  "Tpm2b<" ++ capacity.repr ++ ">(" ++ Hex.ofBytes buffer.bytes ++ ")"

end Buffer

end TrustedPlatform.Wire
