import TrustedPlatform.Derivation
import TrustedPlatform.Random.Source

/-!
# Key derivation as a stream

The stream gives out the blocks of one long derivation in order, in pieces of any size, until a
limit in bits is reached. A block is made when the last one is used up.
-/

namespace TrustedPlatform

/-- A stream of derived bytes. -/
structure DerivedStream where
  /-- The hash behind the blocks. -/
  hash : Hash
  /-- The key of the derivation. -/
  seed : Bytes
  /-- The label of the derivation. -/
  label : Bytes
  /-- The context of the derivation. -/
  context : Bytes
  /-- The number of bits that the stream gives at most. -/
  limit : UInt32
  /-- The counter of the last block made. -/
  counter : UInt32
  /-- The last block made. -/
  current : Bytes
  /-- The number of bytes of that block that have been given out. -/
  used : Nat
  /-- They are not more than the block has. -/
  used_le : used ≤ current.length
  /-- The number of bytes given out in all. -/
  produced : Nat

namespace DerivedStream

/-- A stream from which nothing has been read. -/
def start (hash : Hash) (seed label context : Bytes) (limit : UInt32) : DerivedStream :=
  ⟨hash, seed, label, context, limit, 0, [], 0, Nat.le_refl 0, 0⟩

/-- The number of bits still available. -/
def remaining (s : DerivedStream) : Nat :=
  s.limit.toNat - 8 * s.produced

/-- The block with a counter. -/
def block (s : DerivedStream) (counter : UInt32) : Bytes :=
  s.hash.deriveABlock s.seed s.label s.context [] s.limit counter

/-- Every block is as long as a digest. -/
theorem length_block (s : DerivedStream) (counter : UInt32) :
    (s.block counter).length = s.hash.size :=
  s.hash.length_mac _ _

/-- The bytes of the last block that have not been given out. -/
def pending (s : DerivedStream) : Bytes :=
  s.current.drop s.used

/-- The stream with the next block made if the last one is used up. -/
def refill (s : DerivedStream) : DerivedStream :=
  if s.used = s.current.length then
    { s with
      counter := s.counter + 1
      current := s.block (s.counter + 1)
      used := 0
      used_le := Nat.zero_le _ }
  else s

/-- A refilled stream has bytes to give. -/
theorem length_pending_refill_pos (s : DerivedStream) : 0 < s.refill.pending.length := by
  unfold refill
  split
  · show 0 < ((s.block (s.counter + 1)).drop 0).length
    rw [List.drop_zero, length_block]
    exact s.hash.size_pos
  · next h =>
      have hle := s.used_le
      rw [pending, List.length_drop]
      omega

/-- The stream after some of its pending bytes. -/
def skip (s : DerivedStream) (n : Nat) (h : n ≤ s.pending.length) : DerivedStream :=
  { s with
    used := s.used + n
    used_le := by
      have hle := s.used_le
      rw [pending, List.length_drop] at h
      omega }

/-- The bytes that overwrite a buffer, and the stream after them. Each pass copies what the last
block and the rest of the buffer allow. -/
def copy (s : DerivedStream) (buffer : Bytes) : Bytes × DerivedStream :=
  if buffer = [] then ([], s)
  else
    let full := s.refill
    let count := min full.pending.length buffer.length
    let rest := copy (full.skip count (Nat.min_le_left _ _)) (buffer.drop count)
    (full.pending.take count ++ rest.1, rest.2)
termination_by buffer.length
decreasing_by
  next h =>
    have hpending := s.length_pending_refill_pos
    have hbuffer := List.length_pos_iff.mpr h
    rw [List.length_drop]
    omega

/-- As many bytes are copied as the buffer holds. -/
theorem length_copy (s : DerivedStream) (buffer : Bytes) :
    (s.copy buffer).1.length = buffer.length := by
  induction s, buffer using copy.induct with
  | case1 s => rw [copy, if_pos rfl]
  | case2 s buffer h full count ih =>
      have hcount : count ≤ full.pending.length ∧ count ≤ buffer.length :=
        ⟨Nat.min_le_left _ _, Nat.min_le_right _ _⟩
      rw [copy, if_neg h]
      show (full.pending.take count ++ ((full.skip count _).copy (buffer.drop count)).1).length = _
      rw [List.length_append, ih, List.length_take, List.length_drop]
      omega

/-- Fill a buffer; a request above the limit is refused and changes nothing. -/
def fill (s : DerivedStream) (buffer : Bytes) : Draw DerivedStream Unit :=
  if s.remaining < 8 * buffer.length then
    ⟨s, buffer, .error (.parameter "out" "request exceeds the stream's bit limit")⟩
  else
    let copied := s.copy buffer
    ⟨{ copied.2 with produced := s.produced + buffer.length }, copied.1, .ok ()⟩

/-- Filling keeps the length of the buffer. -/
theorem length_fill (s : DerivedStream) (buffer : Bytes) :
    (s.fill buffer).buffer.length = buffer.length := by
  unfold fill
  split
  · rfl
  · exact s.length_copy buffer

/-- Read a number of bytes. -/
def read (s : DerivedStream) (n : Nat) : Checked Bytes × DerivedStream :=
  (s.fill (List.replicate n 0)).toFill

/-- The state of the stream, with the seed withheld. -/
def describe (s : DerivedStream) : String :=
  "KdfDrbg \x7b hash: " ++ s.hash.algorithm.title ++ ", limit_bits: " ++ s.limit.toNat.repr
    ++ ", produced: " ++ s.produced.repr ++ ", .. \x7d"

/-- A stream of derived bytes is a random source. -/
instance : RandomSource DerivedStream where
  fill := read
  length_of_fill s _ _ ok :=
    Draw.length_of_toFill ((s.length_fill _).trans List.length_replicate) ok

end DerivedStream

end TrustedPlatform
