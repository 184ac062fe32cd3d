import TrustedPlatform.Failure

/-!
# Random sources

A random source is a state from which byte strings of a requested length can be drawn; a draw may
fail, and the state moves on either way. `Randomized` is the type of computations that draw from a
source. Generators that write into a caller's buffer answer with a `Draw`, which shows the buffer
as it was left. A `ByteStream`, the plainest source, reads off a fixed sequence of bytes.
-/

namespace TrustedPlatform

/-- A computation that draws from a source with states `σ`; the state survives a fault. -/
abbrev Randomized (σ α : Type) := ExceptT Fault (StateM σ) α

/-- A type of states from which bytes can be drawn. -/
class RandomSource (σ : Type) where
  /-- Draw a number of bytes. -/
  fill : σ → Nat → Checked Bytes × σ
  /-- A draw that succeeds gives as many bytes as were asked for. -/
  length_of_fill : ∀ s n bytes, (fill s n).1 = .ok bytes → bytes.length = n

/-- A source of one of two kinds. -/
instance {σ τ : Type} [RandomSource σ] [RandomSource τ] : RandomSource (σ ⊕ τ) where
  fill
    | .inl s, n => Prod.map id .inl (RandomSource.fill s n)
    | .inr s, n => Prod.map id .inr (RandomSource.fill s n)
  length_of_fill s n bytes ok := by
    cases s with
    | inl s => exact RandomSource.length_of_fill s n bytes ok
    | inr s => exact RandomSource.length_of_fill s n bytes ok

/-- Draw a number of bytes. -/
def draw {σ : Type} [RandomSource σ] (n : Nat) : Randomized σ Bytes :=
  fun s => RandomSource.fill s n

/-- Run a computation that draws from a source. -/
def Randomized.runFrom {σ α : Type} (x : Randomized σ α) (s : σ) : Checked α × σ :=
  x s

/-- What writing into a buffer leaves behind. -/
structure Draw (σ α : Type) where
  /-- The state of the generator afterwards. -/
  state : σ
  /-- The buffer afterwards. -/
  buffer : Bytes
  /-- The answer of the generator. -/
  outcome : Checked α

namespace Draw

variable {σ : Type}

/-- Fill a buffer by requests that each report how many bytes they wrote at its front. The first
argument bounds the number of requests; as each writes at least one byte, the length of the buffer
is enough. -/
def repeated (generate : σ → Bytes → Draw σ Nat) : Nat → σ → Bytes → Draw σ Unit
  | _, s, [] => ⟨s, [], .ok ()⟩
  | 0, s, buffer => ⟨s, buffer, .error (.fatal .internal)⟩
  | requests + 1, s, buffer =>
      let first := generate s buffer
      match first.outcome with
      | .error e => ⟨first.state, first.buffer, .error e⟩
      | .ok n =>
          let rest := repeated generate requests first.state (first.buffer.drop n)
          ⟨rest.state, first.buffer.take n ++ rest.buffer, rest.outcome⟩

/-- Filling a buffer keeps its length when each request does. -/
theorem length_repeated {generate : σ → Bytes → Draw σ Nat}
    (h : ∀ s buffer, (generate s buffer).buffer.length = buffer.length) (requests : Nat) (s : σ)
    (buffer : Bytes) : (repeated generate requests s buffer).buffer.length = buffer.length := by
  induction requests generalizing s buffer with
  | zero => cases buffer <;> simp [repeated]
  | succ requests ih =>
      cases buffer with
      | nil => simp [repeated]
      | cons b buffer =>
          simp only [repeated]
          split
          · exact h s (b :: buffer)
          · simp only [List.length_append, ih, List.length_take, List.length_drop, h]
            omega

/-- The whole buffer and the state of a draw that filled zero bytes in. -/
def toFill (d : Draw σ Unit) : Checked Bytes × σ :=
  (d.outcome.map fun _ => d.buffer, d.state)

/-- A draw that keeps the length of its buffer gives, when it succeeds, that many bytes. -/
theorem length_of_toFill {d : Draw σ Unit} {n : Nat} {bytes : Bytes} (h : d.buffer.length = n)
    (ok : d.toFill.1 = .ok bytes) : bytes.length = n := by
  unfold toFill at ok
  cases ho : d.outcome with
  | error e => simp [ho, Except.map] at ok
  | ok u =>
      simp only [ho, Except.map, Except.ok.injEq] at ok
      exact ok ▸ h

end Draw

/-- A sequence of bytes, endless or of a given length, with the number of bytes read so far. -/
structure ByteStream where
  /-- The byte at a position. -/
  byte : Nat → UInt8
  /-- The number of bytes in the sequence, if it ends. -/
  length : Option Nat
  /-- The number of bytes read. -/
  used : Nat

namespace ByteStream

/-- The sequence still has a number of bytes. -/
def hasBytes (s : ByteStream) (n : Nat) : Bool :=
  match s.length with
  | none => true
  | some length => s.used + n ≤ length

/-- Read a number of bytes; a request for more than remain is a fatal loss of entropy and reads
nothing. -/
def read (s : ByteStream) (n : Nat) : Checked Bytes × ByteStream :=
  if s.hasBytes n then
    (.ok ((List.range n).map fun i => s.byte (s.used + i)), { s with used := s.used + n })
  else (.error (.fatal .entropy), s)

/-- A sequence of bytes is a random source. -/
instance : RandomSource ByteStream where
  fill := read
  length_of_fill s n bytes h := by
    unfold read at h
    split at h
    · simp only [Except.ok.injEq] at h
      simp [← h]
    · simp at h

end ByteStream

end TrustedPlatform
