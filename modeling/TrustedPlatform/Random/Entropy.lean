import TrustedPlatform.Random.Source

/-!
# Entropy with a continuous test

`ContinuousEntropy` draws from a raw source in blocks of eight bytes and compares each block with
the one before it; a repeated block or a failing draw marks the source as failed for good. The
first request after a reset draws one block that is only compared and never given out.
-/

namespace TrustedPlatform

/-- A type of states from which entropy can be requested. A request may give fewer bytes than were
asked for; a request for none is a reset. -/
class EntropySource (ε : Type) where
  /-- Request a number of bytes. -/
  request : ε → Nat → Checked Bytes × ε

/-- A source of one of two kinds. -/
instance {ε δ : Type} [EntropySource ε] [EntropySource δ] : EntropySource (ε ⊕ δ) where
  request
    | .inl s, n => Prod.map id .inl (EntropySource.request s n)
    | .inr s, n => Prod.map id .inr (EntropySource.request s n)

/-- A raw source under the continuous test. -/
structure ContinuousEntropy (ρ : Type) where
  /-- The raw source. -/
  raw : ρ
  /-- The block drawn last since the last reset. -/
  last : Option Bytes
  /-- The test has failed. -/
  failed : Bool

namespace ContinuousEntropy

variable {ρ : Type} [RandomSource ρ]

/-- The number of bytes in a block of the test. -/
def blockLength : Nat := 8

/-- A raw source from which nothing has been drawn. -/
def start (raw : ρ) : ContinuousEntropy ρ :=
  ⟨raw, none, false⟩

/-- Draw one block and test it. -/
def nextBlock (s : ContinuousEntropy ρ) : Checked Bytes × ContinuousEntropy ρ :=
  match RandomSource.fill s.raw blockLength with
  | (.error _, raw) => (.error (.fatal .entropy), { s with raw := raw, failed := true })
  | (.ok block, raw) =>
      if s.last = some block then
        (.error (.fatal .entropy), { s with raw := raw, failed := true })
      else (.ok block, { s with raw := raw, last := some block })

/-- Write tested blocks over a buffer, block by block, the last one cut to fit. -/
def fillBlocks (s : ContinuousEntropy ρ) : List Bytes → Draw (ContinuousEntropy ρ) Unit
  | [] => ⟨s, [], .ok ()⟩
  | piece :: pieces =>
      match s.nextBlock with
      | (.error e, s) => ⟨s, piece ++ pieces.flatten, .error e⟩
      | (.ok block, s) =>
          let rest := s.fillBlocks pieces
          { rest with buffer := block.take piece.length ++ rest.buffer }

/-- Fill a buffer with tested bytes. An empty buffer resets the test. -/
def fill (s : ContinuousEntropy ρ) (buffer : Bytes) : Draw (ContinuousEntropy ρ) Unit :=
  if s.failed then ⟨s, buffer, .error (.fatal .entropy)⟩
  else if buffer.isEmpty then ⟨{ s with last := none }, buffer, .ok ()⟩
  else if s.last.isNone then
    -- the first block after a reset is only there to be compared with the second
    match s.nextBlock with
    | (.error e, s) => ⟨s, buffer, .error e⟩
    | (.ok _, s) => s.fillBlocks (buffer.chunks blockLength)
  else s.fillBlocks (buffer.chunks blockLength)

/-- The state of the test. -/
def describe (s : ContinuousEntropy ρ) : String :=
  "ContinuousEntropy \x7b primed: " ++ toString s.last.isSome ++ ", failed: "
    ++ toString s.failed ++ ", .. \x7d"

/-- A raw source under the continuous test is an entropy source. -/
instance : EntropySource (ContinuousEntropy ρ) where
  request s n := (s.fill (List.replicate n 0)).toFill

end ContinuousEntropy

end TrustedPlatform
