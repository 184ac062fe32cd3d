import TrustedPlatform.Random.Counter

/-!
# Generator from fixed seed material

Two generators made from the same seed, label and context give the same bytes. No entropy stands
behind them: once the requests of the seed are used up, every further one is refused.
-/

namespace TrustedPlatform

/-- A counter-mode generator seeded from given material. -/
structure SeededGenerator where
  inner : CounterGenerator

namespace SeededGenerator

/-- The generator whose seed is conditioned from a seed, a label and a context. -/
def ofMaterial (seed label context : Bytes) (limits : GeneratorLimits) : SeededGenerator :=
  ⟨.ofSeed (Conditioning.derive (seed ++ label ++ context)) limits⟩

/-- Write up to one request's worth of bytes at the front of a buffer. -/
def generate (g : SeededGenerator) (buffer : Bytes) : Draw SeededGenerator Nat :=
  let d := g.inner.generate buffer
  ⟨⟨d.state⟩, d.buffer, d.outcome⟩

/-- Fill a buffer by as many requests as it takes. -/
def fill (g : SeededGenerator) (buffer : Bytes) : Draw SeededGenerator Unit :=
  let d := g.inner.fill buffer
  ⟨⟨d.state⟩, d.buffer, d.outcome⟩

/-- The generator with its state wiped. -/
def uninstantiate (g : SeededGenerator) : SeededGenerator :=
  ⟨g.inner.uninstantiate⟩

/-- The generator inside, with the secret state withheld. -/
def describe (g : SeededGenerator) : String :=
  "SeededDrbg \x7b inner: " ++ g.inner.describe ++ " \x7d"

/-- A seeded generator is a random source. -/
instance : RandomSource SeededGenerator where
  fill g n := (g.fill (List.replicate n 0)).toFill
  length_of_fill _ _ _ ok :=
    Draw.length_of_toFill
      (by simp [fill, CounterGenerator.fill,
        Draw.length_repeated CounterGenerator.length_generate]) ok

end SeededGenerator

end TrustedPlatform
