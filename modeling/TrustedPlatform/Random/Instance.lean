import TrustedPlatform.Random.Counter
import TrustedPlatform.Random.Entropy

/-!
# Generator of an instance

An instance draws its random bytes from a counter-mode generator with an entropy source behind it.
When the requests of a seed are used up, the next request first reseeds from the source.
-/

namespace TrustedPlatform

/-- A counter-mode generator with its entropy source. -/
structure InstanceGenerator (ε : Type) where
  generator : CounterGenerator
  source : ε

namespace InstanceGenerator

variable {ε : Type} [EntropySource ε]

/-- The generator over a source, not yet instantiated. -/
def start (source : ε) (limits : GeneratorLimits) : InstanceGenerator ε :=
  ⟨.zeroed limits, source⟩

/-- The generator has been seeded and not been wiped since. -/
def isInstantiated (g : InstanceGenerator ε) : Bool :=
  g.generator.requests != 0

/-- Request a full seed from an entropy source; a shorter answer is a fatal loss of entropy. -/
def requestSeed (source : ε) : Checked Bytes × ε :=
  match EntropySource.request source seedLength with
  | (.error e, source) => (.error e, source)
  | (.ok seed, source) =>
      if seed.length = seedLength then (.ok seed, source)
      else (.error (.fatal .entropy), source)

/-- Wipe the generator, reset the source and seed afresh. Inadmissible limits are fatal. -/
def reinstantiate (g : InstanceGenerator ε) (personalization : Bytes) :
    Checked Unit × InstanceGenerator ε :=
  let wiped := g.generator.uninstantiate
  match wiped.limits.validate with
  | .error _ => (.error (.fatal .parameter), ⟨wiped, g.source⟩)
  | .ok _ =>
      -- a request for nothing resets the test of the source before the seed is drawn
      match EntropySource.request g.source 0 with
      | (.error e, source) => (.error e, ⟨wiped, source⟩)
      | (.ok _, source) =>
          match requestSeed source with
          | (.error e, source) => (.error e, ⟨wiped, source⟩)
          | (.ok seed, source) =>
              (.ok (), ⟨.instantiate seed personalization wiped.limits, source⟩)

/-- Mix fresh entropy and additional input into the generator. -/
def reseed (g : InstanceGenerator ε) (additional : Bytes) : Checked Unit × InstanceGenerator ε :=
  match requestSeed g.source with
  | (.error e, source) => (.error e, { g with source := source })
  | (.ok seed, source) => (.ok (), ⟨g.generator.reseed seed additional, source⟩)

/-- Write up to one request's worth of bytes at the front of a buffer, reseeding first when that is
due. -/
def generate (g : InstanceGenerator ε) (buffer : Bytes) : Draw (InstanceGenerator ε) Nat :=
  if buffer.isEmpty then ⟨g, buffer, .ok 0⟩
  else if !g.isInstantiated then ⟨g, buffer, .error (.fatal .internal)⟩
  else
    match if g.generator.needsReseed then g.reseed [] else (.ok (), g) with
    | (.error e, g) => ⟨g, buffer, .error e⟩
    | (.ok _, g) =>
        let d := g.generator.generate buffer
        ⟨{ g with generator := d.state }, d.buffer, d.outcome⟩

/-- A request keeps the length of the buffer. -/
theorem length_generate (g : InstanceGenerator ε) (buffer : Bytes) :
    (g.generate buffer).buffer.length = buffer.length := by
  unfold generate
  split
  · rfl
  · split
    · rfl
    · split
      · rfl
      · exact CounterGenerator.length_generate _ _

/-- Fill a buffer by as many requests as it takes. -/
def fill (g : InstanceGenerator ε) (buffer : Bytes) : Draw (InstanceGenerator ε) Unit :=
  Draw.repeated generate buffer.length g buffer

/-- The generator with its state wiped; the source is kept. -/
def uninstantiate (g : InstanceGenerator ε) : InstanceGenerator ε :=
  { g with generator := g.generator.uninstantiate }

/-- The counter-mode generator, with the secret state withheld. -/
def describe (g : InstanceGenerator ε) : String :=
  "SystemDrbg \x7b drbg: " ++ g.generator.describe ++ ", .. \x7d"

/-- The generator of an instance is a random source. -/
instance : RandomSource (InstanceGenerator ε) where
  fill g n := (g.fill (List.replicate n 0)).toFill
  length_of_fill _ _ _ ok :=
    Draw.length_of_toFill (by simp [fill, Draw.length_repeated length_generate]) ok

end InstanceGenerator

end TrustedPlatform
