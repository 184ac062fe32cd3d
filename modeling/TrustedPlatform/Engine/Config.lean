import TrustedPlatform.Random.Counter

/-!
# Configuration of an engine

The choices that are made when an engine starts and kept through all its resets.
-/

namespace TrustedPlatform

/-- The choices made when an engine starts. -/
structure EngineConfig where
  /-- The limits of the generator. -/
  limits : GeneratorLimits
  /-- The bytes mixed into every seeding of the generator. -/
  personalization : Bytes
  /-- Whether the self tests run at startup and reset. -/
  runSelfTests : Bool
  /-- How often a drawn value may be rejected before a command gives up. -/
  retries : Nat

namespace EngineConfig

/-- The personalization of an engine that is given none, sixteen fixed bytes. -/
def defaultPersonalization : Bytes :=
  Bytes.ofNatWidth 16 0x74706d32637279707420656e67696e65

/-- The number of rejected draws that is never reached in practice. -/
def defaultRetries : Nat := 1 <<< 62

/-- The choices of an engine that is given none. -/
def default : EngineConfig :=
  ⟨.default, defaultPersonalization, true, defaultRetries⟩

end EngineConfig

end TrustedPlatform
