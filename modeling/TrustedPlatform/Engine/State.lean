import TrustedPlatform.Attestation.CommitState
import TrustedPlatform.Random.Instance
import TrustedPlatform.Rsa.Cache

/-!
# State of an engine

The state that commands run against: the generator with its entropy source, the cache of derived
key parts and the outstanding commitments. An `Operation` is a computation on this state that may
end in a fault; what it changed before the fault stays changed.
-/

namespace TrustedPlatform

/-- The state that commands run against, over an entropy source with states `ε`. -/
structure EngineState (ε : Type) where
  generator : InstanceGenerator ε
  cache : Rsa.ExponentCache
  commits : Attestation.CommitState

/-- A computation on the state of an engine. -/
abbrev Operation (ε β : Type) := ExceptT Fault (StateM (EngineState ε)) β

namespace Operation

variable {ε β : Type}

/-- A computation on the generator alone. -/
def onGenerator (x : Randomized (InstanceGenerator ε) β) : Operation ε β := fun s =>
  let (outcome, generator) := x.runFrom s.generator
  (outcome, { s with generator := generator })

/-- A computation on the cache alone. -/
def onCache (f : Rsa.ExponentCache → Checked β × Rsa.ExponentCache) : Operation ε β := fun s =>
  let (outcome, cache) := f s.cache
  (outcome, { s with cache := cache })

/-- A computation on the commitments alone. -/
def onCommits (f : Attestation.CommitState → Checked β × Attestation.CommitState) :
    Operation ε β := fun s =>
  let (outcome, commits) := f s.commits
  (outcome, { s with commits := commits })

/-- A computation on the commitments and the generator. -/
def onCommitsAndGenerator
    (f : Attestation.CommitState → InstanceGenerator ε →
      Checked β × Attestation.CommitState × InstanceGenerator ε) :
    Operation ε β := fun s =>
  let (outcome, commits, generator) := f s.commits s.generator
  (outcome, { s with commits := commits, generator := generator })

end Operation

end TrustedPlatform
