import TrustedPlatform.Engine.Command
import TrustedPlatform.Engine.Config
import TrustedPlatform.Engine.SelfTest

/-!
# Engine

An engine runs commands against its state. The first fatal fault puts it into failure mode: from
then on every command answers with the recorded code and does nothing, until a reset succeeds in
starting the engine afresh. `Engine.execute` is the one place where this happens.
-/

namespace TrustedPlatform

/-- A crypto engine over an entropy source with states `ε`. -/
structure Engine (ε : Type) where
  state : EngineState ε
  config : EngineConfig
  /-- The code of the first fatal fault since the last reset. -/
  failure : Option FailureCode

namespace Engine

variable {ε β : Type}

/-- Run an operation unless the engine is in failure mode, and enter failure mode when the
operation ends in a fatal fault. -/
def execute (engine : Engine ε) (x : Operation ε β) : Except CommandError β × Engine ε :=
  match engine.failure with
  | some code => (.error (.failure code), engine)
  | none =>
      match x engine.state with
      | (.ok value, state) => (.ok value, { engine with state := state })
      | (.error fault, state) =>
          let e := fault.toCommandError
          (.error e, { engine with state := state, failure := e.failureCode? })

variable (α : Type) [Arithmetic α] [EntropySource ε]

/-- Test the engine, seed its generator, draw a secret for commitments and empty the cache. -/
def initialization (config : EngineConfig) : Operation ε Unit := do
  if config.runSelfTests then SelfTest.powerOn α
  Operation.onGenerator fun g => g.reinstantiate config.personalization
  let commits ← Operation.onGenerator Attestation.CommitState.generate
  -- the old commitments and the cache go only once the generator has given a new secret
  modify fun s => { s with commits := commits, cache := s.cache.clear }

/-- Run the initialization. -/
def initialized (engine : Engine ε) : Except CommandError Unit × Engine ε :=
  engine.execute (initialization α engine.config)

/-- An engine over an entropy source, in failure mode when its initialization fails. -/
def startup (source : ε) (config : EngineConfig) : Engine ε :=
  let state : EngineState ε :=
    { generator := .start source config.limits
      cache := .empty
      commits := .start (List.replicate Attestation.nonceLength 0) }
  (initialized α ⟨state, config, none⟩).2

/-- Leave failure mode, wipe the generator and initialize again. -/
def reset (engine : Engine ε) : Except CommandError Unit × Engine ε :=
  let wiped := { engine.state with generator := engine.state.generator.uninstantiate }
  initialized α { engine with state := wiped, failure := none }

/-- Run a command. -/
def run (engine : Engine ε) (command : Command) : Except CommandError Response × Engine ε :=
  engine.execute (command.perform α engine.config.retries)

/-- The arithmetic and the failure mode of the engine, with the rest withheld. -/
def describe (engine : Engine ε) : String :=
  let entered := (engine.failure.map fun code => "Some(" ++ code.name ++ ")").getD "None"
  "CryptoEngine \x7b backend: \"" ++ Arithmetic.name α ++ "\", failure: FailureMode \x7b entered: "
    ++ entered ++ " \x7d, .. \x7d"

end Engine

end TrustedPlatform
