import TrustedPlatform.Proofs.Engine.FailureMode

/-!
# Sessions

A session is a list of commands and resets on one engine. `Engine.transcript` is all that its user
sees of it: the answer to each call, and the record of failure after it. Through every session an
engine keeps its configuration, the limits of its generator and the capacity of its cache.
-/

namespace TrustedPlatform

namespace Engine

variable {ε : Type} [EntropySource ε] (α : Type) [Arithmetic α]

/-- Make a call. A reset that succeeds has nothing to tell. -/
def call (engine : Engine ε) : Call → Except CommandError Response × Engine ε
  | .command command => engine.run α command
  | .reset => ((engine.reset α).1.map fun _ => .done, (engine.reset α).2)

/-- The engine after a session. -/
def after (engine : Engine ε) (calls : List Call) : Engine ε :=
  calls.foldl (fun engine call => (engine.call α call).2) engine

/-- The answers to the calls of a session, each with the record of failure after it. -/
def transcript (engine : Engine ε) :
    List Call → List (Except CommandError Response × Option FailureCode)
  | [] => []
  | call :: calls =>
      ((engine.call α call).1, (engine.call α call).2.failure)
        :: ((engine.call α call).2).transcript calls

end Engine

/-! ### What is kept of the generator and of the cache -/

namespace InstanceGenerator

variable {ε : Type} {limits : GeneratorLimits}

/-- The generator has the given limits. -/
def Limited (limits : GeneratorLimits) (g : InstanceGenerator ε) : Prop :=
  g.generator.limits = limits

variable [EntropySource ε] {g : InstanceGenerator ε}

/-- A reseeding keeps the limits. -/
theorem Limited.reseed (h : g.Limited limits) (additional : Bytes) :
    (g.reseed additional).2.Limited limits := by
  obtain ⟨e, source, -, hrun⟩ | ⟨seed, source, -, hrun⟩ := reseed_cases g additional
  · rw [hrun]
    exact h
  · rw [hrun]
    exact h

/-- A generator that is served from keeps its limits. -/
theorem Limited.served (h : g.Limited limits) : g.served.2.Limited limits := by
  rw [InstanceGenerator.served]
  split
  · exact h.reseed []
  · exact h

/-- A request keeps the limits. -/
theorem Limited.generate (h : g.Limited limits) (buffer : Bytes) :
    (g.generate buffer).state.Limited limits := by
  cases hinst : g.isInstantiated with
  | false =>
      unfold InstanceGenerator.generate
      rw [hinst]
      split
      · exact h
      · exact h
  | true =>
      have hserved := h.served
      obtain ⟨-, hrun⟩ | ⟨e, g', hg', hrun⟩ | ⟨g', hg', hrun⟩ := generate_cases hinst buffer
      · rw [hrun]
        exact h
      · rw [hg'] at hserved
        rw [hrun]
        exact hserved
      · rw [hg'] at hserved
        rw [hrun]
        exact (CounterGenerator.limits_generate _ _).trans hserved

/-- Draws keep the limits. -/
theorem drawsPreserve_limited : DrawsPreserve (Limited limits : InstanceGenerator ε → Prop) := by
  intro n g h
  exact Draw.state_repeated (fun _ buffer hs => hs.generate buffer) _ h _

/-- An instantiation keeps the limits, however it ends. -/
theorem Limited.reinstantiate (h : g.Limited limits) (personalization : Bytes) :
    (g.reinstantiate personalization).2.Limited limits := by
  unfold InstanceGenerator.reinstantiate
  dsimp only
  split
  · exact h
  · split
    · exact h
    · split
      · exact h
      · exact h

end InstanceGenerator

namespace Rsa.ExponentCache

variable {capacity : Nat} {cache : ExponentCache}

/-- Looking up a key keeps the capacity. -/
theorem capacity_find (key : CacheKey) : (cache.find key).2.capacity = cache.capacity := by
  unfold find
  split <;> rfl

/-- Storing a key keeps the capacity. -/
theorem capacity_add (key : CacheKey) (parts : DerivedParts) :
    (cache.add key parts).capacity = cache.capacity := by
  unfold add
  split <;> rfl

/-- Recovering a key keeps the capacity. -/
theorem capacity_ofPrime (α : Type) [Arithmetic α] (key : PublicKey) (prime : Bytes) :
    (PrivateKey.ofPrime α cache key prime).2.capacity = cache.capacity := by
  have hderive (cache : ExponentCache) (p : Bytes) :
      (PrivateKey.derive α cache key p).2.capacity = cache.capacity := by
    unfold PrivateKey.derive
    split
    · rfl
    · exact capacity_add _ _
  have hfind := cache.capacity_find (.of prime.stripZeros key.modulus key.exponent)
  unfold PrivateKey.ofPrime
  dsimp only
  split
  · next hmiss =>
      rw [hmiss] at hfind
      exact (hderive _ _).trans hfind
  · next hhit =>
      rw [hhit] at hfind
      split
      · exact hfind
      · exact (hderive _ _).trans hfind

end Rsa.ExponentCache

/-! ### What an engine keeps -/

namespace Engine

variable {ε β : Type} {engine : Engine ε} {I : EngineState ε → Prop}

/-- An operation at the boundary of the engine keeps what the operation keeps. -/
theorem execute_preserves {x : Operation ε β} (hx : Preserves I x) (h : I engine.state) :
    I (engine.execute x).2.state := by
  cases hfailure : engine.failure with
  | some code =>
      rw [execute_of_failure hfailure]
      exact h
  | none =>
      rw [state_execute hfailure]
      exact hx engine.state h

/-- An operation at the boundary of the engine does not touch the configuration. -/
theorem config_execute (engine : Engine ε) (x : Operation ε β) :
    (engine.execute x).2.config = engine.config := by
  rw [execute]
  split
  · rfl
  · split <;> rfl

variable [EntropySource ε] (α : Type) [Arithmetic α] {limits : GeneratorLimits} {capacity : Nat}

/-- The initialization keeps what draws and reinstantiations keep of the generator and what
clearing keeps of the cache, however it ends. -/
theorem initialization_satisfies {G : InstanceGenerator ε → Prop} {C : Rsa.ExponentCache → Prop}
    (hdraw : DrawsPreserve G)
    (hreinstantiate : ∀ g personalization, G g → G (g.reinstantiate personalization).2)
    (hclear : ∀ cache, C cache → C cache.clear) (config : EngineConfig) :
    Preserves (EngineState.Satisfies G C) (initialization α config : Operation ε Unit) := by
  have hrest : Preserves (EngineState.Satisfies G C) (do
      Operation.onGenerator fun g => g.reinstantiate config.personalization
      let commits ← Operation.onGenerator Attestation.CommitState.generate
      modify fun s => { s with commits := commits, cache := s.cache.clear } :
        Operation ε Unit) := by
    refine (Operation.onGenerator_preserves fun g hg => ?_).bind fun _ => ?_
    · exact hreinstantiate g _ hg
    · refine (Operation.onGenerator_preserves ?_).bind fun commits => ?_
      · exact (hdraw _).bind fun _ => .pure _
      · intro s hs
        exact ⟨hs.generator, hclear s.cache hs.cache⟩
  rw [initialization]
  split
  · exact (Preserves.lift _).bind fun _ => hrest
  · exact hrest

/-- The limits of the generator and the capacity of the cache. -/
abbrev Sized (limits : GeneratorLimits) (capacity : Nat) : EngineState ε → Prop :=
  EngineState.Satisfies (InstanceGenerator.Limited limits) fun cache => cache.capacity = capacity

/-- The initialization keeps limits and capacity, however it ends. -/
theorem initialization_sized (config : EngineConfig) :
    Preserves (Sized limits capacity) (initialization α config : Operation ε Unit) :=
  initialization_satisfies α InstanceGenerator.drawsPreserve_limited
    (fun _ personalization hg => hg.reinstantiate personalization) (fun _ hc => hc) config

/-- A configuration and a state of the sizes it asks for. -/
structure Configured (config : EngineConfig) (engine : Engine ε) : Prop where
  config_eq : engine.config = config
  sized : Sized config.limits Rsa.ExponentCache.defaultCapacity engine.state

variable {config : EngineConfig}

/-- An engine starts as configured. -/
theorem configured_startup (source : ε) (config : EngineConfig) :
    Configured config (startup α source config) where
  config_eq := config_execute _ _
  sized := execute_preserves (initialization_sized α config) ⟨rfl, rfl⟩

/-- A call leaves an engine as configured. -/
theorem Configured.call (h : Configured config engine) (call : Call) :
    Configured config (engine.call α call).2 := by
  cases call with
  | command command =>
      refine ⟨(config_execute _ _).trans h.config_eq, execute_preserves ?_ h.sized⟩
      exact command.perform_satisfies α InstanceGenerator.drawsPreserve_limited
        (fun g additional hg => hg.reseed additional)
        (fun key prime cache hc => (Rsa.ExponentCache.capacity_ofPrime α key prime).trans hc) _
  | reset =>
      refine ⟨(config_execute _ _).trans h.config_eq, ?_⟩
      exact execute_preserves (initialization_sized α _) ⟨h.sized.generator, h.sized.cache⟩

/-- A session leaves an engine as configured. -/
theorem Configured.after (h : Configured config engine) (calls : List Call) :
    Configured config (engine.after α calls) := by
  induction calls generalizing engine with
  | nil => exact h
  | cons call calls ih => exact ih (h.call α call)

end Engine

end TrustedPlatform
