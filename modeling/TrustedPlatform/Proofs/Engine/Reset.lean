import TrustedPlatform.Proofs.Engine.Session

/-!
# A reset erases the past

Two engines of one configuration may have seen different sessions. When a reset means the same to
their entropy sources, both are answered the same on a reset, and cannot be told apart afterwards:
either the reset succeeds and leaves two equal engines, or it fails with one code, and what is left
of the past stays behind failure mode until a later reset. The initialization is followed in both
engines at once, from states that agree in no more than the sizes a configuration gives and in what
a reset of the source does.
-/

namespace TrustedPlatform

variable {ε : Type} [EntropySource ε]

namespace EngineState

/-- Two states that agree in the limits of their generators and in the capacity of their caches, with
sources to which a reset, a request for no bytes, means the same. -/
structure Renewable (s s' : EngineState ε) : Prop where
  limits_eq : s.generator.generator.limits = s'.generator.generator.limits
  capacity_eq : s.cache.capacity = s'.cache.capacity
  source_eq : EntropySource.request s.generator.source 0 =
    EntropySource.request s'.generator.source 0

/-- Two states with one generator that agree in the capacity of their caches. -/
structure Reseeded (s s' : EngineState ε) : Prop where
  generator_eq : s.generator = s'.generator
  capacity_eq : s.cache.capacity = s'.cache.capacity

variable {s s' : EngineState ε}

/-- Equal states agree in particular in what a reset needs. -/
theorem Renewable.refl (s : EngineState ε) : s.Renewable s :=
  ⟨rfl, rfl, rfl⟩

omit [EntropySource ε] in
/-- Two states whose caches agree in capacity, with one generator put into both. -/
theorem Reseeded.of_capacity (h : s.cache.capacity = s'.cache.capacity)
    (generator : InstanceGenerator ε) :
    Reseeded { s with generator := generator } { s' with generator := generator } :=
  ⟨rfl, h⟩

/-- States with one generator agree in particular in what a reset needs. -/
theorem Reseeded.renewable (h : s.Reseeded s') : s.Renewable s' :=
  ⟨by rw [h.generator_eq], h.capacity_eq, by rw [h.generator_eq]⟩

end EngineState

namespace Operation

variable {β γ : Type} {P Q R : EngineState ε → EngineState ε → Prop}

/-- From two states that are related, the operation ends the same way: in one value and states that
are related again, or in one fault and states that a reset cannot tell apart. -/
inductive Ends (Q : EngineState ε → EngineState ε → Prop) :
    Checked β × EngineState ε → Checked β × EngineState ε → Prop
  | ok {v : β} {t t' : EngineState ε} : Q t t' → Ends Q (.ok v, t) (.ok v, t')
  | error {e : Fault} {t t' : EngineState ε} :
      t.Renewable t' → Ends Q (.error e, t) (.error e, t')

/-- The operation ends the same way from related states. -/
def Agrees (P : EngineState ε → EngineState ε → Prop) (x : Operation ε β)
    (Q : EngineState ε → EngineState ε → Prop) : Prop :=
  ∀ s s', P s s' → Ends Q (x s) (x s')

/-- A given outcome moves no state. -/
theorem Agrees.lift (outcome : Checked β) :
    Agrees EngineState.Renewable (liftM outcome : Operation ε β) EngineState.Renewable := by
  intro s s' h
  cases outcome with
  | ok v => exact .ok h
  | error e => exact .error h

/-- An operation goes on from related states. -/
theorem Agrees.bind {x : Operation ε β} {f : β → Operation ε γ} (hx : Agrees P x Q)
    (hf : ∀ v, Agrees Q (f v) R) : Agrees P (x >>= f) R := by
  intro s s' h
  have hfirst := hx s s' h
  show Ends R (ExceptT.bindCont f (x s).1 (x s).2) (ExceptT.bindCont f (x s').1 (x s').2)
  generalize x s = run at hfirst
  generalize x s' = run' at hfirst
  cases hfirst with
  | ok hnext => exact hf _ _ _ hnext
  | error hrenewable => exact .error hrenewable

end Operation

namespace Engine

open Operation EngineState

/-! ### Initialization -/

/-- An instantiation forgets the generator. -/
theorem reinstantiate_agrees (personalization : Bytes) :
    Agrees Renewable
      (onGenerator fun g : InstanceGenerator ε => g.reinstantiate personalization) Reseeded := by
  intro s s' h
  have hwiped : s.generator.generator.uninstantiate = s'.generator.generator.uninstantiate :=
    congrArg CounterGenerator.zeroed h.limits_eq
  have hlimits := h.limits_eq
  show Ends Reseeded
    ((s.generator.reinstantiate personalization).1,
      { s with generator := (s.generator.reinstantiate personalization).2 })
    ((s'.generator.reinstantiate personalization).1,
      { s' with generator := (s'.generator.reinstantiate personalization).2 })
  unfold InstanceGenerator.reinstantiate
  rw [hwiped, h.source_eq]
  dsimp only
  split
  · -- inadmissible limits leave the sources as they were
    exact .error ⟨rfl, h.capacity_eq, h.source_eq⟩
  · split
    · exact .error (Reseeded.of_capacity h.capacity_eq _).renewable
    · split
      · exact .error (Reseeded.of_capacity h.capacity_eq _).renewable
      · exact .ok (.of_capacity h.capacity_eq _)

/-- A computation on one generator ends the same way and leaves one generator. -/
theorem onGenerator_agrees {β : Type} (x : Randomized (InstanceGenerator ε) β) :
    Agrees Reseeded (onGenerator x) Reseeded := by
  intro s s' h
  show Ends Reseeded ((x s.generator).1, { s with generator := (x s.generator).2 })
    ((x s'.generator).1, { s' with generator := (x s'.generator).2 })
  rw [h.generator_eq]
  rcases x s'.generator with ⟨e | v, g⟩
  · exact .error (Reseeded.of_capacity h.capacity_eq g).renewable
  · exact .ok (.of_capacity h.capacity_eq g)

/-- The last part of an initialization leaves equal states. -/
theorem renewal_agrees (commits : Attestation.CommitState) :
    Agrees Reseeded
      (modify fun s => { s with commits := commits, cache := s.cache.clear } : Operation ε Unit)
      Eq := by
  intro s s' h
  refine Ends.ok ?_
  show (⟨s.generator, s.cache.clear, commits⟩ : EngineState ε) = ⟨s'.generator, _, commits⟩
  rw [h.generator_eq, Rsa.ExponentCache.clear, Rsa.ExponentCache.clear, h.capacity_eq]

variable (α : Type) [Arithmetic α]

/-- An initialization that succeeds leaves nothing of the state it started from. -/
theorem initialization_agrees (config : EngineConfig) :
    Agrees Renewable (initialization α config : Operation ε Unit) Eq := by
  have hrest : Agrees Renewable (do
      onGenerator fun g => g.reinstantiate config.personalization
      let commits ← onGenerator Attestation.CommitState.generate
      modify fun s => { s with commits := commits, cache := s.cache.clear } :
        Operation ε Unit) Eq := by
    refine (reinstantiate_agrees _).bind fun _ => ?_
    exact (onGenerator_agrees _).bind renewal_agrees
  rw [initialization]
  split
  · exact (Agrees.lift _).bind fun _ => hrest
  · exact hrest

/-! ### Two engines -/

/-- Two engines that no session can tell apart: equal ones, or two in failure mode for one reason
that a reset cannot tell apart. -/
inductive Alike : Engine ε → Engine ε → Prop
  | same (engine : Engine ε) : Alike engine engine
  | failed {engine other : Engine ε} {code : FailureCode} :
      engine.failure = some code → other.failure = some code → engine.config = other.config →
        engine.state.Renewable other.state → Alike engine other

/-- Two engines that a reset cannot tell apart. -/
structure Resettable (engine other : Engine ε) : Prop where
  config_eq : engine.config = other.config
  renewable : engine.state.Renewable other.state

variable {engine other : Engine ε}

/-- Engines that are alike are alike to a reset. -/
theorem Alike.resettable (h : Alike engine other) : Resettable engine other := by
  cases h with
  | same => exact ⟨rfl, .refl _⟩
  | failed _ _ hconfig hrenewable => exact ⟨hconfig, hrenewable⟩

/-- Engines that are alike have the same record. -/
theorem Alike.failure_eq (h : Alike engine other) : engine.failure = other.failure := by
  cases h with
  | same => rfl
  | failed hfailure hother _ _ => rw [hfailure, hother]

/-- Outside failure mode, engines that are alike are equal. -/
theorem Alike.eq_of_none (h : Alike engine other) (hnone : engine.failure = none) :
    engine = other := by
  cases h with
  | same => rfl
  | failed hfailure _ _ _ =>
      rw [hfailure] at hnone
      cases hnone

variable {α} [LawfulArithmetic α]

/-- A reset answers the same and leaves engines that are alike, whatever each engine has seen. -/
theorem Resettable.reset (hsource : EntropySource.FailsFatally ε) (h : Resettable engine other) :
    (engine.reset α).1 = (other.reset α).1 ∧ Alike (engine.reset α).2 (other.reset α).2 := by
  have hwiped : engine.wiped.Renewable other.wiped :=
    ⟨h.renewable.limits_eq, h.renewable.capacity_eq, h.renewable.source_eq⟩
  have hends := initialization_agrees α engine.config _ _ hwiped
  have hfatal := (initialization_attains α hsource engine.config engine.wiped trivial).1
  show (execute ⟨engine.wiped, engine.config, none⟩ _).1 =
      (execute ⟨other.wiped, other.config, none⟩ _).1 ∧
    Alike (execute ⟨engine.wiped, engine.config, none⟩ _).2
      (execute ⟨other.wiped, other.config, none⟩ _).2
  rw [← h.config_eq]
  simp only [execute]
  generalize initialization α engine.config engine.wiped = run at hends hfatal
  generalize initialization α engine.config other.wiped = run' at hends
  cases hends with
  | ok heq =>
      cases heq
      exact ⟨rfl, .same _⟩
  | error hrenewable =>
      obtain ⟨code, rfl⟩ := Fault.isFatal_iff.mp (hfatal _ rfl)
      exact ⟨rfl, .failed rfl rfl rfl hrenewable⟩

/-- A call is answered the same by engines that are alike, and leaves them alike. -/
theorem Alike.call (hsource : EntropySource.FailsFatally ε) (h : Alike engine other)
    (call : Call) :
    (engine.call α call).1 = (other.call α call).1 ∧
      Alike (engine.call α call).2 (other.call α call).2 := by
  cases call with
  | reset =>
      obtain ⟨hanswer, halike⟩ := h.resettable.reset (α := α) hsource
      exact ⟨congrArg (Except.map fun _ => Response.done) hanswer, halike⟩
  | command command =>
      cases h with
      | same => exact ⟨rfl, .same _⟩
      | failed hfailure hother hconfig hrenewable =>
          -- in failure mode the command is not run, in neither engine
          show (engine.run α command).1 = (other.run α command).1 ∧
            Alike (engine.run α command).2 (other.run α command).2
          rw [Engine.run, Engine.run, execute_of_failure hfailure, execute_of_failure hother]
          exact ⟨rfl, .failed hfailure hother hconfig hrenewable⟩

/-- Engines that are alike answer the same through every session. -/
theorem Alike.transcript (hsource : EntropySource.FailsFatally ε) (h : Alike engine other)
    (calls : List Call) : engine.transcript α calls = other.transcript α calls := by
  induction calls generalizing engine other with
  | nil => rfl
  | cons call calls ih =>
      obtain ⟨hanswer, halike⟩ := h.call (α := α) hsource call
      rw [Engine.transcript, Engine.transcript, hanswer, halike.failure_eq, ih halike]

/-- Two engines of one configuration, each after a session of its own over an entropy source of its
own that fails fatally, whose sources a reset does not tell apart: a reset answers the same on both
and so does every session after it, and a reset that succeeds leaves equal engines. -/
theorem reset_forgets (hsource : EntropySource.FailsFatally ε) (config : EngineConfig)
    (source source' : ε) (past past' : List Call)
    (hsame : EntropySource.request ((startup α source config).after α past).state.generator.source 0
      = EntropySource.request ((startup α source' config).after α past').state.generator.source 0) :
    let engine := (startup α source config).after α past
    let other := (startup α source' config).after α past'
    (engine.reset α).1 = (other.reset α).1 ∧
      (engine.reset α).2.failure = (other.reset α).2.failure ∧
      (∀ session, (engine.reset α).2.transcript α session = (other.reset α).2.transcript α session) ∧
      ((engine.reset α).1 = .ok () → (engine.reset α).2 = (other.reset α).2) := by
  intro engine other
  have hengine : Configured config engine := (configured_startup α source config).after α past
  have hother : Configured config other := (configured_startup α source' config).after α past'
  have hresettable : Resettable engine other :=
    { config_eq := hengine.config_eq.trans hother.config_eq.symm
      renewable :=
        { limits_eq := hengine.sized.generator.trans hother.sized.generator.symm
          capacity_eq := hengine.sized.cache.trans hother.sized.cache.symm
          source_eq := hsame } }
  obtain ⟨hanswer, halike⟩ := hresettable.reset (α := α) hsource
  refine ⟨hanswer, halike.failure_eq, halike.transcript hsource, fun hok => ?_⟩
  refine halike.eq_of_none ?_
  have hreported : (engine.reset α).2.failure = reported (engine.reset α).1 :=
    failure_execute_eq_reported _ _
  rw [hreported, hok]
  rfl

/-- Two engines over sources that have no byte to give, one of them asked for bytes and reset
before. -/
theorem reset_forgets_exhausted :
    let source := ContinuousEntropy.start (⟨fun _ => 0, some 0, 0⟩ : ByteStream)
    let config := { EngineConfig.default with runSelfTests := false }
    let engine := (startup FixedNat source config).after FixedNat [.command (.random 16), .reset]
    let other := startup FixedNat { source with last := some [1] } config
    EntropySource.FailsFatally (ContinuousEntropy ByteStream) ∧
      (engine.reset FixedNat).1 = (other.reset FixedNat).1 ∧
      ∀ session, (engine.reset FixedNat).2.transcript FixedNat session =
        (other.reset FixedNat).2.transcript FixedNat session := by
  intro source config engine other
  have h := reset_forgets (α := FixedNat) ContinuousEntropy.failsFatally config source
    { source with last := some [1] } [.command (.random 16), .reset] [] rfl
  exact ⟨ContinuousEntropy.failsFatally, h.1, h.2.2.1⟩

end Engine

end TrustedPlatform
