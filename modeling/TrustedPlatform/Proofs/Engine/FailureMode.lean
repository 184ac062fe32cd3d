import TrustedPlatform.Engine
import TrustedPlatform.Proofs.Engine.Command
import TrustedPlatform.Proofs.Engine.SelfTest

/-!
# Failure mode

Beside an engine that answers calls, `Engine.Watched` keeps a list of the fatal conditions that the
bodies of its calls ended in since the last reset. The engine's own record is always the first of
them. The main theorem, `Engine.Watched.failStop_run`, says so for every sequence of commands and
resets over an entropy source that fails fatally; an engine in failure mode answers with its record
and does nothing, and one outside failure mode has an instantiated generator.
-/

namespace TrustedPlatform

/-- The failure code that a caller is told. -/
def Engine.reported {β : Type} : Except CommandError β → Option FailureCode
  | .ok _ => none
  | .error e => e.failureCode?

/-- The fatal condition that an operation ends in, if it does. -/
def Operation.raised {ε β : Type} (x : Operation ε β) (s : EngineState ε) : List FailureCode :=
  match (x s).1 with
  | .error (.fatal code) => [code]
  | _ => []

namespace Engine

variable {ε β : Type} {engine : Engine ε} {code : FailureCode}

/-! ### One operation -/

/-- In failure mode, an operation is not run and nothing changes. -/
theorem execute_of_failure (h : engine.failure = some code) (x : Operation ε β) :
    engine.execute x = (.error (.failure code), engine) := by
  rw [execute, h]

/-- Outside failure mode, the state after an operation is the one that it leaves. -/
theorem state_execute (h : engine.failure = none) (x : Operation ε β) :
    (engine.execute x).2.state = (x engine.state).2 := by
  rw [execute, h]
  rcases x engine.state with ⟨_ | _, _⟩ <;> rfl

/-- Outside failure mode, the record after an operation is the fatal condition that it ended in. -/
theorem failure_execute (h : engine.failure = none) (x : Operation ε β) :
    (engine.execute x).2.failure = (Operation.raised x engine.state).head? := by
  rw [execute, h, Operation.raised]
  rcases x engine.state with ⟨e | _, _⟩
  · cases e <;> rfl
  · rfl

/-- The record after an operation is what its caller is told. -/
theorem failure_execute_eq_reported (engine : Engine ε) (x : Operation ε β) :
    (engine.execute x).2.failure = reported (engine.execute x).1 := by
  cases h : engine.failure with
  | some code =>
      rw [execute_of_failure h]
      exact h
  | none =>
      rw [execute, h]
      rcases x engine.state with ⟨_ | _, _⟩ <;> rfl

end Engine

/-! ### Initialization -/

/-- From each state with the first property, the operation leaves a state with the second or fails
fatally. -/
def Operation.Attains {ε β : Type} (P : EngineState ε → Prop) (x : Operation ε β)
    (Q : EngineState ε → Prop) : Prop :=
  ∀ s, P s → FailsFatally (x s).1 ∧ ∀ v, (x s).1 = .ok v → Q (x s).2

namespace Operation.Attains

variable {ε β γ : Type} {P Q R : EngineState ε → Prop}

/-- A given outcome moves no state. -/
theorem lift {outcome : Checked β} (h : FailsFatally outcome) :
    Attains P (liftM outcome : Operation ε β) P := by
  intro s hs
  refine ⟨h, ?_⟩
  intro v _
  exact hs

/-- An operation goes on from what was attained. -/
theorem bind {x : Operation ε β} {f : β → Operation ε γ} (hx : Attains P x Q)
    (hf : ∀ v, Attains Q (f v) R) : Attains P (x >>= f) R := by
  intro s hs
  obtain ⟨hfatal, hattained⟩ := hx s hs
  show FailsFatally (ExceptT.bindCont f (x s).1 (x s).2).1 ∧
    ∀ v, (ExceptT.bindCont f (x s).1 (x s).2).1 = .ok v →
      R (ExceptT.bindCont f (x s).1 (x s).2).2
  rcases houtcome : (x s).1 with e | v
  · refine ⟨?_, fun _ h => by cases h⟩
    rw [houtcome] at hfatal
    rintro _ ⟨⟩
    exact hfatal e rfl
  · exact hf v _ (hattained v houtcome)

end Operation.Attains

namespace Engine

variable {ε : Type} [EntropySource ε] (α : Type) [Arithmetic α] [LawfulArithmetic α]

/-- An instantiation leaves a generator that is ready, or fails fatally. -/
theorem reinstantiate_attains (hsource : EntropySource.FailsFatally ε) (personalization : Bytes) :
    Operation.Attains (fun _ => True)
      (Operation.onGenerator fun g : InstanceGenerator ε => g.reinstantiate personalization)
      EngineState.Ready := by
  intro s _
  show FailsFatally (s.generator.reinstantiate personalization).1 ∧
    ∀ v, (s.generator.reinstantiate personalization).1 = .ok v →
      (s.generator.reinstantiate personalization).2.Ready
  obtain ⟨e, g', hrun, hfatal⟩ | ⟨g', hrun, hready⟩ :=
    InstanceGenerator.reinstantiate_cases hsource s.generator personalization
  · rw [hrun]
    refine ⟨?_, fun _ h => by cases h⟩
    rintro _ ⟨⟩
    exact hfatal
  · rw [hrun]
    exact ⟨.ok (), fun _ _ => hready⟩

/-- A secret for commitments is drawn from a ready generator, which stays ready, or the draw fails
fatally. -/
theorem generateCommits_attains (hsource : EntropySource.FailsFatally ε) :
    Operation.Attains EngineState.Ready
      (Operation.onGenerator Attestation.CommitState.generate)
      (EngineState.Ready (ε := ε)) := by
  have hpreserves : Preserves InstanceGenerator.Ready
      (Attestation.CommitState.generate : Randomized (InstanceGenerator ε) _) :=
    (InstanceGenerator.drawsPreserve_ready _).bind fun _ => .pure _
  intro s hs
  refine ⟨?_, fun _ _ => hpreserves s.generator hs⟩
  let start (nonce : Bytes) : Randomized (InstanceGenerator ε) _ :=
    pure (Attestation.CommitState.start nonce)
  show FailsFatally (ExceptT.bindCont start
    (RandomSource.fill s.generator Attestation.nonceLength).1 _).1
  have hfatal := hs.fails_fatally_draw hsource Attestation.nonceLength
  cases houtcome : (RandomSource.fill s.generator Attestation.nonceLength).1 with
  | ok nonce => exact .ok _
  | error e =>
      rintro _ ⟨⟩
      exact hfatal e houtcome

/-- The initialization leaves a generator that is ready, or fails fatally. -/
theorem initialization_attains (hsource : EntropySource.FailsFatally ε) (config : EngineConfig) :
    Operation.Attains (fun _ => True) (initialization α config) (EngineState.Ready (ε := ε)) := by
  have hrest : Operation.Attains (fun _ => True) (do
      Operation.onGenerator fun g => g.reinstantiate config.personalization
      let commits ← Operation.onGenerator Attestation.CommitState.generate
      modify fun s => { s with commits := commits, cache := s.cache.clear })
      (EngineState.Ready (ε := ε)) := by
    refine (reinstantiate_attains hsource _).bind fun _ => ?_
    refine (generateCommits_attains hsource).bind fun commits => ?_
    intro s hs
    exact ⟨.ok (), fun _ _ => hs⟩
  -- with or without the self tests in front
  rw [initialization]
  split
  · exact (Operation.Attains.lift (SelfTest.fails_fatally_powerOn α)).bind fun _ => hrest
  · exact hrest

end Engine

/-! ### Runs -/

/-- A call on an engine. -/
inductive Call where
  | command (command : Command)
  | reset

namespace Engine

/-- An engine with the fatal conditions that its calls ended in since the last reset, in order. -/
structure Watched (ε : Type) where
  engine : Engine ε
  raised : List FailureCode

variable {ε : Type} [EntropySource ε] (α : Type) [Arithmetic α]

/-- The state that an engine starts from. -/
def fresh (source : ε) (config : EngineConfig) : EngineState ε :=
  ⟨.start source config.limits, .empty, .start (List.replicate Attestation.nonceLength 0)⟩

/-- The state that a reset starts from. -/
def wiped (engine : Engine ε) : EngineState ε :=
  { engine.state with generator := engine.state.generator.uninstantiate }

namespace Watched

/-- An engine that was just started. -/
def start (source : ε) (config : EngineConfig) : Watched ε :=
  ⟨startup α source config, Operation.raised (initialization α config) (fresh source config)⟩

/-- One call. The body of a command runs outside failure mode only, and a reset forgets the
conditions before it. -/
def step (w : Watched ε) : Call → Watched ε
  | .command command =>
      let body := command.perform α w.engine.config.retries
      ⟨(w.engine.run α command).2,
        if w.engine.failure = none then w.raised ++ Operation.raised body w.engine.state
        else w.raised⟩
  | .reset =>
      ⟨(w.engine.reset α).2,
        Operation.raised (initialization α w.engine.config) w.engine.wiped⟩

/-- A sequence of calls. -/
def run (w : Watched ε) (calls : List Call) : Watched ε :=
  calls.foldl (step α) w

/-- The record is the first condition since the last reset, and without one the generator is
ready. -/
structure Coherent (w : Watched ε) : Prop where
  failure_eq : w.engine.failure = w.raised.head?
  ready : w.engine.failure = none → w.engine.state.Ready

/-- What failure mode promises of an engine and of its next call. -/
structure FailStop (w : Watched ε) : Prop where
  /-- The record is the first fatal condition since the last reset. -/
  failure_eq : w.engine.failure = w.raised.head?
  /-- In failure mode no operation is run, and nothing changes. -/
  execute_eq : ∀ code, w.engine.failure = some code → ∀ (β : Type) (x : Operation ε β),
    w.engine.execute x = (.error (.failure code), w.engine)
  /-- In failure mode every command answers with the record. -/
  run_eq : ∀ code, w.engine.failure = some code → ∀ command,
    w.engine.run α command = (.error (.failure code), w.engine)
  /-- The record after a command is the code in its answer. -/
  failure_run : ∀ command, (w.engine.run α command).2.failure = reported (w.engine.run α command).1
  /-- A reset that succeeds leaves failure mode. -/
  failure_reset_ok : (w.engine.reset α).1 = .ok () → (w.engine.reset α).2.failure = none
  /-- A reset that does not succeed leaves the engine in failure mode. -/
  failure_reset_error : ∀ e, (w.engine.reset α).1 = .error e →
    ∃ code, e = .failure code ∧ (w.engine.reset α).2.failure = some code
  /-- Outside failure mode the generator is instantiated. -/
  instantiated : w.engine.failure = none → w.engine.state.generator.isInstantiated = true

variable {α} [LawfulArithmetic α] {w : Watched ε}

/-- An initialization leaves an engine that is coherent with the condition that it ended in. -/
theorem coherent_initialized (hsource : EntropySource.FailsFatally ε) (engine : Engine ε)
    (h : engine.failure = none) :
    Coherent ⟨(engine.initialized α).2,
      Operation.raised (initialization α engine.config) engine.state⟩ := by
  refine ⟨failure_execute h _, fun hnone => ?_⟩
  obtain ⟨hfatal, hready⟩ := initialization_attains α hsource engine.config engine.state trivial
  have hraised := (failure_execute h (initialization α engine.config)).symm.trans hnone
  show ((engine.execute (initialization α engine.config)).2.state).Ready
  rw [state_execute h]
  rw [Operation.raised] at hraised
  rcases houtcome : (initialization α engine.config engine.state).1 with e | u
  · obtain ⟨code, rfl⟩ := Fault.isFatal_iff.mp (hfatal e houtcome)
    rw [houtcome] at hraised
    cases hraised
  · exact hready u houtcome

/-- One call keeps an engine coherent with the conditions. -/
theorem Coherent.step (hsource : EntropySource.FailsFatally ε) (h : w.Coherent) (call : Call) :
    (w.step α call).Coherent := by
  cases call with
  | reset => exact coherent_initialized hsource ⟨w.engine.wiped, w.engine.config, none⟩ rfl
  | command command =>
      cases hfailure : w.engine.failure with
      | some code =>
          -- the body does not run, so there is nothing to add to the conditions
          have hrun : w.engine.run α command = (.error (.failure code), w.engine) :=
            execute_of_failure hfailure _
          refine ⟨?_, ?_⟩
          · show (w.engine.run α command).2.failure = (ite _ _ _ : List FailureCode).head?
            rw [hrun, if_neg (by rw [hfailure]; exact nofun)]
            exact h.failure_eq
          · show (w.engine.run α command).2.failure = none → (w.engine.run α command).2.state.Ready
            rw [hrun]
            exact h.ready
      | none =>
          -- outside failure mode there is no condition yet, so that this one is the first
          have hraised : w.raised = [] := by
            rw [← List.head?_eq_none_iff, ← h.failure_eq, hfailure]
          refine ⟨?_, fun _ => ?_⟩
          · show (w.engine.run α command).2.failure = (ite _ _ _ : List FailureCode).head?
            rw [if_pos hfailure, hraised, List.nil_append]
            exact failure_execute hfailure _
          · show ((w.engine.execute _).2.state).Ready
            rw [state_execute hfailure]
            exact command.perform_preserves α _ _ (h.ready hfailure)

/-- Every sequence of calls keeps an engine coherent with the conditions. -/
theorem Coherent.run (hsource : EntropySource.FailsFatally ε) (h : w.Coherent)
    (calls : List Call) : (w.run α calls).Coherent := by
  induction calls generalizing w with
  | nil => exact h
  | cons call calls ih =>
      have hnext : (w.step α call).Coherent := h.step hsource call
      exact ih hnext

/-- A reset that does not succeed is told a failure code. -/
theorem exists_failure_of_reset (hsource : EntropySource.FailsFatally ε) {engine : Engine ε}
    {e : CommandError} (h : (engine.reset α).1 = .error e) : ∃ code, e = .failure code := by
  obtain ⟨hfatal, -⟩ := initialization_attains α hsource engine.config engine.wiped trivial
  have hrun : (engine.reset α).1 = ((initialization α engine.config engine.wiped).1.mapError
      Fault.toCommandError) := by
    show (execute ⟨engine.wiped, engine.config, none⟩ _).1 = _
    rw [execute]
    rcases initialization α engine.config engine.wiped with ⟨_ | _, _⟩ <;> rfl
  rw [hrun] at h
  rcases houtcome : (initialization α engine.config engine.wiped).1 with fault | u
  · obtain ⟨code, rfl⟩ := Fault.isFatal_iff.mp (hfatal fault houtcome)
    rw [houtcome] at h
    cases h
    exact ⟨code, rfl⟩
  · rw [houtcome] at h
    cases h

/-- After every sequence of commands and resets from a start, over an entropy source that fails
fatally, the engine keeps what failure mode promises. -/
theorem failStop_run (hsource : EntropySource.FailsFatally ε) (source : ε) (config : EngineConfig)
    (calls : List Call) : ((start α source config).run α calls).FailStop α := by
  have hstart : (start α source config).Coherent :=
    coherent_initialized hsource ⟨fresh source config, config, none⟩ rfl
  have hcoherent := hstart.run (α := α) hsource calls
  generalize (start α source config).run α calls = w at hcoherent
  have hreset : (w.engine.reset α).2.failure = reported (w.engine.reset α).1 :=
    failure_execute_eq_reported _ _
  refine
    { failure_eq := hcoherent.failure_eq
      execute_eq := fun code h β x => execute_of_failure h x
      run_eq := fun code h command => execute_of_failure h _
      failure_run := fun command => failure_execute_eq_reported _ _
      failure_reset_ok := fun hok => ?_
      failure_reset_error := fun e he => ?_
      instantiated := fun h => (hcoherent.ready h).instantiated }
  · rw [hreset, hok]
    rfl
  · obtain ⟨code, rfl⟩ := exists_failure_of_reset hsource he
    refine ⟨code, rfl, ?_⟩
    rw [hreset, he]
    rfl

/-- An engine over a source that has no byte to give, asked for bytes and reset. -/
theorem failStop_run_exhausted :
    let source := ContinuousEntropy.start (⟨fun _ => 0, some 0, 0⟩ : ByteStream)
    let config := { EngineConfig.default with runSelfTests := false }
    let w := (start FixedNat source config).run FixedNat [.command (.random 16), .reset]
    EntropySource.FailsFatally (ContinuousEntropy ByteStream) ∧ w.raised = [.entropy] ∧
      w.FailStop FixedNat := by
  refine ⟨ContinuousEntropy.failsFatally, ?_, ?_⟩
  · rfl
  · exact failStop_run ContinuousEntropy.failsFatally _ _ _

end Watched

end Engine

end TrustedPlatform
