import TrustedPlatform.Proofs.Random.Counter
import TrustedPlatform.Proofs.Random.Drawing
import TrustedPlatform.Proofs.Random.Entropy
import TrustedPlatform.Random.Instance

/-!
# An instance's generator between a seeding and a wipe

Once its generator is instantiated within admissible limits, an instance draws without ever being
refused for want of a seed: a request that is due for one reseeds first. Over an entropy source
whose errors are fatal, no draw and no instantiation ends in a recoverable fault.
-/

namespace TrustedPlatform

namespace Draw

variable {σ : Type} {I : σ → Prop} {generate : σ → Bytes → Draw σ Nat}

/-- Repeated requests keep what each of them keeps. -/
theorem state_repeated (h : ∀ s buffer, I s → I (generate s buffer).state) (requests : Nat) {s : σ}
    (hs : I s) (buffer : Bytes) : I (repeated generate requests s buffer).state := by
  induction requests generalizing s buffer with
  | zero => cases buffer <;> exact hs
  | succ requests ih =>
      cases buffer with
      | nil => exact hs
      | cons b buffer =>
          simp only [repeated]
          split
          · exact h s _ hs
          · exact ih (h s _ hs) _

/-- Repeated requests fail fatally when each of them does. -/
theorem fails_fatally_repeated (h : ∀ s buffer, I s → I (generate s buffer).state)
    (hfatal : ∀ s buffer, I s → FailsFatally (generate s buffer).outcome) (requests : Nat) {s : σ}
    (hs : I s) (buffer : Bytes) : FailsFatally (repeated generate requests s buffer).outcome := by
  induction requests generalizing s buffer with
  | zero =>
      cases buffer with
      | nil => exact .ok ()
      | cons b buffer => exact .fatal .internal
  | succ requests ih =>
      cases buffer with
      | nil => exact .ok ()
      | cons b buffer =>
          simp only [repeated]
          split
          · next hfirst =>
              rintro _ ⟨⟩
              exact hfatal s _ hs _ hfirst
          · exact ih (h s _ hs) _

end Draw

namespace CounterGenerator

variable {g : CounterGenerator} {buffer : Bytes}

/-- A request keeps the limits, and counts as one or not at all. -/
theorem state_generate (g : CounterGenerator) (buffer : Bytes) :
    (g.generate buffer).state.limits = g.limits ∧
      ((g.generate buffer).state.requests = g.requests ∨
        (g.generate buffer).state.requests = g.requests + 1) := by
  unfold generate
  split
  · exact ⟨rfl, .inl rfl⟩
  · split
    · exact ⟨rfl, .inl rfl⟩
    · split
      · exact ⟨rfl, .inl rfl⟩
      · dsimp only
        split
        · exact ⟨rfl, .inl rfl⟩
        · exact ⟨rfl, .inr rfl⟩

/-- A request keeps the limits. -/
theorem limits_generate (g : CounterGenerator) (buffer : Bytes) :
    (g.generate buffer).state.limits = g.limits :=
  (g.state_generate buffer).1

/-- A request does not lower the request counter. -/
theorem requests_le_generate (g : CounterGenerator) (buffer : Bytes) :
    g.requests ≤ (g.generate buffer).state.requests := by
  obtain ⟨-, h | h⟩ := g.state_generate buffer
  · exact Nat.le_of_eq h.symm
  · rw [h]
    exact Nat.le_succ _

/-- A request counts as at most one. -/
theorem generate_requests_le (g : CounterGenerator) (buffer : Bytes) :
    (g.generate buffer).state.requests ≤ g.requests + 1 := by
  obtain ⟨-, h | h⟩ := g.state_generate buffer
  · rw [h]
    exact Nat.le_succ _
  · exact Nat.le_of_eq h

/-- Within admissible limits and before the seed is used up, a request is refused for a repeated
block only. -/
theorem fails_fatally_generate (hlimits : g.limits.validate = .ok ())
    (hrequests : g.requests ≤ g.limits.reseedInterval) :
    FailsFatally (g.generate buffer).outcome := by
  unfold generate
  rw [hlimits]
  split
  · exact .ok _
  · -- the two recoverable refusals are for inadmissible limits and for a seed that is used up
    rw [if_neg (Nat.not_lt.mpr hrequests)]
    dsimp only
    split
    · exact .fatal .entropy
    · exact .ok _

end CounterGenerator

namespace InstanceGenerator

variable {ε : Type}

/-- The generator is instantiated when its request counter is not zero. -/
theorem isInstantiated_iff {g : InstanceGenerator ε} :
    g.isInstantiated = true ↔ g.generator.requests ≠ 0 := by
  rw [isInstantiated, bne_iff_ne]

/-- The generator is seeded, within admissible limits. -/
structure Ready (g : InstanceGenerator ε) : Prop where
  limits : g.generator.limits.validate = .ok ()
  instantiated : g.isInstantiated = true

variable [EntropySource ε] {g : InstanceGenerator ε}

/-! ### One request -/

/-- A reseeding moves the source, and seeds the generator anew when entropy was given. -/
theorem reseed_cases (g : InstanceGenerator ε) (additional : Bytes) :
    (∃ e source, requestSeed g.source = (.error e, source) ∧
      g.reseed additional = (.error e, { g with source := source })) ∨
    ∃ seed source, requestSeed g.source = (.ok seed, source) ∧
      g.reseed additional = (.ok (), ⟨g.generator.reseed seed additional, source⟩) := by
  unfold reseed
  cases hrequest : requestSeed g.source with
  | mk outcome source =>
      cases outcome with
      | error e => exact .inl ⟨e, source, rfl, rfl⟩
      | ok seed => exact .inr ⟨seed, source, rfl, rfl⟩

/-- A reseeding keeps a generator ready, whether or not entropy is given. -/
theorem Ready.reseed (h : g.Ready) (additional : Bytes) : (g.reseed additional).2.Ready := by
  obtain ⟨e, source, -, hrun⟩ | ⟨seed, source, -, hrun⟩ := reseed_cases g additional
  · rw [hrun]
    exact ⟨h.limits, h.instantiated⟩
  · rw [hrun]
    exact ⟨h.limits, rfl⟩

/-- The generator that a request is served from, reseeded when that is due. -/
def served (g : InstanceGenerator ε) : Checked Unit × InstanceGenerator ε :=
  if g.generator.needsReseed then g.reseed [] else (.ok (), g)

/-- A ready generator is served from a ready one. -/
theorem Ready.served (h : g.Ready) : g.served.2.Ready := by
  unfold InstanceGenerator.served
  split
  · exact h.reseed []
  · exact h

/-- A generator that is served from has not used up its seed. -/
theorem Ready.requests_le_of_served (h : g.Ready) {g' : InstanceGenerator ε}
    (hok : g.served = (.ok (), g')) :
    g'.generator.requests ≤ g'.generator.limits.reseedInterval := by
  unfold InstanceGenerator.served at hok
  split at hok
  · obtain ⟨e, source, -, hrun⟩ | ⟨seed, source, -, hrun⟩ := reseed_cases g []
    · rw [hrun] at hok
      cases hok
    · rw [hrun] at hok
      cases hok
      exact (GeneratorLimits.bounds_of_validate h.limits).1
  · next hneeds =>
      cases hok
      rw [CounterGenerator.needsReseed, decide_eq_true_eq] at hneeds
      exact Nat.le_of_not_lt hneeds

/-- A request to an instantiated generator asks for nothing, or fails to reseed, or is answered by
the counter-mode generator that it is served from. -/
theorem generate_cases (h : g.isInstantiated = true) (buffer : Bytes) :
    (buffer = [] ∧ g.generate buffer = ⟨g, buffer, .ok 0⟩) ∨
    (∃ e g', g.served = (.error e, g') ∧ g.generate buffer = ⟨g', buffer, .error e⟩) ∨
    ∃ g', g.served = (.ok (), g') ∧ g.generate buffer =
      ⟨{ g' with generator := (g'.generator.generate buffer).state },
        (g'.generator.generate buffer).buffer, (g'.generator.generate buffer).outcome⟩ := by
  unfold generate
  split
  · next hbuffer => exact .inl ⟨List.isEmpty_iff.mp hbuffer, rfl⟩
  · refine .inr ?_
    rw [h, Bool.not_true, if_neg Bool.false_ne_true]
    unfold served
    cases hrun : if g.generator.needsReseed then g.reseed [] else (.ok (), g) with
    | mk outcome g' =>
        cases outcome with
        | error e => exact .inl ⟨e, g', rfl, rfl⟩
        | ok u => exact .inr ⟨g', rfl, rfl⟩

/-- A request keeps a generator ready, whatever its answer. -/
theorem Ready.generate (h : g.Ready) (buffer : Bytes) : (g.generate buffer).state.Ready := by
  have hserved := h.served
  obtain ⟨-, hrun⟩ | ⟨e, g', hg', hrun⟩ | ⟨g', hg', hrun⟩ := generate_cases h.instantiated buffer
  · rw [hrun]
    exact h
  · rw [hg'] at hserved
    rw [hrun]
    exact hserved
  · rw [hg'] at hserved
    rw [hrun]
    refine ⟨?_, isInstantiated_iff.mpr ?_⟩
    · rw [CounterGenerator.limits_generate]
      exact hserved.limits
    · -- the request counter never falls, so it does not fall back to zero
      have hpos := Nat.pos_of_ne_zero (isInstantiated_iff.mp hserved.instantiated)
      have hle := CounterGenerator.requests_le_generate g'.generator buffer
      exact Nat.ne_zero_of_lt (Nat.lt_of_lt_of_le hpos hle)

/-- A draw keeps a generator ready, whatever its answer. -/
theorem drawsPreserve_ready : DrawsPreserve (Ready : InstanceGenerator ε → Prop) := by
  intro n g h
  exact Draw.state_repeated (fun _ buffer hs => hs.generate buffer) _ h _

/-! ### Faults over a source that fails fatally -/

/-- A seed that is not given is a fatal loss of entropy. -/
theorem fails_fatally_requestSeed (hsource : EntropySource.FailsFatally ε) (source : ε) :
    FailsFatally (requestSeed source).1 := by
  unfold requestSeed
  split
  · next hrequest =>
      rintro _ ⟨⟩
      exact hsource source seedLength _ (congrArg Prod.fst hrequest)
  · split
    · exact .ok _
    · exact .fatal .entropy

/-- A reseeding that is due and fails, fails fatally. -/
theorem fails_fatally_served (hsource : EntropySource.FailsFatally ε) (g : InstanceGenerator ε) :
    FailsFatally g.served.1 := by
  unfold served
  split
  · obtain ⟨e, source, hseed, hrun⟩ | ⟨seed, source, -, hrun⟩ := reseed_cases g []
    · rw [hrun]
      rintro _ ⟨⟩
      exact fails_fatally_requestSeed hsource g.source e (congrArg Prod.fst hseed)
    · rw [hrun]
      exact .ok ()
  · exact .ok ()

/-- A request to a ready generator fails fatally. -/
theorem Ready.fails_fatally_generate (hsource : EntropySource.FailsFatally ε) (h : g.Ready)
    (buffer : Bytes) : FailsFatally (g.generate buffer).outcome := by
  have hserved := h.served
  obtain ⟨-, hrun⟩ | ⟨e, g', hg', hrun⟩ | ⟨g', hg', hrun⟩ := generate_cases h.instantiated buffer
  · rw [hrun]
    exact .ok 0
  · rw [hrun]
    rintro _ ⟨⟩
    exact fails_fatally_served hsource g e (congrArg Prod.fst hg')
  · rw [hg'] at hserved
    rw [hrun]
    exact CounterGenerator.fails_fatally_generate hserved.limits (h.requests_le_of_served hg')

/-- A draw from a ready generator fails fatally. -/
theorem Ready.fails_fatally_draw (hsource : EntropySource.FailsFatally ε) (h : g.Ready) (n : Nat) :
    FailsFatally (RandomSource.fill g n).1 := by
  refine Draw.fails_fatally_toFill ?_
  -- each request is made to a generator that the ones before it left ready
  exact Draw.fails_fatally_repeated (fun _ buffer hs => hs.generate buffer)
    (fun _ buffer hs => hs.fails_fatally_generate hsource buffer) _ h _

/-- An instantiation fails fatally or leaves a ready generator. -/
theorem reinstantiate_cases (hsource : EntropySource.FailsFatally ε) (g : InstanceGenerator ε)
    (personalization : Bytes) :
    (∃ e g', g.reinstantiate personalization = (.error e, g') ∧ e.isFatal = true) ∨
    ∃ g', g.reinstantiate personalization = (.ok (), g') ∧ g'.Ready := by
  unfold reinstantiate
  dsimp only
  cases hlimits : g.generator.uninstantiate.limits.validate with
  | error e => exact .inl ⟨_, _, rfl, rfl⟩
  | ok _ =>
      cases hreset : EntropySource.request g.source 0 with
      | mk outcome source =>
          cases outcome with
          | error e => exact .inl ⟨e, _, rfl, hsource g.source 0 e (congrArg Prod.fst hreset)⟩
          | ok _ =>
              dsimp only
              cases hseed : requestSeed source with
              | mk outcome source' =>
                  cases outcome with
                  | error e =>
                      exact .inl ⟨e, _, rfl,
                        fails_fatally_requestSeed hsource source e (congrArg Prod.fst hseed)⟩
                  | ok seed =>
                      refine .inr ⟨_, rfl, ?_⟩
                      exact ⟨hlimits, rfl⟩

end InstanceGenerator

end TrustedPlatform
