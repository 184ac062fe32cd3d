import TrustedPlatform.Proofs.Random.Reseeding

/-!
# When an instance's generator is instantiated

Being instantiated is read off the request counter alone. Whatever the limits and the source, the
counter is positive exactly when some call gave the generator a seed and no call has wiped it since.
A reseeding gives a seed as an instantiation does, also to a generator that has none: the generator
is then instantiated, and serves requests, without ever having passed an instantiation. In runs
without such a reseeding, it is instantiated exactly when an instantiation has succeeded since the
last wipe. The main theorem is `InstanceGenerator.lifecycle`.
-/

namespace TrustedPlatform.InstanceGenerator

variable {ε : Type} [EntropySource ε] {g : InstanceGenerator ε}

/-! ### One call -/

namespace Call

/-- The call is an instantiation that succeeds when it is made to the generator. -/
def Instantiates (g : InstanceGenerator ε) : Call → Prop
  | .reinstantiate personalization => (g.reinstantiate personalization).1 = .ok ()
  | _ => False

/-- The call gives the generator that it is made to a fresh seed. -/
def Seeds (g : InstanceGenerator ε) : Call → Prop
  | .reseed additional => (g.reseed additional).1 = .ok ()
  | call => call.Instantiates g

/-- The call wipes the generator; an instantiation does so before it does anything else. -/
def Wipes : Call → Prop
  | .reinstantiate _ | .uninstantiate => True
  | _ => False

end Call

/-- A generator that was not instantiated is not brought to life by a request, and one that was
stays instantiated. -/
theorem isInstantiated_generate (g : InstanceGenerator ε) (buffer : Bytes) :
    (g.generate buffer).state.isInstantiated = g.isInstantiated := by
  cases hinst : g.isInstantiated with
  | false =>
      rw [generate, hinst]
      split
      · exact hinst
      · exact hinst
  | true =>
      have hserved : g.served.2.isInstantiated = true := by
        unfold served
        split
        · obtain ⟨e, source, -, hrun⟩ | ⟨seed, source, -, hrun⟩ := reseed_cases g []
          · rw [hrun]
            exact hinst
          · rw [hrun]
            rfl
        · exact hinst
      obtain ⟨-, hrun⟩ | ⟨e, g', hg', hrun⟩ | ⟨g', hg', hrun⟩ := generate_cases hinst buffer
      · rw [hrun]
        exact hinst
      · rw [hg'] at hserved
        rw [hrun]
        exact hserved
      · rw [hg', isInstantiated_iff] at hserved
        rw [hrun, isInstantiated_iff]
        have hle := CounterGenerator.requests_le_generate g'.generator buffer
        exact Nat.ne_zero_of_lt (Nat.lt_of_lt_of_le (Nat.pos_of_ne_zero hserved) hle)

/-- What a call does to the life of a generator. -/
theorem isInstantiated_perform_iff (g : InstanceGenerator ε) (call : Call) :
    (g.perform call).isInstantiated = true ↔
      call.Seeds g ∨ g.isInstantiated = true ∧ ¬call.Wipes := by
  cases call with
  | generate buffer =>
      rw [perform, isInstantiated_generate]
      simp [Call.Seeds, Call.Instantiates, Call.Wipes]
  | fill buffer =>
      have hfill : (g.fill buffer).state.isInstantiated = g.isInstantiated :=
        Draw.state_repeated (I := fun s : InstanceGenerator ε => s.isInstantiated = g.isInstantiated)
          (fun s buffer h => (isInstantiated_generate s buffer).trans h) _ rfl buffer
      rw [perform, hfill]
      simp [Call.Seeds, Call.Instantiates, Call.Wipes]
  | reseed additional =>
      rw [perform, Call.Seeds]
      obtain ⟨e, source, -, hrun⟩ | ⟨seed, source, -, hrun⟩ := reseed_cases g additional
      · rw [hrun]
        simp [Call.Wipes, isInstantiated]
      · rw [hrun]
        simp [isInstantiated, CounterGenerator.reseed]
  | reinstantiate personalization =>
      have hinstantiates := g.instantiates personalization
      show (g.reinstantiate personalization).2.isInstantiated = true ↔
        (g.reinstantiate personalization).1 = .ok () ∨ _
      generalize g.reinstantiate personalization = result at hinstantiates
      cases hinstantiates with
      | refused | unset | starved =>
          simp [Call.Wipes, isInstantiated, CounterGenerator.zeroed]
      | seeded =>
          simp [isInstantiated, CounterGenerator.instantiate, CounterGenerator.ofSeed]
  | uninstantiate =>
      simp [perform, uninstantiate, isInstantiated, CounterGenerator.uninstantiate,
        CounterGenerator.zeroed, Call.Seeds, Call.Instantiates, Call.Wipes]

/-! ### What is left of a generator without a seed -/

/-- The generator has its limits, and no state while it is not instantiated. -/
structure Blank (limits : GeneratorLimits) (g : InstanceGenerator ε) : Prop where
  limits_eq : g.generator.limits = limits
  generator_eq : g.isInstantiated = false → g.generator = .zeroed limits

namespace Blank

variable {limits : GeneratorLimits}

omit [EntropySource ε] in
/-- A generator with a seed is not asked to be without state. -/
theorem of_instantiated (hlimits : g.generator.limits = limits) (h : g.isInstantiated = true) :
    g.Blank limits :=
  ⟨hlimits, fun hnot => absurd (hnot.symm.trans h) Bool.false_ne_true⟩

/-- A reseeding seeds the generator or leaves it as it is. -/
theorem reseed (h : g.Blank limits) (additional : Bytes) : (g.reseed additional).2.Blank limits := by
  obtain ⟨e, source, -, hrun⟩ | ⟨seed, source, -, hrun⟩ := reseed_cases g additional
  · rw [hrun]
    exact ⟨h.limits_eq, h.generator_eq⟩
  · rw [hrun]
    exact .of_instantiated h.limits_eq rfl

/-- A request is answered as before. -/
theorem generate (h : g.Blank limits) (buffer : Bytes) : (g.generate buffer).state.Blank limits := by
  cases hinst : g.isInstantiated with
  | false =>
      rw [InstanceGenerator.generate, hinst]
      split
      · exact h
      · exact h
  | true =>
      refine .of_instantiated ?_ ((isInstantiated_generate g buffer).trans hinst)
      have hserved : g.served.2.generator.limits = limits := by
        unfold served
        split
        · exact (h.reseed []).limits_eq
        · exact h.limits_eq
      obtain ⟨-, hrun⟩ | ⟨e, g', hg', hrun⟩ | ⟨g', hg', hrun⟩ := generate_cases hinst buffer
      · rw [hrun]
        exact h.limits_eq
      · rw [hg'] at hserved
        rw [hrun]
        exact hserved
      · rw [hg'] at hserved
        rw [hrun]
        exact (CounterGenerator.limits_generate _ _).trans hserved

/-- An instantiation seeds the generator or leaves it wiped. -/
theorem reinstantiate (h : g.Blank limits) (personalization : Bytes) :
    (g.reinstantiate personalization).2.Blank limits := by
  have hinstantiates := g.instantiates personalization
  generalize g.reinstantiate personalization = result at hinstantiates
  cases hinstantiates with
  | refused | unset | starved => exact ⟨h.limits_eq, fun _ => congrArg _ h.limits_eq⟩
  | seeded => exact .of_instantiated h.limits_eq rfl

/-- Every call keeps this. -/
theorem perform (h : g.Blank limits) (call : Call) : (g.perform call).Blank limits := by
  cases call with
  | generate buffer => exact h.generate buffer
  | fill buffer =>
      exact Draw.state_repeated (I := Blank limits) (fun _ buffer hs => hs.generate buffer) _ h buffer
  | reseed additional => exact h.reseed additional
  | reinstantiate personalization => exact h.reinstantiate personalization
  | uninstantiate => exact ⟨h.limits_eq, fun _ => congrArg _ h.limits_eq⟩

/-- Every run keeps this. -/
theorem run (source : ε) (limits : GeneratorLimits) (calls : List Call) :
    (InstanceGenerator.run source limits calls).Blank limits := by
  induction calls using List.reverseRecOn with
  | nil => exact ⟨rfl, fun _ => rfl⟩
  | append_singleton calls call ih =>
      rw [InstanceGenerator.run, List.foldl_concat]
      exact ih.perform call

end Blank

/-! ### A run of calls -/

/-- Some call of a run is marked, given the calls before it, and no call after it wipes the
generator. -/
def MarkedSinceWipe (marked : List Call → Call → Prop) (calls : List Call) : Prop :=
  ∃ earlier call later, calls = earlier ++ call :: later ∧ marked earlier call ∧
    ∀ c ∈ later, ¬c.Wipes

/-- Either the last call is marked, or it wipes nothing and one before it is marked. -/
theorem markedSinceWipe_concat_iff {marked : List Call → Call → Prop} {calls : List Call}
    {call : Call} : MarkedSinceWipe marked (calls ++ [call]) ↔
      marked calls call ∨ MarkedSinceWipe marked calls ∧ ¬call.Wipes := by
  constructor
  · rintro ⟨earlier, marker, later, hcalls, hmarked, hlater⟩
    cases later using List.reverseRecOn with
    | nil =>
        obtain ⟨rfl, hlast⟩ := List.append_inj' hcalls rfl
        cases hlast
        exact .inl hmarked
    | append_singleton later last =>
        rw [← List.cons_append, ← List.append_assoc] at hcalls
        obtain ⟨rfl, hlast⟩ := List.append_inj' hcalls rfl
        cases hlast
        refine .inr ⟨⟨earlier, marker, later, rfl, hmarked, ?_⟩, hlater call (by simp)⟩
        exact fun c hc => hlater c (List.mem_append_left _ hc)
  · rintro (hmarked | ⟨⟨earlier, marker, later, rfl, hmarked, hlater⟩, hcall⟩)
    · exact ⟨calls, call, [], rfl, hmarked, nofun⟩
    · refine ⟨earlier, marker, later ++ [call], by simp, hmarked, fun c hc => ?_⟩
      obtain hc | hc := List.mem_append.mp hc
      · exact hlater c hc
      · rw [List.mem_singleton.mp hc]
        exact hcall

variable (source : ε) (limits : GeneratorLimits)

/-- Every reseeding of a run is asked of a generator that is instantiated. -/
def Orderly (calls : List Call) : Prop :=
  ∀ earlier additional later, calls = earlier ++ .reseed additional :: later →
    (run source limits earlier).isInstantiated = true

variable {source limits}

/-- The calls before the last one are orderly. -/
theorem Orderly.of_concat {calls : List Call} {call : Call}
    (h : Orderly source limits (calls ++ [call])) : Orderly source limits calls :=
  fun earlier additional later hcalls =>
    h earlier additional (later ++ [call]) (by rw [hcalls, List.append_assoc]; rfl)

/-- An empty run has no marked call. -/
theorem not_markedSinceWipe_nil (marked : List Call → Call → Prop) : ¬MarkedSinceWipe marked [] := by
  rintro ⟨earlier, call, later, hcalls, -⟩
  exact List.append_ne_nil_of_right_ne_nil _ (List.cons_ne_nil _ _) hcalls.symm

/-- A run ends in a generator that is instantiated when some call seeded it since the last wipe. -/
theorem isInstantiated_run_iff (calls : List Call) :
    (run source limits calls).isInstantiated = true ↔
      MarkedSinceWipe (fun earlier call => call.Seeds (run source limits earlier)) calls := by
  induction calls using List.reverseRecOn with
  | nil => exact iff_of_false Bool.false_ne_true (not_markedSinceWipe_nil _)
  | append_singleton calls call ih =>
      rw [markedSinceWipe_concat_iff, ← ih, ← isInstantiated_perform_iff, run, run,
        List.foldl_concat]

/-- An orderly run ends in a generator that is instantiated when some instantiation has succeeded
since the last wipe. -/
theorem isInstantiated_run_iff_of_orderly {calls : List Call}
    (horderly : Orderly source limits calls) : (run source limits calls).isInstantiated = true ↔
      MarkedSinceWipe (fun earlier call => call.Instantiates (run source limits earlier)) calls := by
  induction calls using List.reverseRecOn with
  | nil => exact iff_of_false Bool.false_ne_true (not_markedSinceWipe_nil _)
  | append_singleton calls call ih =>
      rw [markedSinceWipe_concat_iff, ← ih horderly.of_concat, run, List.foldl_concat,
        isInstantiated_perform_iff]
      cases call with
      | reseed additional =>
          -- the reseeding changes nothing, since there is a seed already
          have hinst := horderly calls additional [] rfl
          exact iff_of_true (.inr ⟨hinst, not_false⟩) (.inr ⟨hinst, not_false⟩)
      | generate | fill | reinstantiate | uninstantiate => exact Iff.rfl

/-! ### The life of a generator -/

/-- A request for some bytes to a generator that is not instantiated is refused, and so is a
filling. -/
theorem refused_of_not_isInstantiated (h : g.isInstantiated = false) {buffer : Bytes}
    (hbuffer : buffer ≠ []) : g.generate buffer = ⟨g, buffer, .error (.fatal .internal)⟩ ∧
      g.fill buffer = ⟨g, buffer, .error (.fatal .internal)⟩ := by
  have hgenerate : g.generate buffer = ⟨g, buffer, .error (.fatal .internal)⟩ := by
    rw [generate, if_neg (by simpa using hbuffer), h]
    rfl
  refine ⟨hgenerate, ?_⟩
  obtain ⟨b, rest, rfl⟩ := List.exists_cons_of_ne_nil hbuffer
  simp only [fill, List.length_cons, Draw.repeated, hgenerate]

/-- Under inadmissible limits a request for some bytes writes none, also to a generator that a
reseeding has brought to life. -/
theorem Blank.refused_of_inadmissible {limits : GeneratorLimits} (h : g.Blank limits)
    (hlimits : limits.validate ≠ .ok ()) {buffer : Bytes} (hbuffer : buffer ≠ []) :
    (g.generate buffer).buffer = buffer ∧ ∃ e, (g.generate buffer).outcome = .error e := by
  cases hinst : g.isInstantiated with
  | false =>
      rw [(refused_of_not_isInstantiated hinst hbuffer).1]
      exact ⟨rfl, _, rfl⟩
  | true =>
      have hserved : g.served.2.Blank limits := by
        unfold served
        split
        · exact h.reseed []
        · exact h
      obtain ⟨hnil, -⟩ | ⟨e, g', hg', hrun⟩ | ⟨g', hg', hrun⟩ := generate_cases hinst buffer
      · exact absurd hnil hbuffer
      · rw [hrun]
        exact ⟨rfl, e, rfl⟩
      · rw [hg'] at hserved
        have hinvalid := hserved.limits_eq ▸ hlimits
        rw [hrun, CounterGenerator.generate, if_neg (by simpa using hbuffer)]
        cases hvalidate : g'.generator.limits.validate with
        | ok u => exact absurd hvalidate hinvalid
        | error e => exact ⟨rfl, e, rfl⟩

/-- A generator without state that is reseeded serves the next request. -/
theorem Blank.served_of_reseed {limits : GeneratorLimits} (h : g.Blank limits)
    (hlimits : limits.validate = .ok ()) (hinst : g.isInstantiated = false) {additional : Bytes}
    (hreseed : (g.reseed additional).1 = .ok ()) {buffer : Bytes} (hbuffer : buffer ≠ []) :
    ((g.reseed additional).2.generate buffer).outcome =
      .ok (min buffer.length limits.maxBytesPerRequest) := by
  obtain ⟨e, source, -, hrun⟩ | ⟨seed, source, -, hrun⟩ := reseed_cases g additional
  · rw [hrun] at hreseed
    cases hreseed
  · have hrequests := (GeneratorLimits.bounds_of_validate hlimits).1
    have hdue : (CounterGenerator.reseed (.zeroed limits) seed additional).needsReseed = false :=
      decide_eq_false (Nat.not_lt.mpr hrequests)
    have hseeded : InstanceGenerator.isInstantiated
        ⟨CounterGenerator.reseed (.zeroed limits) seed additional, source⟩ = true := rfl
    rw [hrun, h.generator_eq hinst, InstanceGenerator.generate, if_neg (by simpa using hbuffer),
      hseeded, if_neg (by simp), hdue, if_neg Bool.false_ne_true]
    -- a wiped generator remembers no block that the first one could repeat
    have hnew : ¬(CounterGenerator.reseed (.zeroed limits) seed additional).RepeatsLast :=
      CounterGenerator.not_repeatsLast rfl
    exact congrArg Draw.outcome (CounterGenerator.generate_of_new hlimits hrequests hnew hbuffer)

variable (source limits)

/-- The life of a generator in a run of calls, whatever its limits and its source. -/
structure Lifecycle (calls : List Call) : Prop where
  /-- The generator is instantiated exactly when some call seeded it and no call has wiped it
  since. -/
  instantiated_iff : (run source limits calls).isInstantiated = true ↔
    MarkedSinceWipe (fun earlier call => call.Seeds (run source limits earlier)) calls
  /-- If no reseeding was asked of a generator that was not instantiated, the generator is
  instantiated exactly when some instantiation has succeeded since the last wipe. -/
  orderly : Orderly source limits calls → ((run source limits calls).isInstantiated = true ↔
    MarkedSinceWipe (fun earlier call => call.Instantiates (run source limits earlier)) calls)
  /-- A generator that is not instantiated has no state. -/
  generator_eq : (run source limits calls).isInstantiated = false →
    (run source limits calls).generator = .zeroed limits
  /-- A generator that is not instantiated gives no bytes. -/
  refused : (run source limits calls).isInstantiated = false → ∀ buffer ≠ [],
    (run source limits calls).generate buffer =
      ⟨run source limits calls, buffer, .error (.fatal .internal)⟩ ∧
    (run source limits calls).fill buffer =
      ⟨run source limits calls, buffer, .error (.fatal .internal)⟩
  /-- Nor does any generator under inadmissible limits. -/
  inadmissible : limits.validate ≠ .ok () → ∀ buffer ≠ [],
    ((run source limits calls).generate buffer).buffer = buffer ∧
      ∃ e, ((run source limits calls).generate buffer).outcome = .error e
  /-- Under admissible limits, a reseeding is all that it takes for a generator to give bytes. -/
  revived : limits.validate = .ok () → (run source limits calls).isInstantiated = false →
    ∀ additional, ((run source limits calls).reseed additional).1 = .ok () → ∀ buffer ≠ [],
      (((run source limits calls).reseed additional).2.generate buffer).outcome =
        .ok (min buffer.length limits.maxBytesPerRequest)

/-- Every run of calls to a generator is one such life. -/
theorem lifecycle (calls : List Call) : Lifecycle source limits calls where
  instantiated_iff := isInstantiated_run_iff calls
  orderly := isInstantiated_run_iff_of_orderly
  generator_eq := (Blank.run source limits calls).generator_eq
  refused hinst _ hbuffer := refused_of_not_isInstantiated hinst hbuffer
  inadmissible hlimits _ hbuffer :=
    (Blank.run source limits calls).refused_of_inadmissible hlimits hbuffer
  revived hlimits hinst _ hreseed _ hbuffer :=
    (Blank.run source limits calls).served_of_reseed hlimits hinst hreseed hbuffer

/-- A generator that was never instantiated is so after a reseeding, and gives bytes. -/
theorem instantiated_of_reseed_singleSeed :
    (run singleSeed .default [.reseed []]).isInstantiated = true ∧
    ¬MarkedSinceWipe
      (fun earlier call => call.Instantiates (run singleSeed .default earlier)) [.reseed []] ∧
    ((run singleSeed .default [.reseed []]).generate (List.replicate 16 0)).outcome = .ok 16 := by
  refine ⟨by decide +kernel, ?_, by decide +kernel⟩
  rintro ⟨earlier, call, later, hcalls, hmarked, -⟩
  cases earlier with
  | nil =>
      cases hcalls
      exact hmarked
  | cons c earlier =>
      have htail := (List.cons.inj hcalls).2
      exact List.append_ne_nil_of_right_ne_nil _ (List.cons_ne_nil _ _) htail.symm

end TrustedPlatform.InstanceGenerator
