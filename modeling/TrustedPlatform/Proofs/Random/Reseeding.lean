import TrustedPlatform.Proofs.Random.Entropy
import TrustedPlatform.Proofs.Random.Requests

/-!
# No seed serves more requests than its limit

A run of an instance's generator is recorded with the seeds that its entropy source gave and with
the requests that wrote bytes, each of them stamped with the seed it was served from. The request
counter is one more than the number of requests stamped with the present seed, so that no stamp
occurs more often than the limits allow, whatever the source answers and wherever in a run it fails.
The main theorem is `InstanceGenerator.reseedBound`.
-/

namespace TrustedPlatform

/-! ### Sources with a meter -/

/-- An entropy source with the number of seeds it gave in full. -/
structure MeteredSource (ε : Type) where
  source : ε
  seeds : Nat

namespace MeteredSource

variable {ε : Type} [EntropySource ε]

/-- The answer to a request is a full seed. -/
def isSeed (n : Nat) : Checked Bytes → Bool
  | .ok bytes => n == seedLength && bytes.length == seedLength
  | .error _ => false

/-- A source answers as it does without the meter. -/
instance : EntropySource (MeteredSource ε) where
  request s n :=
    let answer := EntropySource.request s.source n
    (answer.1, ⟨answer.2, if isSeed n answer.1 then s.seeds + 1 else s.seeds⟩)

/-- A request is answered as without the meter. -/
theorem request_eq (s : MeteredSource ε) (n : Nat) :
    EntropySource.request s n =
      ((EntropySource.request s.source n).1, ⟨(EntropySource.request s.source n).2,
        if isSeed n (EntropySource.request s.source n).1 then s.seeds + 1 else s.seeds⟩) :=
  rfl

/-- A seed is given as without the meter, and is counted when it is given in full. -/
theorem requestSeed_eq (s : MeteredSource ε) :
    InstanceGenerator.requestSeed s =
      ((InstanceGenerator.requestSeed s.source).1, ⟨(InstanceGenerator.requestSeed s.source).2,
        if (InstanceGenerator.requestSeed s.source).1.isOk then s.seeds + 1 else s.seeds⟩) := by
  rw [InstanceGenerator.requestSeed, InstanceGenerator.requestSeed, request_eq]
  rcases EntropySource.request s.source seedLength with ⟨e | seed, source⟩
  · rfl
  · by_cases hlength : seed.length = seedLength
    · simp [hlength, isSeed, Except.isOk, Except.toBool]
    · simp [hlength, isSeed, Except.isOk, Except.toBool]

/-- A request for nothing is not counted. -/
theorem seeds_of_reset {s s' : MeteredSource ε} {answer : Checked Bytes}
    (h : EntropySource.request s 0 = (answer, s')) : s'.seeds = s.seeds := by
  rw [request_eq] at h
  obtain ⟨-, rfl⟩ := Prod.mk.inj h
  rcases (EntropySource.request s.source 0).1 with e | bytes <;> rfl

/-- A seed that is given is counted. -/
theorem seeds_of_seed {s s' : MeteredSource ε} {seed : Bytes}
    (h : InstanceGenerator.requestSeed s = (.ok seed, s')) : s'.seeds = s.seeds + 1 := by
  rw [requestSeed_eq] at h
  obtain ⟨hseed, rfl⟩ := Prod.mk.inj h
  rw [hseed]
  rfl

/-- A seed that is not given is not counted. -/
theorem seeds_of_refused {s s' : MeteredSource ε} {e : Fault}
    (h : InstanceGenerator.requestSeed s = (.error e, s')) : s'.seeds = s.seeds := by
  rw [requestSeed_eq] at h
  obtain ⟨hseed, rfl⟩ := Prod.mk.inj h
  rw [hseed]
  rfl

end MeteredSource

namespace InstanceGenerator

/-! ### Histories -/

/-- A generator with the requests that wrote bytes, the last one first. Each is listed by the number
of seeds that the source had given by then, the last of which it was served from. -/
structure History (ε : Type) where
  generator : InstanceGenerator (MeteredSource ε)
  productions : List Nat

namespace History

/-- The requests of a run keep to the limits. -/
structure Bounded (limits : GeneratorLimits) (h : History ε) : Prop where
  limits_eq : h.generator.generator.limits = limits
  /-- The request counter counts the requests that were served from the present seed. -/
  requests_eq : h.generator.isInstantiated = true →
    h.generator.generator.requests = h.productions.count h.generator.source.seeds + 1
  le_seeds : ∀ seed ∈ h.productions, seed ≤ h.generator.source.seeds
  count_le : ∀ seed, h.productions.count seed ≤ limits.reseedInterval

namespace Bounded

variable {ε : Type} {limits : GeneratorLimits} {h : History ε}

/-- No request has been served from a seed that was not given yet. -/
theorem count_eq_zero (hbounded : h.Bounded limits) {seed : Nat}
    (hseed : h.generator.source.seeds < seed) : h.productions.count seed = 0 :=
  List.count_eq_zero.mpr fun hmem => absurd (hbounded.le_seeds seed hmem) (Nat.not_le.mpr hseed)

/-- The request counter is at most one more than the number of requests allowed. -/
theorem requests_le (hbounded : h.Bounded limits) :
    h.generator.generator.requests ≤ limits.reseedInterval + 1 := by
  by_cases hinst : h.generator.isInstantiated = true
  · rw [hbounded.requests_eq hinst]
    exact Nat.succ_le_succ (hbounded.count_le _)
  · rw [isInstantiated_iff, not_not] at hinst
    rw [hinst]
    exact Nat.zero_le _

/-- The source alone may move, without giving a seed; and the generator may be wiped. -/
theorem of_unseeded (hbounded : h.Bounded limits) {g : InstanceGenerator (MeteredSource ε)}
    (hlimits : g.generator.limits = limits) (hseeds : g.source.seeds = h.generator.source.seeds)
    (hrequests : g.generator.requests = h.generator.generator.requests ∨
      g.generator.requests = 0) : Bounded limits { h with generator := g } where
  limits_eq := hlimits
  requests_eq hinst := by
    rw [isInstantiated_iff] at hinst
    have hsame := hrequests.resolve_right hinst
    show g.generator.requests = _
    rw [hsame, hseeds]
    exact hbounded.requests_eq (isInstantiated_iff.mpr (hsame ▸ hinst))
  le_seeds := by
    show ∀ seed ∈ h.productions, seed ≤ g.source.seeds
    rw [hseeds]
    exact hbounded.le_seeds
  count_le := hbounded.count_le

/-- A generator with a new seed starts to count anew. -/
theorem of_seeded (hbounded : h.Bounded limits) {g : InstanceGenerator (MeteredSource ε)}
    (hlimits : g.generator.limits = limits) (hseeds : g.source.seeds = h.generator.source.seeds + 1)
    (hrequests : g.generator.requests = 1) : Bounded limits { h with generator := g } where
  limits_eq := hlimits
  requests_eq _ := by
    show g.generator.requests = h.productions.count g.source.seeds + 1
    rw [hrequests, hseeds, hbounded.count_eq_zero (Nat.lt_succ_self _)]
  le_seeds seed hmem := by
    show seed ≤ g.source.seeds
    rw [hseeds]
    exact Nat.le_succ_of_le (hbounded.le_seeds seed hmem)
  count_le := hbounded.count_le

/-- A request that writes bytes is counted and listed. -/
theorem of_written (hbounded : h.Bounded limits) (hinst : h.generator.isInstantiated = true)
    (hle : h.generator.generator.requests ≤ limits.reseedInterval) {generator : CounterGenerator}
    (hlimits : generator.limits = limits)
    (hrequests : generator.requests = h.generator.generator.requests + 1) :
    Bounded limits
      ⟨{ h.generator with generator := generator }, h.generator.source.seeds :: h.productions⟩ where
  limits_eq := hlimits
  requests_eq _ := by
    show generator.requests = List.count h.generator.source.seeds (_ :: _) + 1
    rw [List.count_cons_self, hrequests, hbounded.requests_eq hinst]
  le_seeds seed hmem := by
    obtain rfl | hmem := List.mem_cons.mp hmem
    · exact Nat.le_refl _
    · exact hbounded.le_seeds seed hmem
  count_le seed := by
    by_cases hseed : h.generator.source.seeds = seed
    · -- the counter before the request is the count after it
      subst hseed
      rw [List.count_cons_self, ← hbounded.requests_eq hinst]
      exact hle
    · rw [List.count_cons_of_ne hseed]
      exact hbounded.count_le seed

end Bounded

end History

/-! ### Without the meter -/

variable {ε : Type} [EntropySource ε]

/-- The generator over the source without its meter. -/
def unmetered (g : InstanceGenerator (MeteredSource ε)) : InstanceGenerator ε :=
  ⟨g.generator, g.source.source⟩

variable (g : InstanceGenerator (MeteredSource ε))

/-- A reseeding does the same without the meter. -/
theorem reseed_unmetered (additional : Bytes) : g.unmetered.reseed additional
    = ((g.reseed additional).1, (g.reseed additional).2.unmetered) := by
  rw [reseed, reseed, MeteredSource.requestSeed_eq,
    show g.unmetered.source = g.source.source from rfl]
  rcases requestSeed g.source.source with ⟨e | seed, source⟩ <;> rfl

/-- An instantiation does the same without the meter. -/
theorem reinstantiate_unmetered (personalization : Bytes) :
    g.unmetered.reinstantiate personalization
      = ((g.reinstantiate personalization).1, (g.reinstantiate personalization).2.unmetered) := by
  rw [reinstantiate, reinstantiate, MeteredSource.request_eq,
    show g.unmetered.source = g.source.source from rfl,
    show g.unmetered.generator = g.generator from rfl]
  cases g.generator.uninstantiate.limits.validate with
  | error e => rfl
  | ok _ =>
      rcases EntropySource.request g.source.source 0 with ⟨e | bytes, reset⟩
      · rfl
      · dsimp only
        rw [MeteredSource.requestSeed_eq]
        rcases requestSeed reset with ⟨e | seed, source⟩ <;> rfl

/-- A request does the same without the meter. -/
theorem generate_unmetered (buffer : Bytes) : g.unmetered.generate buffer =
    ⟨(g.generate buffer).state.unmetered, (g.generate buffer).buffer,
      (g.generate buffer).outcome⟩ := by
  rw [generate, generate, show g.unmetered.generator = g.generator from rfl,
    show g.unmetered.isInstantiated = g.isInstantiated from rfl]
  cases buffer.isEmpty
  case true => rfl
  cases g.isInstantiated
  case false => rfl
  cases g.generator.needsReseed
  case false => rfl
  rw [if_pos rfl, if_pos rfl, reseed_unmetered]
  rcases g.reseed [] with ⟨e | _, g'⟩ <;> rfl

/-! ### Runs -/

/-- A call to the generator of an instance. -/
inductive Call where
  | generate (buffer : Bytes)
  | fill (buffer : Bytes)
  | reseed (additional : Bytes)
  | reinstantiate (personalization : Bytes)
  | uninstantiate

/-- The generator that a call leaves. -/
def perform (g : InstanceGenerator ε) : Call → InstanceGenerator ε
  | .generate buffer => (g.generate buffer).state
  | .fill buffer => (g.fill buffer).state
  | .reseed additional => (g.reseed additional).2
  | .reinstantiate personalization => (g.reinstantiate personalization).2
  | .uninstantiate => g.uninstantiate

/-- The generator that a sequence of calls leaves. -/
def run (source : ε) (limits : GeneratorLimits) (calls : List Call) : InstanceGenerator ε :=
  calls.foldl perform (start source limits)

namespace History

/-- Make a request, and list it when it wrote some bytes. -/
def generate (h : History ε) (buffer : Bytes) : Draw (History ε) Nat :=
  let d := h.generator.generate buffer
  let productions :=
    match d.outcome with
    | .ok (_ + 1) => d.state.source.seeds :: h.productions
    | _ => h.productions
  ⟨⟨d.state, productions⟩, d.buffer, d.outcome⟩

/-- What a call leaves. A filling lists each of its requests. -/
def perform (h : History ε) : Call → History ε
  | .generate buffer => (h.generate buffer).state
  | .fill buffer => (Draw.repeated generate buffer.length h buffer).state
  | call => { h with generator := h.generator.perform call }

/-- What a sequence of calls leaves. -/
def run (source : ε) (limits : GeneratorLimits) (calls : List Call) : History ε :=
  calls.foldl perform ⟨start ⟨source, 0⟩ limits, []⟩

/-- A request does the same without a history. -/
theorem generator_generate (h : History ε) (buffer : Bytes) :
    h.generator.unmetered.generate buffer =
      ⟨(h.generate buffer).state.generator.unmetered, (h.generate buffer).buffer,
        (h.generate buffer).outcome⟩ :=
  generate_unmetered h.generator buffer

/-- A call moves the generator as it does without a history. -/
theorem generator_perform (h : History ε) (call : Call) :
    (h.perform call).generator.unmetered = h.generator.unmetered.perform call := by
  cases call with
  | generate buffer =>
      rw [InstanceGenerator.perform, generate_unmetered]
      rfl
  | fill buffer =>
      rw [InstanceGenerator.perform, fill,
        Draw.repeated_of_projection (fun h : History ε => h.generator.unmetered)
          generator_generate]
      rfl
  | reseed additional =>
      rw [InstanceGenerator.perform, reseed_unmetered]
      rfl
  | reinstantiate personalization =>
      rw [InstanceGenerator.perform, reinstantiate_unmetered]
      rfl
  | uninstantiate => rfl

/-- A run moves the generator as it does without a history. -/
theorem generator_run (source : ε) (limits : GeneratorLimits) (calls : List Call) :
    (run source limits calls).generator.unmetered = InstanceGenerator.run source limits calls := by
  induction calls using List.reverseRecOn with
  | nil => rfl
  | append_singleton calls call ih =>
      rw [run, InstanceGenerator.run, List.foldl_concat, List.foldl_concat, generator_perform]
      exact congrArg (·.perform call) ih

/-! ### What a run keeps -/

namespace Bounded

variable {limits : GeneratorLimits} {h : History ε}

/-- What serves a request keeps to the limits. -/
theorem of_serves (hbounded : h.Bounded limits) {g : InstanceGenerator (MeteredSource ε)}
    (hserves : h.generator.Serves g) : Bounded limits { h with generator := g } := by
  cases hserves with
  | present => exact hbounded
  | reseeded hseed =>
      exact hbounded.of_seeded hbounded.limits_eq (MeteredSource.seeds_of_seed hseed) rfl

/-- A request keeps to the limits. -/
theorem generate (hlimits : limits.validate = .ok ()) (hbounded : h.Bounded limits)
    (buffer : Bytes) : (h.generate buffer).state.Bounded limits := by
  have hvalid : h.generator.generator.limits.validate = .ok () := hbounded.limits_eq ▸ hlimits
  have hanswers := answers_generate hvalid buffer
  rw [History.generate]
  generalize h.generator.generate buffer = d at hanswers
  cases hanswers with
  | nothing | unseeded => exact hbounded
  | starved hseed =>
      exact hbounded.of_unseeded hbounded.limits_eq (MeteredSource.seeds_of_refused hseed) (.inl rfl)
  | repeated hserves =>
      have hserving := hbounded.of_serves hserves
      exact hserving.of_unseeded hserving.limits_eq rfl (.inl rfl)
  | @written g' _ _ n hinst hserves hsame hrequests hpos =>
      have hserving := hbounded.of_serves hserves
      have hle := (hserves.bounds hvalid).2
      rw [hbounded.limits_eq] at hle
      obtain ⟨m, rfl⟩ := Nat.exists_eq_add_of_lt hpos
      rw [Nat.zero_add]
      exact hserving.of_written (hserves.isInstantiated hinst) hle
        (hsame.trans hserving.limits_eq) hrequests

/-- A reseeding keeps to the limits. -/
theorem reseed (hbounded : h.Bounded limits) (additional : Bytes) :
    Bounded limits { h with generator := (h.generator.reseed additional).2 } := by
  obtain ⟨e, source, hseed, hrun⟩ | ⟨seed, source, hseed, hrun⟩ :=
    reseed_cases h.generator additional
  · rw [hrun]
    exact hbounded.of_unseeded hbounded.limits_eq (MeteredSource.seeds_of_refused hseed) (.inl rfl)
  · rw [hrun]
    exact hbounded.of_seeded hbounded.limits_eq (MeteredSource.seeds_of_seed hseed) rfl

/-- An instantiation keeps to the limits. -/
theorem reinstantiate (hbounded : h.Bounded limits) (personalization : Bytes) :
    Bounded limits { h with generator := (h.generator.reinstantiate personalization).2 } := by
  have hinstantiates := h.generator.instantiates personalization
  generalize h.generator.reinstantiate personalization = result at hinstantiates
  cases hinstantiates with
  | refused => exact hbounded.of_unseeded hbounded.limits_eq rfl (.inr rfl)
  | unset hreset =>
      exact hbounded.of_unseeded hbounded.limits_eq (MeteredSource.seeds_of_reset hreset) (.inr rfl)
  | starved hreset hseed =>
      refine hbounded.of_unseeded hbounded.limits_eq ?_ (.inr rfl)
      exact (MeteredSource.seeds_of_refused hseed).trans (MeteredSource.seeds_of_reset hreset)
  | seeded hreset hseed =>
      refine hbounded.of_seeded hbounded.limits_eq ?_ rfl
      rw [← MeteredSource.seeds_of_reset hreset]
      exact MeteredSource.seeds_of_seed hseed

/-- Every call keeps to the limits. -/
theorem perform (hlimits : limits.validate = .ok ()) (hbounded : h.Bounded limits) (call : Call) :
    (h.perform call).Bounded limits := by
  cases call with
  | generate buffer => exact hbounded.generate hlimits buffer
  | fill buffer =>
      exact Draw.state_repeated (fun _ buffer hbounded => hbounded.generate hlimits buffer) _
        hbounded buffer
  | reseed additional => exact hbounded.reseed additional
  | reinstantiate personalization => exact hbounded.reinstantiate personalization
  | uninstantiate => exact hbounded.of_unseeded hbounded.limits_eq rfl (.inr rfl)

/-- Every run keeps to the limits. -/
theorem run (hlimits : limits.validate = .ok ()) (source : ε) (calls : List Call) :
    (History.run source limits calls).Bounded limits := by
  induction calls using List.reverseRecOn with
  | nil =>
      exact
        { limits_eq := rfl
          requests_eq := nofun
          le_seeds := nofun
          count_le := fun _ => Nat.zero_le _ }
  | append_singleton calls call ih =>
      rw [History.run, List.foldl_concat]
      exact ih.perform hlimits call

end Bounded

end History

/-! ### The bound -/

/-- Requests after a run continue it. -/
theorem run_append_generate (source : ε) (limits : GeneratorLimits) (calls : List Call)
    (buffers : List Bytes) : run source limits (calls ++ buffers.map .generate) =
      Draw.stateAfter generate (run source limits calls) buffers := by
  rw [run, List.foldl_append, List.foldl_map]
  rfl

/-- What holds of a generator after a run over an entropy source. -/
structure ReseedBound (source : ε) (limits : GeneratorLimits) (calls : List Call) : Prop where
  /-- The history of the run is one of this generator. -/
  generator_eq : (History.run source limits calls).generator.unmetered = run source limits calls
  /-- No seed has served more requests than the limit, counting those that wrote bytes. -/
  count_le : ∀ seed, (History.run source limits calls).productions.count seed ≤ limits.reseedInterval
  /-- The request counter is one more than the requests that the present seed served. -/
  requests_eq : (run source limits calls).isInstantiated = true →
    (run source limits calls).generator.requests = (History.run source limits calls).productions.count
      (History.run source limits calls).generator.source.seeds + 1
  /-- The request counter exceeds the limit by at most one. -/
  requests_le : (run source limits calls).generator.requests ≤ limits.reseedInterval + 1
  /-- One more request does not overflow a word. -/
  requests_lt : (run source limits calls).generator.requests + 1 < UInt64.size
  /-- A recoverable refusal is one of the source. -/
  refused : ∀ buffer e, ((run source limits calls).generate buffer).outcome = .error e →
    e.isFatal = false →
      (EntropySource.request (run source limits calls).source seedLength).1 = .error e
  /-- A refused request writes nothing. -/
  untouched : ∀ buffer e, ((run source limits calls).generate buffer).outcome = .error e →
    ((run source limits calls).generate buffer).buffer = buffer
  /-- A request that is due for a seed, and gets none, leaves the generator as it is. -/
  starved : ∀ buffer, buffer ≠ [] → (run source limits calls).isInstantiated = true →
    (run source limits calls).generator.needsReseed = true →
    ∀ e source', requestSeed (run source limits calls).source = (.error e, source') →
      (run source limits calls).generate buffer =
        ⟨{ run source limits calls with source := source' }, buffer, .error e⟩
  /-- A filling is a run of requests that succeed, up to one that is refused: what they wrote stays,
  and the rest of the buffer is untouched. -/
  fill : ∀ buffer, ∃ (earlier : List Bytes) (written : Bytes),
    Draw.AllSucceed generate (run source limits calls) earlier ∧
    let before := run source limits (calls ++ earlier.map .generate)
    let rest := buffer.drop written.length
    (run source limits calls).fill buffer = ⟨before, written, .ok ()⟩ ∨
    ∃ e, (before.generate rest).outcome = .error e ∧ (run source limits calls).fill buffer =
      ⟨(before.generate rest).state, written ++ rest, .error e⟩
  /-- No request and no filling asks for a reseeding, unless the source answers so itself; a source
  whose errors are fatal does not. -/
  neverRequired :
    (∀ (source' : ε) n, (EntropySource.request source' n).1 ≠ .error .reseedRequired) → ∀ buffer,
      ((run source limits calls).generate buffer).outcome ≠ .error .reseedRequired ∧
      ((run source limits calls).fill buffer).outcome ≠ .error .reseedRequired
  /-- A failed instantiation leaves a generator without a seed, all of whose state is zero. -/
  wiped : ∀ personalization e,
    ((run source limits calls).reinstantiate personalization).1 = .error e →
      let after := ((run source limits calls).reinstantiate personalization).2
      after.isInstantiated = false ∧ after.generator.isZeroed = true ∧
        after.generator = .zeroed limits

/-- A run keeps the limits. -/
theorem limits_run {limits : GeneratorLimits} (hlimits : limits.validate = .ok ()) (source : ε)
    (calls : List Call) : (run source limits calls).generator.limits = limits := by
  rw [← History.generator_run]
  exact (History.Bounded.run hlimits source calls).limits_eq

/-- Whatever an entropy source answers, and whatever the calls to its generator were: no seed serves
more requests than the limit. -/
theorem reseedBound {limits : GeneratorLimits} (hlimits : limits.validate = .ok ()) (source : ε)
    (calls : List Call) : ReseedBound source limits calls := by
  have hbounded := History.Bounded.run hlimits source calls
  have hgenerator := History.generator_run source limits calls
  have hvalid (calls : List Call) :
      (run source limits calls).generator.limits.validate = .ok () := by
    rw [limits_run hlimits]
    exact hlimits
  have hrequests : (run source limits calls).generator.requests ≤ limits.reseedInterval + 1 := by
    rw [← hgenerator]
    exact hbounded.requests_le
  have hfill (buffer : Bytes) : ∃ (earlier : List Bytes) (written : Bytes),
      Draw.AllSucceed generate (run source limits calls) earlier ∧
      let before := run source limits (calls ++ earlier.map .generate)
      let rest := buffer.drop written.length
      (run source limits calls).fill buffer = ⟨before, written, .ok ()⟩ ∨
      ∃ e, (before.generate rest).outcome = .error e ∧ (run source limits calls).fill buffer =
        ⟨(before.generate rest).state, written ++ rest, .error e⟩ := by
    obtain ⟨earlier, written, hsucceed, hcases⟩ := fill_cases (hvalid calls) buffer
    rw [← run_append_generate] at hcases
    refine ⟨earlier, written, hsucceed, ?_⟩
    obtain hok | ⟨e, hlast, hrun⟩ := hcases
    · exact .inl hok
    · rw [buffer_of_refused (hvalid _) hlast] at hrun
      exact .inr ⟨e, hlast, hrun⟩
  exact
    { generator_eq := hgenerator
      count_le := hbounded.count_le
      requests_eq := by
        rw [← hgenerator]
        exact hbounded.requests_eq
      requests_le := hrequests
      requests_lt := by
        have hinterval := (GeneratorLimits.bounds_of_validate hlimits).2.1
        have hword : GeneratorLimits.maxReseedInterval + 2 < UInt64.size := by decide
        omega
      refused := fun buffer e h he => source_of_refused (hvalid calls) h he
      untouched := fun buffer e h => buffer_of_refused (hvalid calls) h
      starved := fun buffer hbuffer hinst hdue e source' hseed =>
        generate_starved hbuffer hinst hdue hseed
      fill := hfill
      neverRequired := fun hsource buffer => by
        refine ⟨ne_reseedRequired (hvalid calls) hsource buffer, fun h => ?_⟩
        obtain ⟨earlier, written, -, hok | ⟨e, hlast, hrun⟩⟩ := hfill buffer
        · rw [hok] at h
          cases h
        · rw [hrun] at h
          cases h
          exact ne_reseedRequired (hvalid _) hsource _ hlast
      wiped := fun personalization e h => by
        have hwiped := generator_of_refused h
        rw [limits_run hlimits] at hwiped
        refine ⟨?_, ?_, hwiped⟩
        · rw [isInstantiated, hwiped]
          rfl
        · rw [hwiped]
          rfl }

/-- A source with the entropy for one seed, after the block that only starts its test. -/
def singleSeed : ContinuousEntropy ByteStream :=
  .start ⟨UInt8.ofNat, some (ContinuousEntropy.blockLength + seedLength), 0⟩

/-- An instantiation and a request for one byte. -/
def singleRequest : List Call := [.reinstantiate [], .generate [0]]

/-- One request uses up a seed that may serve one. With no entropy for another seed, every further
request is refused, and leaves its buffer and the generator as they are. Since the source fails
fatally, no refusal asks for a reseeding. -/
theorem reseedBound_singleSeed :
    GeneratorLimits.validate ⟨1, 64⟩ = .ok () ∧
    ReseedBound singleSeed ⟨1, 64⟩ singleRequest ∧
    (∀ buffer ≠ [], ∃ source, (run singleSeed ⟨1, 64⟩ singleRequest).generate buffer =
      ⟨{ run singleSeed ⟨1, 64⟩ singleRequest with source := source }, buffer,
        .error (.fatal .entropy)⟩) ∧
    EntropySource.FailsFatally (ContinuousEntropy ByteStream) ∧
    ∀ buffer,
      ((run singleSeed ⟨1, 64⟩ singleRequest).generate buffer).outcome ≠ .error .reseedRequired ∧
      ((run singleSeed ⟨1, 64⟩ singleRequest).fill buffer).outcome ≠ .error .reseedRequired := by
  have hlimits : GeneratorLimits.validate ⟨1, 64⟩ = .ok () := rfl
  have hbound := reseedBound hlimits singleSeed singleRequest
  have hrequests : (run singleSeed ⟨1, 64⟩ singleRequest).generator.requests = 2 := by
    decide +kernel
  have hdue : (run singleSeed ⟨1, 64⟩ singleRequest).generator.needsReseed = true := by
    rw [CounterGenerator.needsReseed, limits_run hlimits, hrequests]
    rfl
  have hinst : (run singleSeed ⟨1, 64⟩ singleRequest).isInstantiated = true := by
    simp [isInstantiated_iff, hrequests]
  have hseed : (requestSeed (run singleSeed ⟨1, 64⟩ singleRequest).source).1 =
      .error (.fatal .entropy) := by
    decide +kernel
  have hfatal : EntropySource.FailsFatally (ContinuousEntropy ByteStream) :=
    ContinuousEntropy.failsFatally
  refine ⟨hlimits, hbound, fun buffer hbuffer => ?_, hfatal,
    hbound.neverRequired hfatal.ne_reseedRequired⟩
  exact ⟨_, hbound.starved buffer hbuffer hinst hdue _ _ (Prod.ext hseed rfl)⟩

end InstanceGenerator

end TrustedPlatform
