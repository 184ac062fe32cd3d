import TrustedPlatform.Proofs.Random.Counter
import TrustedPlatform.Proofs.Random.Instance

/-!
# What one call to an instance's generator does

`InstanceGenerator.Answers` lists what a request may do within admissible limits, and
`InstanceGenerator.Instantiates` what an instantiation leaves. In both, a fault of the source comes
before any byte is written and before the generator is seeded. A buffer is filled by requests that
succeed, up to the first that does not.
-/

namespace TrustedPlatform

/-! ### Repeated requests -/

namespace Draw

variable {σ τ : Type}

/-- Each request succeeds when it is made to what the one before it left. -/
def AllSucceed (generate : σ → Bytes → Draw σ Nat) : σ → List Bytes → Prop
  | _, [] => True
  | s, buffer :: buffers =>
      (∃ n, (generate s buffer).outcome = .ok n) ∧ AllSucceed generate (generate s buffer).state buffers

/-- What requests made one after the other leave. -/
def stateAfter (generate : σ → Bytes → Draw σ Nat) (s : σ) (buffers : List Bytes) : σ :=
  buffers.foldl (fun s buffer => (generate s buffer).state) s

/-- Repeated requests succeed up to one that fails, whose fault and whose state are theirs. -/
theorem repeated_cases {I : σ → Prop} {generate : σ → Bytes → Draw σ Nat}
    (hkeeps : ∀ s buffer, I s → I (generate s buffer).state)
    (hwrites : ∀ s buffer n, I s → buffer ≠ [] → (generate s buffer).outcome = .ok n →
      0 < n ∧ n ≤ (generate s buffer).buffer.length ∧
        (generate s buffer).buffer.drop n = buffer.drop n)
    {requests : Nat} {s : σ} (hs : I s) {buffer : Bytes} (hlength : buffer.length ≤ requests) :
    ∃ (earlier : List Bytes) (written : Bytes), AllSucceed generate s earlier ∧
      let t := stateAfter generate s earlier
      let last := generate t (buffer.drop written.length)
      repeated generate requests s buffer = ⟨t, written, .ok ()⟩ ∨
      ∃ e, last.outcome = .error e ∧
        repeated generate requests s buffer = ⟨last.state, written ++ last.buffer, .error e⟩ := by
  induction requests generalizing s buffer with
  | zero =>
      obtain rfl := List.length_eq_zero_iff.mp (Nat.le_zero.mp hlength)
      exact ⟨[], [], trivial, .inl rfl⟩
  | succ requests ih =>
      cases buffer with
      | nil => exact ⟨[], [], trivial, .inl rfl⟩
      | cons b buffer =>
          simp only [repeated]
          cases hfirst : (generate s (b :: buffer)).outcome with
          | error e => exact ⟨[], [], trivial, .inr ⟨e, hfirst, rfl⟩⟩
          | ok n =>
              obtain ⟨hpos, hle, hdrop⟩ := hwrites s _ n hs (List.cons_ne_nil _ _) hfirst
              have hshorter : ((b :: buffer).drop n).length ≤ requests := by
                rw [List.length_drop]
                omega
              obtain ⟨earlier, written, hsucceed, hrest⟩ := ih (hkeeps s _ hs) hshorter
              have htake : ((generate s (b :: buffer)).buffer.take n).length = n :=
                List.length_take_of_le hle
              refine ⟨(b :: buffer) :: earlier, (generate s (b :: buffer)).buffer.take n ++ written,
                ⟨⟨n, hfirst⟩, hsucceed⟩, ?_⟩
              simp only [hdrop, List.length_append, htake, ← List.drop_drop]
              obtain hrest | ⟨e, hlast, hrest⟩ := hrest
              · refine .inl ?_
                rw [hrest]
                rfl
              · refine .inr ⟨e, hlast, ?_⟩
                rw [hrest, List.append_assoc]
                rfl

/-- Repeated requests do the same where each request does. -/
theorem repeated_of_projection {generate : σ → Bytes → Draw σ Nat}
    {generate' : τ → Bytes → Draw τ Nat} (f : τ → σ)
    (h : ∀ t buffer, generate (f t) buffer =
      ⟨f (generate' t buffer).state, (generate' t buffer).buffer, (generate' t buffer).outcome⟩)
    (requests : Nat) (t : τ) (buffer : Bytes) :
    repeated generate requests (f t) buffer =
      ⟨f (repeated generate' requests t buffer).state, (repeated generate' requests t buffer).buffer,
        (repeated generate' requests t buffer).outcome⟩ := by
  induction requests generalizing t buffer with
  | zero => cases buffer <;> rfl
  | succ requests ih =>
      cases buffer with
      | nil => rfl
      | cons b buffer =>
          simp only [repeated, h]
          split
          · rfl
          · rw [ih]

end Draw

namespace InstanceGenerator

variable {ε : Type} [EntropySource ε]

/-! ### One request -/

/-- The generator that a request is served from: the present one before its seed is used up, or the
one that was reseeded. -/
inductive Serves (g : InstanceGenerator ε) : InstanceGenerator ε → Prop where
  | present (hle : g.generator.requests ≤ g.generator.limits.reseedInterval) : Serves g g
  | reseeded {seed : Bytes} {source : ε} (hseed : requestSeed g.source = (.ok seed, source)) :
      Serves g ⟨g.generator.reseed seed [], source⟩

/-- What a request may do: nothing at all, refuse for want of a first seed, hand on the failure of a
reseeding that is due, refuse a repeated block, or write some bytes. -/
inductive Answers (g : InstanceGenerator ε) (buffer : Bytes) :
    Draw (InstanceGenerator ε) Nat → Prop where
  | nothing (hbuffer : buffer = []) : Answers g buffer ⟨g, buffer, .ok 0⟩
  | unseeded : Answers g buffer ⟨g, buffer, .error (.fatal .internal)⟩
  | starved {e : Fault} {source : ε} (hseed : requestSeed g.source = (.error e, source)) :
      Answers g buffer ⟨{ g with source := source }, buffer, .error e⟩
  | repeated {g' : InstanceGenerator ε} (hserves : Serves g g') :
      Answers g buffer ⟨{ g' with generator :=
        { g'.generator with counter := g'.generator.counter + 1 } }, buffer,
          .error (.fatal .entropy)⟩
  | written {g' : InstanceGenerator ε} {generator : CounterGenerator} {output : Bytes} {n : Nat}
      (hinst : g.isInstantiated = true) (hserves : Serves g g')
      (hlimits : generator.limits = g'.generator.limits)
      (hrequests : generator.requests = g'.generator.requests + 1) (hpos : 0 < n)
      (hle : n ≤ buffer.length) (hdrop : output.drop n = buffer.drop n) :
      Answers g buffer ⟨{ g' with generator := generator }, output, .ok n⟩

variable {g g' : InstanceGenerator ε}

/-- What serves a request keeps the limits, and has a seed that is not used up. -/
theorem Serves.bounds (h : g.Serves g') (hlimits : g.generator.limits.validate = .ok ()) :
    g'.generator.limits = g.generator.limits ∧
      g'.generator.requests ≤ g.generator.limits.reseedInterval := by
  cases h with
  | present hle => exact ⟨rfl, hle⟩
  | reseeded => exact ⟨rfl, (GeneratorLimits.bounds_of_validate hlimits).1⟩

/-- What serves a request to an instantiated generator is instantiated. -/
theorem Serves.isInstantiated (h : g.Serves g') (hinst : g.isInstantiated = true) :
    g'.isInstantiated = true := by
  cases h with
  | present => exact hinst
  | reseeded => rfl

/-- A request is served, unless a reseeding that is due fails. -/
theorem served_cases (g : InstanceGenerator ε) :
    (∃ e source, requestSeed g.source = (.error e, source) ∧
      g.served = (.error e, { g with source := source })) ∨
    ∃ g', g.Serves g' ∧ g.served = (.ok (), g') := by
  unfold served
  split
  · obtain ⟨e, source, hseed, hrun⟩ | ⟨seed, source, hseed, hrun⟩ := reseed_cases g []
    · exact .inl ⟨e, source, hseed, hrun⟩
    · exact .inr ⟨_, .reseeded hseed, hrun⟩
  · next hneeds =>
      rw [CounterGenerator.needsReseed, decide_eq_true_eq] at hneeds
      exact .inr ⟨g, .present (Nat.le_of_not_lt hneeds), rfl⟩

/-- Within admissible limits, a request does one of these. -/
theorem answers_generate (hlimits : g.generator.limits.validate = .ok ()) (buffer : Bytes) :
    g.Answers buffer (g.generate buffer) := by
  by_cases hbuffer : buffer = []
  · subst hbuffer
    exact .nothing rfl
  cases hinst : g.isInstantiated with
  | false =>
      rw [generate, if_neg (by simpa using hbuffer), hinst, if_pos (by simp)]
      exact .unseeded
  | true =>
      have hserved := g.served_cases
      obtain ⟨hnil, -⟩ | ⟨e, g', hg', hrun⟩ | ⟨g', hg', hrun⟩ := generate_cases hinst buffer
      · exact absurd hnil hbuffer
      · obtain ⟨e', source, hseed, hstarved⟩ | ⟨g'', -, hok⟩ := hserved
        · rw [hrun]
          cases hg'.symm.trans hstarved
          exact .starved hseed
        · cases hg'.symm.trans hok
      · obtain ⟨e', source, -, hstarved⟩ | ⟨g'', hserves, hok⟩ := hserved
        · cases hg'.symm.trans hstarved
        cases hg'.symm.trans hok
        obtain ⟨hsame, hrequests⟩ := hserves.bounds hlimits
        have hvalid : g'.generator.limits.validate = .ok () := hsame ▸ hlimits
        rw [hrun]
        obtain hrepeats | ⟨generator, output, hwritten, hgenerator, hcount, hdrop⟩ :=
          CounterGenerator.generate_of_requests_le hvalid (hsame ▸ hrequests) hbuffer
        · rw [hrepeats]
          exact .repeated hserves
        · rw [hwritten]
          have hmax := (GeneratorLimits.bounds_of_validate hvalid).2.2.1
          have hlength := List.length_pos_of_ne_nil hbuffer
          exact .written hinst hserves hgenerator hcount (by omega) (Nat.min_le_left _ _) hdrop

/-- A reseeding that is due and fails moves the source only. -/
theorem generate_starved {buffer : Bytes} (hbuffer : buffer ≠ []) (hinst : g.isInstantiated = true)
    (hdue : g.generator.needsReseed = true) {e : Fault} {source : ε}
    (hseed : requestSeed g.source = (.error e, source)) :
    g.generate buffer = ⟨{ g with source := source }, buffer, .error e⟩ := by
  rw [generate, if_neg (by simpa using hbuffer), hinst, if_neg (by simp), if_pos hdue, reseed,
    hseed]

/-- A request that is refused writes nothing. -/
theorem buffer_of_refused (hlimits : g.generator.limits.validate = .ok ()) {buffer : Bytes}
    {e : Fault} (h : (g.generate buffer).outcome = .error e) :
    (g.generate buffer).buffer = buffer := by
  have hanswers := answers_generate hlimits buffer
  generalize g.generate buffer = d at h hanswers
  cases hanswers with
  | nothing => cases h
  | written => cases h
  | unseeded | starved | repeated => rfl

/-- A request for some bytes that succeeds writes at the front of its buffer. -/
theorem written_of_ok (hlimits : g.generator.limits.validate = .ok ()) {buffer : Bytes}
    (hbuffer : buffer ≠ []) {n : Nat} (h : (g.generate buffer).outcome = .ok n) :
    0 < n ∧ n ≤ (g.generate buffer).buffer.length ∧
      (g.generate buffer).buffer.drop n = buffer.drop n := by
  rw [length_generate]
  have hanswers := answers_generate hlimits buffer
  generalize g.generate buffer = d at h hanswers
  cases hanswers with
  | nothing hnil => exact absurd hnil hbuffer
  | written hinst hserves hsame hrequests hpos hle hdrop =>
      cases h
      exact ⟨hpos, hle, hdrop⟩
  | unseeded | starved | repeated => cases h

/-- A request keeps the limits. -/
theorem limits_generate (hlimits : g.generator.limits.validate = .ok ()) (buffer : Bytes) :
    (g.generate buffer).state.generator.limits = g.generator.limits := by
  have hanswers := answers_generate hlimits buffer
  generalize g.generate buffer = d at hanswers
  cases hanswers with
  | nothing | unseeded | starved => rfl
  | repeated hserves => exact (hserves.bounds hlimits).1
  | written hinst hserves hsame => exact hsame.trans (hserves.bounds hlimits).1

/-- A recoverable refusal of a request comes from the source. -/
theorem source_of_refused (hlimits : g.generator.limits.validate = .ok ()) {buffer : Bytes}
    {e : Fault} (h : (g.generate buffer).outcome = .error e) (he : e.isFatal = false) :
    (EntropySource.request g.source seedLength).1 = .error e := by
  have hanswers := answers_generate hlimits buffer
  generalize g.generate buffer = d at h hanswers
  cases hanswers with
  | nothing => cases h
  | written => cases h
  | unseeded | repeated =>
      cases h
      cases he
  | starved hseed =>
      cases h
      rw [requestSeed] at hseed
      split at hseed
      case h_1 hrequest =>
        cases hseed
        rw [hrequest]
      case h_2 =>
        split at hseed
        · cases hseed
        · cases hseed
          cases he

/-- A request does not ask for a reseeding when the source does not. -/
theorem ne_reseedRequired (hlimits : g.generator.limits.validate = .ok ())
    (hsource : ∀ (source : ε) n, (EntropySource.request source n).1 ≠ .error .reseedRequired)
    (buffer : Bytes) : (g.generate buffer).outcome ≠ .error .reseedRequired :=
  fun h => hsource _ _ (source_of_refused hlimits h rfl)

/-- A filling makes requests that succeed, up to one that fails. -/
theorem fill_cases (hlimits : g.generator.limits.validate = .ok ()) (buffer : Bytes) :
    ∃ (earlier : List Bytes) (written : Bytes), Draw.AllSucceed generate g earlier ∧
      let before := Draw.stateAfter generate g earlier
      let last := before.generate (buffer.drop written.length)
      g.fill buffer = ⟨before, written, .ok ()⟩ ∨
      ∃ e, last.outcome = .error e ∧
        g.fill buffer = ⟨last.state, written ++ last.buffer, .error e⟩ := by
  have hkeeps (g : InstanceGenerator ε) (buffer : Bytes)
      (hlimits : g.generator.limits.validate = .ok ()) :
      (g.generate buffer).state.generator.limits.validate = .ok () := by
    rw [limits_generate hlimits]
    exact hlimits
  exact Draw.repeated_cases hkeeps
    (fun g buffer n hlimits hbuffer h => written_of_ok hlimits hbuffer h) hlimits (Nat.le_refl _)

/-! ### One instantiation -/

/-- What an instantiation leaves: a wiped generator beside a fault, or a generator with a fresh
seed. -/
inductive Instantiates (g : InstanceGenerator ε) (personalization : Bytes) :
    Checked Unit × InstanceGenerator ε → Prop where
  | refused : Instantiates g personalization
      (.error (.fatal .parameter), ⟨.zeroed g.generator.limits, g.source⟩)
  | unset {e : Fault} {source : ε} (hreset : EntropySource.request g.source 0 = (.error e, source)) :
      Instantiates g personalization (.error e, ⟨.zeroed g.generator.limits, source⟩)
  | starved {e : Fault} {bytes : Bytes} {reset source : ε}
      (hreset : EntropySource.request g.source 0 = (.ok bytes, reset))
      (hseed : requestSeed reset = (.error e, source)) :
      Instantiates g personalization (.error e, ⟨.zeroed g.generator.limits, source⟩)
  | seeded {bytes seed : Bytes} {reset source : ε}
      (hreset : EntropySource.request g.source 0 = (.ok bytes, reset))
      (hseed : requestSeed reset = (.ok seed, source)) :
      Instantiates g personalization
        (.ok (), ⟨.instantiate seed personalization g.generator.limits, source⟩)

/-- An instantiation does one of these. -/
theorem instantiates (g : InstanceGenerator ε) (personalization : Bytes) :
    g.Instantiates personalization (g.reinstantiate personalization) := by
  rw [reinstantiate]
  cases g.generator.uninstantiate.limits.validate with
  | error e => exact .refused
  | ok _ =>
      rcases hreset : EntropySource.request g.source 0 with ⟨e | bytes, reset⟩
      · exact .unset hreset
      · dsimp only
        rcases hseed : requestSeed reset with ⟨e | seed, source⟩
        · exact .starved hreset hseed
        · exact .seeded hreset hseed

/-- An instantiation that fails leaves a wiped generator. -/
theorem generator_of_refused {personalization : Bytes} {e : Fault}
    (h : (g.reinstantiate personalization).1 = .error e) :
    (g.reinstantiate personalization).2.generator = .zeroed g.generator.limits := by
  have hinstantiates := g.instantiates personalization
  generalize g.reinstantiate personalization = result at h hinstantiates
  cases hinstantiates with
  | seeded => cases h
  | refused | unset | starved => rfl

end InstanceGenerator

end TrustedPlatform
