import TrustedPlatform.Proofs.Random.Requests
import TrustedPlatform.Random.Seeded
import TrustedPlatform.Random.SelfTest

/-!
# What a wiped generator gives

A wiped generator is one with a key of zeros, and nothing tells it from a generator with a seed.
Within admissible limits it answers requests, with bytes that are the same for every generator and
every history: the encryptions of the counters from one on under the key of zeros. It is silent
only under limits that are not admissible, as every generator is. The main theorem is
`wiped_output_public`.
-/

namespace TrustedPlatform

/-- Every request and every filling of some bytes is refused, and writes nothing. -/
def Draw.Silent {σ : Type} (generate : σ → Bytes → Draw σ Nat) (fill : σ → Bytes → Draw σ Unit)
    (s : σ) : Prop :=
  ∀ buffer ≠ [],
    (∃ e, (generate s buffer).outcome = .error e ∧ (generate s buffer).buffer = buffer) ∧
    ∃ e, (fill s buffer).outcome = .error e ∧ (fill s buffer).buffer = buffer

/-- What is silent answers no request. -/
theorem Draw.Silent.outcome_ne {σ : Type} {generate : σ → Bytes → Draw σ Nat}
    {fill : σ → Bytes → Draw σ Unit} {s : σ} (h : Silent generate fill s) {b : UInt8} {n : Nat} :
    (generate s [b]).outcome ≠ .ok n := by
  obtain ⟨⟨e, hrefused, -⟩, -⟩ := h [b] (List.cons_ne_nil _ _)
  rw [hrefused]
  exact nofun

namespace CounterGenerator

/-! ### Runs of calls -/

/-- A call to a counter-mode generator. -/
inductive Call where
  | generate (buffer : Bytes)
  | fill (buffer : Bytes)
  | reseed (entropy additional : Bytes)
  | uninstantiate

/-- The call brings in no seed material. -/
def Call.Unseeded : Call → Prop
  | .reseed _ _ => False
  | _ => True

/-- The generator that a call leaves. -/
def perform (g : CounterGenerator) : Call → CounterGenerator
  | .generate buffer => (g.generate buffer).state
  | .fill buffer => (g.fill buffer).state
  | .reseed entropy additional => g.reseed entropy additional
  | .uninstantiate => g.uninstantiate

/-- The generator that a sequence of calls leaves. -/
def run (g : CounterGenerator) (calls : List Call) : CounterGenerator :=
  calls.foldl perform g

/-- A run goes on where the first part of it ended. -/
theorem run_append (g : CounterGenerator) (calls later : List Call) :
    g.run (calls ++ later) = (g.run calls).run later :=
  List.foldl_append

/-- A call keeps the limits. -/
theorem limits_perform (g : CounterGenerator) (call : Call) : (g.perform call).limits = g.limits := by
  cases call with
  | generate buffer => exact limits_generate g buffer
  | fill buffer =>
      exact Draw.state_repeated (I := fun s : CounterGenerator => s.limits = g.limits)
        (fun s buffer h => (limits_generate s buffer).trans h) _ rfl buffer
  | reseed entropy additional => rfl
  | uninstantiate => rfl

/-- A run keeps the limits. -/
theorem limits_run (g : CounterGenerator) (calls : List Call) : (g.run calls).limits = g.limits := by
  induction calls generalizing g with
  | nil => rfl
  | cons call calls ih => exact (ih (g.perform call)).trans (g.limits_perform call)

/-- Whatever the generator went through, a wipe leaves the same, and so does all that follows it. -/
theorem run_uninstantiate (g : CounterGenerator) (calls later : List Call) :
    g.run (calls ++ .uninstantiate :: later) = (zeroed g.limits).run later := by
  rw [run_append, run, List.foldl_cons, perform, uninstantiate, limits_run]
  rfl

/-! ### Requests to a wiped generator -/

variable {g : CounterGenerator} {limits : GeneratorLimits} {buffer : Bytes}

/-- A generator under inadmissible limits is silent. -/
theorem silent_of_inadmissible (hlimits : g.limits.validate ≠ .ok ()) :
    Draw.Silent generate fill g := by
  intro buffer hbuffer
  have hgenerate : ∃ e, g.generate buffer = ⟨g, buffer, .error e⟩ := by
    rw [generate, if_neg (by simpa using hbuffer)]
    cases hvalidate : g.limits.validate with
    | ok u => exact absurd hvalidate hlimits
    | error e => exact ⟨e, rfl⟩
  obtain ⟨e, hrun⟩ := hgenerate
  refine ⟨⟨e, by rw [hrun], by rw [hrun]⟩, e, ?_⟩
  obtain ⟨b, rest, rfl⟩ := List.exists_cons_of_ne_nil hbuffer
  simp only [fill, List.length_cons, Draw.repeated, hrun, and_self]

/-- The first bytes that the key of zeros gives. -/
def zeroStream (n : Nat) : Bytes :=
  ((keystream (Aes.roundKeys (List.replicate 32 0)) 0 ((n + 15) / 16)).flatMap
    Aes.Block.toBytes).take n

/-- There are as many of them as are asked for. -/
theorem length_zeroStream (n : Nat) : (zeroStream n).length = n :=
  length_output (zeroed .default) n

/-- A wiped generator serves a request, with the bytes of the key of zeros. -/
theorem generate_zeroed (hlimits : limits.validate = .ok ()) (hbuffer : buffer ≠ []) :
    let n := min buffer.length limits.maxBytesPerRequest
    ((zeroed limits).generate buffer).outcome = .ok n ∧
      ((zeroed limits).generate buffer).buffer = zeroStream n ++ buffer.drop n := by
  rw [generate_of_new hlimits (Nat.zero_le _) (not_repeatsLast rfl) hbuffer]
  exact ⟨rfl, rfl⟩

/-- A filling begins with what its first request wrote, and is served by that request alone when
one may give so much. -/
theorem fill_zeroed (hlimits : limits.validate = .ok ()) (hbuffer : buffer ≠ []) :
    let n := min buffer.length limits.maxBytesPerRequest
    ((zeroed limits).fill buffer).buffer.take n = zeroStream n ∧
      (buffer.length ≤ limits.maxBytesPerRequest → ((zeroed limits).fill buffer).outcome = .ok ()) := by
  intro n
  obtain ⟨houtcome, hwritten⟩ := generate_zeroed hlimits hbuffer
  have htake : ((zeroed limits).generate buffer).buffer.take n = zeroStream n := by
    rw [hwritten]
    exact List.take_left' (length_zeroStream n)
  have hrest : ((zeroed limits).generate buffer).buffer.drop n = buffer.drop n := by
    rw [hwritten]
    exact List.drop_left' (length_zeroStream n)
  obtain ⟨b, rest, rfl⟩ := List.exists_cons_of_ne_nil hbuffer
  rw [fill, List.length_cons]
  simp only [Draw.repeated, houtcome]
  refine ⟨?_, fun hle => ?_⟩
  · rw [htake, List.take_left' (length_zeroStream n)]
  · have hdone : (b :: rest).drop n = [] := List.drop_of_length_le (Nat.le_min.mpr ⟨le_rfl, hle⟩)
    rw [hrest, hdone]
    cases rest.length <;> rfl

end CounterGenerator

namespace SeededGenerator

/-- A call to a seeded generator, which cannot be reseeded. -/
inductive Call where
  | generate (buffer : Bytes)
  | fill (buffer : Bytes)
  | uninstantiate

/-- The call to the generator inside. -/
def Call.inner : Call → CounterGenerator.Call
  | .generate buffer => .generate buffer
  | .fill buffer => .fill buffer
  | .uninstantiate => .uninstantiate

/-- The generator that a call leaves. -/
def perform (g : SeededGenerator) : Call → SeededGenerator
  | .generate buffer => (g.generate buffer).state
  | .fill buffer => (g.fill buffer).state
  | .uninstantiate => g.uninstantiate

/-- The generator that a sequence of calls leaves. -/
def run (g : SeededGenerator) (calls : List Call) : SeededGenerator :=
  calls.foldl perform g

/-- A run is one of the generator inside. -/
theorem inner_run (g : SeededGenerator) (calls : List Call) :
    (g.run calls).inner = g.inner.run (calls.map Call.inner) := by
  induction calls generalizing g with
  | nil => rfl
  | cons call calls ih =>
      rw [List.map_cons]
      refine (ih (g.perform call)).trans ?_
      cases call <;> rfl

/-- Whatever the generator went through, a wipe leaves the same, and so does all that follows it. -/
theorem run_uninstantiate (g : SeededGenerator) (calls later : List Call) :
    g.run (calls ++ .uninstantiate :: later) = run ⟨.zeroed g.inner.limits⟩ later := by
  have hinner : (g.run (calls ++ .uninstantiate :: later)).inner =
      (run ⟨.zeroed g.inner.limits⟩ later).inner := by
    rw [inner_run, inner_run, List.map_append, List.map_cons, Call.inner,
      CounterGenerator.run_uninstantiate]
  exact congrArg SeededGenerator.mk hinner

end SeededGenerator

/-! ### The output of a wiped generator -/

/-- What comes of a generator with some limits once it is wiped: `wiped` is the generator then, and
`unseeded` holds of what it may become without new seed material. -/
structure WipedOutput {σ : Type} (generate : σ → Bytes → Draw σ Nat)
    (fill : σ → Bytes → Draw σ Unit) (limits : GeneratorLimits) (wiped : σ) (unseeded : σ → Prop) :
    Prop where
  /-- It is silent until it is seeded again exactly when its limits are inadmissible. -/
  silent_iff : (∀ s, unseeded s → Draw.Silent generate fill s) ↔ limits.validate ≠ .ok ()
  /-- Otherwise it serves the next request, with the bytes of the key of zeros. -/
  generate_eq : limits.validate = .ok () → ∀ buffer ≠ [],
    let n := min buffer.length limits.maxBytesPerRequest
    (generate wiped buffer).outcome = .ok n ∧
      (generate wiped buffer).buffer = CounterGenerator.zeroStream n ++ buffer.drop n
  /-- And so does a filling begin. -/
  fill_eq : limits.validate = .ok () → ∀ buffer ≠ [],
    let n := min buffer.length limits.maxBytesPerRequest
    (fill wiped buffer).buffer.take n = CounterGenerator.zeroStream n ∧
      (buffer.length ≤ limits.maxBytesPerRequest → (fill wiped buffer).outcome = .ok ())

/-- A wiped counter-mode generator, whatever it went through before. -/
theorem CounterGenerator.wipedOutput (g : CounterGenerator) (calls : List Call) :
    WipedOutput generate fill g.limits (g.run (calls ++ [.uninstantiate])) fun s =>
      ∃ later, (∀ call ∈ later, Call.Unseeded call) ∧
        s = g.run (calls ++ .uninstantiate :: later) := by
  have hwiped : g.run (calls ++ [.uninstantiate]) = zeroed g.limits := run_uninstantiate g calls []
  rw [hwiped]
  refine ⟨⟨fun h hlimits => ?_, fun hlimits s hs => ?_⟩, fun h _ => generate_zeroed h,
    fun h _ => fill_zeroed h⟩
  · have hsilent := h (zeroed g.limits) ⟨[], nofun, hwiped.symm⟩
    exact hsilent.outcome_ne (generate_zeroed hlimits (List.cons_ne_nil 0 [])).1
  · obtain ⟨later, -, rfl⟩ := hs
    refine silent_of_inadmissible ?_
    rw [limits_run]
    exact hlimits

/-- A wiped seeded generator, whatever it went through before. -/
theorem SeededGenerator.wipedOutput (g : SeededGenerator) (calls : List Call) :
    WipedOutput generate fill g.inner.limits (g.run (calls ++ [.uninstantiate])) fun s =>
      ∃ later, s = g.run (calls ++ .uninstantiate :: later) := by
  have hwiped : g.run (calls ++ [.uninstantiate]) = ⟨.zeroed g.inner.limits⟩ :=
    run_uninstantiate g calls []
  rw [hwiped]
  refine ⟨⟨fun h hlimits => ?_, fun hlimits s hs => ?_⟩,
    fun h _ => CounterGenerator.generate_zeroed h, fun h _ => CounterGenerator.fill_zeroed h⟩
  · have hsilent := h ⟨.zeroed g.inner.limits⟩ ⟨[], hwiped.symm⟩
    exact hsilent.outcome_ne
      (CounterGenerator.generate_zeroed hlimits (List.cons_ne_nil 0 [])).1
  · obtain ⟨later, rfl⟩ := hs
    -- a seeded generator is silent when the generator inside is
    show Draw.Silent CounterGenerator.generate CounterGenerator.fill (g.run _).inner
    refine CounterGenerator.silent_of_inadmissible ?_
    rw [inner_run, CounterGenerator.limits_run]
    exact hlimits

/-- Within admissible limits, a wiped generator of either kind gives bytes that anyone can compute:
they do not depend on the generator, nor on the calls before the wipe. -/
theorem wiped_output_public (g : CounterGenerator) (calls : List CounterGenerator.Call)
    (seeded : SeededGenerator) (seededCalls : List SeededGenerator.Call) :
    ((∀ later, g.run (calls ++ .uninstantiate :: later) =
        (CounterGenerator.zeroed g.limits).run later) ∧
      WipedOutput CounterGenerator.generate CounterGenerator.fill g.limits
        (g.run (calls ++ [.uninstantiate])) fun s =>
          ∃ later, (∀ call ∈ later, CounterGenerator.Call.Unseeded call) ∧
            s = g.run (calls ++ .uninstantiate :: later)) ∧
    (∀ later, seeded.run (seededCalls ++ .uninstantiate :: later) =
        SeededGenerator.run ⟨.zeroed seeded.inner.limits⟩ later) ∧
      WipedOutput SeededGenerator.generate SeededGenerator.fill seeded.inner.limits
        (seeded.run (seededCalls ++ [.uninstantiate])) fun s =>
          ∃ later, s = seeded.run (seededCalls ++ .uninstantiate :: later) :=
  ⟨⟨g.run_uninstantiate calls, g.wipedOutput calls⟩,
    seeded.run_uninstantiate seededCalls, seeded.wipedOutput seededCalls⟩

/-- Sixteen bytes of a generator that was seeded and wiped. -/
theorem generate_wiped_testEntropy :
    let g := (CounterGenerator.instantiate CounterGenerator.testEntropy [] .default).run
      [.uninstantiate]
    (g.generate (List.replicate 16 0)).outcome = .ok 16 ∧
      (g.generate (List.replicate 16 0)).buffer =
        [0x53, 0x0f, 0x8a, 0xfb, 0xc7, 0x45, 0x36, 0xb9, 0xa9, 0x63, 0xb4, 0xf1, 0xc4, 0xcb, 0x73,
          0x8b] := by
  intro g
  have hwiped : g = .zeroed .default := CounterGenerator.run_uninstantiate _ [] []
  have hstream : CounterGenerator.zeroStream 16 =
      [0x53, 0x0f, 0x8a, 0xfb, 0xc7, 0x45, 0x36, 0xb9, 0xa9, 0x63, 0xb4, 0xf1, 0xc4, 0xcb, 0x73,
        0x8b] := by decide +kernel
  have hlimits : GeneratorLimits.default.validate = .ok () := by decide
  have hbuffer : List.replicate 16 (0 : UInt8) ≠ [] := by decide
  rw [hwiped, ← hstream]
  exact CounterGenerator.generate_zeroed hlimits hbuffer

end TrustedPlatform
