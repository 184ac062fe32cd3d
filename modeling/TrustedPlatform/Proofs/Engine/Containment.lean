import TrustedPlatform.Proofs.Attestation.Recoverable
import TrustedPlatform.Proofs.Engine.Refinement
import TrustedPlatform.Proofs.Exchange.Recoverable

/-!
# No command on a curve puts an engine out of service

Whatever its arguments are, a command on a curve ends in an answer or in a recoverable fault and the
engine stays in service, with three exceptions: a draw from the generator that fails, a point off
the curve that the caller answers for under SM2, and the digest of an SM2 verification that there is
no room to reduce. `Engine.run_curve_contained` says so of every lawful arithmetic.
-/

namespace TrustedPlatform

open Bytes (toNat)
open LawfulArithmetic (RoomToReduce)

/-! ### Operations -/

namespace Operation

variable {ε β : Type} [EntropySource ε] {draws : Prop} {P : β → Prop}

/-- A computation on the generator. -/
theorem onGenerator_contained {x : Randomized (InstanceGenerator ε) β}
    (h : Contained (fun g : InstanceGenerator ε => g) draws P x) :
    Contained EngineState.generator draws P (onGenerator x) :=
  fun s => h s.generator

/-- A computation on the commitments. -/
theorem onCommits_contained {f : Attestation.CommitState → Checked β × Attestation.CommitState}
    (h : ∀ state, Recovers P (f state).1) :
    Contained EngineState.generator draws P (onCommits f : Operation ε β) := by
  intro s
  show Ending draws P s.generator (f s.commits).1 s.generator
  have hrecovers := h s.commits
  generalize (f s.commits).1 = outcome at hrecovers
  cases hrecovers with
  | value h => exact .value h .refl
  | refused h => exact .refused h

/-- A computation on the commitments and the generator. -/
theorem onCommitsAndGenerator_contained
    {f : Attestation.CommitState → InstanceGenerator ε →
      Checked β × Attestation.CommitState × InstanceGenerator ε}
    (h : ∀ state generator, Ending draws P generator (f state generator).1
      (f state generator).2.2) :
    Contained EngineState.generator draws P (onCommitsAndGenerator f) :=
  fun s => h s.commits s.generator

end Operation

/-! ### Commands -/

namespace Command

open CurveParameters Operation

/-- The command takes bytes from the generator. -/
def Draws : Command → Prop
  | verify .. | commit .. | verifyAttestation .. | exchangeOnce .. | exchangeTwice .. | rsaLoad ..
  | rsaDecrypt .. | rsaVerify .. => False
  | _ => True

/-- The public points that the caller answers for: those of a verification and of a two-phase
exchange under SM2. -/
def vouched : Command → List Wire.Point
  | verify _ q signature _ => if signature.scheme = .sm2 then [q] else []
  | exchangeTwice _ scheme _ _ qs qe => if scheme = .sm2 then [qs, qe] else []
  | _ => []

/-- A registry number loads a registered curve or is refused recoverably. -/
theorem load_recovers (id : CurveId) :
    Recovers (fun c => ∃ d ∈ all, lookup? id = .ok d ∧ c = Curve.ofParameters d)
      (Curve.load Nat id) := by
  rw [Curve.load]
  cases hlookup : lookup? id with
  | ok d => exact .value ⟨d, mem_of_lookup? hlookup, rfl, rfl⟩
  | error e =>
      rw [lookup?] at hlookup
      split at hlookup
      · cases hlookup
      · cases hlookup
        exact .refused rfl

variable {ε β : Type} [EntropySource ε] {draws : Prop} {P : β → Prop} {id : CurveId}

/-- What is contained on every registered curve is contained. -/
theorem onCurve_contained {f : Curve Nat → Operation ε β}
    (h : ∀ d ∈ all, [Fact d.p.Prime] → lookup? id = .ok d →
      Contained EngineState.generator draws P (f (Curve.ofParameters d))) :
    Contained EngineState.generator draws P (liftM (Curve.load Nat id) >>= f) := by
  refine (Contained.lift (load_recovers id)).bind ?_
  rintro _ ⟨d, hd, hlookup, rfl⟩
  have : Fact d.p.Prime := ⟨prime_of_mem d hd⟩
  exact h d hd hlookup

/-- A part of a signature is refused recoverably. -/
theorem parameter_recoverable (bytes : Bytes) : Recoverable (Signature.parameter bytes) := by
  rw [Signature.parameter]
  split
  · exact .value trivial
  · exact .refused rfl

/-- Key pairs. -/
theorem performCreateKey_contained (id : CurveId) :
    Contained EngineState.generator True (fun _ => True)
      (performCreateKey Nat id : Operation ε Response) := by
  refine onCurve_contained fun d hd _ _ => ?_
  refine (onGenerator_contained (keyPair_contained hd)).bind fun pair hq => ?_
  refine (Contained.lift (Exact.toBytesPadded_recoverable pair.1 _)).bind fun x _ => ?_
  refine (Contained.lift (hq.toWire hd)).bind fun q _ => ?_
  exact .pure trivial

/-- Commitments. -/
theorem performCommit_contained (id : CurveId) (privateKey name : Bytes)
    (base : Option Wire.Point) (basename : Option Attestation.Basename)
    (cancel : Attestation.CancelSignal) :
    Contained EngineState.generator draws (fun _ => True)
      (performCommit Nat id privateKey name base basename cancel : Operation ε Response) := by
  refine onCurve_contained fun d hd _ _ => ?_
  refine (Contained.lift (privateScalar_recoverable d privateKey)).bind fun x _ => ?_
  refine (Contained.lift (Recovers.mapM base fun q _ => validatedPoint_recovers hd q)).bind
    fun base hbase => ?_
  refine (onCommits_contained fun state =>
    commit_recovers hd state x name hbase basename cancel).bind fun m hm => ?_
  refine (Contained.lift (hm.e.toWire hd)).bind fun e _ => ?_
  refine (Contained.lift (Recovers.mapM m.k fun k hk => (hm.k k hk).toWire hd)).bind fun k _ => ?_
  refine (Contained.lift (Recovers.mapM m.l fun l hl => (hm.l l hl).toWire hd)).bind fun l _ => ?_
  exact .pure trivial

/-- Anonymous signatures. -/
theorem performAttest_contained (id : CurveId) (counter : UInt64) (name : Bytes) (h : Hash)
    (privateKey digest : Bytes) :
    Contained EngineState.generator True (fun _ => True)
      (performAttest Nat id counter name h privateKey digest : Operation ε Response) := by
  refine onCurve_contained fun d hd _ _ => ?_
  refine (Contained.lift (Require.length_recoverable _ _ _)).bind fun _ _ => ?_
  refine (Contained.lift (privateScalar_recoverable d privateKey)).bind fun x _ => ?_
  refine (onCommitsAndGenerator_contained fun state generator =>
    attest_ending hd state counter name h x digest generator).bind fun answer _ => ?_
  refine (Contained.lift (parameter_recoverable answer.1)).bind fun r _ => ?_
  refine (Contained.lift (Exact.toBytesPadded_recoverable answer.2 _)).bind fun s _ => ?_
  exact (Contained.lift (parameter_recoverable s)).bind fun s _ => .pure trivial

/-- Verifications of anonymous signatures. -/
theorem checkAttestation_recoverable (id : CurveId) (base : Option Wire.Point) (e q : Wire.Point)
    (signature : Signature) (digest : Bytes) :
    Recoverable (checkAttestation Nat id base e q signature digest) := by
  refine (load_recovers id).bind ?_
  rintro _ ⟨d, hd, -, rfl⟩
  have : Fact d.p.Prime := ⟨prime_of_mem d hd⟩
  refine .ite (fun _ => .refused rfl) fun _ => ?_
  refine (Recovers.mapM base fun q _ => validatedPoint_recovers hd q).bind fun base hbase => ?_
  refine (validatedPoint_recovers hd e).bind fun e he => ?_
  refine (validatedPoint_recovers hd q).bind fun q hq => ?_
  exact verifyAttestation_recoverable hd signature.hash (isNormal_base hd hbase) he hq _ digest _

/-- Exchanges with a fresh key pair. -/
theorem performExchangeFresh_contained (id : CurveId) (q : Wire.Point) :
    Contained EngineState.generator True (fun _ => True)
      (performExchangeFresh Nat id q : Operation ε Response) := by
  refine onCurve_contained fun d hd _ _ => ?_
  refine (Contained.lift (validatedPoint_recovers hd q)).bind fun q hq => ?_
  refine (onGenerator_contained (keyPair_contained hd)).bind fun pair hown => ?_
  refine (Contained.lift (cofactorMul_recovers hd hq pair.1 _)).bind fun z hz => ?_
  refine (Contained.lift (hz.toWire hd)).bind fun z _ => ?_
  exact (Contained.lift (hown.toWire hd)).bind fun own _ => .pure trivial

/-- In exact arithmetic, a command on a curve fails fatally only with the generator, if the points
that the caller answers for are on the curve. -/
theorem perform_exact_contained (retries : Nat) {command : Command}
    (hcurve : command.curve? = some id)
    (hpoints : ∀ d, lookup? id = .ok d → ∀ q ∈ command.vouched, d.Accepts q) :
    Contained EngineState.generator command.Draws (fun _ => True)
      (command.perform Nat retries : Operation ε Response) := by
  cases command with
  | createKey curve => exact performCreateKey_contained curve
  | sign curve scheme h privateKey digest =>
      refine onCurve_contained fun d hd _ _ => ?_
      exact (onGenerator_contained (sign_contained hd scheme h privateKey digest)).map _
  | verify curve q signature digest =>
      cases hcurve
      refine onCurve_contained fun d hd _ hlookup => ?_
      have hq (hscheme : signature.scheme = .sm2) : d.Accepts q := by
        refine hpoints d hlookup q ?_
        rw [vouched, if_pos hscheme]
        exact .head _
      exact (Contained.lift (verify_recoverable hd hq digest)).bind fun _ _ => .pure trivial
  | commit curve privateKey name base basename cancel =>
      exact performCommit_contained curve privateKey name base basename cancel
  | attest curve counter name h privateKey digest =>
      exact performAttest_contained curve counter name h privateKey digest
  | verifyAttestation curve base e q signature digest =>
      have hcheck := checkAttestation_recoverable curve base e q signature digest
      exact (Contained.lift hcheck).bind fun _ _ => .pure trivial
  | exchangeOnce curve privateKey q =>
      refine onCurve_contained fun d hd _ _ => ?_
      exact (Contained.lift (exchangeOnce_recoverable hd privateKey q)).map _
  | exchangeFresh curve q => exact performExchangeFresh_contained curve q
  | exchangeTwice curve scheme ds de qs qe =>
      cases hcurve
      refine onCurve_contained fun d hd _ hlookup => ?_
      have hvouched (hscheme : scheme = .sm2) : ∀ q ∈ [qs, qe], d.Accepts q := by
        have hpoints := hpoints d hlookup
        rwa [vouched, if_pos hscheme] at hpoints
      have hqs (hscheme : scheme = .sm2) := hvouched hscheme qs (.head _)
      have hqe (hscheme : scheme = .sm2) := hvouched hscheme qe (.tail _ (.head _))
      exact (Contained.lift (exchangeTwice_recoverable hd hqs hqe ds de)).map _
  | _ => cases hcurve

variable (α : Type) [Arithmetic α] [LawfulArithmetic α] in
/-- The same holds in every lawful arithmetic, if there is room for the digest that the command
reduces at its full length. -/
theorem perform_contained (retries : Nat) {command : Command} (hcurve : command.curve? = some id)
    (hpoints : ∀ d, lookup? id = .ok d → ∀ q ∈ command.vouched, d.Accepts q)
    (hroom : ∀ digest ∈ command.fullDigest?, RoomToReduce α (toNat digest)) :
    Contained EngineState.generator command.Draws (fun _ => True)
      (command.perform α retries : Operation ε Response) :=
  .of_lockstep (perform_curve_lockstep α retries hcurve hroom)
    (perform_exact_contained retries hcurve hpoints)

end Command

/-! ### Engines -/

namespace Engine

open CurveParameters

variable {ε : Type} [EntropySource ε] {engine : Engine ε} {id : CurveId}

/-- Outside failure mode, an operation that is contained leaves the engine in service, or ends in
the fatal fault of a draw. -/
theorem execute_contained {β : Type} {draws : Prop} {P : β → Prop} {x : Operation ε β}
    (hfailure : engine.failure = none) (hx : Contained EngineState.generator draws P x) :
    ((engine.execute x).2.failure = none ∧
      ∀ code, (engine.execute x).1 ≠ .error (.failure code)) ∨
    draws ∧ ∃ g n code, RandomSource.Reaches engine.state.generator g ∧
      RandomSource.fill g n = (.error (.fatal code), (engine.execute x).2.state.generator) ∧
      (engine.execute x).1 = .error (.failure code) ∧
      (engine.execute x).2.failure = some code := by
  have hending : Ending draws P engine.state.generator (x engine.state).1
      (x engine.state).2.generator := hx engine.state
  have hanswer : (engine.execute x).1 = (x engine.state).1.mapError Fault.toCommandError := by
    rw [execute, hfailure]
    rcases x engine.state with ⟨_ | _, _⟩ <;> rfl
  rw [failure_execute_eq_reported, hanswer, state_execute hfailure]
  generalize (x engine.state).1 = outcome at hending ⊢
  generalize (x engine.state).2.generator = g' at hending ⊢
  cases hending with
  | value h hreaches => exact .inl ⟨rfl, fun _ h => (by cases h)⟩
  | @refused e _ h =>
      refine .inl ?_
      cases e with
      | fatal code => cases h
      | _ => exact ⟨rfl, fun _ h => (by cases h)⟩
  | @failed e g _ n hdraws hreaches hfill =>
      cases e with
      | fatal code => exact .inr ⟨hdraws, g, n, code, hreaches, hfill, rfl, rfl⟩
      | _ => exact .inl ⟨rfl, fun _ h => (by cases h)⟩

/-- A command on a curve leaves an engine in service and answers with a value or a recoverable
error, if the points that the caller answers for are on the curve and there is room for the digest
that it reduces at its full length. The one exception is a command that draws, when the generator,
after draws that succeeded, fails another one fatally. -/
theorem run_curve_contained (α : Type) [Arithmetic α] [LawfulArithmetic α]
    (hfailure : engine.failure = none) {command : Command} (hcurve : command.curve? = some id)
    (hpoints : ∀ d, lookup? id = .ok d → ∀ q ∈ command.vouched, d.Accepts q)
    (hroom : ∀ digest ∈ command.fullDigest?, RoomToReduce α (toNat digest)) :
    ((engine.run α command).2.failure = none ∧
      ∀ code, (engine.run α command).1 ≠ .error (.failure code)) ∨
    command.Draws ∧ ∃ g n code, RandomSource.Reaches engine.state.generator g ∧
      RandomSource.fill g n = (.error (.fatal code), (engine.run α command).2.state.generator) ∧
      (engine.run α command).1 = .error (.failure code) ∧
      (engine.run α command).2.failure = some code :=
  execute_contained hfailure (command.perform_contained α _ hcurve hpoints hroom)

/-- At the longest digest that fits the scratch area, a verification under SM2 leaves an engine that
computes in buffers in service. -/
theorem run_curve_contained_longest :
    let source := ContinuousEntropy.start (⟨UInt8.ofNat, none, 0⟩ : ByteStream)
    let engine : Engine (ContinuousEntropy ByteStream) := ⟨fresh source .default, .default, none⟩
    let q := nistP256.wireGenerator 32 (by decide)
    let one : Wire.Parameter := ⟨[1], by decide⟩
    let digest : Bytes := List.replicate 1040 0xff
    let command := Command.verify nistP256.id q ⟨.sm2, HashAlgorithm.sha256.hash, one, one⟩ digest
    q ∈ command.vouched ∧ nistP256.Accepts q ∧ digest ∈ command.fullDigest? ∧
      RoomToReduce FixedNat (toNat digest) ∧ (engine.run FixedNat command).2.failure = none := by
  intro source engine q one digest command
  have hq : nistP256.Accepts q :=
    accepts_wireGenerator (mem_of_lookup? (show lookup? 3 = .ok nistP256 from rfl)) _
      (by decide +kernel)
  have hdigest : RoomToReduce FixedNat (toNat digest) := by
    refine LawfulArithmetic.roomToReduce_of_count ?_
    exact Limbs.count_toNat_le_scratch (List.length_replicate).le
  have hpoints : ∀ d, lookup? nistP256.id = .ok d → ∀ q ∈ command.vouched, d.Accepts q := by
    rintro _ ⟨⟩ q hmem
    obtain rfl := List.mem_singleton.mp hmem
    exact hq
  have hroom : ∀ digest ∈ command.fullDigest?, RoomToReduce FixedNat (toNat digest) := by
    rintro _ ⟨⟩
    exact hdigest
  have hfailure : engine.failure = none := rfl
  refine ⟨.head _, hq, rfl, hdigest, ?_⟩
  rcases run_curve_contained FixedNat hfailure rfl hpoints hroom with h | h
  · exact h.1
  · exact h.1.elim

/-! ### A digest beyond the scratch area -/

open FixedNat (scratchLimbs)
open Limbs (count)

/-- In buffers, a verification under SM2 puts the engine into failure mode when its digest is beyond
the scratch area, although its point is on the curve, its scalars are in range and the point that it
computes is finite. -/
theorem run_verify_exhausted {d : CurveParameters} [Fact d.p.Prime] (hlookup : lookup? id = .ok d)
    (hfailure : engine.failure = none) {q : Wire.Point} (hq : d.Accepts q) {signature : Signature}
    (hscheme : signature.scheme = .sm2)
    (hr : 0 < toNat signature.r.bytes ∧ toNat signature.r.bytes < d.n)
    (hs : 0 < toNat signature.s.bytes ∧ toNat signature.s.bytes < d.n)
    (hsum : (toNat signature.r.bytes + toNat signature.s.bytes) % d.n ≠ 0)
    (hfinite : toNat signature.s.bytes • d.point d.generator +
      ((toNat signature.r.bytes + toNat signature.s.bytes) % d.n) • d.point (.ofWire q) ≠ 0)
    {digest : Bytes} (hdigest : scratchLimbs < count (toNat digest)) :
    engine.run FixedNat (.verify id q signature digest) =
      (.error (.failure .allocation), { engine with failure := some .allocation }) := by
  have hd := mem_of_lookup? hlookup
  have hpoint := (smallCurve (α := FixedNat) hd).validatedPoint q
  rw [exact_validatedPoint (prime_of_mem d hd).ne_zero, if_pos hq] at hpoint
  obtain ⟨point, hpoint, hsmall⟩ := hpoint.returns trivial
  have hrep := (hq.onCurve hd).represents (regular_of_mem d hd) hsmall.denotes
  have hverify : (Curve.ofParameters d : Curve FixedNat).verify q signature digest =
      .error (.fatal .allocation) := by
    rw [Curve.verify, Curve.signerPoint_eq, hpoint, hscheme]
    exact sm2Verify_exhausted hd hrep (LawfulArithmetic.ofBytes (α := FixedNat) _)
      (LawfulArithmetic.ofBytes (α := FixedNat) _) hr hs hsum hfinite hdigest
  have hload : Curve.load FixedNat id = .ok (Curve.ofParameters d) := by
    rw [Curve.load, hlookup]
    rfl
  have hperform : Command.perform FixedNat engine.config.retries (.verify id q signature digest)
      engine.state = (.error (.fatal .allocation), engine.state) := by
    show (liftM (Curve.load FixedNat id) >>= _ : Operation ε Response) engine.state = _
    rw [hload]
    show (liftM ((Curve.ofParameters d).verify q signature digest) >>= _ : Operation ε Response)
      engine.state = _
    rw [hverify]
    rfl
  rw [run, execute, hfailure, hperform]
  rfl

/-- A digest of 1041 bytes, with a signature of two ones under the generator of the 256-bit curve,
puts an engine that computes in buffers into failure mode. -/
theorem run_verify_exhausted_nistP256 :
    let source := ContinuousEntropy.start (⟨UInt8.ofNat, none, 0⟩ : ByteStream)
    let engine : Engine (ContinuousEntropy ByteStream) := ⟨fresh source .default, .default, none⟩
    let q := nistP256.wireGenerator 32 (by decide)
    let one : Wire.Parameter := ⟨[1], by decide⟩
    let command := Command.verify nistP256.id q ⟨.sm2, HashAlgorithm.sha256.hash, one, one⟩
      (List.replicate 1041 1)
    nistP256.Accepts q ∧ engine.run FixedNat command =
      (.error (.failure .allocation), { engine with failure := some .allocation }) := by
  intro source engine q one command
  have hlookup : lookup? nistP256.id = .ok nistP256 := rfl
  have hq : nistP256.Accepts q :=
    accepts_wireGenerator (mem_of_lookup? hlookup) _ (by decide +kernel)
  have : Fact nistP256.p.Prime := ⟨primes_nistP256.1⟩
  have : Fact nistP256.n.Prime := ⟨primes_nistP256.2⟩
  have hpoint : (Jacobian.ofWire q : Jacobian Nat) = nistP256.generator := by
    have hx : toNat (Bytes.ofNatWidth 32 nistP256.gx) = nistP256.gx := by decide +kernel
    have hy : toNat (Bytes.ofNatWidth 32 nistP256.gy) = nistP256.gy := by decide +kernel
    show (⟨toNat (Bytes.ofNatWidth 32 nistP256.gx), toNat (Bytes.ofNatWidth 32 nistP256.gy), 1⟩ :
      Jacobian Nat) = _
    rw [hx, hy]
    rfl
  have hone : toNat [1] = 1 := rfl
  have htwo : (1 + 1) % nistP256.n = 2 := by decide +kernel
  have hrange : 0 < toNat one.bytes ∧ toNat one.bytes < nistP256.n := by decide +kernel
  refine ⟨hq, run_verify_exhausted hlookup rfl hq rfl hrange hrange ?_ ?_ ?_⟩
  · show (toNat [1] + toNat [1]) % nistP256.n ≠ 0
    rw [hone, htwo]
    decide
  · -- three times the generator is finite, for a prime order other than three
    show toNat [1] • _ + ((toNat [1] + toNat [1]) % nistP256.n) • _ ≠ _
    rw [hone, htwo, hpoint, ← add_nsmul, ← generated_nistP256.multiple_natCast, Ne,
      generated_nistP256.multiple_eq_zero_iff]
    exact natCast_ne_zero (by decide) (by decide +kernel)
  · rw [← Nat.not_le, Limbs.count_le_iff]
    decide +kernel

end Engine

end TrustedPlatform
