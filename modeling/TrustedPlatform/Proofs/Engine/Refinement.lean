import TrustedPlatform.Proofs.Attestation.Refinement
import TrustedPlatform.Proofs.Engine.Session
import TrustedPlatform.Proofs.Exchange.Refinement
import TrustedPlatform.Proofs.Rsa.Refinement

/-!
# The arithmetic of an engine cannot be told

An engine in a lawful arithmetic and one in exact arithmetic run in lockstep: they draw the same
bytes, give the same answers and enter failure mode together, as long as what a command brings from
outside fits the scratch area. `Engine.sessions_agree` says so of every session on an engine that
computes in buffers, for byte strings of up to 1040 bytes.
-/

namespace TrustedPlatform

open Bytes (toNat)
open FixedNat (scratchLimbs)
open Limbs (count)
open LawfulArithmetic (RoomToReduce)

/-! ### Operations in lockstep -/

namespace Operation

variable {ε β γ : Type} {R : β → γ → Prop}

/-- Computations on the generator. -/
theorem onGenerator_lockstep {x : Randomized (InstanceGenerator ε) β}
    {y : Randomized (InstanceGenerator ε) γ} (h : Lockstep R x y) :
    Lockstep R (onGenerator x) (onGenerator y) := by
  intro s
  obtain ⟨hrefines, hstate⟩ := h s.generator
  refine ⟨hrefines, ?_⟩
  show { s with generator := (x.runFrom s.generator).2 } = _
  rw [hstate]
  rfl

/-- Computations on the cache. -/
theorem onCache_lockstep {f : Rsa.ExponentCache → Checked β × Rsa.ExponentCache}
    {g : Rsa.ExponentCache → Checked γ × Rsa.ExponentCache}
    (h : ∀ cache, Refines True R (f cache).1 (g cache).1 ∧ (f cache).2 = (g cache).2) :
    Lockstep R (onCache f : Operation ε β) (onCache g) := by
  intro s
  obtain ⟨hrefines, hstate⟩ := h s.cache
  refine ⟨hrefines, ?_⟩
  show { s with cache := (f s.cache).2 } = _
  rw [hstate]
  rfl

/-- Computations on the commitments. -/
theorem onCommits_lockstep {f : Attestation.CommitState → Checked β × Attestation.CommitState}
    {g : Attestation.CommitState → Checked γ × Attestation.CommitState}
    (h : ∀ state, Refines True R (f state).1 (g state).1 ∧ (f state).2 = (g state).2) :
    Lockstep R (onCommits f : Operation ε β) (onCommits g) := by
  intro s
  obtain ⟨hrefines, hstate⟩ := h s.commits
  refine ⟨hrefines, ?_⟩
  show { s with commits := (f s.commits).2 } = _
  rw [hstate]
  rfl

/-- Computations on the commitments and the generator. -/
theorem onCommitsAndGenerator_lockstep
    {f : Attestation.CommitState → InstanceGenerator ε →
      Checked β × Attestation.CommitState × InstanceGenerator ε}
    {g : Attestation.CommitState → InstanceGenerator ε →
      Checked γ × Attestation.CommitState × InstanceGenerator ε}
    (h : ∀ state generator, Refines True R (f state generator).1 (g state generator).1 ∧
      (f state generator).2 = (g state generator).2) :
    Lockstep R (onCommitsAndGenerator f : Operation ε β) (onCommitsAndGenerator g) := by
  intro s
  obtain ⟨hrefines, hstate⟩ := h s.commits s.generator
  refine ⟨hrefines, ?_⟩
  show { s with
    commits := (f s.commits s.generator).2.1, generator := (f s.commits s.generator).2.2 } = _
  rw [hstate]
  rfl

end Operation

/-! ### Commands -/

namespace Command

/-- The byte strings that a command brings, but for those that their types bound. -/
def byteStrings : Command → List Bytes
  | random _ | createKey _ | exchangeFresh _ _ | rsaCreate _ _ => []
  | stir additional => [additional]
  | sign _ _ _ privateKey digest => [privateKey, digest]
  | verify _ _ _ digest | verifyAttestation _ _ _ _ _ digest => [digest]
  | commit _ privateKey name _ none _ => [privateKey, name]
  | commit _ privateKey name _ (some basename) _ => [privateKey, name, basename.seed, basename.y]
  | attest _ _ name _ privateKey digest => [name, privateKey, digest]
  | exchangeOnce _ privateKey _ => [privateKey]
  | exchangeTwice _ _ ds de _ _ => [ds, de]
  | rsaLoad _ prime => [prime]
  | rsaEncrypt _ _ _ label message => [label, message]
  | rsaDecrypt key _ _ label ciphertext => [key.d, label, ciphertext]
  | rsaSign key _ _ digest => [key.d, digest]
  | rsaVerify _ _ _ digest signature => [digest, signature]

/-- The curve that a command names. -/
def curve? : Command → Option CurveId
  | createKey curve | sign curve _ _ _ _ | verify curve _ _ _ | commit curve _ _ _ _ _
  | attest curve _ _ _ _ _ | verifyAttestation curve _ _ _ _ _ | exchangeOnce curve _ _
  | exchangeFresh curve _ | exchangeTwice curve _ _ _ _ _ => some curve
  | _ => none

/-- The digest that a command on a curve reduces at its full length: that of a verification under
SM2. -/
def fullDigest? : Command → Option Bytes
  | verify _ _ signature digest => if signature.scheme = .sm2 then some digest else none
  | _ => none

/-- The RSA key with which a command decrypts or signs. -/
def privateKey? : Command → Option Rsa.PrivateKey
  | rsaDecrypt key _ _ _ _ | rsaSign key _ _ _ => some key
  | _ => none

/-- The byte strings of the command have at most 1040 bytes, which the scratch area holds, and the
primes of its RSA key multiply to the modulus. -/
structure Fits (command : Command) : Prop where
  length_le : ∀ bytes ∈ command.byteStrings, bytes.length ≤ 1040
  factors : ∀ key ∈ command.privateKey?, key.Factors

open Operation

variable (α : Type) [Arithmetic α] [LawfulArithmetic α] {ε : Type}

/-- The load of a curve. -/
theorem load_lockstep (curve : CurveId) :
    Lockstep SmallCurve (liftM (Curve.load α curve) : Operation ε (Curve α))
      (liftM (Curve.load Nat curve)) :=
  .lift (Curve.load_refines curve)

/-- Commitments. -/
theorem performCommit_lockstep (curve : CurveId) (privateKey name : Bytes)
    (base : Option Wire.Point) (basename : Option Attestation.Basename)
    (cancel : Attestation.CancelSignal) :
    Lockstep Eq (performCommit α curve privateKey name base basename cancel : Operation ε Response)
      (performCommit Nat curve privateKey name base basename cancel) := by
  refine (load_lockstep α curve).bind fun c c' hc => ?_
  refine (Lockstep.lift (hc.privateScalar privateKey)).bind fun d d' hd => ?_
  refine (Lockstep.lift (Refines.mapM_self base hc.validatedPoint)).bind fun base _ hbase => ?_
  refine (onCommits_lockstep fun state => hc.commit state hd name hbase basename cancel).bind
    fun m m' hm => ?_
  refine (Lockstep.lift (hc.toWire hm.e)).bind fun e _ he => ?_
  refine (Lockstep.lift (Refines.mapM hm.k fun _ _ hk => hc.toWire hk)).bind fun k _ hk => ?_
  refine (Lockstep.lift (Refines.mapM hm.l fun _ _ hl => hc.toWire hl)).bind fun l _ hl => ?_
  have heq {o o' : Option Wire.Point} (h : Option.Rel Eq o o') : o = o' := by
    cases h with
    | none => rfl
    | some h => rw [h]
  rw [hm.counter, he, heq hk, heq hl]
  exact .pure rfl

variable [EntropySource ε]

/-- Key pairs. -/
theorem performCreateKey_lockstep (curve : CurveId) :
    Lockstep Eq (performCreateKey α curve : Operation ε Response) (performCreateKey Nat curve) := by
  refine (load_lockstep α curve).bind fun c c' hc => ?_
  refine (onGenerator_lockstep hc.keyPair).bind fun pair pair' ⟨hd, hq⟩ => ?_
  rw [Curve.orderBytes, Curve.orderBytes, hc.orderBits]
  refine (Lockstep.lift (LawfulArithmetic.toBytesPadded hd.denotes _)).bind fun d _ hd => ?_
  refine (Lockstep.lift (hc.toWire hq)).bind fun q _ hq => ?_
  subst hd hq
  exact .pure rfl

/-- Anonymous signatures. -/
theorem performAttest_lockstep (curve : CurveId) (counter : UInt64) (name : Bytes) (h : Hash)
    (privateKey digest : Bytes) :
    Lockstep Eq (performAttest α curve counter name h privateKey digest : Operation ε Response)
      (performAttest Nat curve counter name h privateKey digest) := by
  refine (load_lockstep α curve).bind fun c c' hc => ?_
  refine (Lockstep.refl (liftM (Require.length _ _ _))).bind fun _ _ _ => ?_
  refine (Lockstep.lift (hc.privateScalar privateKey)).bind fun d d' hd => ?_
  refine (onCommitsAndGenerator_lockstep fun state generator =>
    hc.attest state counter name h hd digest generator).bind ?_
  rintro ⟨nonce, s⟩ ⟨_, s'⟩ ⟨rfl, hs⟩
  rw [Curve.orderBytes, Curve.orderBytes, hc.orderBits]
  refine (Lockstep.refl (liftM (Signature.parameter nonce))).bind fun r _ hr => ?_
  refine (Lockstep.lift (LawfulArithmetic.toBytesPadded hs.denotes _)).bind fun s _ hs => ?_
  subst hr hs
  exact .refl _

/-- Verifications of anonymous signatures. -/
theorem checkAttestation_refines (curve : CurveId) (base : Option Wire.Point) (e q : Wire.Point)
    (signature : Signature) (digest : Bytes) :
    Refines True Eq (checkAttestation α curve base e q signature digest)
      (checkAttestation Nat curve base e q signature digest) := by
  refine (Curve.load_refines curve).bind fun c c' hc => ?_
  refine .ite Iff.rfl (fun _ => .refused _) fun _ => ?_
  refine (Refines.mapM_self base hc.validatedPoint).bind fun base base' hbase => ?_
  refine (hc.validatedPoint e).bind fun e _ he => ?_
  refine (hc.validatedPoint q).bind fun q _ hq => ?_
  exact hc.verifyAttestation signature.hash (hc.base hbase) he hq _ digest
    (LawfulArithmetic.ofBytes _)

/-- Exchanges with a fresh key pair. -/
theorem performExchangeFresh_lockstep (curve : CurveId) (q : Wire.Point) :
    Lockstep Eq (performExchangeFresh α curve q : Operation ε Response)
      (performExchangeFresh Nat curve q) := by
  refine (load_lockstep α curve).bind fun c c' hc => ?_
  refine (Lockstep.lift (hc.validatedPoint q)).bind fun q _ hq => ?_
  refine (onGenerator_lockstep hc.keyPair).bind fun pair pair' ⟨hd, hown⟩ => ?_
  refine (Lockstep.lift (hc.cofactorMul hd hq _)).bind fun z _ hz => ?_
  refine (Lockstep.lift (hc.toWire hz)).bind fun z _ hz => ?_
  refine (Lockstep.lift (hc.toWire hown)).bind fun own _ hown => ?_
  subst hz hown
  exact .pure rfl

/-- Every command on a curve runs in lockstep with the exact one, as long as there is room for the
digest that it reduces at its full length. -/
theorem perform_curve_lockstep (retries : Nat) {command : Command} {id : CurveId}
    (hcurve : command.curve? = some id)
    (hroom : ∀ digest ∈ command.fullDigest?, RoomToReduce α (toNat digest)) :
    Lockstep Eq (command.perform α retries : Operation ε Response)
      (command.perform Nat retries) := by
  cases command with
  | createKey curve => exact performCreateKey_lockstep α curve
  | sign curve scheme h privateKey digest =>
      refine (load_lockstep α curve).bind fun c c' hc => ?_
      exact (onGenerator_lockstep (hc.sign scheme h privateKey digest)).map fun _ _ => congrArg _
  | verify curve q signature digest =>
      have hverify (hscheme : signature.scheme = .sm2) : RoomToReduce α (toNat digest) :=
        hroom digest (if_pos hscheme)
      refine (load_lockstep α curve).bind fun c c' hc => ?_
      exact (Lockstep.lift (hc.verify q signature hverify)).bind fun _ _ _ => .pure rfl
  | commit curve privateKey name base basename cancel =>
      exact performCommit_lockstep α curve privateKey name base basename cancel
  | attest curve counter name h privateKey digest =>
      exact performAttest_lockstep α curve counter name h privateKey digest
  | verifyAttestation curve base e q signature digest =>
      exact (Lockstep.lift (checkAttestation_refines α curve base e q signature digest)).bind
        fun _ _ _ => .pure rfl
  | exchangeOnce curve privateKey q =>
      refine (load_lockstep α curve).bind fun c c' hc => ?_
      exact (Lockstep.lift (hc.exchangeOnce privateKey q)).map fun _ _ => congrArg _
  | exchangeFresh curve q => exact performExchangeFresh_lockstep α curve q
  | exchangeTwice curve scheme ds de qs qe =>
      refine (load_lockstep α curve).bind fun c c' hc => ?_
      exact (Lockstep.lift (hc.exchangeTwice scheme ds de qs qe)).map fun _ _ => congrArg _
  | _ => cases hcurve

/-- There is room for the digest of a command that fits. -/
theorem Fits.roomToReduce {command : Command} (hfits : command.Fits) :
    ∀ digest ∈ command.fullDigest?, RoomToReduce α (toNat digest) := by
  intro digest hdigest
  have hmem : digest ∈ command.byteStrings := by
    cases command with
    | verify curve q signature digest' =>
        obtain ⟨-, hdigest⟩ := Option.ite_none_right_eq_some.mp hdigest
        cases hdigest
        exact .head _
    | _ => cases hdigest
  have hcount := Limbs.count_toNat_le_scratch (hfits.length_le digest hmem)
  exact fun {_ _ _} => LawfulArithmetic.roomToReduce_of_count hcount

/-- Every command that does not look into the cache runs in lockstep with the exact one. -/
theorem perform_lockstep (retries : Nat) {command : Command} (hfits : command.Fits)
    (hload : ∀ key prime, command ≠ .rsaLoad key prime) :
    Lockstep Eq (command.perform α retries : Operation ε Response)
      (command.perform Nat retries) := by
  have hcurve (id : CurveId) (h : command.curve? = some id) :=
    perform_curve_lockstep α (ε := ε) retries h (hfits.roomToReduce α)
  have hlength := hfits.length_le
  have hfactors := hfits.factors
  cases command with
  | random length => exact .refl _
  | stir additional => exact .refl _
  | rsaCreate bits exponent =>
      exact (onGenerator_lockstep (Rsa.generateKey_lockstep retries bits exponent)).map
        fun _ _ => congrArg _
  | rsaLoad key prime => exact absurd rfl (hload key prime)
  | rsaEncrypt key scheme h label message =>
      exact (onGenerator_lockstep (Rsa.encrypt_lockstep retries key scheme h label message)).map
        fun _ _ => congrArg _
  | rsaDecrypt key scheme h label ciphertext =>
      have hd := Limbs.count_toNat_le_scratch (hlength key.d (by simp [byteStrings]))
      have hdecrypt := Rsa.decrypt_refines (α := α) (hfactors key rfl) hd scheme h label ciphertext
      exact (Lockstep.lift hdecrypt).map fun _ _ => congrArg _
  | rsaSign key scheme h digest =>
      have hd := Limbs.count_toNat_le_scratch (hlength key.d (by simp [byteStrings]))
      exact (onGenerator_lockstep (Rsa.sign_lockstep (hfactors key rfl) hd scheme h digest)).map
        fun _ _ => congrArg _
  | rsaVerify key scheme h digest signature =>
      exact (Lockstep.lift (Rsa.verify_refines key scheme h digest signature)).bind
        fun _ _ _ => .pure rfl
  | _ => exact hcurve _ rfl

/-- From a state with a genuine cache, every command ends like the exact one and leaves the same
state. -/
theorem perform_refines (retries : Nat) {command : Command} (hfits : command.Fits)
    {s : EngineState ε} (hcache : s.cache.Genuine) :
    Refines True Eq (command.perform α retries s).1 (command.perform Nat retries s).1 ∧
      (command.perform α retries s).2 = (command.perform Nat retries s).2 := by
  by_cases hload : ∃ key prime, command = .rsaLoad key prime
  · obtain ⟨key, prime, rfl⟩ := hload
    have hprime := Limbs.count_toNat_le_scratch (hfits.length_le prime (by simp [byteStrings]))
    exact ((onCache_lockstep fun _ => Rsa.ofPrime_refines (α := α) hcache key hprime).map
      fun _ _ => congrArg Response.privateKey) s
  · exact perform_lockstep α retries hfits (fun key prime h => hload ⟨key, prime, h⟩) s

end Command

/-! ### Engines -/

/-- What the call brings fits the scratch area. -/
def Call.Fits : Call → Prop
  | .command request => request.Fits
  | .reset => True

namespace Engine

variable (α : Type) [Arithmetic α] [LawfulArithmetic α] {ε : Type} {β : Type}

/-- Operations that end alike and leave the same state cannot be told at the boundary of the
engine. -/
theorem execute_congr {engine : Engine ε} {x y : Operation ε β}
    (h : Refines True Eq (x engine.state).1 (y engine.state).1 ∧
      (x engine.state).2 = (y engine.state).2) :
    engine.execute x = engine.execute y := by
  cases hfailure : engine.failure with
  | some code => rw [execute_of_failure hfailure, execute_of_failure hfailure]
  | none =>
      obtain ⟨hrefines, hstate⟩ := h
      rw [execute, execute, hfailure]
      dsimp only
      rcases hx : x engine.state with ⟨outcome, state⟩
      rcases hy : y engine.state with ⟨outcome', state'⟩
      rw [hx, hy] at hrefines hstate
      cases hstate
      cases hrefines with
      | ok hvalue =>
          cases hvalue
          rfl
      | error halike =>
          dsimp only
          rw [halike.toCommandError_eq]
      | exhausted hroom => exact absurd trivial hroom

variable [EntropySource ε]

/-- The initialization. -/
theorem initialization_lockstep (config : EngineConfig) :
    Lockstep Eq (initialization α config : Operation ε Unit) (initialization Nat config) := by
  rw [initialization, initialization]
  split
  · exact (Lockstep.lift SelfTest.powerOn_refines).bind fun _ _ _ => .refl _
  · exact .refl _

/-- Engines start alike. -/
theorem startup_eq (source : ε) (config : EngineConfig) :
    startup α source config = startup Nat source config :=
  congrArg Prod.snd (execute_congr (initialization_lockstep α config _))

/-- Engines are reset alike. -/
theorem reset_eq (engine : Engine ε) : engine.reset α = engine.reset Nat := by
  rw [reset, reset, initialized, initialized]
  exact execute_congr (initialization_lockstep α engine.config _)

/-- The parts in the cache belong to their keys. -/
abbrev Genuine (engine : Engine ε) : Prop :=
  EngineState.Satisfies (fun _ => True) Rsa.ExponentCache.Genuine engine.state

omit [LawfulArithmetic α] in
/-- An engine starts with an empty cache. -/
theorem genuine_startup (source : ε) (config : EngineConfig) :
    (startup α source config).Genuine := by
  refine execute_preserves (initialization_satisfies α ?_ ?_ ?_ config) ⟨trivial, .withCapacity _⟩
  · exact fun _ _ _ => trivial
  · exact fun _ _ _ => trivial
  · exact fun _ hcache => hcache.clear

variable {α}

/-- A call keeps the cache genuine. -/
theorem Genuine.call {engine : Engine ε} (h : engine.Genuine) (call : Call) :
    (engine.call α call).2.Genuine := by
  cases call with
  | command command =>
      refine execute_preserves (command.perform_satisfies α ?_ ?_ ?_ _) h
      · exact fun _ _ _ => trivial
      · exact fun _ _ _ => trivial
      · intro key prime cache hcache
        obtain ⟨_, -, -, hgenuine, -⟩ | ⟨_, -, hsame⟩ :=
          Rsa.PrivateKey.ofPrime_cases α key prime hcache
        · exact hgenuine
        · rw [hsame]
          exact hcache
  | reset =>
      refine execute_preserves (initialization_satisfies α ?_ ?_ ?_ _) ⟨trivial, h.cache⟩
      · exact fun _ _ _ => trivial
      · exact fun _ _ _ => trivial
      · exact fun _ hcache => hcache.clear

/-- A call on one engine is answered alike in either arithmetic, and leaves one engine. -/
theorem Genuine.call_eq {engine : Engine ε} (h : engine.Genuine) {call : Call} (hfits : call.Fits) :
    engine.call α call = engine.call Nat call := by
  cases call with
  | command command => exact execute_congr (command.perform_refines α _ hfits h.cache)
  | reset => rw [Engine.call, Engine.call, reset_eq α]

/-- A session on one engine is answered alike in either arithmetic. -/
theorem Genuine.transcript_eq {engine : Engine ε} (h : engine.Genuine) {calls : List Call}
    (hfits : ∀ call ∈ calls, call.Fits) :
    engine.transcript α calls = engine.transcript Nat calls := by
  induction calls generalizing engine with
  | nil => rfl
  | cons call calls ih =>
      have hfirst := hfits call List.mem_cons_self
      have hnext : (engine.call α call).2.Genuine := h.call call
      rw [transcript, transcript, ih hnext fun call hmem => hfits call (List.mem_cons_of_mem _ hmem),
        h.call_eq hfirst]

/-- For every configuration and entropy source, and every session whose byte strings have at most
1040 bytes, an engine that computes in buffers and one that computes exactly start in failure mode
together or not at all, and give the same transcript: the same answer to each call, and the same
record of failure after it. -/
theorem sessions_agree (source : ε) (config : EngineConfig) (calls : List Call)
    (hfits : ∀ call ∈ calls, call.Fits) :
    (startup FixedNat source config).failure = (startup Nat source config).failure ∧
      (startup FixedNat source config).transcript FixedNat calls =
        (startup Nat source config).transcript Nat calls := by
  have hstart := startup_eq FixedNat source config
  refine ⟨congrArg failure hstart, ?_⟩
  rw [(genuine_startup FixedNat source config).transcript_eq hfits, hstart]

/-- A session that brings a private scalar, a label of 1040 bytes and an RSA key, on an engine with an
endless source. -/
theorem sessions_agree_longest :
    let source := ContinuousEntropy.start (⟨UInt8.ofNat, none, 0⟩ : ByteStream)
    let longest : Bytes := List.replicate 1040 0xff
    let calls : List Call :=
      [.command (.sign CurveParameters.nistP256.id .ecdsa HashAlgorithm.sha256.hash longest []),
        .reset, .command (.rsaDecrypt Rsa.mersenneKey .oaep HashAlgorithm.sha256.hash longest [])]
    (∀ call ∈ calls, call.Fits) ∧
      (startup FixedNat source .default).failure = (startup Nat source .default).failure ∧
      (startup FixedNat source .default).transcript FixedNat calls =
        (startup Nat source .default).transcript Nat calls := by
  intro source longest calls
  have hlongest : longest.length ≤ 1040 := (List.length_replicate).le
  have hsign : (Command.sign CurveParameters.nistP256.id .ecdsa HashAlgorithm.sha256.hash longest
      []).Fits := by
    refine ⟨by simpa [Command.byteStrings] using hlongest, fun key hkey => ?_⟩
    cases hkey
  have hdecrypt : (Command.rsaDecrypt Rsa.mersenneKey .oaep HashAlgorithm.sha256.hash longest
      []).Fits := by
    refine ⟨?_, fun key hkey => ?_⟩
    · have hd : Rsa.mersenneKey.d.length ≤ 1040 := by decide +kernel
      simpa [Command.byteStrings] using ⟨hd, hlongest⟩
    · rw [← Option.some.inj hkey]
      exact Rsa.mersenneKey_valid.mul_eq
  have hfits : ∀ call ∈ calls, call.Fits := by
    intro call hmem
    simp only [calls, List.mem_cons, List.not_mem_nil, or_false] at hmem
    rcases hmem with rfl | rfl | rfl
    · exact hsign
    · exact trivial
    · exact hdecrypt
  exact ⟨hfits, sessions_agree source .default calls hfits⟩

end Engine

end TrustedPlatform
