import TrustedPlatform.Attestation.Response
import TrustedPlatform.Rsa.KeyPair
import TrustedPlatform.Rsa.Scheme
import TrustedPlatform.Signature

/-!
# Computations that only draw

Keys, signatures, primes and paddings reach their source through `draw` alone, so that whatever a
draw preserves of the source's state is preserved by all of them, at whatever depth they end in a
fault.
-/

namespace TrustedPlatform

/-- Each run keeps an invariant of the state, whether it ends in a value or in a fault. -/
def Preserves {σ β : Type} (I : σ → Prop) (x : Randomized σ β) : Prop :=
  ∀ s, I s → I (x.runFrom s).2

namespace Preserves

variable {σ β γ : Type} {I : σ → Prop}

/-- A given outcome moves no state. -/
theorem lift (outcome : Checked β) : Preserves I (liftM outcome : Randomized σ β) :=
  fun _ h => h

/-- A value moves no state. -/
theorem pure (v : β) : Preserves I (Pure.pure v : Randomized σ β) :=
  fun _ h => h

/-- A refusal moves no state. -/
theorem throw (e : Fault) : Preserves I (MonadExcept.throw e : Randomized σ β) :=
  fun _ h => h

/-- A computation goes on from a state that satisfies the invariant. -/
theorem bind {x : Randomized σ β} {f : β → Randomized σ γ} (hx : Preserves I x)
    (hf : ∀ v, Preserves I (f v)) : Preserves I (x >>= f) := by
  intro s hs
  have hstep := hx s hs
  show I (ExceptT.bindCont f (x s).1 (x s).2).2
  cases hrun : x s with
  | mk outcome t =>
      rw [Randomized.runFrom, hrun] at hstep
      cases outcome with
      | ok v => exact hf v t hstep
      | error e => exact hstep

/-- The value of a computation may be mapped. -/
theorem map {x : Randomized σ β} (hx : Preserves I x) (f : β → γ) : Preserves I (f <$> x) :=
  hx.bind fun v => pure (f v)

/-- Either branch keeps the invariant. -/
theorem ite {p : Prop} [Decidable p] {x y : Randomized σ β} (hx : Preserves I x)
    (hy : Preserves I y) : Preserves I (if p then x else y) := by
  split
  · exact hx
  · exact hy

/-- Repeated attempts on drawn values. -/
theorem retry {value : Randomized σ β} (hvalue : Preserves I value)
    (operation : String) (attempt : β → Checked γ) (attempts : Nat) :
    Preserves I (Signature.retry operation value attempt attempts) := by
  induction attempts with
  | zero => exact Preserves.throw _
  | succ attempts ih =>
      refine hvalue.bind fun drawn => ?_
      split
      · exact Preserves.pure _
      · exact ih
      · exact Preserves.throw _

end Preserves

/-- The draws of a source keep an invariant of its state. -/
def DrawsPreserve {σ : Type} [RandomSource σ] (I : σ → Prop) : Prop :=
  ∀ n, Preserves I (draw n)

namespace DrawsPreserve

open Preserves

variable {α σ : Type} [Arithmetic α] [RandomSource σ] {I : σ → Prop}

/-! ### Scalars, key pairs and signatures -/

/-- Random scalars. -/
theorem randomScalar (h : DrawsPreserve I) (c : Curve α) :
    Preserves I (c.randomScalar : Randomized σ α) :=
  (h _).bind fun _ => lift _

/-- Key pairs. -/
theorem keyPair (h : DrawsPreserve I) (c : Curve α) :
    Preserves I (c.keyPair : Randomized σ (α × Jacobian α)) := by
  refine (h.randomScalar c).bind fun d => ?_
  exact (lift _).bind fun q => pure _

/-- Signatures of every scheme. -/
theorem sign (h : DrawsPreserve I) (c : Curve α) (scheme : AlgorithmId) (hash : Hash)
    (privateKey digest : Bytes) :
    Preserves I (c.sign scheme hash privateKey digest : Randomized σ Signature) := by
  have hretry (operation : String) (attempt : α → Checked (α × α)) :=
    retry (h.randomScalar c) operation attempt Signature.maxAttempts
  refine (lift _).bind fun _ => ?_
  refine (lift _).bind fun d => ?_
  -- what follows the choice of a scheme is shared by its branches
  refine Preserves.ite ((hretry _ _).bind ?_) (Preserves.ite ((hretry _ _).bind ?_)
    (Preserves.ite ((hretry _ _).bind ?_) ((throw _).bind ?_)))
  all_goals
    intro numbers
    refine (lift _).bind fun r => ?_
    exact (lift _).bind fun s => pure _

/-- Responses to the challenge of a drawn nonce. -/
theorem respond (h : DrawsPreserve I) (c : Curve α) (state : Attestation.CommitState)
    (counter : UInt64) (name : Bytes) (hash : Hash) (d : α) (digest : Bytes) :
    Preserves I
      (Attestation.respond c state counter name hash d digest : Randomized σ (Bytes × α)) :=
  (lift _).bind fun _ => retry (h _) _ _ _

/-! ### Primes and keys -/

open Rsa

/-- Rounds of the primality test. -/
theorem survivesRounds (h : DrawsPreserve I) (n top odd : α) (twos rounds : Nat) :
    Preserves I (Rsa.survivesRounds n top odd twos rounds : Randomized σ Bool) := by
  induction rounds with
  | zero => exact pure _
  | succ rounds ih =>
      refine (h _).bind fun bytes => ?_
      refine (lift _).bind fun witness => ?_
      refine (lift _).bind fun survived => ?_
      exact ih.ite (pure _)

/-- The primality test. -/
theorem isProbablePrime (h : DrawsPreserve I) (n : α) (rounds : Nat) :
    Preserves I (Rsa.isProbablePrime n rounds : Randomized σ Bool) := by
  refine (pure _).ite (Preserves.ite ?_ (pure _))
  refine (lift _).bind fun top => ?_
  exact (lift _).bind fun odd => h.survivesRounds _ _ _ _ _

/-- The search for a prime. -/
theorem searchPrime (h : DrawsPreserve I) (bits : Nat) (e : α) (candidates : Nat) :
    Preserves I (Rsa.searchPrime bits e candidates : Randomized σ α) := by
  induction candidates with
  | zero => exact throw _
  | succ candidates ih =>
      refine (h _).bind fun drawn => ?_
      refine (lift _).bind fun admissible => ?_
      -- only an admissible candidate is tested
      refine Preserves.ite ((h.isProbablePrime _ _).bind ?_) ((pure _).bind ?_)
      all_goals exact fun found => (pure _).ite ih

/-- The search for a second prime. -/
theorem searchDistant (h : DrawsPreserve I) (bits : Nat) (e : UInt32) (p gap : α) (retries : Nat) :
    Preserves I (Rsa.searchDistant bits e p gap retries : Randomized σ α) := by
  induction retries with
  | zero => exact throw _
  | succ retries ih =>
      refine (h.searchPrime _ _ _).bind fun q => ?_
      refine (lift _).bind fun apart => ?_
      exact (pure _).ite ih

variable (α) in
/-- Random keys. -/
theorem generateKey (h : DrawsPreserve I) (retries bits : Nat) (exponent : UInt32) :
    Preserves I (Rsa.generateKey α retries bits exponent : Randomized σ PrivateKey) := by
  refine (lift _).bind fun _ => ?_
  refine (lift _).bind fun _ => ?_
  refine (h.searchPrime _ _ _).bind fun p => ?_
  refine (lift _).bind fun gap => ?_
  exact (h.searchDistant _ _ _ _ _).bind fun q => lift _

/-! ### Paddings -/

/-- Padding bytes that are not zero. -/
theorem drawNonzero (h : DrawsPreserve I) (retries : Nat) :
    Preserves I (Pkcs1.drawNonzero retries : Randomized σ UInt8) := by
  induction retries with
  | zero => exact throw _
  | succ retries ih =>
      refine (h _).bind fun bytes => ?_
      exact Preserves.ite (p := bytes.headD 0 = 0) ih (pure _)

/-- Paddings without zeros. -/
theorem replaceZeros (h : DrawsPreserve I) (retries : Nat) (drawn : Bytes) :
    Preserves I (Pkcs1.replaceZeros retries drawn : Randomized σ Bytes) := by
  induction drawn with
  | nil => exact pure _
  | cons b rest ih =>
      refine Preserves.ite ((h.drawNonzero _).bind ?_) ((pure _).bind ?_)
      all_goals exact fun first => ih.bind fun replaced => pure _

variable (α) in
/-- Encryptions of every scheme. -/
theorem encrypt (h : DrawsPreserve I) (retries : Nat) (key : PublicKey) (scheme : AlgorithmId)
    (hash : Hash) (label message : Bytes) :
    Preserves I (Rsa.encrypt α retries key scheme hash label message : Randomized σ Bytes) := by
  have hoaep : Preserves I (Oaep.encode hash label message key.size : Randomized σ Bytes) := by
    refine (lift _).bind fun _ => ?_
    refine (lift _).bind fun _ => ?_
    exact (h _).bind fun seed => pure _
  have hpkcs1 :
      Preserves I (Pkcs1.encodeMessage retries message key.size : Randomized σ Bytes) := by
    refine (lift _).bind fun _ => ?_
    refine (lift _).bind fun _ => ?_
    refine (h _).bind fun drawn => ?_
    exact (h.replaceZeros _ _).bind fun padding => pure _
  refine Preserves.ite (hoaep.bind ?_) (Preserves.ite (hpkcs1.bind ?_)
    (Preserves.ite ((lift _).bind ?_) ((throw _).bind ?_)))
  all_goals exact fun encoded => lift _

variable (α) in
/-- Signatures with an RSA key. -/
theorem rsaSign (h : DrawsPreserve I) (key : PrivateKey) (scheme : AlgorithmId) (hash : Hash)
    (digest : Bytes) : Preserves I (Rsa.sign α key scheme hash digest : Randomized σ Bytes) := by
  have hpss : Preserves I (Pss.encode hash digest key.publicKey.bits : Randomized σ Bytes) := by
    refine (lift _).bind fun _ => ?_
    refine (lift _).bind fun _ => ?_
    exact (h _).bind fun salt => pure _
  refine Preserves.ite ((lift _).bind ?_) (Preserves.ite (hpss.bind ?_) ((throw _).bind ?_))
  all_goals exact fun encoded => lift _

end DrawsPreserve

end TrustedPlatform
