import TrustedPlatform.Engine.State
import TrustedPlatform.Proofs.Refinement
import TrustedPlatform.Signature.Attempt

/-!
# Values of computations that draw

`Randomized.Yields` says what holds of every value that a computation gives, whatever the draws
were and whether or not it ends in a fault on others; `Randomized.Settles` says that a value is
given at all, from every state with an invariant and with enough attempts. Both pass through `bind`,
so that they are shown of a computation by following its steps.
-/

namespace TrustedPlatform

/-- Each value that the computation gives has the property. -/
def Randomized.Yields {σ β : Type} (x : Randomized σ β) (P : β → Prop) : Prop :=
  ∀ s v, (x.runFrom s).1 = .ok v → P v

/-- A computation that is bounded by a number of attempts settles when, from each state with the
invariant, all bounds that are large enough give one and the same value, and leave one state, which
has the invariant again. -/
def Randomized.Settles {σ β : Type} (I : σ → Prop) (x : Nat → Randomized σ β) : Prop :=
  ∀ s, I s → ∃ bound v t, I t ∧ ∀ attempts, bound ≤ attempts → (x attempts).runFrom s = (.ok v, t)

/-- From each state with the invariant, every draw succeeds and leaves a state with the
invariant. -/
def RandomSource.Reliable {σ : Type} [RandomSource σ] (I : σ → Prop) : Prop :=
  ∀ s, I s → ∀ n, ∃ bytes t, RandomSource.fill s n = (.ok bytes, t) ∧ I t

/-- A draw from a reliable source gives bytes, and leaves a state with the invariant. -/
theorem RandomSource.Reliable.of_fill {σ : Type} [RandomSource σ] {I : σ → Prop}
    (hI : RandomSource.Reliable I) {s t : σ} {n : Nat} {drawn : Checked Bytes} (hs : I s)
    (hfill : RandomSource.fill s n = (drawn, t)) : (∃ bytes, drawn = .ok bytes) ∧ I t := by
  obtain ⟨bytes, u, hok, hu⟩ := hI s hs n
  cases hfill.symm.trans hok
  exact ⟨⟨bytes, rfl⟩, hu⟩

/-- A draw from an endless sequence gives the bytes that come next. -/
theorem ByteStream.fill_of_endless {s : ByteStream} (h : s.length = none) (n : Nat) :
    RandomSource.fill s n =
      (.ok ((List.range n).map fun i => s.byte (s.used + i)), { s with used := s.used + n }) := by
  show s.read n = _
  rw [read, hasBytes, h, if_pos rfl]

/-- An endless sequence of one byte. -/
def ByteStream.IsConstant (b : UInt8) (s : ByteStream) : Prop :=
  s.byte = (fun _ => b) ∧ s.length = none

namespace ByteStream.IsConstant

/-- Every draw from an endless sequence of one byte gives that byte. -/
theorem fill_eq {b : UInt8} {s : ByteStream} (h : s.IsConstant b) (n : Nat) :
    RandomSource.fill s n = (.ok (List.replicate n b), { s with used := s.used + n }) := by
  rw [fill_of_endless h.2, h.1, List.map_const', List.length_range]

/-- An endless sequence of one byte is a reliable source. -/
theorem reliable (b : UInt8) : RandomSource.Reliable (IsConstant b) :=
  fun _ h n => ⟨_, _, h.fill_eq n, h⟩

end ByteStream.IsConstant

namespace Randomized

variable {σ β γ : Type} {I : σ → Prop} {P : β → Prop} {Q : γ → Prop}

/-- What runs after a computation that gave a value starts from the state that it left. -/
theorem runFrom_bind_ok {x : Randomized σ β} {f : β → Randomized σ γ} {s t : σ} {v : β}
    (h : x.runFrom s = (.ok v, t)) : (x >>= f).runFrom s = (f v).runFrom t := by
  show ExceptT.bindCont f (x s).1 (x s).2 = f v t
  rw [show x s = (.ok v, t) from h]
  rfl

/-- What runs after a computation that ended in a fault does not run. -/
theorem runFrom_bind_error {x : Randomized σ β} {f : β → Randomized σ γ} {s t : σ} {e : Fault}
    (h : x.runFrom s = (.error e, t)) : (x >>= f).runFrom s = (.error e, t) := by
  show ExceptT.bindCont f (x s).1 (x s).2 = (.error e, t)
  rw [show x s = (.error e, t) from h]
  rfl

/-- A given value moves no state. -/
theorem runFrom_lift_bind_ok {outcome : Checked β} {v : β} (h : outcome = .ok v)
    (f : β → Randomized σ γ) (s : σ) :
    ((liftM outcome : Randomized σ β) >>= f).runFrom s = (f v).runFrom s :=
  runFrom_bind_ok (congrArg (·, s) h)

/-- A given fault moves no state. -/
theorem runFrom_lift_bind_error {outcome : Checked β} {e : Fault} (h : outcome = .error e)
    (f : β → Randomized σ γ) (s : σ) :
    ((liftM outcome : Randomized σ β) >>= f).runFrom s = (.error e, s) :=
  runFrom_bind_error (congrArg (·, s) h)

/-- What runs after a draw starts from the state that the source left. -/
theorem runFrom_draw_bind_ok [RandomSource σ] {s t : σ} {n : Nat} {bytes : Bytes}
    (h : RandomSource.fill s n = (.ok bytes, t)) (f : Bytes → Randomized σ β) :
    ((TrustedPlatform.draw n : Randomized σ Bytes) >>= f).runFrom s = (f bytes).runFrom t :=
  runFrom_bind_ok h

/-- What runs after a draw that failed does not run. -/
theorem runFrom_draw_bind_error [RandomSource σ] {s t : σ} {n : Nat} {e : Fault}
    (h : RandomSource.fill s n = (.error e, t)) (f : Bytes → Randomized σ β) :
    ((TrustedPlatform.draw n : Randomized σ Bytes) >>= f).runFrom s = (.error e, t) :=
  runFrom_bind_error h

namespace Yields

/-- A given outcome yields its value. -/
theorem lift {outcome : Checked β} (h : ∀ v, outcome = .ok v → P v) :
    Yields (liftM outcome : Randomized σ β) P :=
  fun _ v hv => h v hv

/-- A returned value is yielded. -/
theorem returns {outcome : Checked β} (h : Returns outcome P) :
    Yields (liftM outcome : Randomized σ β) P := by
  obtain ⟨v, rfl, hv⟩ := h
  exact lift fun w hw => Except.ok.inj hw ▸ hv

/-- A value is what it yields. -/
theorem pure {v : β} (h : P v) : Yields (Pure.pure v : Randomized σ β) P := by
  rintro s _ ⟨⟩
  exact h

/-- A refusal yields nothing. -/
theorem throw (e : Fault) : Yields (MonadExcept.throw e : Randomized σ β) P :=
  nofun

/-- A computation goes on with what was yielded. -/
theorem bind {x : Randomized σ β} {f : β → Randomized σ γ} (hx : Yields x P)
    (hf : ∀ v, P v → Yields (f v) Q) : Yields (x >>= f) Q := by
  intro s w hw
  cases hrun : x.runFrom s with
  | mk outcome t =>
      cases outcome with
      | ok v =>
          rw [runFrom_bind_ok hrun] at hw
          exact hf v (hx s v (by rw [hrun])) t w hw
      | error e =>
          rw [runFrom_bind_error hrun] at hw
          cases hw

/-- What runs after a computation matters only for the values that it yields. -/
theorem bind_congr {x : Randomized σ β} {f g : β → Randomized σ γ} (hx : Yields x P)
    (h : ∀ v, P v → f v = g v) : x >>= f = x >>= g := by
  funext s
  show (x >>= f).runFrom s = (x >>= g).runFrom s
  cases hrun : x.runFrom s with
  | mk outcome t =>
      cases outcome with
      | ok v => rw [runFrom_bind_ok hrun, runFrom_bind_ok hrun, h v (hx s v (by rw [hrun]))]
      | error e => rw [runFrom_bind_error hrun, runFrom_bind_error hrun]

/-- A yielded value has every weaker property. -/
theorem mono {P' : β → Prop} {x : Randomized σ β} (h : Yields x P) (hP : ∀ v, P v → P' v) :
    Yields x P' :=
  fun s v hv => hP v (h s v hv)

/-- A draw yields as many bytes as were asked for. -/
theorem draw [RandomSource σ] (n : Nat) : Yields (TrustedPlatform.draw n : Randomized σ Bytes)
    (·.length = n) :=
  fun s bytes h => RandomSource.length_of_fill s n bytes h

/-- A check on a parameter lets only true conditions pass. -/
theorem parameter (ok : Bool) (name reason : String) :
    Yields (liftM (Require.parameter ok name reason) : Randomized σ Unit) fun _ => ok = true := by
  cases ok
  · exact lift nofun
  · exact lift fun _ _ => rfl

/-- A check on a length lets only lengths up to the bound pass. -/
theorem maxLength (context : String) (actual bound : Nat) :
    Yields (liftM (Require.maxLength context actual bound) : Randomized σ Unit) fun _ =>
      actual ≤ bound := by
  rw [Require.maxLength]
  split
  · rename_i hle
    exact lift fun _ _ => hle
  · exact lift nofun

/-- A check on a length lets only the expected one pass. -/
theorem length (context : String) (actual expected : Nat) :
    Yields (liftM (Require.length context actual expected) : Randomized σ Unit) fun _ =>
      actual = expected := by
  rw [Require.length]
  split
  · rename_i heq
    exact lift fun _ _ => heq
  · exact lift nofun

/-- A choice yields what its branches yield. -/
theorem ite {p : Prop} [Decidable p] {x y : Randomized σ β} (hx : p → Yields x P)
    (hy : ¬p → Yields y P) : Yields (if p then x else y) P := by
  split
  · rename_i hp
    exact hx hp
  · rename_i hp
    exact hy hp

/-- Repeated attempts yield what an attempt on a drawn value gives. -/
theorem retry {value : Randomized σ β} {attempt : β → Checked γ} (hvalue : Yields value P)
    (hattempt : ∀ drawn, P drawn → ∀ v, attempt drawn = .ok v → Q v) (operation : String)
    (attempts : Nat) : Yields (Signature.retry operation value attempt attempts) Q := by
  induction attempts with
  | zero => exact Yields.throw _
  | succ attempts ih =>
      refine hvalue.bind fun drawn hdrawn => ?_
      split
      · rename_i result hresult
        exact Yields.pure (hattempt drawn hdrawn result hresult)
      · exact ih
      · exact Yields.throw _

/-- What is computed on the generator of an engine yields the same there. -/
theorem onGenerator {ε : Type} {x : Randomized (InstanceGenerator ε) β} (h : Yields x P) :
    Yields (Operation.onGenerator x : Operation ε β) P :=
  fun s v hv => h s.generator v hv

end Yields

namespace Settles

/-- A value is settled at once. -/
theorem pure (v : β) : Settles I fun _ => (Pure.pure v : Randomized σ β) :=
  fun s hs => ⟨0, v, s, hs, fun _ _ => rfl⟩

/-- A given value is settled at once. -/
theorem lift {outcome : Checked β} {v : β} (h : outcome = .ok v) :
    Settles I fun _ => (liftM outcome : Randomized σ β) :=
  h ▸ fun s hs => ⟨0, v, s, hs, fun _ _ => rfl⟩

/-- A draw from a reliable source is settled at once. -/
theorem draw [RandomSource σ] (hI : RandomSource.Reliable I) (n : Nat) :
    Settles I fun _ => (TrustedPlatform.draw n : Randomized σ Bytes) := by
  intro s hs
  obtain ⟨bytes, t, hfill, ht⟩ := hI s hs n
  exact ⟨0, bytes, t, ht, fun _ _ => hfill⟩

/-- A computation goes on from the value that is settled, of which a property may be used. -/
theorem bind_of_yields {x : Nat → Randomized σ β} {f : Nat → β → Randomized σ γ}
    (hx : Settles I x) (hyields : ∀ attempts, Yields (x attempts) P)
    (hf : ∀ v, P v → Settles I fun attempts => f attempts v) :
    Settles I fun attempts => x attempts >>= f attempts := by
  intro s hs
  obtain ⟨bound, v, t, ht, hrun⟩ := hx s hs
  have hv : P v := hyields bound s v (by rw [hrun bound (Nat.le_refl bound)])
  obtain ⟨bound', w, u, hu, hrun'⟩ := hf v hv t ht
  refine ⟨max bound bound', w, u, hu, fun attempts hle => ?_⟩
  have hle := Nat.max_le.mp hle
  rw [runFrom_bind_ok (hrun attempts hle.1)]
  exact hrun' attempts hle.2

/-- A computation goes on from the value that is settled. -/
theorem bind {x : Nat → Randomized σ β} {f : Nat → β → Randomized σ γ} (hx : Settles I x)
    (hf : ∀ v, Settles I fun attempts => f attempts v) :
    Settles I fun attempts => x attempts >>= f attempts :=
  bind_of_yields hx (P := fun _ => True) (fun _ _ _ _ => trivial) fun v _ => hf v

end Settles

end Randomized

end TrustedPlatform
