import Mathlib.Logic.Relation
import TrustedPlatform.Proofs.Failure
import TrustedPlatform.Proofs.Random.Lockstep
import TrustedPlatform.Proofs.Recoverable

/-!
# Computations that fail with their source alone

A computation that draws is contained when nothing but a draw can end it fatally: it ends in a
value, in a recoverable fault, or in the fault of a draw that it made, after others that succeeded.
What is composed of contained computations is contained, and so is what runs in lockstep with one.
-/

namespace TrustedPlatform

/-- A source comes from one state to another by draws that succeed. -/
def RandomSource.Reaches {σ : Type} [RandomSource σ] : σ → σ → Prop :=
  Relation.ReflTransGen fun s t => ∃ n bytes, RandomSource.fill s n = (.ok bytes, t)

/-- How a computation may end that starts with the source in one state and leaves it in another: in
a value with the property, in a recoverable fault, or, if it draws, in the fault of a draw. -/
inductive Ending {σ β : Type} [RandomSource σ] (draws : Prop) (P : β → Prop) (s : σ) :
    Checked β → σ → Prop where
  | value {v : β} {t : σ} (h : P v) (hreaches : RandomSource.Reaches s t) :
      Ending draws P s (.ok v) t
  | refused {e : Fault} {t : σ} (h : e.isFatal = false) : Ending draws P s (.error e) t
  | failed {e : Fault} {t u : σ} {n : Nat} (hdraws : draws) (hreaches : RandomSource.Reaches s t)
      (hfill : RandomSource.fill t n = (.error e, u)) : Ending draws P s (.error e) u

/-- From every state, of which the source is a part, the computation ends in one of these ways. -/
def Contained {τ σ β : Type} [RandomSource σ] (source : τ → σ) (draws : Prop) (P : β → Prop)
    (x : Randomized τ β) : Prop :=
  ∀ s, Ending draws P (source s) (x.runFrom s).1 (source (x.runFrom s).2)

namespace Contained

variable {τ σ β γ : Type} [RandomSource σ] {source : τ → σ} {draws : Prop} {P : β → Prop}
  {Q : γ → Prop}

/-- A computation that recovers moves no state. -/
theorem lift {outcome : Checked β} (h : Recovers P outcome) :
    Contained source draws P (liftM outcome : Randomized τ β) := by
  intro s
  show Ending draws P (source s) outcome (source s)
  cases h with
  | value h => exact .value h .refl
  | refused h => exact .refused h

/-- A value moves no state. -/
theorem pure {v : β} (h : P v) : Contained source draws P (Pure.pure v : Randomized τ β) :=
  lift (.value h)

/-- A recoverable refusal moves no state. -/
theorem throw {e : Fault} (h : e.isFatal = false) :
    Contained source draws P (MonadExcept.throw e : Randomized τ β) :=
  lift (.refused h)

/-- A computation goes on with the value that it ended in. -/
theorem bind {x : Randomized τ β} {f : β → Randomized τ γ} (hx : Contained source draws P x)
    (hf : ∀ v, P v → Contained source draws Q (f v)) : Contained source draws Q (x >>= f) := by
  intro s
  have hfirst := hx s
  cases hrun : x.runFrom s with
  | mk outcome t =>
      rw [hrun] at hfirst
      cases outcome with
      | ok v =>
          rw [Randomized.runFrom_bind_ok hrun]
          cases hfirst with
          | value hv hreaches =>
              -- the draws of the second part follow those of the first
              have hsecond := hf v hv t
              generalize ((f v).runFrom t).1 = outcome at hsecond ⊢
              generalize source ((f v).runFrom t).2 = u at hsecond ⊢
              cases hsecond with
              | value hw hthen => exact .value hw (hreaches.trans hthen)
              | refused he => exact .refused he
              | failed hdraws hthen hfill => exact .failed hdraws (hreaches.trans hthen) hfill
      | error e =>
          rw [Randomized.runFrom_bind_error hrun]
          generalize source t = u at hfirst
          cases hfirst with
          | refused he => exact .refused he
          | failed hdraws hreaches hfill => exact .failed hdraws hreaches hfill

/-- The value may be mapped. -/
theorem map {x : Randomized τ β} (hx : Contained source draws P x) (f : β → γ) :
    Contained source draws (fun _ => True) (f <$> x) :=
  hx.bind fun _ _ => pure trivial

/-- Either branch is contained. -/
theorem ite {p : Prop} [Decidable p] {x y : Randomized τ β}
    (hx : p → Contained source draws P x) (hy : ¬p → Contained source draws P y) :
    Contained source draws P (if p then x else y) := by
  split
  · exact hx ‹p›
  · exact hy ‹¬p›

/-- A draw ends in bytes or in its own fault. -/
theorem draw (n : Nat) :
    Contained (fun s : σ => s) True (fun _ => True)
      (TrustedPlatform.draw n : Randomized σ Bytes) := by
  intro s
  show Ending True _ s (RandomSource.fill s n).1 (RandomSource.fill s n).2
  rcases hfill : RandomSource.fill s n with ⟨e | bytes, t⟩
  · exact .failed trivial .refl hfill
  · exact .value trivial (.single ⟨n, bytes, hfill⟩)

/-- Repeated attempts on drawn values. -/
theorem retry {value : Randomized σ β} {attempt : β → Checked γ}
    (hvalue : Contained (fun s : σ => s) draws P value)
    (hattempt : ∀ drawn, P drawn → Recovers Q (attempt drawn)) (operation : String)
    (attempts : Nat) :
    Contained (fun s : σ => s) draws Q (Signature.retry operation value attempt attempts) := by
  induction attempts with
  | zero => exact Contained.throw rfl
  | succ attempts ih =>
      refine hvalue.bind fun drawn hdrawn => ?_
      have hrecovers := hattempt drawn hdrawn
      generalize attempt drawn = outcome at hrecovers
      cases hrecovers with
      | value h => exact Contained.pure h
      | @refused e h =>
          split
          case h_1 hfault => cases hfault
          case h_2 => exact ih
          case h_3 hfault =>
            cases hfault
            exact Contained.throw h

/-- What runs in lockstep with a contained computation ends in the same way. -/
theorem of_lockstep {x y : Randomized τ β} (h : Lockstep Eq x y)
    (hy : Contained source draws P y) : Contained source draws P x := by
  intro s
  obtain ⟨hrefines, hstate⟩ := h s
  have hending := hy s
  rw [hstate]
  generalize (x.runFrom s).1 = outcome at hrefines ⊢
  generalize (y.runFrom s).1 = outcome' at hrefines hending
  generalize source (y.runFrom s).2 = u at hending ⊢
  cases hrefines with
  | ok h =>
      cases h
      exact hending
  | exhausted hroom => exact absurd trivial hroom
  | @error e e' halike =>
      cases hfatal : e.isFatal with
      | false => exact .refused hfatal
      | true =>
          -- a fatal fault is like itself only
          obtain ⟨code, rfl⟩ := Fault.isFatal_iff.mp hfatal
          cases halike.eq_fatal
          exact hending

end Contained

end TrustedPlatform
