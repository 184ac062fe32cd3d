import TrustedPlatform.Proofs.Arithmetic.Small
import TrustedPlatform.Proofs.Random.Outcome

/-!
# Computations in lockstep

Two computations on one kind of state run in lockstep when, from every state, both end alike, in
related values or in faults of one kind, and leave the same state. What is composed of computations
in lockstep runs in lockstep, so that as many bytes are drawn by the one as by the other.
-/

namespace TrustedPlatform

namespace Fault.Alike

variable {e e' : Fault}

/-- A request for a fresh ephemeral value is like another one only. -/
theorem exists_noResult {operation : String} (h : (noResult operation).Alike e) :
    ∃ operation', e = noResult operation' := by
  have hcommand := h.toCommandError_eq
  cases e with
  | noResult operation' => exact ⟨operation', rfl⟩
  | _ => cases hcommand

/-- The refusal of a point is like no other fault. -/
theorem eq_pointNotOnCurve (h : pointNotOnCurve.Alike e) : e = pointNotOnCurve := by
  have hcommand := h.toCommandError_eq
  cases e with
  | pointNotOnCurve => rfl
  | _ => cases hcommand

end Fault.Alike

/-- From every state the two computations end alike, and leave the same state. -/
def Lockstep {σ β γ : Type} (R : β → γ → Prop) (x : Randomized σ β) (y : Randomized σ γ) : Prop :=
  ∀ s, Refines True R (x.runFrom s).1 (y.runFrom s).1 ∧ (x.runFrom s).2 = (y.runFrom s).2

namespace Lockstep

variable {σ β γ β' γ' : Type} {R : β → γ → Prop} {S : β' → γ' → Prop}

/-- Outcomes that are alike move no state. -/
theorem lift {outcome : Checked β} {outcome' : Checked γ} (h : Refines True R outcome outcome') :
    Lockstep R (liftM outcome : Randomized σ β) (liftM outcome' : Randomized σ γ) :=
  fun _ => ⟨h, rfl⟩

/-- Related values move no state. -/
theorem pure {v : β} {w : γ} (h : R v w) :
    Lockstep R (Pure.pure v : Randomized σ β) (Pure.pure w : Randomized σ γ) :=
  fun _ => ⟨.ok h, rfl⟩

/-- Refusals that are alike move no state. -/
theorem throw {e e' : Fault} (h : e.Alike e') :
    Lockstep R (MonadExcept.throw e : Randomized σ β) (MonadExcept.throw e' : Randomized σ γ) :=
  fun _ => ⟨.error h, rfl⟩

/-- A computation runs in lockstep with itself. -/
theorem refl (x : Randomized σ β) : Lockstep Eq x x :=
  fun _ => ⟨LawfulArithmetic.refines_self _ _, rfl⟩

/-- Computations in lockstep go on in lockstep. -/
theorem bind {x : Randomized σ β} {y : Randomized σ γ} {f : β → Randomized σ β'}
    {g : γ → Randomized σ γ'} (h : Lockstep R x y)
    (hstep : ∀ v w, R v w → Lockstep S (f v) (g w)) : Lockstep S (x >>= f) (y >>= g) := by
  intro s
  have hfirst := h s
  cases hx : x.runFrom s with
  | mk outcome t =>
      cases hy : y.runFrom s with
      | mk outcome' t' =>
          rw [hx, hy] at hfirst
          obtain ⟨hrefines, rfl⟩ := hfirst
          cases hrefines with
          | ok hvalue =>
              rw [Randomized.runFrom_bind_ok hx, Randomized.runFrom_bind_ok hy]
              exact hstep _ _ hvalue t
          | error halike =>
              rw [Randomized.runFrom_bind_error hx, Randomized.runFrom_bind_error hy]
              exact ⟨.error halike, rfl⟩
          | exhausted hroom => exact absurd trivial hroom

/-- Related values are mapped to related values. -/
theorem map {x : Randomized σ β} {y : Randomized σ γ} {f : β → β'} {g : γ → γ'}
    (h : Lockstep R x y) (hfg : ∀ v w, R v w → S (f v) (g w)) :
    Lockstep S (f <$> x) (g <$> y) :=
  h.bind fun v w hvalue => pure (hfg v w hvalue)

/-- A choice made alike on both sides. -/
theorem ite {p q : Prop} [Decidable p] [Decidable q] {x x' : Randomized σ β}
    {y y' : Randomized σ γ} (hpq : p ↔ q) (ht : q → Lockstep R x y) (hf : ¬q → Lockstep R x' y') :
    Lockstep R (if p then x else x') (if q then y else y') := by
  by_cases h : q
  · rw [if_pos h, if_pos (hpq.mpr h)]
    exact ht h
  · rw [if_neg h, if_neg (mt hpq.mp h)]
    exact hf h

/-- A draw gives one byte string, as long as was asked for. -/
theorem draw [RandomSource σ] (n : Nat) :
    Lockstep (fun bytes bytes' => bytes = bytes' ∧ bytes'.length = n)
      (TrustedPlatform.draw n : Randomized σ Bytes) (TrustedPlatform.draw n) := by
  intro s
  exact ⟨(LawfulArithmetic.refines_self _ _).and_of_ok
    fun bytes hbytes => RandomSource.length_of_fill s n bytes hbytes, rfl⟩

/-- Repeated attempts that are alike on related drawn values. -/
theorem retry {value : Randomized σ β} {value' : Randomized σ γ} {attempt : β → Checked β'}
    {attempt' : γ → Checked γ'} (hvalue : Lockstep R value value')
    (hattempt : ∀ v w, R v w → Refines True S (attempt v) (attempt' w)) (operation : String)
    (attempts : Nat) :
    Lockstep S (Signature.retry operation value attempt attempts)
      (Signature.retry operation value' attempt' attempts) := by
  induction attempts with
  | zero => exact Lockstep.throw (.refl _)
  | succ attempts ih =>
      refine hvalue.bind fun v w hdrawn => ?_
      have hrefines := hattempt v w hdrawn
      generalize attempt v = outcome at hrefines
      generalize attempt' w = outcome' at hrefines
      cases hrefines with
      | ok hresult => exact Lockstep.pure hresult
      | exhausted hroom => exact absurd trivial hroom
      | @error e e' halike =>
          -- both attempts ask for a fresh value, or neither does
          by_cases hretry : ∃ operation, e = .noResult operation
          · obtain ⟨_, rfl⟩ := hretry
            obtain ⟨_, rfl⟩ := halike.exists_noResult
            exact ih
          · have hretry' : ¬∃ operation, e' = .noResult operation := by
              rintro ⟨_, rfl⟩
              exact hretry halike.symm.exists_noResult
            split
            case h_1 hfault => cases hfault
            case h_2 hfault => exact absurd ⟨_, Except.error.inj hfault⟩ hretry
            case h_3 hfault =>
              cases hfault
              split
              case h_1 hfault => cases hfault
              case h_2 hfault => exact absurd ⟨_, Except.error.inj hfault⟩ hretry'
              case h_3 hfault =>
                cases hfault
                exact Lockstep.throw halike

end Lockstep

end TrustedPlatform
