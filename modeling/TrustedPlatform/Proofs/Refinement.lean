import Mathlib.Tactic.Common
import TrustedPlatform.Failure

/-!
# Refinement of one computation by another

A computation with bounded room refines one without when the two give related values, or are refused
alike, or the first runs out of room. `Refines room` says that the last can happen only where the
condition `room` fails, so that under it the two agree; the relation passes through `bind`, and so
from the operations to everything that is composed of them. `Delivers room` says the same of the
values alone: a value that is given has a property, and under `room` one is given.
-/

namespace TrustedPlatform

/-- Two faults of the same kind and the same failure code; they may differ in their texts. -/
structure Fault.Alike (e e' : Fault) : Prop where
  kind_eq : e.kind = e'.kind
  toCommandError_eq : e.toCommandError = e'.toCommandError

/-- A fault is like itself. -/
theorem Fault.Alike.refl (e : Fault) : e.Alike e :=
  ⟨rfl, rfl⟩

/-- Likeness is symmetric. -/
theorem Fault.Alike.symm {e e' : Fault} (h : e.Alike e') : e'.Alike e :=
  ⟨h.kind_eq.symm, h.toCommandError_eq.symm⟩

/-- A fault like a fatal one is the same fault. -/
theorem Fault.Alike.eq_fatal {code : FailureCode} {e : Fault} (h : (Fault.fatal code).Alike e) :
    e = .fatal code := by
  have hcommand := h.toCommandError_eq
  cases e with
  | fatal code' => exact congrArg Fault.fatal (CommandError.failure.inj hcommand).symm
  | _ => cases hcommand

/-- Faults that are alike are fatal together. -/
theorem Fault.Alike.isFatal_eq {e e' : Fault} (h : e.Alike e') : e.isFatal = e'.isFatal := by
  have hcommand := h.toCommandError_eq
  cases e <;> cases e' <;> first | rfl | cases hcommand

/-- The first computation gives a value related to the second one's, or is refused alike, or runs
out of room, which it does not where there is room. -/
inductive Refines {β γ : Type} (room : Prop) (R : β → γ → Prop) : Checked β → Checked γ → Prop where
  | ok {x : β} {y : γ} (h : R x y) : Refines room R (.ok x) (.ok y)
  | error {e e' : Fault} (h : e.Alike e') : Refines room R (.error e) (.error e')
  | exhausted {outcome : Checked γ} (h : ¬room) :
      Refines room R (.error (.fatal .allocation)) outcome

namespace Refines

variable {β γ β' γ' : Type} {room : Prop} {R : β → γ → Prop} {S : β' → γ' → Prop}

/-- Computations that are refused with one fault refine each other. -/
theorem refused (e : Fault) : Refines room R (.error e) (.error e) :=
  .error (.refl e)

/-- A computation refines itself. -/
theorem of_eq {x y : Checked β} (h : x = y) : Refines room Eq x y := by
  cases h
  cases x with
  | ok v => exact .ok rfl
  | error e => exact .refused e

/-- Related computations go on to related computations. -/
theorem bind {x : Checked β} {y : Checked γ} {f : β → Checked β'} {g : γ → Checked γ'}
    (h : Refines room R x y) (hstep : ∀ v w, R v w → Refines room S (f v) (g w)) :
    Refines room S (x >>= f) (y >>= g) := by
  cases h with
  | ok h => exact hstep _ _ h
  | error h => exact .error h
  | exhausted h => exact .exhausted h

/-- A computation with a value goes on where it stands. -/
theorem bind_ok {x : Checked β} {w : γ} {f : β → Checked β'} {outcome : Checked γ'}
    (h : Refines room R x (.ok w)) (hstep : ∀ v, R v w → Refines room S (f v) outcome) :
    Refines room S (x >>= f) outcome := by
  cases h with
  | ok h => exact hstep _ h
  | exhausted h => exact .exhausted h

/-- Related values are mapped to related values. -/
theorem map {x : Checked β} {y : Checked γ} {f : β → β'} {g : γ → γ'} (h : Refines room R x y)
    (hfg : ∀ v w, R v w → S (f v) (g w)) : Refines room S (f <$> x) (g <$> y) := by
  cases h with
  | ok h => exact .ok (hfg _ _ h)
  | error h => exact .error h
  | exhausted h => exact .exhausted h

/-- A refused computation does not go on. -/
theorem bind_error {x : Checked β} {e : Fault} {f : β → Checked β'}
    (h : Refines room R x (.error e)) : Refines room S (x >>= f) (.error e) := by
  cases h with
  | error h => exact .error h
  | exhausted h => exact .exhausted h

/-- Less room and a weaker relation are refined as well. -/
theorem mono {room' : Prop} {R' : β → γ → Prop} {x : Checked β} {y : Checked γ}
    (h : Refines room R x y) (hroom : room' → room) (hR : ∀ v w, R v w → R' v w) :
    Refines room' R' x y := by
  cases h with
  | ok h => exact .ok (hR _ _ h)
  | error h => exact .error h
  | exhausted h => exact .exhausted (mt hroom h)

/-- Less room is refined as well. -/
theorem under {room' : Prop} {x : Checked β} {y : Checked γ} (h : Refines room R x y)
    (hroom : room' → room) : Refines room' R x y :=
  h.mono hroom fun _ _ hR => hR

/-- A choice made alike on both sides. -/
theorem ite {p q : Prop} [Decidable p] [Decidable q] {x x' : Checked β} {y y' : Checked γ}
    (hpq : p ↔ q) (ht : q → Refines room R x y) (hf : ¬q → Refines room R x' y') :
    Refines room R (if p then x else x') (if q then y else y') := by
  by_cases h : q
  · rw [if_pos h, if_pos (hpq.mpr h)]
    exact ht h
  · rw [if_neg h, if_neg (mt hpq.mp h)]
    exact hf h

/-- A value comes from a related value. -/
theorem of_ok {v : β} {y : Checked γ} (h : Refines room R (.ok v) y) : ∃ w, y = .ok w ∧ R v w := by
  cases h with
  | ok h => exact ⟨_, rfl, h⟩

/-- A refusal other than for room comes from one alike. -/
theorem of_error {e : Fault} {y : Checked γ} (h : Refines room R (.error e) y)
    (he : e ≠ .fatal .allocation) : ∃ e', y = .error e' ∧ e.Alike e' := by
  cases h with
  | error h => exact ⟨_, rfl, h⟩
  | exhausted h => exact absurd rfl he

/-- Where there is room, a refinement of a fatal fault is that fault. -/
theorem eq_fatal {x : Checked β} {code : FailureCode}
    (h : Refines room R x (.error (.fatal code))) (hroom : room) : x = .error (.fatal code) := by
  cases h with
  | error h => rw [h.symm.eq_fatal]
  | exhausted h => exact absurd hroom h

/-- Where there is room, a computation runs out of it only together with the other. -/
theorem ne_allocation {x : Checked β} {y : Checked γ} (h : Refines room R x y) (hroom : room)
    (hy : y ≠ .error (.fatal .allocation)) : x ≠ .error (.fatal .allocation) := by
  rintro rfl
  cases h with
  | error h => exact hy (congrArg Except.error h.eq_fatal)
  | exhausted h => exact h hroom

end Refines

/-- A composed computation gives a value only through one of its first part. -/
theorem exists_of_bind_eq_ok {β γ : Type} {x : Checked β} {f : β → Checked γ} {w : γ}
    (h : (x >>= f) = .ok w) : ∃ v, x = .ok v ∧ f v = .ok w := by
  cases x with
  | ok v => exact ⟨v, rfl, h⟩
  | error e => cases h

/-- A computation that succeeds gives a value. -/
theorem exists_of_isOk {β : Type} {x : Checked β} (h : x.isOk = true) : ∃ v, x = .ok v := by
  cases x with
  | ok v => exact ⟨v, rfl⟩
  | error e => cases h

/-- Where there is room, a computation succeeds with the other. -/
theorem Refines.exists_of_isOk {β γ : Type} {room : Prop} {R : β → γ → Prop} {x : Checked β}
    {y : Checked γ} (h : Refines room R x y) (hroom : room) (hy : y.isOk = true) :
    ∃ v, x = .ok v := by
  cases h with
  | ok => exact ⟨_, rfl⟩
  | error => cases hy
  | exhausted hempty => exact absurd hroom hempty

/-- The computation gives a value with the property. -/
def Returns {β : Type} (x : Checked β) (P : β → Prop) : Prop :=
  ∃ v, x = .ok v ∧ P v

namespace Returns

variable {β γ : Type} {P : β → Prop} {Q : γ → Prop}

/-- A value with the property is returned. -/
theorem ok {v : β} (h : P v) : Returns (.ok v) P :=
  ⟨v, rfl, h⟩

/-- A computation goes on with the value that is returned. -/
theorem bind {x : Checked β} {f : β → Checked γ} (h : Returns x P)
    (hstep : ∀ v, P v → Returns (f v) Q) : Returns (x >>= f) Q := by
  obtain ⟨v, rfl, hv⟩ := h
  exact hstep v hv

/-- A value with a property has every weaker one. -/
theorem mono {P' : β → Prop} {x : Checked β} (h : Returns x P) (hP : ∀ v, P v → P' v) :
    Returns x P' := by
  obtain ⟨v, rfl, hv⟩ := h
  exact ⟨v, rfl, hP v hv⟩

/-- A choice returns what its branches return. -/
theorem ite {p : Prop} [Decidable p] {x y : Checked β} (hx : p → Returns x P)
    (hy : ¬p → Returns y P) : Returns (if p then x else y) P := by
  split
  · exact hx ‹p›
  · exact hy ‹¬p›

/-- A computation that returns one value only is that value. -/
theorem eq_ok {x : Checked β} {v : β} (h : Returns x (· = v)) : x = .ok v := by
  obtain ⟨w, rfl, rfl⟩ := h
  rfl

end Returns

/-- Where there is room, a refinement of a value returns a related one. -/
theorem Refines.returns {β γ : Type} {room : Prop} {R : β → γ → Prop} {x : Checked β} {w : γ}
    (h : Refines room R x (.ok w)) (hroom : room) : Returns x (R · w) := by
  cases h with
  | ok h => exact .ok h
  | exhausted h => exact absurd hroom h

/-- Where there is room, a refinement of a computation that returns returns a related value. -/
theorem Refines.returns_of_returns {β γ : Type} {room : Prop} {R : β → γ → Prop} {P : γ → Prop}
    {x : Checked β} {y : Checked γ} (h : Refines room R x y) (hroom : room) (hy : Returns y P) :
    Returns x fun v => ∃ w, R v w ∧ P w := by
  obtain ⟨w, rfl, hw⟩ := hy
  exact (h.returns hroom).mono fun v hv => ⟨w, hv, hw⟩

/-- The computation delivers a value with the property; where there is no room it may be refused
instead. -/
inductive Delivers {β : Type} (room : Prop) (P : β → Prop) : Checked β → Prop where
  | ok {v : β} (h : P v) : Delivers room P (.ok v)
  | refused {e : Fault} (h : ¬room) : Delivers room P (.error e)

namespace Delivers

variable {β γ : Type} {room : Prop} {P : β → Prop} {Q : γ → Prop}

/-- A computation goes on with the value that is delivered. -/
theorem bind {x : Checked β} {f : β → Checked γ} (h : Delivers room P x)
    (hstep : ∀ v, P v → Delivers room Q (f v)) : Delivers room Q (x >>= f) := by
  cases h with
  | ok h => exact hstep _ h
  | refused h => exact .refused h

/-- A value with a property has every weaker one. -/
theorem mono {P' : β → Prop} {x : Checked β} (h : Delivers room P x) (hP : ∀ v, P v → P' v) :
    Delivers room P' x := by
  cases h with
  | ok h => exact .ok (hP _ h)
  | refused h => exact .refused h

/-- Where there is room, a value is returned. -/
theorem returns {x : Checked β} (h : Delivers room P x) (hroom : room) : Returns x P := by
  cases h with
  | ok h => exact .ok h
  | refused h => exact absurd hroom h

/-- A value that is delivered has the property. -/
theorem of_ok {v : β} (h : Delivers room P (.ok v)) : P v := by
  cases h with
  | ok h => exact h

end Delivers

/-- A refinement of a value delivers a related one. -/
theorem Refines.delivers {β γ : Type} {room : Prop} {R : β → γ → Prop} {x : Checked β} {w : γ}
    (h : Refines room R x (.ok w)) : Delivers room (R · w) x := by
  cases h with
  | ok h => exact .ok h
  | exhausted h => exact .refused h

end TrustedPlatform
