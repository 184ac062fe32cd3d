import TrustedPlatform.Proofs.Refinement

/-!
# Computations that fail fatally

A computation that cannot end in a recoverable fault leaves its caller two outcomes: a value, or a
code to enter failure mode with.
-/

namespace TrustedPlatform

/-- A fatal fault carries a failure code. -/
theorem Fault.isFatal_iff {e : Fault} : e.isFatal = true ↔ ∃ code, e = .fatal code := by
  constructor
  · intro h
    cases e with
    | fatal code => exact ⟨code, rfl⟩
    | _ => cases h
  · rintro ⟨code, rfl⟩
    rfl

/-- A check that succeeds gives its one value. -/
theorem eq_ok_of_isOk {x : Checked Unit} (h : x.isOk = true) : x = .ok () := by
  cases x with
  | ok v => rfl
  | error e => cases h

/-- A parameter that meets its condition passes. -/
theorem Require.parameter_of_true {ok : Bool} (h : ok = true) (name reason : String) :
    Require.parameter ok name reason = .ok () :=
  if_pos h

/-- A parameter that does not meet its condition is refused. -/
theorem Require.parameter_of_false {ok : Bool} (h : ok = false) (name reason : String) :
    Require.parameter ok name reason = .error (.parameter name reason) :=
  if_neg (Bool.eq_false_iff.mp h)

/-- The computation ends in a value or in a fatal fault. -/
def FailsFatally {β : Type} (x : Checked β) : Prop :=
  ∀ e, x = .error e → e.isFatal = true

namespace FailsFatally

variable {β γ : Type} {x : Checked β}

/-- A value is no fault. -/
theorem ok (v : β) : FailsFatally (.ok v : Checked β) :=
  nofun

/-- A fatal fault is fatal. -/
theorem fatal (code : FailureCode) : FailsFatally (.error (.fatal code) : Checked β) := by
  rintro _ ⟨⟩
  rfl

/-- A computation goes on with the value it gives. -/
theorem bind {f : β → Checked γ} (hx : FailsFatally x)
    (hf : ∀ v, x = .ok v → FailsFatally (f v)) : FailsFatally (x >>= f) := by
  cases x with
  | ok v => exact hf v rfl
  | error e =>
      rintro _ ⟨⟩
      exact hx e rfl

/-- An invariant is checked on pain of failure mode. -/
theorem invariant (holds : Bool) (code : FailureCode) :
    FailsFatally (Require.invariant holds code) := by
  cases holds
  · exact fatal code
  · exact ok ()

/-- A refinement of a value fails for want of room only. -/
theorem of_refines {room : Prop} {R : β → γ → Prop} {w : γ} (h : Refines room R x (.ok w)) :
    FailsFatally x := by
  cases h with
  | ok h => exact ok _
  | exhausted h => exact fatal .allocation

end FailsFatally

end TrustedPlatform
