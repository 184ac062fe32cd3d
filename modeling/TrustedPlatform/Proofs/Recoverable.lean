import TrustedPlatform.Proofs.Arithmetic.Residue
import TrustedPlatform.Proofs.Failure

/-!
# Computations that recover

A computation recovers when it ends in a value or in a fault that is not fatal, so that no engine
enters failure mode over it. Exact arithmetic recovers from everything but a zero divisor and a
difference below zero.
-/

namespace TrustedPlatform

/-- The computation ends in a value with the property or in a recoverable fault. -/
inductive Recovers {β : Type} (P : β → Prop) : Checked β → Prop where
  | value {v : β} (h : P v) : Recovers P (.ok v)
  | refused {e : Fault} (h : e.isFatal = false) : Recovers P (.error e)

/-- The computation ends in any value or in a recoverable fault. -/
abbrev Recoverable {β : Type} (x : Checked β) : Prop :=
  Recovers (fun _ => True) x

namespace Recovers

variable {β γ : Type} {P : β → Prop} {Q : γ → Prop}

/-- A computation goes on with the value that it ended in. -/
theorem bind {x : Checked β} {f : β → Checked γ} (hx : Recovers P x)
    (hf : ∀ v, P v → Recovers Q (f v)) : Recovers Q (x >>= f) := by
  cases hx with
  | value h => exact hf _ h
  | refused h => exact .refused h

/-- A value with a property has every weaker one. -/
theorem mono {P' : β → Prop} {x : Checked β} (hx : Recovers P x) (hP : ∀ v, P v → P' v) :
    Recovers P' x := by
  cases hx with
  | value h => exact .value (hP _ h)
  | refused h => exact .refused h

/-- Either branch recovers. -/
theorem ite {p : Prop} [Decidable p] {x y : Checked β} (hx : p → Recovers P x)
    (hy : ¬p → Recovers P y) : Recovers P (if p then x else y) := by
  split
  · exact hx ‹p›
  · exact hy ‹¬p›

/-- A value that is returned is ended in. -/
theorem of_returns {x : Checked β} (h : Returns x P) : Recovers P x := by
  obtain ⟨v, rfl, hv⟩ := h
  exact .value hv

/-- A computation on an optional value recovers. -/
theorem mapM {f : β → Checked γ} (o : Option β) (hf : ∀ v ∈ o, Recovers Q (f v)) :
    Recovers (fun o' => ∀ w ∈ o', Q w) (o.mapM f) := by
  cases o with
  | none => exact .value fun _ h => (by cases h)
  | some v =>
      refine (hf v rfl).bind fun w hw => .value ?_
      rintro _ ⟨⟩
      exact hw

end Recovers

/-- A fault recovers exactly when it is not fatal. -/
theorem recoverable_error_iff {β : Type} {e : Fault} :
    Recoverable (.error e : Checked β) ↔ e.isFatal = false := by
  constructor
  · intro h
    cases h with
    | refused h => exact h
  · exact .refused

/-- A computation that fails fatally does not recover. -/
theorem not_recoverable_fatal {β : Type} (code : FailureCode) :
    ¬Recoverable (.error (.fatal code) : Checked β) :=
  mt recoverable_error_iff.mp nofun

/-- A computation that does not recover ends in a failure code. -/
theorem not_recoverable_iff {β : Type} {x : Checked β} :
    ¬Recoverable x ↔ ∃ code, x = .error (.fatal code) := by
  cases x with
  | ok v => exact iff_of_false (not_not_intro (.value trivial)) nofun
  | error e =>
      rw [recoverable_error_iff, Bool.not_eq_false, Fault.isFatal_iff]
      exact exists_congr fun code => (Except.error.injEq _ _).symm.to_iff

/-- A composed computation recovers exactly when its first part does, and the second does after
it. -/
theorem recoverable_bind_iff {β γ : Type} {x : Checked β} {f : β → Checked γ} :
    Recoverable (x >>= f) ↔ Recoverable x ∧ ∀ v, x = .ok v → Recoverable (f v) := by
  constructor
  · intro h
    cases x with
    | ok v =>
        refine ⟨.value trivial, ?_⟩
        rintro _ ⟨⟩
        exact h
    | error e => exact ⟨.refused (recoverable_error_iff.mp h), nofun⟩
  · rintro ⟨hx, hf⟩
    cases hx with
    | value => exact hf _ rfl
    | refused h => exact .refused h

/-- A refinement with no condition on the room recovers exactly when what it refines does. -/
theorem Refines.recoverable_iff {β γ : Type} {R : β → γ → Prop} {x : Checked β} {y : Checked γ}
    (h : Refines True R x y) : Recoverable x ↔ Recoverable y := by
  cases h with
  | ok h => exact iff_of_true (.value trivial) (.value trivial)
  | error h => rw [recoverable_error_iff, recoverable_error_iff, h.isFatal_eq]
  | exhausted h => exact absurd trivial h

/-- What refines a fatal fault is fatal, whatever room there is. -/
theorem Refines.not_recoverable {β γ : Type} {room : Prop} {R : β → γ → Prop} {x : Checked β}
    {code : FailureCode} (h : Refines room R x (.error (.fatal code))) : ¬Recoverable x := by
  cases h with
  | error h =>
      rw [recoverable_error_iff, h.isFatal_eq]
      nofun
  | exhausted => exact not_recoverable_fatal .allocation

/-! ### Checks -/

namespace Require

/-- A signature is refused recoverably. -/
theorem signature_recovers (ok : Bool) (algorithm : String) :
    Recovers (fun _ => ok = true) (signature ok algorithm) :=
  .ite (fun h => .value h) fun _ => .refused rfl

/-- A parameter is refused recoverably. -/
theorem parameter_recoverable (ok : Bool) (name reason : String) :
    Recoverable (parameter ok name reason) :=
  .ite (fun _ => .value trivial) fun _ => .refused rfl

/-- A length is refused recoverably. -/
theorem length_recoverable (context : String) (actual expected : Nat) :
    Recoverable (length context actual expected) :=
  .ite (fun _ => .value trivial) fun _ => .refused rfl

end Require

/-! ### Exact arithmetic -/

namespace Exact

variable {n k m : Nat}

/-- A division by another number than zero recovers. -/
theorem unlessZero_recoverable {β : Type} {d : Nat} (hd : d ≠ 0) (value : Unit → β) :
    Recoverable (unlessZero d value) := by
  rw [unlessZero_of_ne hd]
  exact .value trivial

/-- A difference that is not below zero is given. -/
theorem sub_recovers (h : k ≤ n) : Recovers (· = n - k) (Arithmetic.sub n k) := by
  rw [LawfulArithmetic.exact_sub_of_le h]
  exact .value rfl

/-- The remainder. -/
theorem reduce_recoverable (hm : m ≠ 0) (n : Nat) : Recoverable (Arithmetic.reduce n m) := by
  rw [LawfulArithmetic.exact_reduce]
  exact unlessZero_recoverable hm _

/-- The sum modulo a number. -/
theorem modAdd_recoverable (hm : m ≠ 0) (n k : Nat) : Recoverable (Arithmetic.modAdd n k m) :=
  reduce_recoverable hm (n + k)

/-- The difference modulo a number. -/
theorem modSub_recoverable (hm : m ≠ 0) (n k : Nat) : Recoverable (Arithmetic.modSub n k m) := by
  rw [LawfulArithmetic.exact_modSub]
  exact unlessZero_recoverable hm _

/-- The product modulo a number. -/
theorem modMul_recoverable (hm : m ≠ 0) (n k : Nat) : Recoverable (Arithmetic.modMul n k m) :=
  unlessZero_recoverable hm _

/-- The inverse modulo a number. -/
theorem modInverse_recoverable (hm : m ≠ 0) (n : Nat) : Recoverable (Arithmetic.modInverse n m) :=
  unlessZero_recoverable hm _

/-- The low bits. -/
theorem maskBits_recoverable (n bits : Nat) : Recoverable (Arithmetic.maskBits n bits) := by
  rw [LawfulArithmetic.exact_maskBits]
  exact .value trivial

/-- A byte string that is too short for a number is refused recoverably. -/
theorem toBytesPadded_recoverable (n width : Nat) :
    Recoverable (Arithmetic.toBytesPadded n width) :=
  .ite (fun _ => .refused rfl) fun _ => .value trivial

end Exact

/-! ### Arithmetic with a given room -/

namespace LawfulArithmetic.HasRoom

open Limbs (count)

variable {α : Type} [Arithmetic α] [LawfulArithmetic α] {limit : ℕ∞} {x y : α} {n k : Nat}

/-- The product recovers exactly within the room. -/
theorem mul_recoverable_iff (hroom : HasRoom α limit) (hx : Denotes x n) (hy : Denotes y k) :
    Recoverable (Arithmetic.mul x y) ↔ ((count n + count k : Nat) : ℕ∞) ≤ limit := by
  constructor
  · intro h
    refine le_of_not_gt fun hbeyond => ?_
    rw [hroom.mul_exhausted hx hy hbeyond] at h
    exact not_recoverable_fatal _ h
  · exact fun h => (Recovers.of_returns (hroom.mul_returns hx hy h)).mono fun _ _ => trivial

/-- The remainder by a number of at most 64 limbs recovers exactly within the room, and unless the
number is zero. -/
theorem reduce_recoverable_iff (hroom : HasRoom α limit) (hx : Denotes x n) (hy : Denotes y k)
    (hk : count k ≤ 64) :
    Recoverable (Arithmetic.reduce x y) ↔ k ≠ 0 ∧ (count n : ℕ∞) ≤ limit := by
  constructor
  · intro h
    have hne : k ≠ 0 := by
      rintro rfl
      exact (LawfulArithmetic.reduce hx hy).not_recoverable h
    refine ⟨hne, le_of_not_gt fun hbeyond => ?_⟩
    rw [Arithmetic.reduce, hroom.divRem_exhausted hx hy (.inl hbeyond) hne] at h
    exact not_recoverable_fatal _ h
  · rintro ⟨hne, hn⟩
    exact (Recovers.of_returns (hroom.roomToReduce hn hx hy hk hne)).mono fun _ _ => trivial

end LawfulArithmetic.HasRoom

end TrustedPlatform
