import TrustedPlatform.Proofs.Random.Ending

/-!
# Computations with known refusals

`Concludes P E` says of a computation that draws which values it may give, and which faults it may
end in by itself; any other fault is one that a draw ended in, after draws that succeeded, and is
passed on as it is. `Extends E x y` says that `y` goes on where `x` ends in one of these faults, and
does as `x` does otherwise; so it compares a search with one of more attempts.
-/

namespace TrustedPlatform

/-- How a computation may conclude that starts with the source in one state and leaves it in
another: in a value with the first property, in a fault with the second, or in the fault of a draw
that followed draws which succeeded. -/
inductive Conclusion {σ β : Type} [RandomSource σ] (P : β → Prop) (E : Fault → Prop) (s : σ) :
    Checked β → σ → Prop where
  | value {v : β} {t : σ} (h : P v) (hreaches : RandomSource.Reaches s t) :
      Conclusion P E s (.ok v) t
  | refused {e : Fault} {t : σ} (h : E e) (hreaches : RandomSource.Reaches s t) :
      Conclusion P E s (.error e) t
  | failed {e : Fault} {t u : σ} {n : Nat} (hreaches : RandomSource.Reaches s t)
      (hfill : RandomSource.fill t n = (.error e, u)) : Conclusion P E s (.error e) u

/-- A conclusion after draws that succeeded is one from before them. -/
theorem Conclusion.after {σ β : Type} [RandomSource σ] {P : β → Prop} {E : Fault → Prop}
    {s t u : σ} {outcome : Checked β} (hreaches : RandomSource.Reaches s t)
    (h : Conclusion P E t outcome u) : Conclusion P E s outcome u := by
  cases h with
  | value h hthen => exact .value h (hreaches.trans hthen)
  | refused h hthen => exact .refused h (hreaches.trans hthen)
  | failed hthen hfill => exact .failed (hreaches.trans hthen) hfill

/-- From every state the computation concludes in one of these ways. -/
def Concludes {σ β : Type} [RandomSource σ] (P : β → Prop) (E : Fault → Prop)
    (x : Randomized σ β) : Prop :=
  ∀ s, Conclusion P E s (x.runFrom s).1 (x.runFrom s).2

namespace Concludes

variable {σ β γ : Type} [RandomSource σ] {P : β → Prop} {Q : γ → Prop} {E : Fault → Prop}

/-- A value that was concluded in has the first property. -/
theorem of_ok {x : Randomized σ β} (hx : Concludes P E x) {s : σ} {v : β}
    (h : (x.runFrom s).1 = .ok v) : P v := by
  have hconclusion := hx s
  rw [h] at hconclusion
  cases hconclusion with
  | value hv _ => exact hv

/-- A returned value moves no state. -/
theorem returns {outcome : Checked β} (h : Returns outcome P) :
    Concludes P E (liftM outcome : Randomized σ β) := by
  obtain ⟨v, rfl, hv⟩ := h
  exact fun _ => .value hv .refl

/-- A value moves no state. -/
theorem pure {v : β} (h : P v) : Concludes P E (Pure.pure v : Randomized σ β) :=
  returns (.ok h)

/-- A refusal moves no state. -/
theorem throw {e : Fault} (h : E e) : Concludes P E (MonadExcept.throw e : Randomized σ β) :=
  fun _ => .refused h .refl

/-- A draw concludes in as many bytes as were asked for, or fails. -/
theorem draw (n : Nat) :
    Concludes (·.length = n) E (TrustedPlatform.draw n : Randomized σ Bytes) := by
  intro s
  show Conclusion _ E s (RandomSource.fill s n).1 (RandomSource.fill s n).2
  rcases hfill : RandomSource.fill s n with ⟨e | bytes, t⟩
  · exact .failed .refl hfill
  · exact .value (RandomSource.length_of_fill s n bytes (congrArg Prod.fst hfill))
      (.single ⟨n, bytes, hfill⟩)

/-- A computation goes on with the value that it concluded in. -/
theorem bind {x : Randomized σ β} {f : β → Randomized σ γ} (hx : Concludes P E x)
    (hf : ∀ v, P v → Concludes Q E (f v)) : Concludes Q E (x >>= f) := by
  intro s
  have hfirst := hx s
  cases hrun : x.runFrom s with
  | mk outcome t =>
      rw [hrun] at hfirst
      cases outcome with
      | ok v =>
          rw [Randomized.runFrom_bind_ok hrun]
          cases hfirst with
          | value hv hreaches => exact (hf v hv t).after hreaches
      | error e =>
          rw [Randomized.runFrom_bind_error hrun]
          cases hfirst with
          | refused he hreaches => exact .refused he hreaches
          | failed hreaches hfill => exact .failed hreaches hfill

/-- Either branch concludes. -/
theorem ite {p : Prop} [Decidable p] {x y : Randomized σ β} (hx : p → Concludes P E x)
    (hy : ¬p → Concludes P E y) : Concludes P E (if p then x else y) := by
  split
  · exact hx ‹p›
  · exact hy ‹¬p›

end Concludes

/-- From every state from which the first computation does not end in a fault with the property, the
second does the same. -/
def Extends {σ β : Type} (E : Fault → Prop) (x y : Randomized σ β) : Prop :=
  ∀ s, (∀ e, E e → (x.runFrom s).1 ≠ .error e) → y.runFrom s = x.runFrom s

namespace Extends

variable {σ β γ : Type} {E : Fault → Prop}

/-- A computation extends itself. -/
theorem refl (x : Randomized σ β) : Extends E x x :=
  fun _ _ => rfl

/-- A fault with the property is extended by anything. -/
theorem throw {e : Fault} (h : E e) (y : Randomized σ β) : Extends E (MonadExcept.throw e) y :=
  fun _ hend => absurd rfl (hend e h)

/-- Extended computations go on in extended computations. -/
theorem bind {x y : Randomized σ β} {f g : β → Randomized σ γ} (h : Extends E x y)
    (hstep : ∀ v, Extends E (f v) (g v)) : Extends E (x >>= f) (y >>= g) := by
  intro s hend
  cases hrun : x.runFrom s with
  | mk outcome t =>
      -- a fault of the first part is one of the whole
      have hsame : y.runFrom s = (outcome, t) := by
        rw [← hrun]
        refine h s fun e he houtcome => hend e he ?_
        rw [hrun] at houtcome
        cases houtcome
        rw [Randomized.runFrom_bind_error hrun]
      cases outcome with
      | ok v =>
          rw [Randomized.runFrom_bind_ok hrun] at hend ⊢
          rw [Randomized.runFrom_bind_ok hsame]
          exact hstep v t hend
      | error e => rw [Randomized.runFrom_bind_error hrun, Randomized.runFrom_bind_error hsame]

/-- Either branch is extended. -/
theorem ite {p : Prop} [Decidable p] {x x' y y' : Randomized σ β} (hx : Extends E x x')
    (hy : Extends E y y') : Extends E (if p then x else y) (if p then x' else y') := by
  split
  · exact hx
  · exact hy

end Extends

end TrustedPlatform
