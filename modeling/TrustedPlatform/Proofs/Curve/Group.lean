import Mathlib.AlgebraicGeometry.EllipticCurve.Affine.Point
import Mathlib.Tactic.FieldSimp
import Mathlib.Tactic.LinearCombination

/-!
# The group law in Jacobian coordinates over a field

Over a field, a triple with `z ≠ 0` stands for the affine point `(x / z^2, y / z^3)` of a curve
`y^2 = x^3 + a * x + b`. The doubling and the addition in these coordinates give triples that stand
for the double and the sum by chord and tangent, whichever triples stand for the operands. This
needs no more of a point than the equation, so it is shown of all the solutions of the equation,
those of a singular curve included; on the points of the group, chord and tangent are the group law.
-/

namespace TrustedPlatform.Weierstrass

open WeierstrassCurve.Affine

variable {F : Type*} [Field F]

/-- The curve `y^2 = x^3 + a * x + b`. -/
def short (a b : F) : WeierstrassCurve.Affine F :=
  ⟨0, 0, 0, a, b⟩

variable {a b : F}

/-- The equation of a short curve. -/
theorem equation_iff (x y : F) : (short a b).Equation x y ↔ y ^ 2 = x ^ 3 + a * x + b := by
  rw [WeierstrassCurve.Affine.equation_iff]
  simp [short]

/-- The discriminant of a short curve. -/
theorem discriminant_eq (a b : F) :
    (short a b).Δ = -16 * (4 * a ^ 3 + 27 * b ^ 2) := by
  simp only [short, WeierstrassCurve.Δ, WeierstrassCurve.b₂, WeierstrassCurve.b₄,
    WeierstrassCurve.b₆, WeierstrassCurve.b₈]
  ring

/-- The inverse of a point of a short curve has the negated second coordinate. -/
@[simp] theorem negY_eq (x y : F) : (short a b).negY x y = -y := by
  simp [short, negY]

/-- Points with equal coordinates are equal. -/
theorem some_congr {W : WeierstrassCurve.Affine F} {x x' y y' : F} {h : W.Nonsingular x y}
    {h' : W.Nonsingular x' y'} (hx : x = x') (hy : y = y') :
    Point.some x y h = Point.some x' y' h' := by
  subst hx hy
  rfl

/-! ### Chord and tangent -/

/-- A solution of the equation of a curve, or the point at infinity. The singular point of a
singular curve is a solution, though it is no point of the group. -/
inductive Solution (W : WeierstrassCurve.Affine F) where
  | infinity
  | affine (x y : F) (h : W.Equation x y)

namespace Solution

variable {W : WeierstrassCurve.Affine F}

/-- Solutions with equal coordinates are equal. -/
theorem affine_congr {x x' y y' : F} {h : W.Equation x y} {h' : W.Equation x' y'} (hx : x = x')
    (hy : y = y') : affine x y h = affine x' y' h' := by
  subst hx hy
  rfl

/-- The inverse of a solution is the other one on the same vertical line. -/
instance : Neg (Solution W) where
  neg
    | infinity => infinity
    | affine x y h => affine x (W.negY x y) ((equation_neg x y).mpr h)

/-- The solution that a point of the group is. -/
def ofPoint : W.Point → Solution W
  | .zero => infinity
  | .some x y h => affine x y h.1

/-- Every solution of a smooth curve is a point. -/
theorem exists_ofPoint (hΔ : W.Δ ≠ 0) (A : Solution W) : ∃ B, ofPoint B = A := by
  cases A with
  | infinity => exact ⟨.zero, rfl⟩
  | affine x y h => exact ⟨.some x y ((equation_iff_nonsingular_of_Δ_ne_zero hΔ).mp h), rfl⟩

variable [DecidableEq F]

/-- The sum of two solutions: the line through them, which is the tangent if they are the same,
meets the curve in a third solution, and the sum is the inverse of that. A vertical line meets it at
infinity. -/
noncomputable instance : Add (Solution W) where
  add
    | infinity, B => B
    | affine x y h, infinity => affine x y h
    | affine x₁ y₁ h₁, affine x₂ y₂ h₂ =>
        if hxy : x₁ = x₂ ∧ y₁ = W.negY x₂ y₂ then infinity
        else affine _ _ (equation_add h₁ h₂ hxy)

/-- The point at infinity is neutral on the left. -/
@[simp] theorem infinity_add (A : Solution W) : infinity + A = A := rfl

/-- The point at infinity is neutral on the right. -/
@[simp] theorem add_infinity (A : Solution W) : A + infinity = A := by
  cases A <;> rfl

variable {x₁ x₂ y₁ y₂ : F} {h₁ : W.Equation x₁ y₁} {h₂ : W.Equation x₂ y₂}

/-- The sum of two solutions on one vertical line. -/
theorem add_of_vertical (hx : x₁ = x₂) (hy : y₁ = W.negY x₂ y₂) :
    affine x₁ y₁ h₁ + affine x₂ y₂ h₂ = infinity :=
  dif_pos ⟨hx, hy⟩

/-- The sum of two solutions on a line with a slope. -/
theorem add_of_slope (hxy : ¬(x₁ = x₂ ∧ y₁ = W.negY x₂ y₂)) :
    affine x₁ y₁ h₁ + affine x₂ y₂ h₂ = affine _ _ (equation_add h₁ h₂ hxy) :=
  dif_neg hxy

/-- The sum of two points by chord and tangent is their sum in the group. -/
theorem ofPoint_add (A B : W.Point) : ofPoint (A + B) = ofPoint A + ofPoint B := by
  cases A with
  | zero => exact congrArg ofPoint (zero_add B)
  | some x₁ y₁ h₁ =>
      cases B with
      | zero => exact congrArg ofPoint (add_zero (Point.some x₁ y₁ h₁))
      | some x₂ y₂ h₂ =>
          by_cases hxy : x₁ = x₂ ∧ y₁ = W.negY x₂ y₂
          · rw [Point.add_of_Y_eq hxy.1 hxy.2]
            exact (add_of_vertical hxy.1 hxy.2).symm
          · rw [Point.add_some hxy]
            exact (add_of_slope hxy).symm

end Solution

/-- The coordinates stand for the solution. -/
structure StandsFor (a b x y z : F) (A : Solution (short a b)) : Prop where
  z_ne_zero : z ≠ 0
  equation : (short a b).Equation (x / z ^ 2) (y / z ^ 3)
  eq_affine : A = .affine (x / z ^ 2) (y / z ^ 3) equation

namespace StandsFor

variable {x y z x₁ y₁ z₁ x₂ y₂ z₂ : F} {A B : Solution (short a b)}

/-- The coordinates stand for one solution only. -/
theorem unique (hA : StandsFor a b x y z A) (hB : StandsFor a b x y z B) : A = B := by
  rw [hA.eq_affine, hB.eq_affine]

/-- The coordinates of a solution satisfy the equation of the curve. -/
theorem equation_jacobian (h : StandsFor a b x y z A) :
    y ^ 2 = x ^ 3 + a * x * z ^ 4 + b * z ^ 6 := by
  have hz := h.z_ne_zero
  have heq := (equation_iff _ _).mp h.equation
  field_simp at heq
  linear_combination heq

/-- Coordinates that satisfy the equation of the curve satisfy it as affine ones. -/
theorem equation_of_jacobian (hz : z ≠ 0) (h : y ^ 2 = x ^ 3 + a * x * z ^ 4 + b * z ^ 6) :
    (short a b).Equation (x / z ^ 2) (y / z ^ 3) := by
  rw [equation_iff]
  field_simp
  linear_combination h

/-- The inverse has the negated second coordinate. -/
theorem neg (h : StandsFor a b x y z A) : StandsFor a b x (-y) z (-A) := by
  obtain ⟨hz, heq, rfl⟩ := h
  have hy : (short a b).negY (x / z ^ 2) (y / z ^ 3) = -y / z ^ 3 := by
    rw [negY_eq, neg_div]
  have hneg := (equation_neg (x / z ^ 2) (y / z ^ 3)).mpr heq
  rw [hy] at hneg
  exact ⟨hz, hneg, Solution.affine_congr rfl hy⟩

/-- Solutions with equal first coordinates and equal second coordinates are the same. -/
theorem eq_of_cross (hA : StandsFor a b x₁ y₁ z₁ A) (hB : StandsFor a b x₂ y₂ z₂ B)
    (hx : x₁ * (z₂ * z₂) = x₂ * (z₁ * z₁))
    (hy : y₁ * (z₂ * (z₂ * z₂)) = y₂ * (z₁ * (z₁ * z₁))) : A = B := by
  obtain ⟨hz₁, heq₁, rfl⟩ := hA
  obtain ⟨hz₂, heq₂, rfl⟩ := hB
  refine Solution.affine_congr ?_ ?_
  · rw [div_eq_div_iff (pow_ne_zero 2 hz₁) (pow_ne_zero 2 hz₂)]
    linear_combination hx
  · rw [div_eq_div_iff (pow_ne_zero 3 hz₁) (pow_ne_zero 3 hz₂)]
    linear_combination hy

variable [DecidableEq F]

/-- The coordinates of a double or a sum whose slope is known. -/
theorem of_slope {slope : F} {h₁ : (short a b).Equation x₁ y₁} {h₂ : (short a b).Equation x₂ y₂}
    (hxy : ¬(x₁ = x₂ ∧ y₁ = (short a b).negY x₂ y₂)) (hz : z ≠ 0)
    (hslope : (short a b).slope x₁ x₂ y₁ y₂ = slope / z)
    (hx : slope ^ 2 - (x₁ + x₂) * z ^ 2 = x)
    (hy : slope * (x₁ * z ^ 2 - x) - y₁ * z ^ 3 = y) :
    StandsFor a b x y z (.affine x₁ y₁ h₁ + .affine x₂ y₂ h₂) := by
  have hX : (short a b).addX x₁ x₂ ((short a b).slope x₁ x₂ y₁ y₂) = x / z ^ 2 := by
    rw [hslope, ← hx]
    simp only [addX, short]
    field_simp
    ring
  have hY : (short a b).addY x₁ x₂ y₁ ((short a b).slope x₁ x₂ y₁ y₂) = y / z ^ 3 := by
    rw [addY, negAddY, hX, negY_eq, hslope, ← hy]
    field_simp
    ring
  have heq := equation_add h₁ h₂ hxy
  rw [Solution.add_of_slope hxy]
  refine ⟨hz, by rwa [hX, hY] at heq, Solution.affine_congr hX hY⟩

/-- A solution whose second coordinate is zero is its own inverse. -/
theorem double_eq_infinity (h : StandsFor a b x 0 z A) : A + A = .infinity := by
  obtain ⟨hz, heq, rfl⟩ := h
  refine Solution.add_of_vertical rfl ?_
  rw [negY_eq, zero_div, neg_zero]

/-- The double of a solution that is not its own inverse. -/
theorem double (h : StandsFor a b x y z A) (h2 : (2 : F) ≠ 0) (hy : y ≠ 0) :
    let s := 4 * (x * (y * y))
    let slope := 3 * (x * x) + a * ((z * z) * (z * z))
    let x' := slope * slope - (s + s)
    StandsFor a b x' (slope * (s - x') - 8 * ((y * y) * (y * y))) ((y + y) * z) (A + A) := by
  intro s slope x'
  obtain ⟨hz, heq, rfl⟩ := h
  have hY : y / z ^ 3 ≠ -(y / z ^ 3) := by
    intro heq
    have htwice : 2 * (y / z ^ 3) = 0 := by linear_combination heq
    rcases mul_eq_zero.mp htwice with h | h
    · exact h2 h
    · exact div_ne_zero hy (pow_ne_zero 3 hz) h
  have hxy : ¬(x / z ^ 2 = x / z ^ 2 ∧ y / z ^ 3 = (short a b).negY (x / z ^ 2) (y / z ^ 3)) :=
    fun h => hY (h.2.trans (negY_eq _ _))
  have hyy : y + y ≠ 0 := by
    rw [← two_mul]
    exact mul_ne_zero h2 hy
  have hslope : (short a b).slope (x / z ^ 2) (x / z ^ 2) (y / z ^ 3) (y / z ^ 3) =
      slope / ((y + y) * z) := by
    have hden : y / z ^ 3 - -(y / z ^ 3) ≠ 0 := fun h => hY (sub_eq_zero.mp h)
    rw [slope_of_Y_ne rfl fun h => hY (h.trans (negY_eq _ _)), negY_eq,
      div_eq_div_iff hden (mul_ne_zero hyy hz)]
    simp only [short, slope]
    field_simp
    ring
  refine of_slope hxy (mul_ne_zero hyy hz) hslope ?_ ?_
  · simp only [x', s]
    field_simp
    ring
  · simp only [x', s]
    field_simp
    ring

/-- Solutions with equal first coordinates and different second coordinates are inverses. -/
theorem add_eq_infinity_of_cross (hA : StandsFor a b x₁ y₁ z₁ A) (hB : StandsFor a b x₂ y₂ z₂ B)
    (hx : x₁ * (z₂ * z₂) = x₂ * (z₁ * z₁))
    (hy : y₁ * (z₂ * (z₂ * z₂)) ≠ y₂ * (z₁ * (z₁ * z₁))) : A + B = .infinity := by
  obtain ⟨hz₁, heq₁, rfl⟩ := hA
  obtain ⟨hz₂, heq₂, rfl⟩ := hB
  have hX : x₁ / z₁ ^ 2 = x₂ / z₂ ^ 2 := by
    rw [div_eq_div_iff (pow_ne_zero 2 hz₁) (pow_ne_zero 2 hz₂)]
    linear_combination hx
  refine Solution.add_of_vertical hX ((Y_eq_of_X_eq heq₁ heq₂ hX).resolve_left fun hY => hy ?_)
  rw [div_eq_div_iff (pow_ne_zero 3 hz₁) (pow_ne_zero 3 hz₂)] at hY
  linear_combination hY

/-- The sum of two solutions with different first coordinates. -/
theorem add (hA : StandsFor a b x₁ y₁ z₁ A) (hB : StandsFor a b x₂ y₂ z₂ B) :
    let u := x₁ * (z₂ * z₂)
    let s := y₁ * (z₂ * (z₂ * z₂))
    let h := x₂ * (z₁ * z₁) - u
    let r := y₂ * (z₁ * (z₁ * z₁)) - s
    let x' := r * r - h * (h * h) - (u * (h * h) + u * (h * h))
    h ≠ 0 →
    StandsFor a b x' (r * (u * (h * h) - x') - s * (h * (h * h))) (h * (z₁ * z₂)) (A + B) := by
  intro u s h r x' hne
  obtain ⟨hz₁, heq₁, rfl⟩ := hA
  obtain ⟨hz₂, heq₂, rfl⟩ := hB
  have hX : x₁ / z₁ ^ 2 ≠ x₂ / z₂ ^ 2 := by
    intro heq
    rw [div_eq_div_iff (pow_ne_zero 2 hz₁) (pow_ne_zero 2 hz₂)] at heq
    refine hne ?_
    simp only [h, u]
    linear_combination -heq
  have hz : h * (z₁ * z₂) ≠ 0 := mul_ne_zero hne (mul_ne_zero hz₁ hz₂)
  have hslope : (short a b).slope (x₁ / z₁ ^ 2) (x₂ / z₂ ^ 2) (y₁ / z₁ ^ 3) (y₂ / z₂ ^ 3) =
      r / (h * (z₁ * z₂)) := by
    rw [slope_of_X_ne hX, div_eq_div_iff (sub_ne_zero.mpr hX) hz]
    simp only [r, h, u, s]
    field_simp
    ring
  refine of_slope (fun h => hX h.1) hz hslope ?_ ?_
  · simp only [x', h, u]
    field_simp
    ring
  · simp only [u, s]
    field_simp

end StandsFor

/-! ### Points of the group -/

/-- The coordinates stand for the point. -/
structure Represents (a b x y z : F) (A : (short a b).Point) : Prop where
  z_ne_zero : z ≠ 0
  nonsingular : (short a b).Nonsingular (x / z ^ 2) (y / z ^ 3)
  eq_some : A = Point.some (x / z ^ 2) (y / z ^ 3) nonsingular

/-- Coordinates stand for a point exactly when they stand for the solution that it is. -/
theorem represents_iff {x y z : F} {A : (short a b).Point} :
    Represents a b x y z A ↔ StandsFor a b x y z (.ofPoint A) := by
  constructor
  · rintro ⟨hz, hns, rfl⟩
    exact ⟨hz, hns.1, rfl⟩
  · rintro ⟨hz, heq, hA⟩
    cases A with
    | zero => cases hA
    | some x' y' hns =>
        obtain ⟨rfl, rfl⟩ := Solution.affine.inj hA
        exact ⟨hz, hns, rfl⟩

end TrustedPlatform.Weierstrass
