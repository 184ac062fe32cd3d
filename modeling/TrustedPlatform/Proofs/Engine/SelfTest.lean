import TrustedPlatform.Arithmetic.Exact
import TrustedPlatform.Engine.SelfTest
import TrustedPlatform.Proofs.Curve.Refinement
import TrustedPlatform.Proofs.Random.Instance

/-!
# Power-on self tests fail fatally

The known answers hold in exact arithmetic, and a lawful arithmetic can miss them only by running
out of room. The generator's test runs within its limits. Whatever goes wrong in a self test is
therefore fatal.
-/

namespace TrustedPlatform

variable {α : Type} [Arithmetic α] [LawfulArithmetic α]

/-- The test of the generator fails fatally. -/
theorem CounterGenerator.fails_fatally_selfTest : FailsFatally selfTest := by
  let g := (instantiate testEntropy [] .default).reseed testReseed []
  -- the test makes two requests, and the default limits allow far more
  have hvalid : GeneratorLimits.default.validate = .ok () := by decide
  have hinterval : 2 ≤ GeneratorLimits.default.reseedInterval := by decide
  have hsecond : (g.generate (List.replicate 64 0)).state.requests ≤ 2 := generate_requests_le g _
  refine .bind (fails_fatally_generate (g := g) hvalid (Nat.le_of_succ_le hinterval)) fun _ _ => ?_
  refine .bind (fails_fatally_generate (g := (g.generate (List.replicate 64 0)).state) ?_ ?_)
    fun _ _ => ?_
  · rw [limits_generate]
    exact hvalid
  · rw [limits_generate]
    exact hsecond.trans hinterval
  · exact .bind (.invariant _ _) fun _ _ => .invariant _ _

namespace SelfTest

/-- The known point is computed in exact arithmetic. -/
theorem curveKnownAnswer_exact : curveKnownAnswer Nat = .ok () :=
  eq_ok_of_isOk (by decide +kernel)

/-- The known power is computed in exact arithmetic. -/
theorem powerKnownAnswer_exact : powerKnownAnswer Nat = .ok () :=
  eq_ok_of_isOk (by decide +kernel)

/-- The test of the curve refines the exact one. -/
theorem curveKnownAnswer_refines :
    Refines True Eq (curveKnownAnswer α) (curveKnownAnswer Nat) := by
  refine (Curve.load_refines _).bind fun c c' hc => ?_
  refine (hc.mul (LawfulArithmetic.ofWord 2) hc.g).bind fun point _ hpoint => ?_
  refine (hc.toWire hpoint).bind fun wire _ hwire => ?_
  subst hwire
  exact .of_eq rfl

/-- The test of the power refines the exact one. -/
theorem powerKnownAnswer_refines :
    Refines True Eq (powerKnownAnswer α) (powerKnownAnswer Nat) := by
  refine (Small.shiftLeft_one (by decide)).bind fun raised _ hraised => ?_
  refine (hraised.sub (LawfulArithmetic.ofWord 1)).bind fun m _ hm => ?_
  refine (Small.modPow (.ofWord _) (LawfulArithmetic.ofWord _) hm).bind fun r _ hr => ?_
  refine (LawfulArithmetic.toBytesPadded hr.denotes 16).bind fun bytes _ hbytes => ?_
  subst hbytes
  exact .of_eq rfl

/-- The self tests refine the exact ones. -/
theorem powerOn_refines : Refines True Eq (powerOn α) (powerOn Nat) := by
  refine Refines.bind (R := Eq) (.of_eq rfl) fun _ _ _ => ?_
  exact curveKnownAnswer_refines.bind fun _ _ _ => powerKnownAnswer_refines

variable (α) in
/-- The self tests fail fatally. -/
theorem fails_fatally_powerOn : FailsFatally (powerOn α) := by
  have hcurve := curveKnownAnswer_refines (α := α)
  have hpower := powerKnownAnswer_refines (α := α)
  rw [curveKnownAnswer_exact] at hcurve
  rw [powerKnownAnswer_exact] at hpower
  refine .bind CounterGenerator.fails_fatally_selfTest fun _ _ => ?_
  refine .bind (.of_refines hcurve) fun _ _ => ?_
  exact .of_refines hpower

end SelfTest

end TrustedPlatform
