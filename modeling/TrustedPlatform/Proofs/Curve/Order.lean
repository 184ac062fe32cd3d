import Mathlib.Data.ZMod.QuotientGroup
import TrustedPlatform.Curve.KeyPair
import TrustedPlatform.Proofs.Arithmetic.Primality
import TrustedPlatform.Proofs.Curve.Affine
import TrustedPlatform.Proofs.Random.Outcome

/-!
# Multiples of a generator of prime order

Where the generator of a registered curve has the order that its description names, its multiples
are indexed by the residues modulo the order, and for a prime order only the zero residue gives
infinity. Private and drawn scalars, digests and the wire forms of scalars are read as such
residues.
-/

namespace TrustedPlatform

open LawfulArithmetic (Denotes)
open Limbs (count count_mono count_le_iff)

variable {α : Type} [Arithmetic α] [LawfulArithmetic α]

/-- The curve is registered, and its order times its generator is infinity. -/
structure CurveParameters.Generated (d : CurveParameters) [Fact d.p.Prime] : Prop where
  mem : d ∈ all
  nsmul_generator : d.n • d.point d.generator = 0

namespace CurveParameters

variable {d : CurveParameters} [Fact d.p.Prime]

/-- The generator is not infinity. -/
theorem point_generator_ne_zero (hd : d ∈ all) : d.point d.generator ≠ 0 :=
  (generator_onCurve d hd).point_ne_zero (regular_of_mem d hd) one_ne_zero

/-- Two multiples of a finite point of prime order are equal exactly for equal residues. -/
theorem nsmul_eq_nsmul_iff [Fact d.n.Prime] {A : d.curve.Point} (hA : A ≠ 0) (horder : d.n • A = 0)
    {s t : Nat} : s • A = t • A ↔ (s : ZMod d.n) = t := by
  rw [nsmul_eq_nsmul_iff_modEq, addOrderOf_eq_prime horder hA, ZMod.natCast_eq_natCast_iff]

namespace Generated

variable (h : d.Generated)

/-- The multiples of the generator by the residues modulo its order. -/
noncomputable def multiple : ZMod d.n →+ d.curve.Point :=
  ZMod.lift d.n ⟨zmultiplesHom _ (d.point d.generator), by
    rw [zmultiplesHom_apply, natCast_zsmul]
    exact h.nsmul_generator⟩

/-- The residue of a number gives the multiple by the number. -/
theorem multiple_natCast (k : Nat) : h.multiple k = k • d.point d.generator := by
  have hlift := ZMod.lift_coe d.n ⟨zmultiplesHom _ (d.point d.generator), by
    rw [zmultiplesHom_apply, natCast_zsmul]
    exact h.nsmul_generator⟩ k
  rw [Int.cast_natCast] at hlift
  rw [multiple, hlift, zmultiplesHom_apply, natCast_zsmul]

/-- A multiple of a multiple. -/
theorem nsmul_multiple (k : Nat) (s : ZMod d.n) : k • h.multiple s = h.multiple (k * s) := by
  rw [← map_nsmul, nsmul_eq_mul]

/-- For a prime order, only the zero residue gives infinity. -/
theorem multiple_eq_zero_iff [Fact d.n.Prime] {s : ZMod d.n} : h.multiple s = 0 ↔ s = 0 := by
  constructor
  · intro hzero
    by_contra hs
    -- an inverse of the residue would make the generator infinite
    have hone : h.multiple (s⁻¹.val * s) = 0 := by
      rw [← h.nsmul_multiple, hzero, nsmul_zero]
    rw [ZMod.natCast_zmod_val, inv_mul_cancel₀ hs, ← Nat.cast_one, h.multiple_natCast,
      one_nsmul] at hone
    exact point_generator_ne_zero h.mem hone
  · rintro rfl
    exact map_zero _

end Generated

/-- The ladder over the exact numbers ends at infinity for the order and the generator. -/
def orderCheck (d : CurveParameters) : Bool :=
  ((Curve.ofParameters d : Curve Nat).scalarMul d.n d.generator).toOption.any Jacobian.isInfinity

/-- A registered curve that passes the check is generated. -/
theorem Generated.of_orderCheck (hd : d ∈ all) (hcheck : d.orderCheck = true) : d.Generated := by
  have hreg := regular_of_mem d hd
  have hrep := (generator_onCurve d hd).represents (α := Nat) hreg ⟨rfl, rfl, rfl⟩
  obtain ⟨R, hrun, hmultiple⟩ := (hreg.loaded (α := Nat)).scalarMul_returns (k := d.n) rfl hrep
  rw [orderCheck, hrun] at hcheck
  refine ⟨hd, ?_⟩
  generalize d.n • d.point d.generator = A at hmultiple
  cases hmultiple with
  | infinity => rfl
  | finite _ _ hz h =>
      have hfinite := Jacobian.isInfinity_of_residue hz h.z_ne_zero
      exact absurd (hfinite.symm.trans hcheck) Bool.false_ne_true

/-! ### The 256-bit curve of the NIST recommendations -/

/-- A certificate for the field prime of the 256-bit curve and for the order of its generator. -/
def nistP256Certificate : List Lucas.Step := [
  ⟨nistP256.p, 6, [2, 3, 5, 5, 17, 257, 641, 1531, 65537, 490463, 6700417,
    835945042244614951780389953367877943453916927241]⟩,
  ⟨nistP256.n, 7, [2, 2, 2, 2, 3, 71, 131, 373, 3407, 17449, 38189, 187019741, 622491383,
    1002328039319, 2624747550333869278416773953]⟩,
  ⟨835945042244614951780389953367877943453916927241, 11,
    [2, 2, 2, 3, 3, 3, 5, 774023187263532362759620327192479577272145303]⟩,
  ⟨774023187263532362759620327192479577272145303, 3,
    [2, 3, 3, 2411, 34282281433, 11290956913871, 46076956964474543]⟩,
  ⟨2624747550333869278416773953, 7, [2, 2, 2, 2, 2, 2, 3, 3, 1297, 16879, 208150935158385979]⟩,
  ⟨208150935158385979, 2, [2, 3, 11, 43, 127, 3023, 191039911]⟩,
  ⟨46076956964474543, 5, [2, 23, 18169, 78283, 704251]⟩,
  ⟨11290956913871, 13, [2, 5, 17, 66417393611]⟩,
  ⟨1002328039319, 19, [2, 126241, 3969899]⟩,
  ⟨66417393611, 6, [2, 5, 53, 173, 197, 3677]⟩,
  ⟨34282281433, 17, [2, 2, 2, 3, 7, 204061199]⟩,
  ⟨622491383, 5, [2, 311245691]⟩,
  ⟨311245691, 2, [2, 5, 7, 17, 29, 29, 311]⟩,
  ⟨204061199, 11, [2, 11, 23, 107, 3769]⟩,
  ⟨191039911, 3, [2, 3, 5, 41, 155317]⟩,
  ⟨187019741, 2, [2, 2, 5, 9350987]⟩,
  ⟨9350987, 2, [2, 17, 229, 1201]⟩,
  ⟨6700417, 5, [2, 2, 2, 2, 2, 2, 2, 3, 17449]⟩,
  ⟨3969899, 2, [2, 19, 104471]⟩,
  ⟨704251, 2, [2, 3, 3, 5, 5, 5, 313]⟩,
  ⟨490463, 14, [2, 7, 53, 661]⟩,
  ⟨155317, 5, [2, 2, 3, 7, 43, 43]⟩,
  ⟨126241, 7, [2, 2, 2, 2, 2, 3, 5, 263]⟩,
  ⟨104471, 11, [2, 5, 31, 337]⟩,
  ⟨78283, 3, [2, 3, 3, 4349]⟩,
  ⟨65537, 3, [2, 2, 2, 2, 2, 2, 2, 2, 2, 2, 2, 2, 2, 2, 2, 2]⟩]

/-- The field prime of the 256-bit curve and the order of its generator are primes. -/
theorem primes_nistP256 : nistP256.p.Prime ∧ nistP256.n.Prime := by
  have hcertifies : Lucas.certifies nistP256Certificate = true := by decide +kernel
  have hprimes := Lucas.prime_of_certifies hcertifies
  exact ⟨hprimes _ (.head _), hprimes _ (.tail _ (.head _))⟩

/-- The order of the 256-bit curve times its generator is infinity. -/
theorem generated_nistP256 [Fact nistP256.p.Prime] : nistP256.Generated :=
  .of_orderCheck (mem_of_lookup? (show lookup? 3 = .ok nistP256 from rfl)) (by decide +kernel)

end CurveParameters

end TrustedPlatform
