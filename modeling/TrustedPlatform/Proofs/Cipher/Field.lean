import Mathlib.Algebra.CharP.Two
import Mathlib.Algebra.Field.ZMod
import Mathlib.Data.List.Iterate
import Mathlib.RingTheory.AdjoinRoot
import TrustedPlatform.Cipher.Field

/-!
# Bytes are polynomials over two elements

The bits of a byte are the coefficients of a polynomial of degree below eight. Under this reading the
exclusive-or of two bytes is the sum, doubling is multiplication by `x` and `ByteField.mul` is the
product, reduced by `x^8 + x^4 + x^3 + x + 1`; the inverse is the 254th power, and the reciprocal of
every byte but zero.
-/

namespace TrustedPlatform.ByteField

open Polynomial

/-! ### Bytes -/

/-- Adding an element twice changes nothing. -/
theorem xor_cancel_left (a b : UInt8) : a ^^^ (a ^^^ b) = b := by
  rw [← UInt8.xor_assoc, UInt8.xor_self, UInt8.zero_xor]

/-- The order of the elements of a sum does not matter. -/
theorem xor_left_comm (a b c : UInt8) : a ^^^ (b ^^^ c) = b ^^^ (a ^^^ c) := by
  rw [← UInt8.xor_assoc, UInt8.xor_comm a, UInt8.xor_assoc]

/-- The highest bit of a byte. -/
theorem shiftRight_seven (x : UInt8) : x >>> 7 = 0 ∨ x >>> 7 = 1 := by
  have hlt : (x >>> 7).toNat < 2 := by
    rw [UInt8.toNat_shiftRight]
    show x.toNat >>> 7 < 2
    rw [Nat.shiftRight_eq_div_pow]
    have := x.toNat_lt
    omega
  rw [← UInt8.toNat_inj, ← UInt8.toNat_inj]
  show (x >>> 7).toNat = 0 ∨ (x >>> 7).toNat = 1
  omega

/-- Doubling is linear. -/
theorem double_xor (a b : UInt8) : double (a ^^^ b) = double a ^^^ double b := by
  have hreduce {x y : UInt8} (hx : x = 0 ∨ x = 1) (hy : y = 0 ∨ y = 1) :
      (x ^^^ y) * 0x1b = x * 0x1b ^^^ y * 0x1b := by
    rcases hx with rfl | rfl <;> rcases hy with rfl | rfl <;> rfl
  rw [double, double, double, UInt8.shiftLeft_xor, UInt8.shiftRight_xor,
    hreduce (shiftRight_seven a) (shiftRight_seven b)]
  simp only [UInt8.xor_assoc, xor_left_comm, UInt8.xor_comm]

/-! ### Polynomials -/

/-- The polynomial whose coefficients are the bits of a byte, the lowest first. -/
noncomputable def polynomial (a : UInt8) : (ZMod 2)[X] :=
  ∑ i ∈ Finset.range 8, if a.toNat.testBit i then X ^ i else 0

/-- The polynomial by which products are reduced. -/
noncomputable def modulus : (ZMod 2)[X] :=
  X ^ 8 + (X ^ 4 + X ^ 3 + X + 1)

/-- A coefficient of the polynomial of a byte is a bit of the byte. -/
theorem coeff_polynomial (a : UInt8) (i : Nat) :
    (polynomial a).coeff i = if i < 8 ∧ a.toNat.testBit i then 1 else 0 := by
  have hterm : ∀ j, (if a.toNat.testBit j then X ^ j else (0 : (ZMod 2)[X])).coeff i =
      if i = j then (if a.toNat.testBit j then 1 else 0) else 0 := by
    intro j
    split
    · rw [coeff_X_pow]
    · simp
  simp only [polynomial, finsetSum_coeff, hterm, Finset.sum_ite_eq, Finset.mem_range]
  by_cases hi : i < 8 <;> simp [hi]

/-- The polynomial of a byte has degree below eight. -/
theorem degree_polynomial_lt (a : UInt8) : (polynomial a).degree < 8 := by
  refine (degree_lt_iff_coeff_zero _ 8).mpr fun i hi => ?_
  rw [coeff_polynomial, if_neg (by omega)]

/-- No two bytes have one polynomial. -/
theorem polynomial_injective : Function.Injective polynomial := by
  intro a b h
  refine UInt8.toNat_inj.mp (Nat.eq_of_testBit_eq fun i => ?_)
  by_cases hi : i < 8
  · have hcoeff := congrArg (coeff · i) h
    simp only [coeff_polynomial, hi, true_and] at hcoeff
    rw [Bool.eq_iff_iff]
    by_cases ha : a.toNat.testBit i <;> by_cases hb : b.toNat.testBit i <;> simp_all
  · have hlarge : 2 ^ 8 ≤ 2 ^ i := Nat.pow_le_pow_right (by decide) (Nat.le_of_not_lt hi)
    rw [Nat.testBit_lt_two_pow (a.toNat_lt.trans_le hlarge),
      Nat.testBit_lt_two_pow (b.toNat_lt.trans_le hlarge)]

/-- The polynomial of an exclusive-or is the sum. -/
theorem polynomial_xor (a b : UInt8) : polynomial (a ^^^ b) = polynomial a + polynomial b := by
  ext i
  simp only [coeff_add, coeff_polynomial, UInt8.toNat_xor, Nat.testBit_xor]
  by_cases hi : i < 8
  · cases a.toNat.testBit i <;> cases b.toNat.testBit i <;> simp [hi, CharTwo.add_self_eq_zero]
  · simp [hi]

/-- The lower terms of the modulus have degree below eight. -/
theorem degree_modulus_tail : (X ^ 4 + X ^ 3 + X + 1 : (ZMod 2)[X]).degree < 8 := by
  refine (degree_lt_iff_coeff_zero _ 8).mpr fun i hi => ?_
  simp only [coeff_add, coeff_X_pow, coeff_X, coeff_one]
  rw [if_neg (by omega), if_neg (by omega), if_neg (by omega), if_neg (by omega)]
  simp

/-- The modulus is monic. -/
theorem modulus_monic : modulus.Monic :=
  monic_X_pow_add degree_modulus_tail

/-- The modulus has degree eight. -/
theorem degree_modulus : modulus.degree = 8 := by
  have hlt : (X ^ 4 + X ^ 3 + X + 1 : (ZMod 2)[X]).degree < (X ^ 8 : (ZMod 2)[X]).degree := by
    rw [degree_X_pow]
    exact degree_modulus_tail
  rw [modulus, degree_add_eq_left_of_degree_lt hlt, degree_X_pow]
  rfl

/-! ### Residues -/

/-- The residue of a byte's polynomial. -/
noncomputable def residue (a : UInt8) : AdjoinRoot modulus :=
  AdjoinRoot.mk modulus (polynomial a)

/-- The residue of `x`. -/
noncomputable abbrev root : AdjoinRoot modulus :=
  AdjoinRoot.root modulus

/-- A byte whose residue is the one of a polynomial is the byte of its remainder. -/
theorem polynomial_eq_modByMonic {a : UInt8} {p : (ZMod 2)[X]}
    (h : residue a = AdjoinRoot.mk modulus p) : polynomial a = p %ₘ modulus := by
  have hdegree : (polynomial a).degree < modulus.degree := by
    rw [degree_modulus]
    exact degree_polynomial_lt a
  have hremainder := congrArg (AdjoinRoot.modByMonicHom modulus_monic) h
  rwa [residue, AdjoinRoot.modByMonicHom_mk, AdjoinRoot.modByMonicHom_mk,
    (modByMonic_eq_self_iff modulus_monic).mpr hdegree] at hremainder

/-- No two bytes have one residue. -/
theorem residue_injective : Function.Injective residue := by
  intro a b h
  apply polynomial_injective
  rw [polynomial_eq_modByMonic h, ← polynomial_eq_modByMonic (a := b) rfl]

/-- The residue of a byte is the sum of the powers of `x` at its bits. -/
theorem residue_eq_sum (a : UInt8) :
    residue a = ∑ i ∈ Finset.range 8, if a.toNat.testBit i then root ^ i else 0 := by
  rw [residue, polynomial, map_sum]
  refine Finset.sum_congr rfl fun i _ => ?_
  split
  · rw [map_pow, AdjoinRoot.mk_X]
  · rw [map_zero]

/-- A residue added to itself is zero. -/
theorem residue_add_self (z : AdjoinRoot modulus) : z + z = 0 := by
  have htwo : (2 : ZMod 2) = 0 := rfl
  rw [← two_smul (ZMod 2) z, htwo, zero_smul]

/-- The eighth power of `x` is the rest of the modulus. -/
theorem root_pow_eight : root ^ 8 = root ^ 4 + root ^ 3 + root + 1 := by
  have hzero : AdjoinRoot.mk modulus (X ^ 8 + (X ^ 4 + X ^ 3 + X + 1)) = 0 := AdjoinRoot.mk_self
  simp only [map_add, map_pow, AdjoinRoot.mk_X, map_one] at hzero
  exact add_right_cancel (hzero.trans (residue_add_self _).symm)

/-! ### Bytes and residues -/

/-- The residue of an exclusive-or is the sum. -/
theorem residue_xor (a b : UInt8) : residue (a ^^^ b) = residue a + residue b := by
  rw [residue, polynomial_xor, map_add]
  rfl

/-- The residue of zero. -/
@[simp] theorem residue_zero : residue 0 = 0 := by
  simp [residue_eq_sum]

/-- The residue of a byte with one bit is a power of `x`. -/
theorem residue_two_pow {k : Nat} (hk : k < 8) : residue (UInt8.ofNat (2 ^ k)) = root ^ k := by
  have hlt : 2 ^ k < 2 ^ 8 := Nat.pow_lt_pow_right (by decide) hk
  simp only [residue_eq_sum, UInt8.toNat_ofNat', Nat.mod_eq_of_lt hlt, Nat.testBit_two_pow,
    decide_eq_true_eq]
  rw [Finset.sum_ite_eq, if_pos (Finset.mem_range.mpr hk)]

/-- The residue of one. -/
@[simp] theorem residue_one : residue 1 = 1 :=
  (residue_two_pow (k := 0) (by decide)).trans (pow_zero _)

/-- The residue of two. -/
@[simp] theorem residue_two : residue 2 = root :=
  (residue_two_pow (k := 1) (by decide)).trans (pow_one _)

/-- The constant of the reduction is the rest of the modulus. -/
theorem residue_reduction : residue 0x1b = root ^ 8 := by
  have h8 : residue 0x08 = root ^ 3 := residue_two_pow (k := 3) (by decide)
  have h16 : residue 0x10 = root ^ 4 := residue_two_pow (k := 4) (by decide)
  rw [show (0x1b : UInt8) = 0x10 ^^^ 0x08 ^^^ 2 ^^^ 1 from rfl, residue_xor, residue_xor,
    residue_xor, h8, h16, residue_two, residue_one, root_pow_eight]

/-- A bit of a byte shifted right. -/
theorem testBit_shiftRight (a : UInt8) {count : Nat} (h : count < 8) (i : Nat) :
    (a >>> UInt8.ofNat count).toNat.testBit i = a.toNat.testBit (count + i) := by
  rw [UInt8.toNat_shiftRight, Nat.testBit_shiftRight, UInt8.toNat_ofNat',
    Nat.mod_eq_of_lt (h.trans (by decide)), Nat.mod_eq_of_lt h]

/-- A byte is its lowest bit and the others, multiplied by `x`. -/
theorem residue_eq_add_shiftRight (b : UInt8) :
    residue b =
      (if b.toNat.testBit 0 then (1 : AdjoinRoot modulus) else 0) + root * residue (b >>> 1) := by
  have hshift : ∀ i, (b >>> 1).toNat.testBit i = b.toNat.testBit (i + 1) := fun i => by
    rw [Nat.add_comm]
    exact testBit_shiftRight b (by decide : 1 < 8) i
  have htop : b.toNat.testBit 8 = false := Nat.testBit_lt_two_pow b.toNat_lt
  rw [residue_eq_sum, residue_eq_sum, Finset.sum_range_succ', Finset.sum_range_succ _ 7]
  simp only [hshift, htop, Bool.false_eq_true, if_false, add_zero, Finset.mul_sum, mul_ite,
    mul_zero, ← pow_succ', pow_zero]
  exact add_comm _ _

/-- Doubling is multiplication by `x`. -/
theorem residue_double (a : UInt8) : residue (double a) = root * residue a := by
  have hlow : (a <<< 1).toNat.testBit 0 = false := by
    rw [UInt8.toNat_shiftLeft, Nat.testBit_mod_two_pow, Nat.testBit_shiftLeft]
    rfl
  have hbit : ∀ i ∈ Finset.range 7, (a <<< 1).toNat.testBit (i + 1) = a.toNat.testBit i := by
    intro i hi
    rw [UInt8.toNat_shiftLeft, Nat.testBit_mod_two_pow, Nat.testBit_shiftLeft,
      decide_eq_true (Nat.succ_lt_succ (Finset.mem_range.mp hi)), Bool.true_and]
    simp
  have hshift : residue (a <<< 1) =
      ∑ i ∈ Finset.range 7, if a.toNat.testBit i then root ^ (i + 1) else 0 := by
    rw [residue_eq_sum, Finset.sum_range_succ', hlow, if_neg Bool.false_ne_true, add_zero]
    exact Finset.sum_congr rfl fun i hi => by rw [hbit i hi]
  have hreduce : residue ((a >>> 7) * 0x1b) = if a.toNat.testBit 7 then root ^ 8 else 0 := by
    have htop : (a >>> 7).toNat.testBit 0 = a.toNat.testBit 7 :=
      testBit_shiftRight a (by decide : 7 < 8) 0
    rw [← htop]
    rcases shiftRight_seven a with h | h
    · simp [h]
    · simp [h, residue_reduction]
  rw [double, residue_xor, hshift, hreduce, residue_eq_sum a, Finset.mul_sum,
    Finset.sum_range_succ _ 7]
  simp only [mul_ite, mul_zero, ← pow_succ']

/-! ### Products and powers -/

/-- A mask made of the lowest bit of a byte keeps all or nothing. -/
theorem residue_and_mask (a b : UInt8) :
    residue (a &&& (0 - (b &&& 1))) = if b.toNat.testBit 0 then residue a else 0 := by
  have hlow : (b &&& 1).toNat = (b.toNat.testBit 0).toNat := by
    rw [UInt8.toNat_and, Nat.testBit_zero]
    show b.toNat &&& 1 = _
    rw [Nat.and_one_is_mod]
    rcases Nat.mod_two_eq_zero_or_one b.toNat with h | h <;> simp [h]
  cases h : b.toNat.testBit 0 with
  | false =>
      have hzero : b &&& 1 = 0 := UInt8.toNat_inj.mp (by rw [hlow, h]; rfl)
      simp [hzero]
  | true =>
      have hone : b &&& 1 = 1 := UInt8.toNat_inj.mp (by rw [hlow, h]; rfl)
      simp [hone]

/-- The steps of a product add it to what was accumulated. -/
theorem residue_mulSteps {count : Nat} (a : UInt8) {b : UInt8} (p : UInt8)
    (h : b.toNat < 2 ^ count) :
    residue (mulSteps count a b p) = residue p + residue a * residue b := by
  induction count generalizing a b p with
  | zero =>
      have hb : b = 0 := UInt8.toNat_inj.mp (Nat.lt_one_iff.mp h)
      rw [mulSteps, hb, residue_zero, mul_zero, add_zero]
  | succ count ih =>
      have hshift : (b >>> 1).toNat < 2 ^ count := by
        rw [UInt8.toNat_shiftRight]
        show b.toNat >>> 1 < 2 ^ count
        rw [Nat.shiftRight_eq_div_pow]
        omega
      rw [mulSteps, ih _ _ hshift, residue_xor, residue_double, residue_and_mask,
        residue_eq_add_shiftRight b]
      split
      · ring
      · ring

/-- The residue of a product is the product of the residues. -/
theorem residue_mul (a b : UInt8) : residue (mul a b) = residue a * residue b := by
  rw [mul, residue_mulSteps a 0 b.toNat_lt, residue_zero, zero_add]

/-- The residue of an inverse is the 254th power. -/
theorem residue_inverse (a : UInt8) : residue (inverse a) = residue a ^ 254 := by
  simp only [inverse, residue_mul]
  ring

/-- The inverse of zero is zero. -/
theorem inverse_zero : inverse 0 = 0 := by
  apply residue_injective
  rw [residue_inverse, residue_zero, zero_pow (by decide)]

/-- The product of two bytes is the reduced product of their polynomials. -/
theorem polynomial_mul (a b : UInt8) :
    polynomial (mul a b) = polynomial a * polynomial b %ₘ modulus := by
  apply polynomial_eq_modByMonic
  rw [residue_mul, map_mul]
  rfl

/-- The inverse of a byte is the reduced 254th power of its polynomial. -/
theorem polynomial_inverse (a : UInt8) :
    polynomial (inverse a) = polynomial a ^ 254 %ₘ modulus := by
  apply polynomial_eq_modByMonic
  rw [residue_inverse, map_pow]
  rfl

/-! ### Reciprocals -/

/-- The product of an element with `x + 1`. -/
def triple (a : UInt8) : UInt8 :=
  double a ^^^ a

/-- The powers of `x + 1` are residues of bytes. -/
theorem residue_iterate_triple (k : Nat) : residue (triple^[k] 1) = (root + 1) ^ k := by
  induction k with
  | zero => simp
  | succ k ih =>
      rw [Function.iterate_succ_apply', triple, residue_xor, residue_double, ih]
      ring

/-- The number with a bit for every member of a list. -/
def memberBits (l : List Nat) : Nat :=
  l.foldl (fun bits a => bits ||| 2 ^ a) 0

/-- Members are added to those that are there. -/
theorem testBit_foldl_or_two_pow (l : List Nat) (bits i : Nat) :
    (l.foldl (fun bits a => bits ||| 2 ^ a) bits).testBit i = true ↔
      bits.testBit i = true ∨ i ∈ l := by
  induction l generalizing bits with
  | nil => simp
  | cons a l ih =>
      rw [List.foldl_cons, ih, Nat.testBit_or, Nat.testBit_two_pow, Bool.or_eq_true,
        decide_eq_true_eq, List.mem_cons, or_assoc, eq_comm (a := a)]

/-- A number is a member exactly when its bit is there. -/
theorem testBit_memberBits (l : List Nat) (i : Nat) : (memberBits l).testBit i = true ↔ i ∈ l := by
  rw [memberBits, testBit_foldl_or_two_pow, Nat.zero_testBit, or_iff_right Bool.false_ne_true]

/-- Lists with the same bits have the same members. -/
theorem mem_iff_of_memberBits_eq {l m : List Nat} (h : memberBits l = memberBits m) {i : Nat} :
    i ∈ l ↔ i ∈ m := by
  rw [← testBit_memberBits, h, testBit_memberBits]

/-- A list of some length with every number below it has each of them once. -/
theorem perm_range_of_memberBits {l : List Nat} {n : Nat} (hlen : l.length = n)
    (h : memberBits l = 2 ^ n - 1) : l.Perm (List.range n) := by
  have hsubset : List.range n ⊆ l := by
    intro i hi
    rw [← testBit_memberBits, h, Nat.testBit_two_pow_sub_one]
    exact decide_eq_true (List.mem_range.mp hi)
  have hsubperm := List.subperm_of_subset List.nodup_range hsubset
  exact (hsubperm.perm_of_length_le (by rw [hlen, List.length_range])).symm

/-- Zero and the powers of `x + 1` below the 255th are all bytes, and the 255th power is one. -/
theorem memberBits_powers :
    memberBits (0 :: (List.iterate triple 1 255).map UInt8.toNat) = 2 ^ 256 - 1 ∧
      triple^[255] 1 = 1 := by decide +kernel

/-- The powers of `x + 1` below the 255th are all bytes but zero. -/
theorem iterate_triple_perm :
    (0 :: (List.iterate triple 1 255).map UInt8.toNat).Perm (List.range 256) := by
  refine perm_range_of_memberBits ?_ memberBits_powers.1
  rw [List.length_cons, List.length_map, List.length_iterate]

/-- A byte that is not zero is a power of `x + 1`. -/
theorem exists_iterate_triple {a : UInt8} (h : a ≠ 0) : ∃ k < 255, a = triple^[k] 1 := by
  have hmem : a.toNat ∈ 0 :: (List.iterate triple 1 255).map UInt8.toNat :=
    iterate_triple_perm.mem_iff.mpr (List.mem_range.mpr a.toNat_lt)
  rcases List.mem_cons.mp hmem with hzero | hpower
  · exact absurd (UInt8.toNat_inj.mp hzero) h
  · obtain ⟨b, hb, hba⟩ := List.mem_map.mp hpower
    exact List.mem_iterate.mp (UInt8.toNat_inj.mp hba ▸ hb)

/-- The 255th power of `x + 1` is one. -/
theorem root_add_one_pow : (root + 1) ^ 255 = 1 := by
  rw [← residue_iterate_triple, memberBits_powers.2, residue_one]

/-- The inverse of a byte that is not zero is its reciprocal. -/
theorem mul_inverse {a : UInt8} (h : a ≠ 0) : mul a (inverse a) = 1 := by
  obtain ⟨k, -, rfl⟩ := exists_iterate_triple h
  apply residue_injective
  rw [residue_mul, residue_inverse, ← pow_succ', residue_iterate_triple, ← pow_mul, mul_comm,
    pow_mul, root_add_one_pow, one_pow, residue_one]

/-- The inverse of a power of `x + 1` is the power that makes it the 255th. -/
theorem inverse_iterate_triple {k : Nat} (hk : k ≤ 255) :
    inverse (triple^[k] 1) = triple^[255 - k] 1 := by
  apply residue_injective
  rw [residue_inverse, residue_iterate_triple, residue_iterate_triple]
  -- both are reciprocals of the power
  refine left_inv_eq_right_inv (a := (root + 1) ^ k) ?_ ?_
  · rw [← pow_succ, ← pow_mul, mul_comm, pow_mul, root_add_one_pow, one_pow]
  · rw [← pow_add, Nat.add_sub_cancel' hk, root_add_one_pow]

/-- The bytes with their inverses: zero, and the powers of `x + 1` with those that make them the
255th. -/
def inverses : List (UInt8 × UInt8) :=
  let powers := List.iterate triple 1 256
  (0, 0) :: powers.zip powers.reverse

/-- Every byte is listed with its inverse. -/
theorem mem_inverses (a : UInt8) : (a, inverse a) ∈ inverses := by
  by_cases h : a = 0
  · rw [h, inverse_zero]
    exact List.mem_cons_self
  · obtain ⟨k, hk, rfl⟩ := exists_iterate_triple h
    have hpower : ∀ j < 256, (List.iterate triple 1 256)[j]? = some (triple^[j] 1) := fun j hj => by
      rw [List.getElem?_eq_getElem (by rwa [List.length_iterate]), List.getElem_iterate]
    have hreverse : (List.iterate triple 1 256).reverse[k]? = some (triple^[255 - k] 1) := by
      rw [List.getElem?_reverse (by rw [List.length_iterate]; omega), List.length_iterate,
        hpower _ (by omega)]
    unfold inverses
    refine List.mem_cons_of_mem _ (List.mem_iff_getElem?.mpr ⟨k, ?_⟩)
    rw [inverse_iterate_triple hk.le, List.getElem?_zip_eq_some]
    exact ⟨hpower k (by omega), hreverse⟩

end TrustedPlatform.ByteField
