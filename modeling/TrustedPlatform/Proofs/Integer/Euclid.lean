import TrustedPlatform.Proofs.Arithmetic.Exact
import TrustedPlatform.Proofs.Integer.Refinement

/-!
# Remainder sequences in buffers

Every second number of a remainder sequence has at most half the size of the one two places before,
so the steps that the loops allow themselves always suffice. The cofactors alternate in sign, and
the weighted sum of their magnitudes stays equal to the modulus; no product on the way is larger
than the modulus, and the buffers never overflow.
-/

namespace TrustedPlatform.FixedNat

open Limbs (count count_le_iff count_mono)

/-! ### Enough steps -/

/-- Steps that are enough for the remainder sequence from `x`, `y` to reach zero. -/
def EnoughSteps (steps x y : Nat) : Prop :=
  2 * y.size + 2 ≤ steps ∨ (y < x ∧ x.size + y.size + 1 ≤ steps)

/-- A remainder has fewer bits than the dividend when the divisor is the smaller number. -/
theorem size_mod_lt {x y : Nat} (hy : y ≠ 0) (hlt : y < x) : (x % y).size < x.size := by
  have hmod := Nat.mod_lt x (Nat.pos_of_ne_zero hy)
  have hhalf : 2 * (x % y) ≤ x := by
    have hquotient : y ≤ y * (x / y) :=
      Nat.le_mul_of_pos_right y (Nat.div_pos hlt.le (Nat.pos_of_ne_zero hy))
    have := Nat.div_add_mod x y
    omega
  rcases Nat.eq_zero_or_pos (x % y) with h | h
  · rw [h, Nat.size_zero, Nat.size_pos]
    omega
  · have hlow : 2 ^ ((x % y).size - 1) ≤ x % y :=
      Nat.lt_size.mp (Nat.sub_one_lt (Nat.size_pos.mpr h).ne')
    have hpow : 2 ^ (x % y).size = 2 * 2 ^ ((x % y).size - 1) := by
      rw [← Nat.pow_succ', Nat.succ_eq_add_one, Nat.sub_add_cancel (Nat.size_pos.mpr h)]
    rw [Nat.lt_size]
    omega

/-- Without steps the sequence has nowhere to go. -/
theorem EnoughSteps.ne_zero {steps x y : Nat} (h : EnoughSteps steps x y) : steps ≠ 0 := by
  unfold EnoughSteps at h
  omega

/-- After one step of the sequence the steps left are still enough. -/
theorem EnoughSteps.step {steps x y : Nat} (h : EnoughSteps (steps + 1) x y) (hy : y ≠ 0) :
    EnoughSteps steps y (x % y) := by
  have hmod := Nat.mod_lt x (Nat.pos_of_ne_zero hy)
  refine .inr ⟨hmod, ?_⟩
  rcases h with h | ⟨hlt, h⟩
  · have hsize := Nat.size_le_size hmod.le
    omega
  · have hsize := size_mod_lt hy hlt
    omega

/-! ### Greatest common divisors -/

variable {room : Prop} {x y a m : FixedNat} {n k capacity : Nat}

/-- A remainder by a modulus other than zero, in a buffer that holds the modulus. -/
theorem mod_refines_of_ne (hx : x.Denotes n) (hm : m.Denotes k) (hzero : k ≠ 0)
    (hroom : room → count n ≤ scratchLimbs ∧ count k ≤ scratchLimbs ∧ Fits capacity k) :
    Refines room Denotes (mod capacity x m) (.ok (n % k)) := by
  have hlt := Nat.mod_lt n (Nat.pos_of_ne_zero hzero)
  have hmod := mod_refines capacity hx hm (fun h => max_le (hroom h).1 (hroom h).2.1)
    fun _ h => (hroom h).2.2.mono hlt.le
  rwa [Exact.unlessZero_of_ne hzero] at hmod

/-- The remainder sequence ends in the greatest common divisor. -/
theorem remainderSequence_refines (steps : Nat) (hx : x.Denotes n) (hy : y.Denotes k)
    (hsteps : EnoughSteps steps n k)
    (hroom : room → count n ≤ scratchLimbs ∧ count k ≤ scratchLimbs ∧ Fits capacity k) :
    Refines room Denotes (remainderSequence capacity steps x y) (.ok (Nat.gcd n k)) := by
  induction steps generalizing x y n k with
  | zero => exact absurd rfl hsteps.ne_zero
  | succ steps ih =>
      rw [remainderSequence]
      by_cases hzero : k = 0
      · rw [if_pos (hy.isZero_iff.mpr hzero), hzero, Nat.gcd_zero_right]
        exact .ok hx
      · have hlt := Nat.mod_lt n (Nat.pos_of_ne_zero hzero)
        rw [if_neg (mt hy.isZero_iff.mp hzero), Nat.gcd_comm, Nat.gcd_rec, Nat.gcd_comm]
        refine (mod_refines_of_ne hx hy hzero hroom).bind_ok fun r hr => ?_
        refine ih hy hr (hsteps.step hzero) ?_
        intro h
        obtain ⟨-, hk, hfits⟩ := hroom h
        exact ⟨hk, (count_mono hlt.le).trans hk, hfits.mono hlt.le⟩

/-- A sequence that has ended is not changed by more steps. -/
theorem remainderSequence_of_le {steps more : Nat} {x y g : FixedNat}
    (h : remainderSequence capacity steps x y = .ok g) (hle : steps ≤ more) :
    remainderSequence capacity more x y = .ok g := by
  induction steps generalizing more x y with
  | zero => cases h
  | succ steps ih =>
      obtain ⟨more, rfl⟩ : ∃ k, more = k + 1 := ⟨more - 1, by omega⟩
      rw [remainderSequence] at h ⊢
      split at h
      · rename_i hzero
        rwa [if_pos hzero]
      · rename_i hzero
        obtain ⟨r, hr, h⟩ := exists_of_bind_eq_ok h
        rw [if_neg hzero, hr]
        exact ih h (Nat.le_of_succ_le_succ hle)

/-- The greatest common divisor of two numbers. -/
theorem gcd_refines (hx : x.Denotes n) (hy : y.Denotes k)
    (hroom : room → count n ≤ scratchLimbs ∧ count k ≤ scratchLimbs ∧
      Fits capacity (Nat.gcd n k)) :
    Refines room Denotes (gcd capacity x y) (.ok (Nat.gcd n k)) := by
  have hworking : ∀ j, count j ≤ max (count n) (count k) →
      Fits (max (max (count n) (count k)) 1) j := by
    intro j hj
    exact fits_of_count_le (hj.trans (Nat.le_max_left _ _))
  have hn := hworking n (Nat.le_max_left _ _)
  have hk := hworking k (Nat.le_max_right _ _)
  rw [gcd, hx.size_eq, hy.size_eq, hy.bitLength_eq]
  refine (resized_refines hx fun _ => hn).bind_ok fun x' hx' => ?_
  refine (resized_refines hy fun _ => hk).bind_ok fun y' hy' => ?_
  refine (remainderSequence_refines _ hx' hy' (.inl le_rfl) fun h => ?_).bind_ok fun g hg => ?_
  · exact ⟨(hroom h).1, (hroom h).2.1, hk⟩
  · exact resized_refines hg fun h => (hroom h).2.2

/-! ### Cofactors -/

/-- The integer that a magnitude and a sign make. -/
def Signed.value (magnitude : Nat) (negative : Bool) : Int :=
  if negative then -(magnitude : Int) else magnitude

/-- Without a sign the integer is the magnitude. -/
@[simp] theorem Signed.value_false (magnitude : Nat) : Signed.value magnitude false = magnitude :=
  rfl

/-- With a sign the integer is the negated magnitude. -/
@[simp] theorem Signed.value_true (magnitude : Nat) : Signed.value magnitude true = -magnitude :=
  rfl

/-- A magnitude and a sign that make an integer. -/
structure Signed.Denotes (s : Signed) (t : Int) : Prop where
  magnitude : s.magnitude.Denotes t.natAbs
  value_eq : Signed.value t.natAbs s.negative = t

/-- A magnitude and a sign denote the integer they make. -/
theorem Signed.denotes_mk (hx : x.Denotes n) (negative : Bool) :
    Signed.Denotes ⟨x, negative⟩ (Signed.value n negative) := by
  have habs : (Signed.value n negative).natAbs = n := by
    cases negative with
    | false => exact Int.natAbs_natCast n
    | true => rw [Signed.value_true, Int.natAbs_neg, Int.natAbs_natCast]
  exact ⟨by rw [habs]; exact hx, by rw [habs]⟩

/-- The difference of an integer and one given as a magnitude and a sign. -/
theorem Signed.sub_refines {s : Signed} {t : Int} (hs : s.Denotes t) (hy : y.Denotes k)
    (negative : Bool) (hscratch : room → max (count t.natAbs) (count k) + 1 ≤ scratchLimbs)
    (hfits : room → Fits capacity (t.natAbs + k)) :
    Refines room Signed.Denotes (s.sub capacity y negative)
      (.ok (t - Signed.value k negative)) := by
  obtain ⟨x, sign⟩ := s
  obtain ⟨hx, hvalue⟩ := hs
  have hmax : room → count t.natAbs ≤ scratchLimbs ∧ count k ≤ scratchLimbs := by
    intro h
    exact max_le_iff.mp (Nat.le_of_succ_le (hscratch h))
  rw [Signed.sub]
  by_cases hsign : sign = negative
  · subst negative
    rw [if_neg (fun h => h rfl), hx.compare_eq hy]
    by_cases hlt : t.natAbs < k
    · have hdifference : Signed.value (k - t.natAbs) (!sign) = t - Signed.value k sign := by
        cases sign <;> simp only [Signed.value_false, Signed.value_true, Bool.not_true,
          Bool.not_false] at hvalue ⊢ <;> omega
      have hsub := FixedNat.sub_refines capacity hy hx (fun h => (hmax h).2) fun h =>
        (hfits h).mono (Nat.le_add_left k t.natAbs)
      rw [if_neg (Nat.not_lt.mpr hlt.le)] at hsub
      rw [if_neg (not_not.mpr (Nat.compare_eq_lt.mpr hlt)), ← hdifference]
      exact hsub.bind_ok fun z hz => .ok (Signed.denotes_mk hz _)
    · have hdifference : Signed.value (t.natAbs - k) sign = t - Signed.value k sign := by
        cases sign <;> simp only [Signed.value_false, Signed.value_true] at hvalue ⊢ <;> omega
      have hsub := FixedNat.sub_refines capacity hx hy (fun h => (hmax h).1) fun h =>
        (hfits h).mono (Nat.le_add_right t.natAbs k)
      rw [if_neg hlt] at hsub
      rw [if_pos (mt Nat.compare_eq_lt.mp hlt), ← hdifference]
      exact hsub.bind_ok fun z hz => .ok (Signed.denotes_mk hz _)
  · have hsum : Signed.value (t.natAbs + k) sign = t - Signed.value k negative := by
      obtain rfl : negative = !sign := (Bool.eq_not_of_ne (Ne.symm hsign))
      cases sign <;> simp only [Signed.value_false, Signed.value_true, Bool.not_true,
        Bool.not_false] at hvalue ⊢ <;> omega
    rw [if_pos hsign, ← hsum]
    exact (add_refines hx hy hscratch hfits).bind_ok fun z hz => .ok (Signed.denotes_mk hz sign)

/-- What a cofactor sequence for a modulus keeps: remainders and cofactors do not exceed it, the
cofactors alternate in sign, and the crosswise products of their magnitudes with the remainders add
up to it. -/
structure Balanced (m r0 r1 : Nat) (t0 t1 : Int) : Prop where
  left_le : r0 ≤ m
  right_le : r1 ≤ m
  leftCofactor_le : t0.natAbs ≤ m
  rightCofactor_le : t1.natAbs ≤ m
  sum : t1.natAbs * r0 + t0.natAbs * r1 = m
  alternate : t0 * t1 ≤ 0

namespace Balanced

variable {modulus r0 r1 : Nat} {t0 t1 : Int}

/-- The next cofactor is as large as its two parts together. -/
theorem natAbs_next (h : Balanced modulus r0 r1 t0 t1) :
    (t0 - (r0 / r1 : Nat) * t1).natAbs = t0.natAbs + r0 / r1 * t1.natAbs := by
  have hproduct : ((r0 / r1 : Nat) * t1).natAbs = r0 / r1 * t1.natAbs := by
    rw [Int.natAbs_mul, Int.natAbs_natCast]
  have hquotient : (0 : Int) ≤ (r0 / r1 : Nat) := Int.natCast_nonneg _
  rw [← hproduct]
  rcases mul_nonpos_iff.mp h.alternate with ⟨h0, h1⟩ | ⟨h0, h1⟩
  · have := mul_nonpos_of_nonneg_of_nonpos hquotient h1
    omega
  · have := mul_nonneg hquotient h1
    omega

/-- The next cofactor does not exceed the modulus. -/
theorem natAbs_next_le (h : Balanced modulus r0 r1 t0 t1) (hr : r1 ≠ 0) :
    t0.natAbs + r0 / r1 * t1.natAbs ≤ modulus := by
  calc t0.natAbs + r0 / r1 * t1.natAbs
      ≤ (t0.natAbs + r0 / r1 * t1.natAbs) * r1 :=
        Nat.le_mul_of_pos_right _ (Nat.pos_of_ne_zero hr)
    _ = t1.natAbs * (r0 / r1 * r1) + t0.natAbs * r1 := by ring
    _ ≤ t1.natAbs * r0 + t0.natAbs * r1 :=
        Nat.add_le_add_right (Nat.mul_le_mul_left _ (Nat.div_mul_le_self r0 r1)) _
    _ = modulus := h.sum

/-- A step of the sequence keeps the balance. -/
theorem step (h : Balanced modulus r0 r1 t0 t1) (hr : r1 ≠ 0) :
    Balanced modulus r1 (r0 % r1) t1 (t0 - (r0 / r1 : Nat) * t1) where
  left_le := h.right_le
  right_le := (Nat.mod_lt r0 (Nat.pos_of_ne_zero hr)).le.trans h.right_le
  leftCofactor_le := h.rightCofactor_le
  rightCofactor_le := h.natAbs_next.le.trans (h.natAbs_next_le hr)
  sum := by
    rw [h.natAbs_next, ← h.sum]
    conv_rhs => rw [← Nat.div_add_mod r0 r1]
    ring
  alternate := by
    have hsquare : 0 ≤ (r0 / r1 : Nat) * (t1 * t1) :=
      mul_nonneg (Int.natCast_nonneg _) (mul_self_nonneg t1)
    have hcross := h.alternate
    calc t1 * (t0 - (r0 / r1 : Nat) * t1) = t0 * t1 - (r0 / r1 : Nat) * (t1 * t1) := by ring
      _ ≤ 0 := by omega

end Balanced

/-- The limbs of two factors are at most one more than those of a bound on their product, when
neither factor exceeds it. -/
theorem count_add_count_le {b c bound : Nat} (hb : b ≤ bound) (hc : c ≤ bound)
    (hproduct : b * c ≤ bound) : count b + count c ≤ count bound + 1 := by
  rcases Nat.eq_zero_or_pos (count b) with hb0 | hb0
  · have := count_mono hc
    omega
  · rcases Nat.eq_zero_or_pos (count c) with hc0 | hc0
    · have := count_mono hb
      omega
    · have hblow := Limbs.lt_count_iff.mp (Nat.sub_one_lt hb0.ne')
      have hclow := Limbs.lt_count_iff.mp (Nat.sub_one_lt hc0.ne')
      have hlow : UInt64.size ^ (count b - 1 + (count c - 1)) ≤ bound := by
        rw [Nat.pow_add]
        exact (Nat.mul_le_mul hblow hclow).trans hproduct
      have := Limbs.lt_count_iff.mpr hlow
      omega

/-- The exact sequence takes a step while the divisor is not zero. -/
theorem cofactor_of_ne {r0 r1 : Nat} (h : r1 ≠ 0) (t0 t1 : Int) :
    Exact.cofactor r0 r1 t0 t1 =
      Exact.cofactor r1 (r0 % r1) t1 (t0 - (r0 / r1 : Nat) * t1) := by
  obtain ⟨k, rfl⟩ := Nat.exists_eq_succ_of_ne_zero h
  rw [Exact.cofactor]

/-- Two neighbouring remainders of the sequence with their cofactors. -/
structure Cofactors where
  r0 : FixedNat
  r1 : FixedNat
  t0 : Signed
  t1 : Signed

namespace Cofactors

/-- Buffers that denote the remainders and the cofactors. -/
structure Denotes (s : Cofactors) (n k : Nat) (t0 t1 : Int) : Prop where
  r0 : s.r0.Denotes n
  r1 : s.r1.Denotes k
  t0 : s.t0.Denotes t0
  t1 : s.t1.Denotes t1

/-- One step of the sequence, by a remainder that is not zero. -/
def step (capacity : Nat) (s : Cofactors) : Checked Cofactors := do
  let (q, r2) ← divRem capacity capacity s.r0 s.r1
  let product ← mul capacity q s.t1.magnitude
  let t2 ← s.t0.sub capacity product s.t1.negative
  return ⟨s.r1, r2, s.t1, t2⟩

/-- The sequence goes on from the remainders after one step. -/
theorem sequence_succ (capacity steps : Nat) (s : Cofactors) :
    cofactorSequence capacity (steps + 1) s.r0 s.r1 s.t0 s.t1 =
      if s.r1.isZero then .ok (s.r0, s.t0)
      else s.step capacity >>= fun next =>
        cofactorSequence capacity steps next.r0 next.r1 next.t0 next.t1 := by
  simp only [cofactorSequence, step, bind_assoc, pure_bind]

/-- A sequence that has ended is not changed by more steps. -/
theorem sequence_of_le {steps more : Nat} {s : Cofactors} {last : FixedNat × Signed}
    (h : cofactorSequence capacity steps s.r0 s.r1 s.t0 s.t1 = .ok last) (hle : steps ≤ more) :
    cofactorSequence capacity more s.r0 s.r1 s.t0 s.t1 = .ok last := by
  induction steps generalizing more s with
  | zero => cases h
  | succ steps ih =>
      obtain ⟨more, rfl⟩ : ∃ k, more = k + 1 := ⟨more - 1, by omega⟩
      rw [sequence_succ] at h ⊢
      split at h
      · rename_i hzero
        rwa [if_pos hzero]
      · rename_i hzero
        obtain ⟨next, hnext, h⟩ := exists_of_bind_eq_ok h
        rw [if_neg hzero, hnext]
        exact ih h (Nat.le_of_succ_le_succ hle)

/-- Where the modulus has room, a step returns, since none of its numbers exceeds the modulus. -/
theorem step_refines {modulus : Nat} {s : Cofactors} {t0 t1 : Int} (hs : s.Denotes n k t0 t1)
    (hbalanced : Balanced modulus n k t0 t1) (hzero : k ≠ 0)
    (hroom : room → count modulus + 1 ≤ scratchLimbs ∧ Fits capacity modulus) :
    Refines room (fun s' _ => s'.Denotes k (n % k) t1 (t0 - (n / k : Nat) * t1))
      (s.step capacity) (.ok ()) := by
  have hcount : ∀ j ≤ modulus, room → count j + 1 ≤ scratchLimbs := by
    intro j hj h
    exact (Nat.succ_le_succ (count_mono hj)).trans (hroom h).1
  have hfits : ∀ j ≤ modulus, room → Fits capacity j := fun j hj h => (hroom h).2.mono hj
  have hquotient : n / k ≤ modulus := (Nat.div_le_self n k).trans hbalanced.left_le
  have hrest : n % k ≤ modulus := (Nat.mod_le n k).trans hbalanced.left_le
  have hnext := hbalanced.natAbs_next_le hzero
  have hproduct : n / k * t1.natAbs ≤ modulus := (Nat.le_add_left _ _).trans hnext
  have hdiv := divRem_refines capacity capacity hs.r0 hs.r1
    (fun h => max_le (Nat.le_of_succ_le (hcount n hbalanced.left_le h))
      (Nat.le_of_succ_le (hcount k hbalanced.right_le h)))
    (hfits _ hquotient) fun _ => hfits _ hrest
  rw [Exact.unlessZero_of_ne hzero] at hdiv
  refine hdiv.bind_ok fun qr hqr => ?_
  refine (mul_refines hqr.1 hs.t1.magnitude (fun h => ?_) (hfits _ hproduct)).bind_ok
    fun product hp => ?_
  · exact (count_add_count_le hquotient hbalanced.rightCofactor_le hproduct).trans (hroom h).1
  · have hsub := Signed.sub_refines hs.t0 hp s.t1.negative
      (fun h => Nat.succ_le_of_lt
        (max_lt (hcount _ hbalanced.leftCofactor_le h) (hcount _ hproduct h)))
      (hfits _ hnext)
    have hvalue : Signed.value (n / k * t1.natAbs) s.t1.negative = (n / k : Nat) * t1 := by
      conv_rhs => rw [← hs.t1.value_eq]
      cases s.t1.negative with
      | false => rw [Signed.value_false, Signed.value_false, Nat.cast_mul]
      | true => rw [Signed.value_true, Signed.value_true, Nat.cast_mul, mul_neg]
    rw [hvalue] at hsub
    exact hsub.bind_ok fun t2 ht2 => .ok ⟨hs.r1, hqr.2, hs.t1, ht2⟩

/-- The last remainder of the sequence and its cofactor, which does not exceed the modulus. -/
theorem sequence_refines {modulus : Nat} (steps : Nat) {s : Cofactors} {t0 t1 : Int}
    (hs : s.Denotes n k t0 t1) (hsteps : EnoughSteps steps n k)
    (hbalanced : Balanced modulus n k t0 t1)
    (hroom : room → count modulus + 1 ≤ scratchLimbs ∧ Fits capacity modulus) :
    Refines room (fun p q => p.1.Denotes q.1 ∧ p.2.Denotes q.2 ∧ q.2.natAbs ≤ modulus)
      (cofactorSequence capacity steps s.r0 s.r1 s.t0 s.t1) (.ok (Exact.cofactor n k t0 t1)) := by
  induction steps generalizing s n k t0 t1 with
  | zero => exact absurd rfl hsteps.ne_zero
  | succ steps ih =>
      rw [sequence_succ]
      by_cases hzero : k = 0
      · subst hzero
        rw [if_pos (hs.r1.isZero_iff.mpr rfl), Exact.cofactor]
        exact .ok ⟨hs.r0, hs.t0, hbalanced.leftCofactor_le⟩
      · rw [if_neg (mt hs.r1.isZero_iff.mp hzero), cofactor_of_ne hzero]
        exact (step_refines hs hbalanced hzero hroom).bind_ok fun s' hs' =>
          ih hs' (hsteps.step hzero) (hbalanced.step hzero)

/-- The remainders and cofactors that a sequence comes to. -/
inductive Reached (capacity : Nat) (first : Cofactors) : Cofactors → Prop where
  | first : Reached capacity first first
  | step {s next : Cofactors} (h : Reached capacity first s) (hzero : s.r1.isZero = false)
      (hnext : s.step capacity = .ok next) : Reached capacity first next

/-- Buffers that denote a balance of the modulus. -/
def Balances (modulus : Nat) (s : Cofactors) : Prop :=
  ∃ n k t0 t1, s.Denotes n k t0 t1 ∧ Balanced modulus n k t0 t1

variable {modulus : Nat} {first s : Cofactors}

/-- A balance is kept by a step, which returns and lowers the remainder. -/
theorem Balances.step (h : s.Balances modulus) (hzero : s.r1.isZero = false)
    (hscratch : count modulus + 1 ≤ scratchLimbs) (hfits : Fits capacity modulus) :
    Returns (s.step capacity) fun next => next.Balances modulus ∧ next.r1.value < s.r1.value := by
  obtain ⟨n, k, t0, t1, hs, hbalanced⟩ := h
  have hk : k ≠ 0 := fun hk => by
    rw [hs.r1.isZero_iff.mpr hk] at hzero
    cases hzero
  refine ((step_refines hs hbalanced hk fun _ => ⟨hscratch, hfits⟩).returns trivial).mono
    fun next hnext => ⟨⟨_, _, _, _, hnext, hbalanced.step hk⟩, ?_⟩
  rw [hnext.r1.value_eq, hs.r1.value_eq]
  exact Nat.mod_lt n (Nat.pos_of_ne_zero hk)

/-- Whatever a sequence comes to is a balance when its start is one. -/
theorem Reached.balances (h : Reached capacity first s) (hfirst : first.Balances modulus)
    (hscratch : count modulus + 1 ≤ scratchLimbs) (hfits : Fits capacity modulus) :
    s.Balances modulus := by
  induction h with
  | first => exact hfirst
  | step _ hzero hnext ih =>
      obtain ⟨_, heq, hbalances, -⟩ := ih.step hzero hscratch hfits
      cases hnext.symm.trans heq
      exact hbalances

/-- The remainders and cofactors that the search for an inverse starts from. -/
def start (capacity : Nat) (a m : FixedNat) : Checked Cofactors := do
  let r0 ← m.resized capacity
  let r1 ← mod capacity a m
  return ⟨r0, r1, ⟨zero capacity, false⟩, ⟨ofWord 1 capacity, false⟩⟩

/-- The search for an inverse starts balanced, with the cofactors zero of the modulus and one of the
number. -/
theorem start_refines (hx : a.Denotes n) (hm : m.Denotes k) (hzero : k ≠ 0)
    (hfits : Fits capacity k)
    (hroom : room → count n ≤ scratchLimbs ∧ count k ≤ scratchLimbs) :
    Refines room (fun s _ => s.Denotes k (n % k) 0 1) (start capacity a m) (.ok ()) := by
  refine (resized_refines hm fun _ => hfits).bind_ok fun r0 hr0 => ?_
  refine (mod_refines_of_ne hx hm hzero
    fun h => ⟨(hroom h).1, (hroom h).2, hfits⟩).bind_ok fun r1 hr1 => ?_
  exact .ok ⟨hr0, hr1, Signed.denotes_mk (denotes_zero capacity) false,
    Signed.denotes_mk (denotes_ofWord 1 capacity) false⟩

/-- A number and its modulus are balanced. -/
theorem balanced_start {modulus : Nat} (hzero : modulus ≠ 0) (n : Nat) :
    Balanced modulus modulus (n % modulus) 0 1 :=
  ⟨le_rfl, (Nat.mod_lt n (Nat.pos_of_ne_zero hzero)).le, Nat.zero_le _,
    Nat.one_le_iff_ne_zero.mpr hzero, by simp, by simp⟩

end Cofactors

/-! ### Inverses -/

/-- The remainder of an integer, from the one of its magnitude. -/
theorem emod_toNat (magnitude : Nat) (negative : Bool) {modulus : Nat} (h : modulus ≠ 0) :
    (Signed.value magnitude negative % (modulus : Int)).toNat =
      if negative = true ∧ magnitude % modulus ≠ 0 then modulus - magnitude % modulus
      else magnitude % modulus := by
  have hlt := Nat.mod_lt magnitude (Nat.pos_of_ne_zero h)
  cases negative with
  | false =>
      rw [Signed.value_false, ← Int.natCast_mod, Int.toNat_natCast, if_neg fun h => nomatch h.1]
  | true =>
      rw [Signed.value_true]
      by_cases hzero : magnitude % modulus = 0
      · have hdvd : (modulus : Int) ∣ -(magnitude : Int) :=
          (Int.natCast_dvd_natCast.mpr (Nat.dvd_of_mod_eq_zero hzero)).neg_right
        rw [if_neg fun h => h.2 hzero, hzero, Int.emod_eq_zero_of_dvd hdvd]
        rfl
      · have hsplit : -(magnitude : Int) = ((modulus - magnitude % modulus : Nat) : Int) +
            modulus * (-(magnitude / modulus : Nat) - 1) := by
          have hdiv := Nat.div_add_mod magnitude modulus
          have hcast : (magnitude : Int) =
              modulus * (magnitude / modulus : Nat) + (magnitude % modulus : Nat) := by
            exact_mod_cast hdiv.symm
          rw [Nat.cast_sub hlt.le, hcast]
          ring
        rw [if_pos ⟨rfl, hzero⟩, hsplit, Int.add_mul_emod_self_left, ← Int.natCast_mod,
          Int.toNat_natCast, Nat.mod_eq_of_lt (by omega)]

/-- The remainder of a signed number: the one of its magnitude, taken from the modulus when the sign
asks for it. -/
def Signed.residue (working capacity : Nat) (s : Signed) (m : FixedNat) :
    Checked (Option FixedNat) := do
  let reduced ← mod working s.magnitude m
  if s.negative && !reduced.isZero then do
    let positive ← FixedNat.sub working m reduced
    let result ← positive.resized capacity
    return some result
  else do
    let result ← reduced.resized capacity
    return some result

/-- The remainder of a signed number is the one of the integer it denotes. -/
theorem Signed.residue_refines {working : Nat} {s : Signed} {t : Int} (hs : s.Denotes t)
    (hm : m.Denotes k) (hzero : k ≠ 0)
    (hroom : room → count t.natAbs ≤ scratchLimbs ∧ count k ≤ scratchLimbs)
    (hfits : room → Fits capacity (t % (k : Int)).toNat) (hworking : Fits working k) :
    Refines room (Option.Rel FixedNat.Denotes) (s.residue working capacity m)
      (.ok (some (t % (k : Int)).toNat)) := by
  have hsign := emod_toNat t.natAbs s.negative hzero
  rw [hs.value_eq] at hsign
  rw [hsign] at hfits ⊢
  have hbelow := Nat.mod_lt t.natAbs (Nat.pos_of_ne_zero hzero)
  have hreduce : Refines room FixedNat.Denotes (mod working s.magnitude m) (.ok (t.natAbs % k)) :=
    mod_refines_of_ne hs.magnitude hm hzero fun h => ⟨(hroom h).1, (hroom h).2, hworking⟩
  refine hreduce.bind_ok fun reduced hreduced => ?_
  have hchoice : (s.negative && !reduced.isZero) = true ↔
      s.negative = true ∧ t.natAbs % k ≠ 0 := by
    rw [Bool.and_eq_true, Bool.not_eq_true', ← Bool.not_eq_true, hreduced.isZero_iff]
  by_cases hlift : s.negative = true ∧ t.natAbs % k ≠ 0
  · have hsub : Refines room FixedNat.Denotes (FixedNat.sub working m reduced)
        (.ok (k - t.natAbs % k)) := by
      have h := FixedNat.sub_refines working hm hreduced (fun h => (hroom h).2) fun _ => hworking
      rwa [if_neg (Nat.not_lt.mpr hbelow.le)] at h
    rw [if_pos hlift] at hfits
    rw [if_pos (hchoice.mpr hlift), if_pos hlift]
    refine hsub.bind_ok fun positive hpositive => ?_
    exact (resized_refines hpositive hfits).bind_ok fun result hresult => .ok (.some hresult)
  · rw [if_neg hlift] at hfits
    rw [if_neg (mt hchoice.mp hlift), if_neg hlift]
    exact (resized_refines hreduced hfits).bind_ok fun result hresult => .ok (.some hresult)

/-- The search for an inverse is the cofactor sequence from its start. -/
theorem modInverse_eq_start (capacity : Nat) (a m : FixedNat) :
    modInverse capacity a m =
      if m.isZero then .error (.fatal .divideByZero)
      else Cofactors.start (2 * max m.size a.size + 2) a m >>= fun s =>
        cofactorSequence (2 * max m.size a.size + 2) (2 * s.r1.bitLength + 2) s.r0 s.r1 s.t0 s.t1
          >>= fun last =>
            if last.1.eqWord 1 then
              last.2.residue (2 * max m.size a.size + 2) capacity m
            else .ok none := by
  simp only [modInverse, Cofactors.start, Signed.residue, bind_assoc, pure_bind]
  rfl

/-- The inverse of a number modulo another. -/
theorem modInverse_refines (hx : x.Denotes n) (hm : m.Denotes k)
    (hroom : room → count n ≤ scratchLimbs ∧ count k + 1 ≤ scratchLimbs)
    (hfits : k ≠ 0 → ∀ inverse, Exact.modInverse n k = some inverse → room →
      Fits capacity inverse) :
    Refines room (Option.Rel Denotes) (modInverse capacity x m)
      (Exact.unlessZero k fun _ => Exact.modInverse n k) := by
  rw [modInverse_eq_start, Exact.unlessZero]
  refine .ite hm.isZero_iff (fun _ => .refused _) fun hzero => ?_
  rw [hm.size_eq, hx.size_eq]
  have hmodulus : room → count k ≤ scratchLimbs := fun h => Nat.le_of_succ_le (hroom h).2
  generalize hlimbs : 2 * max (count k) (count n) + 2 = working
  have hworking : Fits working k := by
    refine fits_of_count_le ?_
    have := Nat.le_max_left (count k) (count n)
    omega
  refine (Cofactors.start_refines hx hm hzero hworking
    fun h => ⟨(hroom h).1, hmodulus h⟩).bind_ok fun start hstart => ?_
  rw [hstart.r1.bitLength_eq]
  have hlast : Refines room (fun p q => p.1.Denotes q.1 ∧ p.2.Denotes q.2 ∧ q.2.natAbs ≤ k)
      (cofactorSequence working (2 * (n % k).size + 2) start.r0 start.r1 start.t0 start.t1)
      (.ok (Exact.cofactor k (n % k) 0 1)) :=
    Cofactors.sequence_refines _ hstart (.inl le_rfl) (Cofactors.balanced_start hzero n)
      fun h => ⟨(hroom h).2, hworking⟩
  rw [Exact.modInverse] at hfits ⊢
  generalize Exact.cofactor k (n % k) 0 1 = last at hlast hfits ⊢
  obtain ⟨g, t⟩ := last
  refine hlast.bind_ok ?_
  rintro ⟨divisor, cofactor⟩ ⟨hg, ht, hle⟩
  by_cases hcoprime : g = 1
  · simp only [if_pos ((hg.eqWord_iff 1).mpr hcoprime), if_pos hcoprime]
    refine Signed.residue_refines ht hm hzero (fun h => ?_) (hfits hzero _ (if_pos hcoprime)) hworking
    exact ⟨(count_mono hle).trans (hmodulus h), hmodulus h⟩
  · simp only [if_neg (mt (hg.eqWord_iff 1).mp hcoprime), if_neg hcoprime]
    exact .ok .none

end TrustedPlatform.FixedNat
