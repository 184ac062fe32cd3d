import TrustedPlatform.Arithmetic.Exact
import TrustedPlatform.Proofs.Integer.Arithmetic
import TrustedPlatform.Proofs.Refinement

/-!
# Operations on buffers refine those on numbers

A buffer denotes a number when it is well formed and holds it. The operations at a given capacity
refine the exact ones as long as their operands denote the exact operands; the room they ask for is
that the scratch area takes the intermediate result and the capacity the final one.
-/

namespace TrustedPlatform.FixedNat

open Limbs (count count_le_iff)

/-- A well-formed buffer that holds the number. -/
structure Denotes (x : FixedNat) (n : Nat) : Prop where
  wellFormed : WellFormed x
  value_eq : x.value = n

/-- The number fits a buffer of the given capacity. -/
def Fits (capacity n : Nat) : Prop :=
  n < UInt64.size ^ max capacity 1

/-- A smaller number fits where a larger one does. -/
theorem Fits.mono {capacity n k : Nat} (h : Fits capacity n) (hle : k ≤ n) : Fits capacity k :=
  Nat.lt_of_le_of_lt hle h

/-- A number fits a capacity that is at least its count of limbs. -/
theorem fits_of_count_le {capacity n : Nat} (h : count n ≤ capacity) : Fits capacity n :=
  count_le_iff.mp (h.trans (Nat.le_max_left _ _))

namespace Denotes

variable {x y : FixedNat} {n k : Nat}

/-- A well-formed buffer denotes the number it holds. -/
theorem of_wellFormed (h : WellFormed x) : x.Denotes x.value :=
  ⟨h, rfl⟩

/-- The size is the number of limbs that the denoted number needs. -/
theorem size_eq (h : x.Denotes n) : x.size = count n := by
  rw [h.wellFormed.size_eq, h.value_eq]

/-- Zero is recognized. -/
theorem isZero_iff (h : x.Denotes n) : x.isZero = true ↔ n = 0 := by
  rw [isZero_eq h.wellFormed, h.value_eq, beq_iff_eq]

/-- A word is recognized. -/
theorem eqWord_iff (h : x.Denotes n) (w : Word) : x.eqWord w = true ↔ n = w.toNat := by
  rw [eqWord_eq h.wellFormed, h.value_eq, beq_iff_eq]

/-- The order is the one of the denoted numbers. -/
theorem compare_eq (h : x.Denotes n) (h' : y.Denotes k) : x.compare y = Ord.compare n k := by
  rw [FixedNat.compare_eq h.wellFormed h'.wellFormed, h.value_eq, h'.value_eq]

/-- The bit length is the one of the denoted number. -/
theorem bitLength_eq (h : x.Denotes n) : x.bitLength = n.size := by
  rw [FixedNat.bitLength_eq, h.value_eq]

end Denotes

variable {room : Prop} {x y z : FixedNat} {n k j capacity : Nat}

/-- The buffer made for a number that fits denotes it. -/
theorem denotes_ofNat (h : Fits capacity n) : (ofNat capacity n).Denotes n :=
  ⟨wellFormed_ofNat h, value_ofNat capacity n⟩

/-- Zero denotes zero. -/
theorem denotes_zero (capacity : Nat) : (zero capacity).Denotes 0 := by
  rw [zero_eq]
  exact denotes_ofNat (Limbs.size_pow_pos _)

/-- A word in a buffer denotes its number. -/
theorem denotes_ofWord (w : Word) (capacity : Nat) : (ofWord w capacity).Denotes w.toNat := by
  rw [ofWord_eq]
  refine denotes_ofNat ((Word.toNat_lt w).trans_le ?_)
  exact Nat.le_self_pow (by omega) _

/-- Holding a number gives a buffer that denotes it. -/
theorem hold?_refines (h : room → Fits capacity n) :
    Refines room Denotes (hold? capacity n) (.ok n) := by
  unfold hold?
  split
  · rename_i hfits
    exact .ok (denotes_ofNat hfits)
  · rename_i hfits
    exact .exhausted fun hroom => hfits (h hroom)

/-- A computation in scratch refines what it refines. -/
theorem inScratch_refines {β γ : Type} {R : β → γ → Prop} {limbs : Nat} {outcome : Checked β}
    {exact : Checked γ} (h : room → limbs ≤ scratchLimbs) (hr : Refines room R outcome exact) :
    Refines room R (inScratch limbs outcome) exact := by
  unfold inScratch
  split
  · rename_i hlt
    exact .exhausted fun hroom => absurd (h hroom) (Nat.not_le.mpr hlt)
  · exact hr

/-- A zero divisor is refused on both sides. -/
theorem unlessZero_refines {β γ : Type} {R : β → γ → Prop} {outcome : Checked β}
    {value : Unit → γ} (hx : x.Denotes n)
    (hr : n ≠ 0 → Refines room R outcome (.ok (value ()))) :
    Refines room R (unlessZero x outcome) (Exact.unlessZero n value) := by
  unfold unlessZero Exact.unlessZero
  rw [hx.value_eq]
  split
  · exact .refused _
  · rename_i hne
    exact hr hne

/-- The sum. -/
theorem add_refines (hx : x.Denotes n) (hy : y.Denotes k)
    (hscratch : room → max (count n) (count k) + 1 ≤ scratchLimbs)
    (hfits : room → Fits capacity (n + k)) :
    Refines room Denotes (add capacity x y) (.ok (n + k)) := by
  rw [add_eq, hx.value_eq, hy.value_eq, hx.size_eq, hy.size_eq]
  exact inScratch_refines hscratch (hold?_refines hfits)

/-- The difference. -/
theorem sub_refines (capacity : Nat) (hx : x.Denotes n) (hy : y.Denotes k)
    (hscratch : room → count n ≤ scratchLimbs) (hfits : room → Fits capacity n) :
    Refines room Denotes (sub capacity x y)
      (if n < k then .error (.fatal .parameter) else .ok (n - k)) := by
  rw [sub_eq hx.wellFormed hy.wellFormed, hx.value_eq, hy.value_eq, hx.size_eq]
  refine .ite Iff.rfl (fun _ => .refused _) fun _ => inScratch_refines hscratch ?_
  exact hold?_refines fun hroom => (hfits hroom).mono (Nat.sub_le n k)

/-- The product. -/
theorem mul_refines (hx : x.Denotes n) (hy : y.Denotes k)
    (hscratch : room → count n + count k ≤ scratchLimbs)
    (hfits : room → Fits capacity (n * k)) :
    Refines room Denotes (mul capacity x y) (.ok (n * k)) := by
  rw [mul_eq, hx.value_eq, hy.value_eq, hx.size_eq, hy.size_eq]
  exact inScratch_refines hscratch (hold?_refines hfits)

/-- The quotient and the remainder. -/
theorem divRem_refines (quotientCapacity remainderCapacity : Nat) (hx : x.Denotes n)
    (hy : y.Denotes k) (hscratch : room → max (count n) (count k) ≤ scratchLimbs)
    (hq : room → Fits quotientCapacity (n / k))
    (hr : k ≠ 0 → room → Fits remainderCapacity (n % k)) :
    Refines room (fun p q => p.1.Denotes q.1 ∧ p.2.Denotes q.2)
      (divRem quotientCapacity remainderCapacity x y)
      (Exact.unlessZero k fun _ => (n / k, n % k)) := by
  rw [divRem_eq hx.wellFormed hy.wellFormed, hx.value_eq, hy.value_eq, hx.size_eq, hy.size_eq]
  refine unlessZero_refines hy fun hne => inScratch_refines hscratch ?_
  refine (hold?_refines hq).bind_ok fun q hq' => ?_
  exact (hold?_refines (hr hne)).bind_ok fun r hr' => .ok ⟨hq', hr'⟩

/-- The remainder. -/
theorem mod_refines (capacity : Nat) (hx : x.Denotes n) (hy : y.Denotes k)
    (hscratch : room → max (count n) (count k) ≤ scratchLimbs)
    (hfits : k ≠ 0 → room → Fits capacity (n % k)) :
    Refines room Denotes (mod capacity x y) (Exact.unlessZero k fun _ => n % k) := by
  rw [mod_eq hx.wellFormed hy.wellFormed, hx.value_eq, hy.value_eq, hx.size_eq, hy.size_eq]
  exact unlessZero_refines hy fun hne => inScratch_refines hscratch (hold?_refines (hfits hne))

/-- The product modulo a third number. -/
theorem modMul_refines (hx : x.Denotes n) (hy : y.Denotes k) (hz : z.Denotes j)
    (hscratch : room → count n + count k ≤ scratchLimbs)
    (hfits : j ≠ 0 → room → Fits capacity (n * k % j)) :
    Refines room Denotes (modMul capacity x y z) (Exact.unlessZero j fun _ => n * k % j) := by
  rw [modMul_eq hz.wellFormed, hx.value_eq, hy.value_eq, hz.value_eq, hx.size_eq, hy.size_eq]
  exact inScratch_refines hscratch (unlessZero_refines hz fun hne => hold?_refines (hfits hne))

/-- The same number in another buffer. -/
theorem resized_refines (hx : x.Denotes n) (hfits : room → Fits capacity n) :
    Refines room Denotes (x.resized capacity) (.ok n) := by
  rw [resized_eq, hx.value_eq]
  exact hold?_refines hfits

end TrustedPlatform.FixedNat
