import TrustedPlatform.Integer.Division
import TrustedPlatform.Integer.Modular
import TrustedPlatform.Proofs.Integer.FixedNat
import TrustedPlatform.Proofs.Integer.LongDivision

/-!
# Exact results of the operations on numbers of fixed capacity

On well-formed numbers each operation is the operation on natural numbers followed by
`FixedNat.hold?`, preceded by the refusals that it shares with exact arithmetic and by the one of
the scratch area.
-/

namespace TrustedPlatform.FixedNat

open Limbs (count)

/-- The outcome of a computation that needs `count` limbs of scratch. -/
def inScratch {β : Type} (count : Nat) (outcome : Checked β) : Checked β :=
  if scratchLimbs < count then .error (.fatal .allocation) else outcome

variable {a b d m : FixedNat}

/-! ### Sums, differences, products and shifts -/

/-- The sum of two numbers. -/
theorem add_eq (capacity : Nat) (a b : FixedNat) :
    add capacity a b = inScratch (max a.size b.size + 1) (hold? capacity (a.value + b.value)) := by
  rw [add, withScratch, ofLimbs?_eq, Limbs.value_add, Bool.toNat_false, Nat.add_zero]
  rfl

/-- The difference of two numbers. -/
theorem sub_eq (ha : WellFormed a) (hb : WellFormed b) (capacity : Nat) :
    sub capacity a b =
      if a.value < b.value then .error (.fatal .parameter)
      else inScratch a.size (hold? capacity (a.value - b.value)) := by
  rw [sub, compare_eq ha hb]
  by_cases h : a.value < b.value
  · rw [if_pos h, if_pos (Nat.compare_eq_lt.mpr h)]
  · have hvalue := Limbs.value_sub a.words b.words false (Nat.le_of_not_lt h)
    have hdifference : (Limbs.sub a.words b.words false).value = a.value - b.value := by
      rw [Bool.toNat_false, Nat.add_zero] at hvalue
      exact Nat.eq_sub_of_add_eq hvalue
    rw [if_neg h, if_neg (mt Nat.compare_eq_lt.mp h), withScratch, ofLimbs?_eq, hdifference]
    rfl

/-- The product of two numbers. -/
theorem mul_eq (capacity : Nat) (a b : FixedNat) :
    mul capacity a b = inScratch (a.size + b.size) (hold? capacity (a.value * b.value)) := by
  rw [mul, ofLimbs?_eq, Limbs.value_mul]
  rfl

/-- The number times a power of two. -/
theorem shiftLeft_eq (ha : WellFormed a) (capacity bits : Nat) :
    shiftLeft capacity a bits =
      if a.value = 0 then .ok (ofNat capacity 0)
      else inScratch (a.size + bits / 64 + 1) (hold? capacity (a.value * 2 ^ bits)) := by
  rw [shiftLeft, isZero_eq ha, ofLimbs?_eq, Limbs.value_shiftLeft]
  by_cases h : a.value = 0
  · rw [if_pos h, if_pos (beq_iff_eq.mpr h), zero_eq]
  · rw [if_neg h, if_neg (mt beq_iff_eq.mp h)]
    rfl

/-- The quotient of the number by a power of two. -/
theorem shiftRight_eq (capacity : Nat) (a : FixedNat) (bits : Nat) :
    shiftRight capacity a bits =
      if a.size ≤ bits / 64 then .ok (ofNat capacity 0)
      else inScratch (a.size - bits / 64) (hold? capacity (a.value / 2 ^ bits)) := by
  rw [shiftRight, withScratch, ofLimbs?_eq, Limbs.value_shiftRight, zero_eq]
  rfl

/-! ### Division -/

/-- The quotient and the remainder of a division of limbs by a number that is not zero. -/
theorem value_div (hd : WellFormed d) (hzero : d.value ≠ 0) {ws : Limbs}
    (hlen : d.size ≤ ws.length) :
    (Limbs.div ws d.words).quotient.value = ws.value / d.value ∧
      (Limbs.div ws d.words).remainder.value = ws.value % d.value := by
  refine Limbs.div_spec (fun h => hzero ?_) (hd.top_word_ne_zero hzero) (hd.length_words ▸ hlen)
  rw [value, h, Limbs.value_nil]

/-- The limbs of quotient and remainder, when the division is not refused. -/
theorem division_spec (ha : WellFormed a) (hd : WellFormed d) :
    (d.value = 0 ∧ division a d = .error (.fatal .divideByZero)) ∨
      (d.value ≠ 0 ∧ (scratchLimbs < a.size ∨ scratchLimbs < d.size) ∧
        division a d = .error (.fatal .allocation)) ∨
      (d.value ≠ 0 ∧ ¬(scratchLimbs < a.size ∨ scratchLimbs < d.size) ∧
        ∃ result, division a d = .ok result ∧
          result.quotient.value = a.value / d.value ∧
          result.remainder.value = a.value % d.value) := by
  unfold division
  rw [isZero_eq hd, compare_eq ha hd]
  by_cases hzero : d.value = 0
  · exact .inl ⟨hzero, if_pos (beq_iff_eq.mpr hzero)⟩
  · rw [if_neg (mt beq_iff_eq.mp hzero)]
    by_cases hroom : scratchLimbs < a.size ∨ scratchLimbs < d.size
    · exact .inr (.inl ⟨hzero, hroom, if_pos hroom⟩)
    · rw [if_neg hroom]
      refine .inr (.inr ⟨hzero, hroom, ?_⟩)
      by_cases hlt : a.value < d.value
      · rw [if_pos (Nat.compare_eq_lt.mpr hlt), Nat.div_eq_of_lt hlt, Nat.mod_eq_of_lt hlt]
        exact ⟨_, rfl, rfl, rfl⟩
      · have hlen : d.size ≤ a.words.length := by
          rw [ha.length_words, ha.size_eq, hd.size_eq]
          exact Limbs.count_mono (Nat.le_of_not_lt hlt)
        rw [if_neg (mt Nat.compare_eq_lt.mp hlt)]
        exact ⟨_, rfl, value_div hd hzero hlen⟩

/-- Refusals of a division, before its outcome. -/
def unlessZero {β : Type} (d : FixedNat) (outcome : Checked β) : Checked β :=
  if d.value = 0 then .error (.fatal .divideByZero) else outcome

/-- The quotient and the remainder of a division. -/
theorem divRem_eq (ha : WellFormed a) (hd : WellFormed d)
    (quotientCapacity remainderCapacity : Nat) :
    divRem quotientCapacity remainderCapacity a d =
      unlessZero d (inScratch (max a.size d.size) do
        let q ← hold? quotientCapacity (a.value / d.value)
        let r ← hold? remainderCapacity (a.value % d.value)
        return (q, r)) := by
  have hmax : scratchLimbs < max a.size d.size ↔ scratchLimbs < a.size ∨ scratchLimbs < d.size :=
    lt_max_iff
  rw [divRem, unlessZero, inScratch]
  rcases division_spec ha hd with ⟨hzero, h⟩ | ⟨hzero, hroom, h⟩ | ⟨hzero, hroom, result, h, hq, hr⟩
  · rw [h, if_pos hzero]
    rfl
  · rw [h, if_neg hzero, if_pos (hmax.mpr hroom)]
    rfl
  · rw [h, if_neg hzero, if_neg (mt hmax.mp hroom), ← hq, ← hr, ← ofLimbs?_eq, ← ofLimbs?_eq]
    rfl

/-- The remainder of a division. -/
theorem mod_eq (ha : WellFormed a) (hd : WellFormed d) (capacity : Nat) :
    mod capacity a d =
      unlessZero d (inScratch (max a.size d.size) (hold? capacity (a.value % d.value))) := by
  have hmax : scratchLimbs < max a.size d.size ↔ scratchLimbs < a.size ∨ scratchLimbs < d.size :=
    lt_max_iff
  rw [mod, unlessZero, inScratch]
  rcases division_spec ha hd with ⟨hzero, h⟩ | ⟨hzero, hroom, h⟩ | ⟨hzero, hroom, result, h, hq, hr⟩
  · rw [h, if_pos hzero]
    rfl
  · rw [h, if_neg hzero, if_pos (hmax.mpr hroom)]
    rfl
  · rw [h, if_neg hzero, if_neg (mt hmax.mp hroom), ← hr, ← ofLimbs?_eq]
    rfl

/-- The remainder of scratch limbs. -/
theorem modLimbs_eq (hd : WellFormed d) (capacity : Nat) (ws : Limbs) :
    modLimbs capacity ws d = unlessZero d (hold? capacity (ws.value % d.value)) := by
  have htrim : ws.trim.value = ws.value := by rw [Limbs.trim_eq, Limbs.value_ofNat]
  have hlen : ws.trim.length = count ws.value := by rw [Limbs.trim_eq, Limbs.length_ofNat]
  simp only [modLimbs, unlessZero, isZero_eq hd]
  by_cases hzero : d.value = 0
  · rw [if_pos hzero, if_pos (beq_iff_eq.mpr hzero)]
  · rw [if_neg hzero, if_neg (mt beq_iff_eq.mp hzero)]
    by_cases hlt : ws.trim.length < d.size
    · have hsmall : ws.value < d.value := by
        rw [hlen, hd.size_eq] at hlt
        exact Nat.lt_of_not_le fun h => absurd (Limbs.count_mono h) (Nat.not_le.mpr hlt)
      rw [if_pos hlt, ofLimbs?_eq, htrim, Nat.mod_eq_of_lt hsmall]
    · rw [if_neg hlt, ofLimbs?_eq, (value_div hd hzero (Nat.le_of_not_lt hlt)).2, htrim]

/-- The remainder of a number by a word. -/
theorem modWord_eq (a : FixedNat) (w : Word) :
    modWord a w =
      if w.toNat = 0 then .error (.fatal .divideByZero)
      else .ok (UInt64.ofNat (a.value % w.toNat)) := by
  rw [modWord]
  by_cases hw : w = 0
  · rw [if_pos hw, if_pos ((Word.toNat_eq_zero_iff w).mpr hw)]
  · rw [if_neg hw, if_neg (mt (Word.toNat_eq_zero_iff w).mp hw), value, ← Limbs.toNat_modWord hw,
      UInt64.ofNat_toNat]

/-- The product of two numbers modulo a third. -/
theorem modMul_eq (hm : WellFormed m) (capacity : Nat) (a b : FixedNat) :
    modMul capacity a b m =
      inScratch (a.size + b.size)
        (unlessZero m (hold? capacity (a.value * b.value % m.value))) := by
  rw [modMul, modLimbs_eq hm, Limbs.value_mul]
  rfl

end TrustedPlatform.FixedNat
