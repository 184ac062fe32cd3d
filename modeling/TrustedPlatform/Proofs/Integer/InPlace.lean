import TrustedPlatform.Proofs.Integer.Outcome
import TrustedPlatform.Proofs.Integer.ScratchArithmetic

/-!
# What registers hold after sums, products and shifts

An operation in place needs as many limbs of scratch as the sizes of its operands say. Within the
scratch area it is carried out, and its register takes the exact number when there is room for it;
beyond, and when there is no room, the allocation is fatal and the file is kept. Comparisons follow
the numbers, whatever the capacities of the buffers.
-/

namespace TrustedPlatform

namespace Limbs

/-- A bit of a number is a bit of one of its limbs. -/
theorem testBit_value (ws : Limbs) (bit : Nat) :
    (value ws).testBit bit = (ws.get (bit / 64)).toNat.testBit (bit % 64) := by
  rw [← testBit_eq, testBit, Word.testBit_eq _ (Nat.mod_lt _ (by decide))]

/-- Setting a bit of a limb sets the bit of the number. -/
theorem value_set_or {ws : Limbs} {bit : Nat} (h : bit / 64 < ws.length) :
    value (ws.set (bit / 64) (ws.get (bit / 64) ||| (1 <<< UInt64.ofNat (bit % 64)))) =
      value ws ||| 2 ^ bit := by
  have hlt : bit % 64 < 64 := Nat.mod_lt _ (by decide)
  have hone : ((1 : Word) <<< UInt64.ofNat (bit % 64)).toNat = 2 ^ (bit % 64) := by
    rw [Word.toNat_shiftLeft 1 hlt, UInt64.toNat_one, Nat.one_mul,
      Nat.mod_eq_of_lt (Nat.pow_lt_pow_right (by decide) hlt)]
  refine Nat.eq_of_testBit_eq fun j => ?_
  rw [testBit_value, get_set h, Nat.testBit_or, testBit_value ws j, Nat.testBit_two_pow]
  by_cases hj : j / 64 = bit / 64
  · rw [if_pos hj, UInt64.toNat_or, hone, Nat.testBit_or, Nat.testBit_two_pow, ← hj]
    congr 2
    rw [eq_iff_iff]
    omega
  · have hne : bit ≠ j := fun h => hj (congrArg (· / 64) h.symm)
    rw [if_neg hj, decide_eq_false hne, Bool.or_false]

end Limbs

namespace FixedNat

open Limbs (count)

variable {a : FixedNat}

/-! ### Bits and words -/

/-- A number with one bit set, when the bit lies within the buffer. -/
theorem setBit_eq (ha : a.WellFormed) (bit : Nat) :
    a.setBit bit = hold? a.capacity (a.value ||| 2 ^ bit) := by
  have hholds := setBit_holds ha bit
  by_cases h : a.capacity ≤ bit / 64
  · have hlarge : ¬Fits a.capacity (a.value ||| 2 ^ bit) := by
      refine Nat.not_lt.mpr (le_trans ?_ Nat.right_le_or)
      rw [Nat.max_eq_left ha.capacity_pos, Limbs.size_pow_eq]
      exact Nat.pow_le_pow_right (by decide) (by omega)
    rw [hold?_of_not_fits hlarge, setBit, if_pos h]
  · rw [setBit, if_neg h] at hholds ⊢
    have hheld := hholds _ rfl
    have hvalue := hheld.wellFormed.value_limbs
    rw [Limbs.value_set_or (Nat.lt_of_not_le h), ha.value_limbs] at hvalue
    rw [hvalue, hold?_of_fits hheld.fits, ← hheld.eq_ofNat]

/-- The order of a number and a word is the one of their numbers. -/
theorem compareWord_eq (ha : a.WellFormed) (w : Word) :
    a.compareWord w = Ord.compare a.value w.toNat := by
  rw [compareWord]
  by_cases h : 1 < a.size
  · have hlarge : UInt64.size ^ 1 ≤ a.value := Limbs.lt_count_iff.mp (ha.size_eq ▸ h)
    rw [Nat.pow_one] at hlarge
    rw [if_pos h, Nat.compare_eq_gt.mpr ((Word.toNat_lt w).trans_le hlarge)]
  · have hlt : a.value < UInt64.size := by
      have hpow := Limbs.count_le_iff.mp (ha.size_eq ▸ Nat.le_of_not_lt h)
      rwa [Nat.pow_one] at hpow
    rw [value] at hlt ⊢
    rw [if_neg h, Limbs.compare_word, Limbs.Scratch.word_eq_get, Limbs.toNat_get, Nat.pow_zero,
      Nat.div_one, Nat.mod_eq_of_lt hlt]

/-- A right shift past the size of a number leaves nothing, in no scratch at all. -/
theorem shiftRight_inScratch (ha : a.WellFormed) (capacity bits : Nat) :
    shiftRight capacity a bits =
      inScratch (a.size - bits / 64) (hold? capacity (a.value / 2 ^ bits)) := by
  rw [shiftRight_eq]
  by_cases h : a.size ≤ bits / 64
  · have hzero : a.value / 2 ^ bits = 0 := by
      refine Nat.div_eq_of_lt (ha.value_lt.trans_le ?_)
      rw [Limbs.size_pow_eq]
      exact Nat.pow_le_pow_right (by decide) (by omega)
    rw [if_pos h, hzero, Nat.sub_eq_zero_of_le h, inScratch, if_neg (Nat.not_lt_zero _),
      hold?_of_fits (Limbs.size_pow_pos _)]
  · rw [if_neg h]

end FixedNat

namespace Registers

open FixedNat
open Limbs.Scratch

variable {file : Registers} {r n : Nat}

/-- The outcome of an instruction that computes its number in scratch. When the limbs that it needs
are there, its loops are carried out, the limbs that they leave denote the number, and these are
moved to its register; when they are not, the allocation is fatal and nothing has changed. -/
structure WritesWithin (file : Registers) (r limbs n : Nat) (scratch : Option Limbs)
    (outcome : Registers × Checked Bool) : Prop where
  writes : limbs ≤ scratchLimbs → file.Writes r n outcome
  computed : limbs ≤ scratchLimbs → ∃ ws, scratch = some ws ∧ ws.length = limbs ∧ ws.value = n ∧
    outcome = file.write r (ofLimbs? (file r).capacity ws)
  refused : scratchLimbs < limbs → outcome = (file, .error (.fatal .allocation))

/-- A number held after a computation in scratch is written. -/
theorem writesWithin {limbs : Nat} {scratch : Option Limbs} {x : Checked FixedNat}
    (hx : x = inScratch limbs (hold? (file r).capacity n))
    (hscratch : limbs ≤ scratchLimbs → Yields scratch limbs n) :
    file.WritesWithin r limbs n scratch (file.write r x) := by
  subst hx
  refine ⟨fun h => ?_, fun h => ?_, fun h => ?_⟩
  · rw [inScratch, if_neg (Nat.not_lt.mpr h)]
    exact writes_hold? file r n
  · obtain ⟨ws, hws, hlen, hvalue⟩ := hscratch h
    rw [inScratch, if_neg (Nat.not_lt.mpr h), ← hvalue, ← ofLimbs?_eq]
    exact ⟨ws, hws, hlen, rfl, rfl⟩
  · rw [inScratch, if_pos h]
    rfl

section Operations

variable {x y : FixedNat}

/-- A sum is written. -/
theorem add_writes (file : Registers) (r : Nat) (x y : FixedNat) :
    file.WritesWithin r (max x.size y.size + 1) (x.value + y.value) (sum x y)
      (file.write r (FixedNat.add (file r).capacity x y)) :=
  writesWithin (add_eq _ x y) (sum_yields x y)

/-- A difference below zero is refused before anything else is looked at. -/
theorem sub_below (hx : x.WellFormed) (hy : y.WellFormed) (h : x.value < y.value) :
    file.write r (FixedNat.sub (file r).capacity x y) = (file, .error (.fatal .parameter)) := by
  rw [sub_eq hx hy, if_pos h]
  rfl

/-- A difference that is not below zero is written. -/
theorem sub_writes (hx : x.WellFormed) (hy : y.WellFormed) (h : y.value ≤ x.value) :
    file.WritesWithin r x.size (x.value - y.value) (difference x y)
      (file.write r (FixedNat.sub (file r).capacity x y)) := by
  refine writesWithin ?_ (difference_yields x y h)
  rw [sub_eq hx hy, if_neg (Nat.not_lt.mpr h)]

/-- A product is written. -/
theorem mul_writes (hx : x.WellFormed) (hy : y.WellFormed) :
    file.WritesWithin r (x.size + y.size) (x.value * y.value) (product x y)
      (file.write r (FixedNat.mul (file r).capacity x y)) :=
  writesWithin (mul_eq _ x y) (product_yields hx hy)

/-- Zero is shifted left without scratch. -/
theorem shiftLeft_zero (hx : x.WellFormed) (h : x.value = 0) (bits : Nat) :
    file.write r (FixedNat.shiftLeft (file r).capacity x bits) = (file.put r 0, .ok true) := by
  rw [shiftLeft_eq hx, if_pos h]
  rfl

/-- A number that is not zero and is shifted left is written. -/
theorem shiftLeft_writes (hx : x.WellFormed) (h : x.value ≠ 0) (bits : Nat) :
    file.WritesWithin r (x.size + bits / 64 + 1) (x.value * 2 ^ bits) (shiftedLeft x bits)
      (file.write r (FixedNat.shiftLeft (file r).capacity x bits)) := by
  refine writesWithin ?_ (shiftedLeft_yields hx)
  rw [shiftLeft_eq hx, if_neg h]

/-- A number shifted right is written. -/
theorem shiftRight_writes (hx : x.WellFormed) (bits : Nat) :
    file.WritesWithin r (x.size - bits / 64) (x.value / 2 ^ bits) (shiftedRight x bits)
      (file.write r (FixedNat.shiftRight (file r).capacity x bits)) :=
  writesWithin (shiftRight_inScratch hx _ bits) (shiftedRight_yields hx)

/-- A masked number is written back. -/
theorem maskBits_writes (hfile : file.WellFormed) (r bits : Nat) :
    file.step (.maskBits r bits) = (file.put r ((file r).value % 2 ^ bits), .ok true) := by
  rw [step, maskBits_eq (hfile r)]
  rfl

/-- A number with a bit set is written back. -/
theorem setBit_writes (hfile : file.WellFormed) (r bit : Nat) :
    file.Writes r ((file r).value ||| 2 ^ bit) (file.step (.setBit r bit)) := by
  rw [step, setBit_eq (hfile r)]
  exact writes_hold? file r _

/-- Two numbers are equal for the comparison exactly when they are. -/
theorem compare_beq_eq (hx : x.WellFormed) (hy : y.WellFormed) :
    (x.compare y == .eq) = (x.value == y.value) := by
  rw [compare_eq hx hy, Bool.eq_iff_iff, beq_iff_eq, beq_iff_eq, Nat.compare_eq_eq]

end Operations

/-- In-place arithmetic is exact, for all numbers and every capacity of the result. Sums,
differences, products and shifts are written when they fit the register and their scratch is within
the area: one limb more than the wider operand for a sum, the limbs of the minuend for a difference,
those of both factors for a product, and those of the shifted number for a shift, of which a left
shift of zero needs none. Otherwise the allocation is fatal, save that a difference below zero is a
fatal parameter. A masked number always fits; a bit is set when it lies within the register.
Comparisons with numbers and words follow the numbers, whatever the capacities. -/
theorem arithmetic_exact (hfile : file.WellFormed) (r a b k : Nat) (w : Word) :
    let x := file a
    let y := file b
    let word := ofWord w 1
    (file.WritesWithin r (max x.size y.size + 1) (x.value + y.value) (sum x y)
      (file.step (.add r a b))) ∧
    (file.WritesWithin r (max x.size word.size + 1) (x.value + w.toNat) (sum x word)
      (file.step (.addWord r a w))) ∧
    (x.value < y.value → file.step (.sub r a b) = (file, .error (.fatal .parameter))) ∧
    (y.value ≤ x.value → file.WritesWithin r x.size (x.value - y.value) (difference x y)
      (file.step (.sub r a b))) ∧
    (x.value < w.toNat → file.step (.subWord r a w) = (file, .error (.fatal .parameter))) ∧
    (w.toNat ≤ x.value → file.WritesWithin r x.size (x.value - w.toNat) (difference x word)
      (file.step (.subWord r a w))) ∧
    (file.WritesWithin r (x.size + y.size) (x.value * y.value) (product x y)
      (file.step (.mul r a b))) ∧
    (x.value = 0 → file.step (.shiftLeft r a k) = (file.put r 0, .ok true)) ∧
    (x.value ≠ 0 → file.WritesWithin r (x.size + k / 64 + 1) (x.value * 2 ^ k) (shiftedLeft x k)
      (file.step (.shiftLeft r a k))) ∧
    (file.WritesWithin r (x.size - k / 64) (x.value / 2 ^ k) (shiftedRight x k)
      (file.step (.shiftRight r a k))) ∧
    (∃ ws, masked (file r) k = some ws ∧
      (file r).maskBits k = FixedNat.normalize ⟨ws, (file r).size⟩ ∧
      file.step (.maskBits r k) = (file.put r ((file r).value % 2 ^ k), .ok true)) ∧
    (file.Writes r ((file r).value ||| 2 ^ k) (file.step (.setBit r k))) ∧
    (order x y = x.compare y ∧ x.compare y = Ord.compare x.value y.value ∧
      (x.compare y == .eq) = (x.value == y.value)) ∧
    (x.compareWord w = Ord.compare x.value w.toNat ∧ x.eqWord w = (x.value == w.toNat)) := by
  intro x y word
  have hx : x.WellFormed := hfile a
  have hy : y.WellFormed := hfile b
  have hword : word.WellFormed := (held_ofWord w 1).wellFormed
  have hvalue : word.value = w.toNat := by
    show (ofWord w 1).value = _
    rw [ofWord_eq, value_ofNat]
  rw [← hvalue]
  exact ⟨add_writes file r x y, add_writes file r x word, sub_below hx hy, sub_writes hx hy,
    sub_below hx hword, sub_writes hx hword, mul_writes hx hy, (shiftLeft_zero hx · k),
    (shiftLeft_writes hx · k), shiftRight_writes hx k,
    ⟨_, masked_eq (file r) k, rfl, maskBits_writes hfile r k⟩, setBit_writes hfile r k,
    ⟨(order_eq hx hy).trans (compare_eq hx hy).symm, compare_eq hx hy, compare_beq_eq hx hy⟩,
    hvalue ▸ compareWord_eq hx w, hvalue ▸ eqWord_eq hx w⟩

/-- The largest number of one limb and one: their sum fits two limbs and not one, and only one of
their differences is not below zero. -/
theorem arithmetic_exact_carry :
    let file := initial.run [.createWord 0 0xffffffffffffffff 1, .createWord 1 1 1, .create 2 2]
    file.WellFormed ∧ file.step (.add 2 0 1) = (file.put 2 (2 ^ 64), .ok true) ∧
      file.step (.add 3 0 1) = (file, .error (.fatal .allocation)) ∧
      file.step (.sub 3 0 1) = (file.put 3 (2 ^ 64 - 2), .ok true) ∧
      file.step (.sub 3 1 0) = (file, .error (.fatal .parameter)) := by
  intro file
  have hfile : file.WellFormed := wellFormed_initial.run _
  have hfirst : (file 0).value = 2 ^ 64 - 1 := by decide
  have hsecond : (file 1).value = 1 := by decide
  obtain ⟨hwide, -⟩ := arithmetic_exact hfile 2 0 1 0 0
  obtain ⟨hnarrow, -, -, hdifference, -⟩ := arithmetic_exact hfile 3 0 1 0 0
  obtain ⟨-, -, hbelow, -⟩ := arithmetic_exact hfile 3 1 0 0 0
  rw [hfirst, hsecond] at hwide hnarrow hdifference hbelow
  have hscratch : max (file 0).size (file 1).size + 1 ≤ scratchLimbs := by decide
  exact ⟨hfile, (hwide.writes hscratch).written (by decide : 2 ^ 64 < UInt64.size ^ max 2 1),
    (hnarrow.writes hscratch).refused (by decide : ¬2 ^ 64 < UInt64.size ^ max 1 1),
    ((hdifference (by decide)).writes (by decide)).written
      (by decide : 2 ^ 64 - 2 < UInt64.size ^ max 1 1),
    hbelow (by decide)⟩

end Registers

end TrustedPlatform
