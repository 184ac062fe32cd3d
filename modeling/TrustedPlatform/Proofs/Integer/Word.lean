import Mathlib.Data.Nat.Bitwise
import Mathlib.Data.Nat.Size
import Mathlib.Tactic.Ring
import TrustedPlatform.Integer.Word

/-!
# What the steps on single limbs compute

Each step of a carry chain loses nothing: its low word and `UInt64.size` times what it carries add
up to the exact result. The equations of `addCarry`, `subBorrow`, `mulAdd` and of the two shifts are
all that the operations on lists of limbs are reasoned about with.
-/

namespace TrustedPlatform.Word

/-- A word is below the radix. -/
theorem toNat_lt (w : Word) : w.toNat < UInt64.size :=
  UInt64.toNat_lt_size w

/-- A word is zero exactly when its number is. -/
theorem toNat_eq_zero_iff (w : Word) : w.toNat = 0 ↔ w = 0 := by
  rw [← UInt64.toNat_inj, UInt64.toNat_zero]

/-- A flag as a word is zero or one. -/
theorem toNat_toUInt64 (b : Bool) : b.toUInt64.toNat = b.toNat := by
  cases b <;> rfl

/-- A number below the radix is the number of its word. -/
theorem toNat_ofNat_of_lt {n : Nat} (h : n < UInt64.size) : (UInt64.ofNat n).toNat = n :=
  UInt64.toNat_ofNat_of_lt h

/-! ### Sums and differences -/

/-- The low word and the carry of a sum make up the sum. -/
theorem addCarry_exact (x y : Word) (carry : Bool) :
    (addCarry x y carry).1.toNat + UInt64.size * (addCarry x y carry).2.toNat =
      x.toNat + y.toNat + carry.toNat := by
  have hx := UInt64.toNat_lt x
  have hy := UInt64.toNat_lt y
  have hc := carry.toNat_lt
  have hlow : (addCarry x y carry).1.toNat = (x.toNat + y.toNat + carry.toNat) % 2 ^ 64 := by
    simp only [addCarry, UInt64.toNat_add, toNat_toUInt64]
    omega
  have hcarry : (addCarry x y carry).2 = decide (2 ^ 64 ≤ x.toNat + y.toNat + carry.toNat) := by
    rw [Bool.eq_iff_iff]
    simp only [addCarry, Bool.or_eq_true, decide_eq_true_eq, UInt64.lt_iff_toNat_lt,
      UInt64.toNat_add, toNat_toUInt64]
    omega
  rw [hlow, hcarry, UInt64.size]
  by_cases h : 2 ^ 64 ≤ x.toNat + y.toNat + carry.toNat
  · rw [decide_eq_true h, Bool.toNat_true]
    omega
  · rw [decide_eq_false h, Bool.toNat_false]
    omega

/-- The low word of a difference and the subtrahend make up the minuend and the borrow. -/
theorem subBorrow_exact (x y : Word) (borrow : Bool) :
    (subBorrow x y borrow).1.toNat + y.toNat + borrow.toNat =
      x.toNat + UInt64.size * (subBorrow x y borrow).2.toNat := by
  have hx := UInt64.toNat_lt x
  have hy := UInt64.toNat_lt y
  have hb := borrow.toNat_lt
  have hlow : (subBorrow x y borrow).1.toNat =
      (2 ^ 65 + x.toNat - y.toNat - borrow.toNat) % 2 ^ 64 := by
    simp only [subBorrow, UInt64.toNat_sub, toNat_toUInt64]
    omega
  have hborrow : (subBorrow x y borrow).2 = decide (x.toNat < y.toNat + borrow.toNat) := by
    rw [Bool.eq_iff_iff]
    simp only [subBorrow, Bool.or_eq_true, decide_eq_true_eq, UInt64.lt_iff_toNat_lt,
      UInt64.toNat_sub, toNat_toUInt64]
    omega
  rw [hlow, hborrow, UInt64.size]
  by_cases h : x.toNat < y.toNat + borrow.toNat
  · rw [decide_eq_true h, Bool.toNat_true]
    omega
  · rw [decide_eq_false h, Bool.toNat_false]
    omega

/-! ### Products -/

/-- The low half of a word. -/
theorem toNat_lowHalf (x : Word) : (x &&& 0xffffffff).toNat = x.toNat % 2 ^ 32 := by
  rw [UInt64.toNat_and]
  exact Nat.and_two_pow_sub_one_eq_mod x.toNat 32

/-- The high half of a word. -/
theorem toNat_highHalf (x : Word) : (x >>> 32).toNat = x.toNat / 2 ^ 32 := by
  rw [UInt64.toNat_shiftRight, Nat.shiftRight_eq_div_pow]
  rfl

/-- The product of two numbers of half a word leaves room for two more of them. -/
theorem mul_half_le {a b : Nat} (ha : a < 2 ^ 32) (hb : b < 2 ^ 32) :
    a * b ≤ (2 ^ 32 - 1) * (2 ^ 32 - 1) :=
  Nat.mul_le_mul (by omega) (by omega)

/-- The high word of a product, added up from the products of the halves. -/
theorem highWord_eq (x y : Nat) :
    let low := x % 2 ^ 32 * (y % 2 ^ 32)
    let middle := x / 2 ^ 32 * (y % 2 ^ 32) + low / 2 ^ 32
    let cross := x % 2 ^ 32 * (y / 2 ^ 32) + middle % 2 ^ 32
    x / 2 ^ 32 * (y / 2 ^ 32) + middle / 2 ^ 32 + cross / 2 ^ 32 = x * y / 2 ^ 64 := by
  intro low middle cross
  have hxy : x * y = x / 2 ^ 32 * (y / 2 ^ 32) * 2 ^ 64 + x / 2 ^ 32 * (y % 2 ^ 32) * 2 ^ 32 +
      x % 2 ^ 32 * (y / 2 ^ 32) * 2 ^ 32 + x % 2 ^ 32 * (y % 2 ^ 32) := by
    conv_lhs => rw [← Nat.div_add_mod x (2 ^ 32), ← Nat.div_add_mod y (2 ^ 32)]
    ring
  omega

/-- The high word of a product, computed without leaving 64 bits. -/
theorem toNat_highWord (x y : Word) :
    let x0 : Word := x &&& 0xffffffff
    let x1 : Word := x >>> 32
    let y0 : Word := y &&& 0xffffffff
    let y1 : Word := y >>> 32
    let low : Word := x0 * y0
    let middle : Word := x1 * y0 + (low >>> (32 : Word))
    let cross : Word := x0 * y1 + (middle &&& (0xffffffff : Word))
    (x1 * y1 + (middle >>> (32 : Word)) + (cross >>> (32 : Word))).toNat =
      x.toNat * y.toNat / 2 ^ 64 := by
  intro x0 x1 y0 y1 low middle cross
  have hx := UInt64.toNat_lt x
  have hy := UInt64.toNat_lt y
  have hx0 : x0.toNat = x.toNat % 2 ^ 32 := toNat_lowHalf x
  have hx1 : x1.toNat = x.toNat / 2 ^ 32 := toNat_highHalf x
  have hy0 : y0.toNat = y.toNat % 2 ^ 32 := toNat_lowHalf y
  have hy1 : y1.toNat = y.toNat / 2 ^ 32 := toNat_highHalf y
  have h00 := mul_half_le (by omega : x0.toNat < 2 ^ 32) (by omega : y0.toNat < 2 ^ 32)
  have h10 := mul_half_le (by omega : x1.toNat < 2 ^ 32) (by omega : y0.toNat < 2 ^ 32)
  have h01 := mul_half_le (by omega : x0.toNat < 2 ^ 32) (by omega : y1.toNat < 2 ^ 32)
  have h11 := mul_half_le (by omega : x1.toNat < 2 ^ 32) (by omega : y1.toNat < 2 ^ 32)
  have hlow : low.toNat = x0.toNat * y0.toNat := by
    rw [UInt64.toNat_mul, Nat.mod_eq_of_lt (by omega)]
  have hmiddle : middle.toNat = x1.toNat * y0.toNat + x0.toNat * y0.toNat / 2 ^ 32 := by
    rw [UInt64.toNat_add, UInt64.toNat_mul, toNat_highHalf low, hlow]
    omega
  have hcross : cross.toNat = x0.toNat * y1.toNat + middle.toNat % 2 ^ 32 := by
    rw [UInt64.toNat_add, UInt64.toNat_mul, toNat_lowHalf middle]
    omega
  rw [← highWord_eq, ← hx0, ← hx1, ← hy0, ← hy1, ← hmiddle, ← hcross, UInt64.toNat_add,
    UInt64.toNat_add, UInt64.toNat_mul, toNat_highHalf middle, toNat_highHalf cross]
  omega

/-- The two words of a product with two summands make up the exact value. -/
theorem mulAdd_exact (x y a c : Word) :
    (mulAdd x y a c).1.toNat + UInt64.size * (mulAdd x y a c).2.toNat =
      x.toNat * y.toNat + a.toNat + c.toNat := by
  have ha := UInt64.toNat_lt a
  have hc := UInt64.toNat_lt c
  have hxy : x.toNat * y.toNat ≤ (2 ^ 64 - 1) * (2 ^ 64 - 1) :=
    Nat.mul_le_mul (Nat.le_pred_of_lt (UInt64.toNat_lt x)) (Nat.le_pred_of_lt (UInt64.toNat_lt y))
  have hhigh := toNat_highWord x y
  -- each of the two additions to the low word wraps when the sum falls below a summand
  have hwrap : ∀ s t : Nat, (decide (s < t)).toNat = if s < t then 1 else 0 := by
    intro s t
    by_cases h : s < t <;> simp [h]
  simp only [mulAdd, UInt64.toNat_add, UInt64.toNat_mul, toNat_toUInt64, UInt64.lt_iff_toNat_lt,
    hwrap, UInt64.size] at hhigh ⊢
  rw [hhigh]
  split <;> split <;> omega

/-! ### Shifts and bits -/

/-- A left shift by less than a word keeps the low bits of the product. -/
theorem toNat_shiftLeft (w : Word) {count : Nat} (h : count < 64) :
    (w <<< UInt64.ofNat count).toNat = w.toNat * 2 ^ count % 2 ^ 64 := by
  rw [UInt64.toNat_shiftLeft, toNat_ofNat_of_lt (by rw [UInt64.size]; omega),
    Nat.mod_eq_of_lt h, Nat.shiftLeft_eq]

/-- A right shift by less than a word is a quotient. -/
theorem toNat_shiftRight (w : Word) {count : Nat} (h : count < 64) :
    (w >>> UInt64.ofNat count).toNat = w.toNat / 2 ^ count := by
  rw [UInt64.toNat_shiftRight, toNat_ofNat_of_lt (by rw [UInt64.size]; omega),
    Nat.mod_eq_of_lt h, Nat.shiftRight_eq_div_pow]

/-- What a left shift pushes out of a word is its high part. -/
theorem toNat_spill (w : Word) {count : Nat} (h : count < 64) :
    (spill w count).toNat = w.toNat / 2 ^ (64 - count) := by
  unfold spill
  split
  · subst count
    rw [UInt64.toNat_zero, Nat.div_eq_of_lt (UInt64.toNat_lt w)]
  · exact toNat_shiftRight w (by omega)

/-- What a right shift pushes out of a word is its low part, moved to the top. -/
theorem toNat_spillRight (w : Word) {count : Nat} (h : count < 64) :
    (spillRight w count).toNat = w.toNat % 2 ^ count * 2 ^ (64 - count) := by
  unfold spillRight
  split
  · subst count
    rw [Nat.pow_zero, Nat.mod_one, Nat.zero_mul, UInt64.toNat_zero]
  · rw [toNat_shiftLeft w (by omega), ← Nat.mul_mod_mul_right, ← Nat.pow_add,
      Nat.add_sub_cancel' (by omega : count ≤ 64)]

/-- A disjunction of words with no bit in common is a sum. -/
theorem toNat_or_of_lt {a b : Word} {count k : Nat} (ha : a.toNat = k * 2 ^ count)
    (hb : b.toNat < 2 ^ count) : (a ||| b).toNat = a.toNat + b.toNat := by
  rw [UInt64.toNat_or, ha, Nat.mul_comm, Nat.two_pow_add_eq_or_of_lt hb]

/-- A shifted word joined with the bits of the word below, and what it pushes out, make up the
shifted number. -/
theorem shiftLeft_or_exact (w carry : Word) {count : Nat} (h : count < 64)
    (hcarry : carry.toNat < 2 ^ count) :
    ((w <<< UInt64.ofNat count) ||| carry).toNat + UInt64.size * (spill w count).toNat =
      w.toNat * 2 ^ count + carry.toNat := by
  have hlow : (w <<< UInt64.ofNat count).toNat = w.toNat % 2 ^ (64 - count) * 2 ^ count := by
    rw [toNat_shiftLeft w h, ← Nat.mul_mod_mul_right, ← Nat.pow_add,
      Nat.sub_add_cancel (by omega : count ≤ 64)]
  have hsize : UInt64.size = 2 ^ (64 - count) * 2 ^ count := by
    rw [← Nat.pow_add, Nat.sub_add_cancel (by omega : count ≤ 64)]
  rw [toNat_or_of_lt hlow hcarry, hlow, toNat_spill w h, hsize]
  have hsplit := Nat.div_add_mod w.toNat (2 ^ (64 - count))
  calc w.toNat % 2 ^ (64 - count) * 2 ^ count + carry.toNat +
        2 ^ (64 - count) * 2 ^ count * (w.toNat / 2 ^ (64 - count))
      = (2 ^ (64 - count) * (w.toNat / 2 ^ (64 - count)) + w.toNat % 2 ^ (64 - count)) *
          2 ^ count + carry.toNat := by ring
    _ = w.toNat * 2 ^ count + carry.toNat := by rw [hsplit]

/-- A shifted word joined with the bits of the word above is a window of the two words. -/
theorem shiftRight_or_exact (w v : Word) {count : Nat} (h : count < 64) :
    ((w >>> UInt64.ofNat count) ||| spillRight v count).toNat =
      w.toNat / 2 ^ count + v.toNat % 2 ^ count * 2 ^ (64 - count) := by
  have hlow : (w >>> UInt64.ofNat count).toNat < 2 ^ (64 - count) := by
    rw [toNat_shiftRight w h, Nat.div_lt_iff_lt_mul (Nat.two_pow_pos count), ← Nat.pow_add,
      Nat.sub_add_cancel (by omega : count ≤ 64)]
    exact UInt64.toNat_lt w
  rw [UInt64.or_comm, toNat_or_of_lt (toNat_spillRight v h) hlow, toNat_spillRight v h,
    toNat_shiftRight w h, Nat.add_comm]

/-- The bit length of a number that is not zero is one more than its logarithm. -/
theorem size_eq_log2_add_one {n : Nat} (h : n ≠ 0) : n.size = n.log2 + 1 :=
  eq_of_forall_ge_iff fun k => by rw [Nat.size_le, Nat.add_one_le_iff, Nat.log2_lt h]

/-- The bit length of a word is the one of its number. -/
theorem bitLength_eq (w : Word) : bitLength w = w.toNat.size := by
  unfold bitLength
  split
  · rename_i h
    rw [h, UInt64.toNat_zero, Nat.size_zero]
  · rename_i h
    exact (size_eq_log2_add_one fun hw => h ((toNat_eq_zero_iff w).mp hw)).symm

/-- The low bits of a word. -/
theorem toNat_and_mask (w : Word) {count : Nat} (h : count < 64) :
    (w &&& ((1 <<< UInt64.ofNat count) - 1)).toNat = w.toNat % 2 ^ count := by
  have hlt : 2 ^ count < 2 ^ 64 := Nat.pow_lt_pow_right (by decide) h
  have hpos : 1 ≤ 2 ^ count := Nat.one_le_two_pow
  have hone : ((1 : Word) <<< UInt64.ofNat count).toNat = 2 ^ count := by
    rw [toNat_shiftLeft 1 h, UInt64.toNat_one, Nat.one_mul, Nat.mod_eq_of_lt hlt]
  rw [UInt64.toNat_and, UInt64.toNat_sub_of_le _ _ (UInt64.le_iff_toNat_le.mpr (hone ▸ hpos)),
    hone, UInt64.toNat_one, Nat.and_two_pow_sub_one_eq_mod]

/-- A bit of a word. -/
theorem testBit_eq (w : Word) {i : Nat} (h : i < 64) :
    ((w >>> UInt64.ofNat i) &&& 1 == 1) = w.toNat.testBit i := by
  rw [Nat.testBit_eq_decide_div_mod_eq, Bool.eq_iff_iff, beq_iff_eq, ← UInt64.toNat_inj,
    UInt64.toNat_and, toNat_shiftRight w h, UInt64.toNat_one, Nat.and_one_is_mod, decide_eq_true_eq]

/-- Masking chooses one of two words. -/
theorem select_eq (a b : Word) (condition : Bool) :
    select a b condition = if condition then b else a := by
  cases condition with
  | false =>
      show a ^^^ ((0 - 0) &&& (a ^^^ b)) = a
      rw [UInt64.sub_self, UInt64.zero_and, UInt64.xor_zero]
  | true =>
      show a ^^^ (-1 &&& (a ^^^ b)) = b
      rw [UInt64.neg_one_and, ← UInt64.xor_assoc, UInt64.xor_self, UInt64.zero_xor]

end TrustedPlatform.Word
