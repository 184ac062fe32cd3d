import Mathlib.Data.Nat.Digits.Lemmas
import TrustedPlatform.Integer.Limbs
import TrustedPlatform.Proofs.Integer.Word

/-!
# What the operations on limbs compute

`Limbs.value` turns every operation on lists of limbs into the operation on natural numbers that it
is named for. Conversely a number has one shortest list of limbs, `Limbs.ofNat`, of
`Limbs.count` limbs, and trimming a list leaves the shortest list of its value.
-/

namespace TrustedPlatform.Limbs

/-- The radix is above one. -/
theorem one_lt_size : 1 < UInt64.size := by decide

/-- A power of the radix is not zero. -/
theorem size_pow_pos (k : Nat) : 0 < UInt64.size ^ k :=
  Nat.pow_pos (by decide)

/-- A power of the radix is a power of two. -/
theorem size_pow_eq (k : Nat) : UInt64.size ^ k = 2 ^ (64 * k) := by
  rw [show UInt64.size = 2 ^ 64 from rfl, ← Nat.pow_mul]

/-! ### Values of lists -/

/-- No limbs denote zero. -/
@[simp] theorem value_nil : value [] = 0 := rfl

/-- The first limb is the lowest digit. -/
theorem value_cons (w : Word) (ws : Limbs) :
    value (w :: ws) = w.toNat + UInt64.size * value ws := rfl

/-- One limb denotes its number. -/
@[simp] theorem value_singleton (w : Word) : value [w] = w.toNat := by
  rw [value_cons, value_nil, Nat.mul_zero, Nat.add_zero]

/-- The value of a list is the evaluation of its digits. -/
theorem value_eq_ofDigits (ws : Limbs) :
    value ws = Nat.ofDigits UInt64.size (ws.map UInt64.toNat) := by
  induction ws with
  | nil => rfl
  | cons w ws ih => rw [value_cons, ih, List.map_cons, Nat.ofDigits_cons]

/-- The second part of a list weighs as much as the first is long. -/
theorem value_append (xs ys : Limbs) :
    value (xs ++ ys) = value xs + UInt64.size ^ xs.length * value ys := by
  simp only [value_eq_ofDigits, List.map_append, Nat.ofDigits_append, List.length_map]

/-- A list denotes less than the radix to the power of its length. -/
theorem value_lt (ws : Limbs) : value ws < UInt64.size ^ ws.length := by
  rw [value_eq_ofDigits]
  have h := Nat.ofDigits_lt_base_pow_length one_lt_size (l := ws.map UInt64.toNat) fun d hd => by
    obtain ⟨w, -, rfl⟩ := List.mem_map.mp hd
    exact Word.toNat_lt w
  rwa [List.length_map] at h

/-- Zero limbs denote zero. -/
@[simp] theorem value_replicate_zero (k : Nat) : value (List.replicate k 0) = 0 := by
  induction k with
  | zero => rfl
  | succ k ih => rw [List.replicate_succ, value_cons, ih, UInt64.toNat_zero, Nat.mul_zero]

/-- High zero limbs do not count. -/
theorem value_append_replicate_zero (ws : Limbs) (k : Nat) :
    value (ws ++ List.replicate k 0) = value ws := by
  rw [value_append, value_replicate_zero, Nat.mul_zero, Nat.add_zero]

/-- The low limbs of a list denote a remainder, the high ones a quotient. -/
theorem value_take_drop (ws : Limbs) (k : Nat) :
    value (ws.take k) = value ws % UInt64.size ^ k ∧
      value (ws.drop k) = value ws / UInt64.size ^ k := by
  by_cases h : k ≤ ws.length
  · have hlen : (ws.take k).length = k := List.length_take_of_le h
    have hsplit : value ws = value (ws.take k) + UInt64.size ^ k * value (ws.drop k) := by
      conv_lhs => rw [← List.take_append_drop k ws, value_append, hlen]
    have hlt : value (ws.take k) < UInt64.size ^ k := by
      simpa only [hlen] using value_lt (ws.take k)
    rw [hsplit, Nat.add_mul_mod_self_left, Nat.mod_eq_of_lt hlt,
      Nat.add_mul_div_left _ _ (size_pow_pos k), Nat.div_eq_of_lt hlt, Nat.zero_add]
    exact ⟨rfl, rfl⟩
  · have hle : ws.length ≤ k := by omega
    have hlt : value ws < UInt64.size ^ k :=
      (value_lt ws).trans_le (Nat.pow_le_pow_right (by decide) hle)
    rw [List.take_of_length_le hle, List.drop_of_length_le hle, Nat.mod_eq_of_lt hlt,
      Nat.div_eq_of_lt hlt]
    exact ⟨rfl, rfl⟩

/-- The low limbs of a list denote a remainder. -/
theorem value_take (ws : Limbs) (k : Nat) : value (ws.take k) = value ws % UInt64.size ^ k :=
  (value_take_drop ws k).1

/-- The high limbs of a list denote a quotient. -/
theorem value_drop (ws : Limbs) (k : Nat) : value (ws.drop k) = value ws / UInt64.size ^ k :=
  (value_take_drop ws k).2

/-- A limb is a digit of the value. -/
theorem toNat_get (ws : Limbs) (i : Nat) :
    (ws.get i).toNat = value ws / UInt64.size ^ i % UInt64.size := by
  rw [← value_drop, get, List.getD_eq_getElem?_getD, ← List.head?_drop]
  cases ws.drop i with
  | nil => rfl
  | cons w rest =>
      rw [value_cons, Nat.add_mul_mod_self_left, Nat.mod_eq_of_lt (Word.toNat_lt w)]
      rfl

/-! ### Order -/

/-- Numbers are ordered by their high parts first. -/
theorem compare_add_mul {b x y : Nat} (hx : x < b) (hy : y < b) (p q : Nat) :
    Ord.compare (x + b * p) (y + b * q) = (Ord.compare p q).then (Ord.compare x y) := by
  rcases Nat.lt_trichotomy p q with h | rfl | h
  · have hlt : x + b * p < y + b * q := by
      have : b * (p + 1) ≤ b * q := Nat.mul_le_mul_left b h
      rw [Nat.mul_add] at this
      omega
    rw [Nat.compare_eq_lt.mpr h, Nat.compare_eq_lt.mpr hlt]
    rfl
  · rw [Nat.compare_eq_eq.mpr rfl]
    simp only [Ordering.then, Nat.compare_eq_ite_lt, Nat.add_lt_add_iff_right]
  · have hlt : y + b * q < x + b * p := by
      have : b * (q + 1) ≤ b * p := Nat.mul_le_mul_left b h
      rw [Nat.mul_add] at this
      omega
    rw [Nat.compare_eq_gt.mpr h, Nat.compare_eq_gt.mpr hlt]
    rfl

/-- Words are ordered as their numbers. -/
theorem compare_word (x y : Word) : Ord.compare x y = Ord.compare x.toNat y.toNat := by
  show compareOfLessAndEq x y = compareOfLessAndEq x.toNat y.toNat
  simp only [compareOfLessAndEq, UInt64.lt_iff_toNat_lt, ← UInt64.toNat_inj]

/-- Lists are ordered as their values. -/
theorem compare_eq (xs ys : Limbs) : compare xs ys = Ord.compare (value xs) (value ys) := by
  fun_induction compare xs ys with
  | case1 => rfl
  | case2 x xs ih =>
      rw [ih, value_cons, compare_word, ← compare_add_mul (Word.toNat_lt x) (Word.toNat_lt 0)]
      rfl
  | case3 y ys ih =>
      rw [ih, value_cons, compare_word, ← compare_add_mul (Word.toNat_lt 0) (Word.toNat_lt y)]
      rfl
  | case4 x xs y ys ih =>
      rw [ih, value_cons, value_cons, compare_word,
        ← compare_add_mul (Word.toNat_lt x) (Word.toNat_lt y)]

/-! ### Sums, differences and products -/

/-- The sum of two lists and a carry. -/
theorem value_add (xs ys : Limbs) (carry : Bool) :
    value (add xs ys carry) = value xs + value ys + carry.toNat := by
  fun_induction add xs ys carry with
  | case1 carry => rw [value_singleton, Word.toNat_toUInt64, value_nil, Nat.zero_add]
  | case2 x xs carry s c h ih =>
      have hstep := Word.addCarry_exact x 0 carry
      rw [h, UInt64.toNat_zero] at hstep
      rw [value_cons, value_cons, ih, value_nil]
      linarith
  | case3 y ys carry s c h ih =>
      have hstep := Word.addCarry_exact 0 y carry
      rw [h, UInt64.toNat_zero] at hstep
      rw [value_cons, value_cons, ih, value_nil]
      linarith
  | case4 x xs y ys carry s c h ih =>
      have hstep := Word.addCarry_exact x y carry
      rw [h] at hstep
      rw [value_cons, value_cons, value_cons, ih]
      linarith

/-- A borrow out of a limb is made good by the limbs above. -/
theorem le_of_add_mul_le {x X y Y d b b' : Nat} (hstep : d + y + b = x + UInt64.size * b')
    (hd : d < UInt64.size)
    (h : y + UInt64.size * Y + b ≤ x + UInt64.size * X) : Y + b' ≤ X := by
  by_contra hlt
  have hmul := Nat.mul_le_mul_left UInt64.size (Nat.succ_le_of_lt (Nat.lt_of_not_le hlt))
  rw [Nat.mul_succ, Nat.mul_add] at hmul
  omega

/-- The difference of a number and a smaller one, less a borrow. -/
theorem value_sub (xs ys : Limbs) (borrow : Bool)
    (h : value ys + borrow.toNat ≤ value xs) :
    value (sub xs ys borrow) + value ys + borrow.toNat = value xs := by
  fun_induction sub xs ys borrow with
  | case1 ys borrow =>
      rw [value_nil] at h ⊢
      omega
  | case2 x xs borrow d b hsub ih =>
      have hstep := Word.subBorrow_exact x 0 borrow
      rw [hsub, UInt64.toNat_zero] at hstep
      rw [value_nil, value_cons] at h
      have hrest := ih (le_of_add_mul_le (Y := 0) hstep (Word.toNat_lt d) (by omega))
      rw [value_nil] at hrest ⊢
      rw [value_cons, value_cons, ← hrest]
      linarith
  | case3 x xs y ys borrow d b hsub ih =>
      have hstep := Word.subBorrow_exact x y borrow
      rw [hsub] at hstep
      rw [value_cons, value_cons] at h
      have hrest := ih (le_of_add_mul_le hstep (Word.toNat_lt d) h)
      rw [value_cons, value_cons, value_cons, ← hrest]
      linarith

/-- A row of a product adds the product of one limb to the accumulator. -/
theorem value_mulRow (x : Word) (ys acc : Limbs) (carry : Word) (h : acc.length ≤ ys.length) :
    value (mulRow x ys acc carry) = x.toNat * value ys + value acc + carry.toNat := by
  fun_induction mulRow x ys acc carry with
  | case1 acc carry =>
      rw [List.eq_nil_of_length_eq_zero (Nat.le_zero.mp h), value_singleton, value_nil]
      omega
  | case2 y ys carry low high hword ih =>
      have hstep := Word.mulAdd_exact x y 0 carry
      rw [hword, UInt64.toNat_zero] at hstep
      rw [value_cons, value_cons, ih (Nat.zero_le _), value_nil]
      linarith
  | case3 y ys o os carry low high hword ih =>
      have hstep := Word.mulAdd_exact x y o carry
      rw [hword] at hstep
      rw [value_cons, value_cons, value_cons, ih (Nat.le_of_succ_le_succ h)]
      linarith

/-- A row is one limb longer than the number it multiplies. -/
theorem length_mulRow (x : Word) (ys acc : Limbs) (carry : Word) :
    (mulRow x ys acc carry).length = ys.length + 1 := by
  fun_induction mulRow x ys acc carry with
  | case1 acc carry => rfl
  | case2 y ys carry low high hword ih => rw [List.length_cons, ih, List.length_cons]
  | case3 y ys o os carry low high hword ih => rw [List.length_cons, ih, List.length_cons]

/-- The rows of a product add up to it. -/
theorem value_mulAcc (xs ys acc : Limbs) (h : acc.length ≤ ys.length) :
    value (mulAcc xs ys acc) = value xs * value ys + value acc := by
  induction xs generalizing acc with
  | nil => rw [mulAcc, value_nil, Nat.zero_mul, Nat.zero_add]
  | cons x xs ih =>
      have hrow := value_mulRow x ys acc 0 h
      have hlen := length_mulRow x ys acc 0
      rw [mulAcc]
      match hmul : mulRow x ys acc 0 with
      | [] => rw [hmul] at hlen; cases hlen
      | low :: rest =>
          rw [hmul] at hrow hlen
          rw [value_cons, UInt64.toNat_zero] at hrow
          show value (low :: mulAcc xs ys rest) = _
          rw [value_cons, value_cons, ih rest (Nat.le_of_succ_le_succ hlen.le)]
          linarith

/-- The product of two lists. -/
theorem value_mul (xs ys : Limbs) : value (mul xs ys) = value xs * value ys := by
  rw [mul, value_mulAcc xs ys [] (Nat.zero_le _), value_nil, Nat.add_zero]

/-! ### Shifts -/

/-- A left shift by less than a word multiplies by a power of two. -/
theorem value_shiftLeftBits {count : Nat} (h : count < 64) (ws : Limbs) (carry : Word)
    (hcarry : carry.toNat < 2 ^ count) :
    value (shiftLeftBits count ws carry) = value ws * 2 ^ count + carry.toNat := by
  induction ws generalizing carry with
  | nil => rw [shiftLeftBits, value_singleton, value_nil, Nat.zero_mul, Nat.zero_add]
  | cons w ws ih =>
      have hspill : (w.spill count).toNat < 2 ^ count := by
        rw [Word.toNat_spill w h, Nat.div_lt_iff_lt_mul (Nat.two_pow_pos _), ← Nat.pow_add,
          Nat.add_sub_cancel' h.le]
        exact UInt64.toNat_lt w
      have hstep := Word.shiftLeft_or_exact w carry h hcarry
      rw [shiftLeftBits, value_cons, value_cons, ih _ hspill]
      linarith

/-- A left shift by less than a word makes a list one limb longer. -/
theorem length_shiftLeftBits (count : Nat) (ws : Limbs) (carry : Word) :
    (shiftLeftBits count ws carry).length = ws.length + 1 := by
  induction ws generalizing carry with
  | nil => rfl
  | cons w ws ih => rw [shiftLeftBits, List.length_cons, ih, List.length_cons]

/-- A left shift multiplies by a power of two. -/
theorem value_shiftLeft (ws : Limbs) (bits : Nat) :
    value (shiftLeft ws bits) = value ws * 2 ^ bits := by
  have hbits : 2 ^ bits = UInt64.size ^ (bits / 64) * 2 ^ (bits % 64) := by
    rw [size_pow_eq, ← Nat.pow_add, Nat.div_add_mod]
  rw [shiftLeft, value_append, value_replicate_zero, List.length_replicate,
    value_shiftLeftBits (Nat.mod_lt _ (by decide)) ws 0 (Nat.two_pow_pos _), UInt64.toNat_zero,
    hbits]
  ring

/-- The low bits of a limb, moved to the top, come from the quotient of the whole list. -/
theorem add_mul_div_two_pow {count : Nat} (h : count < 64) (w v : Nat) :
    (w + UInt64.size * v) / 2 ^ count =
      w / 2 ^ count + v % 2 ^ count * 2 ^ (64 - count) + UInt64.size * (v / 2 ^ count) := by
  have hsize : UInt64.size = 2 ^ count * 2 ^ (64 - count) := by
    rw [← Nat.pow_add, Nat.add_sub_cancel' h.le]
  have hv := Nat.mod_add_div v (2 ^ count)
  calc (w + UInt64.size * v) / 2 ^ count
      = (w + 2 ^ count * (2 ^ (64 - count) * v)) / 2 ^ count := by rw [hsize, Nat.mul_assoc]
    _ = w / 2 ^ count + 2 ^ (64 - count) * v := Nat.add_mul_div_left _ _ (Nat.two_pow_pos _)
    _ = w / 2 ^ count +
          2 ^ (64 - count) * (v % 2 ^ count + 2 ^ count * (v / 2 ^ count)) := by rw [hv]
    _ = w / 2 ^ count + v % 2 ^ count * 2 ^ (64 - count) + UInt64.size * (v / 2 ^ count) := by
        rw [hsize]; ring

/-- A right shift by less than a word divides by a power of two. -/
theorem value_shiftRightBits {count : Nat} (h : count < 64) (ws : Limbs) :
    value (shiftRightBits count ws) = value ws / 2 ^ count := by
  fun_induction shiftRightBits count ws with
  | case1 => rw [value_nil, Nat.zero_div]
  | case2 w => rw [value_singleton, value_singleton, Word.toNat_shiftRight w h]
  | case3 w v ws ih =>
      have hdvd : 2 ^ count ∣ UInt64.size := by
        rw [show UInt64.size = 2 ^ 64 from rfl]
        exact Nat.pow_dvd_pow 2 h.le
      have hlow : value (v :: ws) % 2 ^ count = v.toNat % 2 ^ count := by
        obtain ⟨c, hc⟩ := hdvd
        rw [value_cons, hc, Nat.mul_assoc, Nat.add_mul_mod_self_left]
      rw [value_cons, ih, value_cons w, add_mul_div_two_pow h, hlow,
        Word.shiftRight_or_exact w v h]

/-- A right shift divides by a power of two. -/
theorem value_shiftRight (ws : Limbs) (bits : Nat) :
    value (shiftRight ws bits) = value ws / 2 ^ bits := by
  rw [shiftRight, value_shiftRightBits (Nat.mod_lt _ (by decide)), value_drop,
    Nat.div_div_eq_div_mul, size_pow_eq, ← Nat.pow_add, Nat.div_add_mod]

/-! ### Bits -/

/-- Masking keeps the remainder by a power of two. -/
theorem value_mask (ws : Limbs) (bits : Nat) : value (mask ws bits) = value ws % 2 ^ bits := by
  fun_induction mask ws bits with
  | case1 bits => rw [value_nil, Nat.zero_mod]
  | case2 w ws bits h ih =>
      have hpow : 2 ^ bits = UInt64.size * 2 ^ (bits - 64) := by
        rw [show UInt64.size = 2 ^ 64 from rfl, ← Nat.pow_add, Nat.add_sub_cancel' h]
      rw [value_cons, value_cons, ih, hpow, Nat.mod_mul, Nat.add_mul_mod_self_left,
        Nat.mod_eq_of_lt (Word.toNat_lt w), Nat.add_mul_div_left _ _ (by decide),
        Nat.div_eq_of_lt (Word.toNat_lt w), Nat.zero_add]
  | case3 w ws bits h =>
      have hlow : value (w :: ws) % 2 ^ bits = w.toNat % 2 ^ bits := by
        obtain ⟨c, hc⟩ : 2 ^ bits ∣ UInt64.size := by
          rw [show UInt64.size = 2 ^ 64 from rfl]
          exact Nat.pow_dvd_pow 2 (Nat.le_of_not_le h)
        rw [value_cons, hc, Nat.mul_assoc, Nat.add_mul_mod_self_left]
      rw [hlow, value_cons, List.map_const', value_replicate_zero, Nat.mul_zero, Nat.add_zero,
        Word.toNat_and_mask w (Nat.lt_of_not_le h)]

/-- The bit length of a number whose high part is not zero. -/
theorem size_add_mul {w v : Nat} (hw : w < UInt64.size) (hv : v ≠ 0) :
    (w + UInt64.size * v).size = v.size + 64 := by
  refine eq_of_forall_ge_iff fun k => ?_
  rw [Nat.size_le]
  by_cases hk : 64 ≤ k
  · obtain ⟨j, rfl⟩ := Nat.exists_eq_add_of_le hk
    rw [Nat.add_comm v.size 64, Nat.add_le_add_iff_left, Nat.size_le, Nat.pow_add,
      show UInt64.size = 2 ^ 64 from rfl]
    rw [UInt64.size] at hw
    omega
  · have hpos : 1 ≤ v.size := Nat.size_pos.mpr (Nat.pos_of_ne_zero hv)
    have hpow : 2 ^ k ≤ UInt64.size :=
      Nat.pow_le_pow_right (by decide : 0 < 2) (Nat.le_of_not_le hk)
    have hmul : UInt64.size * 1 ≤ UInt64.size * v :=
      Nat.mul_le_mul_left _ (Nat.one_le_iff_ne_zero.mpr hv)
    constructor
    · intro hlt
      omega
    · intro hle
      omega

/-- The bit length of a list is the one of its value. -/
theorem bitLength_eq (ws : Limbs) : bitLength ws = (value ws).size := by
  induction ws with
  | nil => rfl
  | cons w ws ih =>
      rw [bitLength, value_cons, ih]
      match hsize : (value ws).size with
      | 0 =>
          rw [Nat.size_eq_zero.mp hsize, Nat.mul_zero, Nat.add_zero]
          exact Word.bitLength_eq w
      | n + 1 =>
          rw [size_add_mul (Word.toNat_lt w) fun h => ?_, hsize]
          rw [h, Nat.size_zero] at hsize
          cases hsize

/-- A bit of a list is the bit of its value. -/
theorem testBit_eq (ws : Limbs) (bit : Nat) : testBit ws bit = (value ws).testBit bit := by
  have hlt : bit % 64 < 64 := Nat.mod_lt _ (by decide)
  rw [testBit, Word.testBit_eq _ hlt, toNat_get, size_pow_eq,
    show UInt64.size = 2 ^ 64 from rfl, Nat.testBit_mod_two_pow, decide_eq_true hlt,
    Bool.true_and, Nat.testBit_div_two_pow, Nat.add_comm, Nat.div_add_mod]

/-! ### Shortest lists -/

/-- The number of limbs a number needs. -/
def count (n : Nat) : Nat :=
  (Nat.digits UInt64.size n).length

/-- The shortest list of limbs that denotes a number. -/
def ofNat (n : Nat) : Limbs :=
  (Nat.digits UInt64.size n).map UInt64.ofNat

/-- A number needs no more limbs than `k` exactly when it is below the radix to that power. -/
theorem count_le_iff {n k : Nat} : count n ≤ k ↔ n < UInt64.size ^ k :=
  Nat.digits_length_le_iff one_lt_size n

/-- A number needs more limbs than `k` exactly when it reaches the radix to that power. -/
theorem lt_count_iff {n k : Nat} : k < count n ↔ UInt64.size ^ k ≤ n :=
  Nat.lt_digits_length_iff one_lt_size n

/-- Zero alone needs no limbs. -/
theorem count_eq_zero_iff {n : Nat} : count n = 0 ↔ n = 0 := by
  rw [← Nat.le_zero, count_le_iff, Nat.pow_zero, Nat.lt_one_iff]

/-- A number is below the radix to the power of its count. -/
theorem lt_size_pow_count (n : Nat) : n < UInt64.size ^ count n :=
  count_le_iff.mp le_rfl

/-- A larger number needs no fewer limbs. -/
theorem count_mono {m n : Nat} (h : m ≤ n) : count m ≤ count n :=
  count_le_iff.mpr (h.trans_lt (lt_size_pow_count n))

/-- A number above zero takes one limb more than its quotient by the radix. -/
theorem count_add_mul {w v : Nat} (hw : w < UInt64.size) (hne : w + UInt64.size * v ≠ 0) :
    count (w + UInt64.size * v) = count v + 1 := by
  rw [count, count, Nat.digits_def' one_lt_size (Nat.pos_of_ne_zero hne), List.length_cons,
    Nat.add_mul_div_left _ _ (Nat.zero_lt_of_lt one_lt_size), Nat.div_eq_of_lt hw, Nat.zero_add]

/-- The significant limbs of a list are those its value needs. -/
theorem significant_eq (ws : Limbs) : significant ws = count (value ws) := by
  induction ws with
  | nil => rfl
  | cons w ws ih =>
      rw [significant, value_cons, ih]
      match hcount : count (value ws) with
      | 0 =>
          rw [count_eq_zero_iff.mp hcount, Nat.mul_zero, Nat.add_zero]
          by_cases hw : w = 0
          · subst w
            rfl
          · have hne : w.toNat + UInt64.size * 0 ≠ 0 := by
              intro h
              exact hw ((Word.toNat_eq_zero_iff w).mp h)
            have hone := count_add_mul (Word.toNat_lt w) hne
            rw [Nat.mul_zero, Nat.add_zero] at hone
            simp only [if_neg hw, hone]
            rfl
      | n + 1 =>
          have hpos : value ws ≠ 0 := by
            intro h
            rw [count_eq_zero_iff.mpr h] at hcount
            cases hcount
          have hne : w.toNat + UInt64.size * value ws ≠ 0 := by
            rw [UInt64.size]
            omega
          rw [count_add_mul (Word.toNat_lt w) hne, hcount]

/-- The digits of a number fit their limbs. -/
theorem map_toNat_ofNat (n : Nat) : (ofNat n).map UInt64.toNat = Nat.digits UInt64.size n := by
  rw [ofNat, List.map_map]
  conv_rhs => rw [← List.map_id (Nat.digits UInt64.size n)]
  refine List.map_congr_left fun d hd => ?_
  exact Word.toNat_ofNat_of_lt (Nat.digits_lt_base one_lt_size hd)

/-- The shortest list of a number denotes it. -/
@[simp] theorem value_ofNat (n : Nat) : value (ofNat n) = n := by
  rw [value_eq_ofDigits, map_toNat_ofNat, Nat.ofDigits_digits]

/-- The shortest list of a number has as many limbs as the number needs. -/
@[simp] theorem length_ofNat (n : Nat) : (ofNat n).length = count n := by
  rw [ofNat, List.length_map, count]

/-- Lists of the same length and value are the same. -/
theorem eq_of_value_eq {xs ys : Limbs} (hlen : xs.length = ys.length)
    (hvalue : value xs = value ys) : xs = ys := by
  have hdigit : ∀ zs : Limbs, ∀ d ∈ zs.map UInt64.toNat, d < UInt64.size := by
    intro zs d hd
    obtain ⟨w, -, rfl⟩ := List.mem_map.mp hd
    exact Word.toNat_lt w
  refine List.map_injective_iff.mpr (fun a b => UInt64.toNat_inj.mp) ?_
  refine Nat.ofDigits_inj_of_len_eq one_lt_size (by simpa using hlen) (hdigit xs) (hdigit ys) ?_
  simpa only [value_eq_ofDigits] using hvalue

/-- Trimming leaves the shortest list of the value. -/
theorem trim_eq (ws : Limbs) : trim ws = ofNat (value ws) := by
  have hle : count (value ws) ≤ ws.length := count_le_iff.mpr (value_lt ws)
  refine eq_of_value_eq ?_ ?_
  · rw [trim, significant_eq, List.length_take_of_le hle, length_ofNat]
  · rw [trim, significant_eq, value_take, Nat.mod_eq_of_lt (lt_size_pow_count _), value_ofNat]

end TrustedPlatform.Limbs
