import Mathlib.Tactic.LinearCombination
import TrustedPlatform.Integer.ScratchArithmetic
import TrustedPlatform.Proofs.Integer.Registers
import TrustedPlatform.Proofs.Integer.ScratchDivision

/-!
# The scratch area suffices for sums, products and shifts

Each access is within its array and no partial product leaves its double word, so that every
operation in place is carried out; the limbs it leaves denote the exact number. A carry chain is
followed as a segment between the limbs that are settled and those that are still zero, with one
equation that says what the flags of a step lose.
-/

namespace TrustedPlatform.Limbs.Scratch

open FixedNat (scratchLimbs)

/-- A computation in scratch is carried out, and leaves a number in limbs of the given count. -/
def Yields (x : Option Limbs) (length n : Nat) : Prop :=
  ∃ ws, x = some ws ∧ ws.length = length ∧ value ws = n

/-! ### Segments of the scratch area -/

/-- The scratch area is a segment of zeros and what lies above it. -/
theorem area_eq {length : Nat} (h : length ≤ scratchLimbs) :
    ∃ high, area = List.replicate length 0 ++ high := by
  obtain ⟨room, hroom⟩ := Nat.exists_eq_add_of_le h
  exact ⟨List.replicate room 0, by rw [area, hroom, List.replicate_add]⟩

/-- The lowest segment of an array. -/
theorem slice_append (low high : Limbs) : slice low.length (low ++ high) = some low := by
  rw [slice, if_pos (by simp), List.take_left]

/-- A segment becomes the limbs that are computed. -/
theorem fillUp_eq {limb : Nat → Option Word} (low ws window high : Limbs)
    (hlen : window.length = ws.length)
    (hlimb : ∀ i < ws.length, limb (low.length + i) = some (ws.get i)) :
    fillUp limb ws.length low.length (low ++ (window ++ high)) = some (low ++ (ws ++ high)) := by
  induction ws generalizing low window with
  | nil =>
      obtain rfl := List.eq_nil_of_length_eq_zero hlen
      rfl
  | cons w ws ih =>
      obtain ⟨x, window, rfl⟩ := List.exists_cons_of_length_eq_add_one hlen
      have hw : limb low.length = some w := hlimb 0 (Nat.succ_pos _)
      have hrest := ih (low ++ [w]) window (Nat.succ.inj hlen) fun i hi => by
        rw [List.length_append, List.length_singleton, Nat.add_assoc, Nat.add_comm 1]
        exact hlimb (i + 1) (Nat.succ_lt_succ hi)
      rw [List.length_append, List.append_assoc, List.append_assoc] at hrest
      rw [List.length_cons, fillUp, bind_of_eq_some hw, List.cons_append,
        bind_of_eq_some (store_middle low _ x w rfl)]
      exact hrest

/-! ### Carry chains -/

/-- What a step of a carry chain computes, with `sign` one for sums and minus one for differences:
its low word is exact but for the flag that it hands on. -/
def Exact (sign : Int) (step : Word → Word → Word → Word × Bool) : Prop :=
  ∀ (x y : Word) (flag : Bool), ((step x y flag.toUInt64).1.toNat : Int) =
    x.toNat + sign * (y.toNat + flag.toNat - UInt64.size * (step x y flag.toUInt64).2.toNat)

/-- An addition loses exactly what its flag says. -/
theorem overflowingAdd_exact (x y : Word) :
    (overflowingAdd x y).1.toNat + UInt64.size * (overflowingAdd x y).2.toNat =
      x.toNat + y.toNat := by
  have hx := UInt64.toNat_lt x
  have hy := UInt64.toNat_lt y
  rw [overflowingAdd, UInt64.toNat_add]
  by_cases h : UInt64.size ≤ x.toNat + y.toNat
  · rw [decide_eq_true h, Bool.toNat_true]
    rw [UInt64.size] at *
    omega
  · rw [decide_eq_false h, Bool.toNat_false]
    rw [UInt64.size] at *
    omega

/-- A subtraction borrows exactly what its flag says. -/
theorem overflowingSub_exact (x y : Word) :
    (overflowingSub x y).1.toNat + y.toNat =
      x.toNat + UInt64.size * (overflowingSub x y).2.toNat := by
  have hx := UInt64.toNat_lt x
  have hy := UInt64.toNat_lt y
  rw [overflowingSub, UInt64.toNat_sub, UInt64.size]
  by_cases h : x.toNat < y.toNat
  · rw [decide_eq_true h, Bool.toNat_true]
    omega
  · rw [decide_eq_false h, Bool.toNat_false]
    omega

/-- Two flags of which at most one is set count as their disjunction. -/
theorem toNat_or {c1 c2 : Bool} (h : c1.toNat + c2.toNat ≤ 1) :
    (c1 || c2).toNat = c1.toNat + c2.toNat := by
  revert h
  cases c1 <;> cases c2 <;> decide

/-- The two additions of a sum do not both overflow, so that their flags stand for one carry. -/
theorem exact_carrying : Exact 1 carrying := by
  intro x y carry
  have hx := Word.toNat_lt x
  have hy := Word.toNat_lt y
  have hcarry := carry.toNat_le
  have hfirst := overflowingAdd_exact x y
  rw [carrying]
  generalize overflowingAdd x y = low at hfirst ⊢
  obtain ⟨s, c1⟩ := low
  have hsecond := overflowingAdd_exact s carry.toUInt64
  rw [Word.toNat_toUInt64] at hsecond
  dsimp only at hfirst ⊢
  generalize overflowingAdd s carry.toUInt64 = both at hsecond ⊢
  obtain ⟨t, c2⟩ := both
  dsimp only at hsecond ⊢
  have hflags : c1.toNat + c2.toNat ≤ 1 := by
    rw [UInt64.size] at *
    omega
  rw [toNat_or hflags]
  zify at hfirst hsecond
  push_cast
  linear_combination hfirst + hsecond

/-- The two subtractions of a difference do not both go below zero, so that their flags stand for
one borrow. -/
theorem exact_borrowing : Exact (-1) borrowing := by
  intro x y borrow
  have hy := Word.toNat_lt y
  have hborrow := borrow.toNat_le
  have hfirst := overflowingSub_exact x y
  rw [borrowing]
  generalize overflowingSub x y = low at hfirst ⊢
  obtain ⟨s, b1⟩ := low
  have hsecond := overflowingSub_exact s borrow.toUInt64
  rw [Word.toNat_toUInt64] at hsecond
  dsimp only at hfirst ⊢
  generalize overflowingSub s borrow.toUInt64 = both at hsecond ⊢
  obtain ⟨t, b2⟩ := both
  dsimp only at hsecond ⊢
  have hlow := Word.toNat_lt t
  have hflags : b1.toNat + b2.toNat ≤ 1 := by
    rw [UInt64.size] at *
    omega
  rw [toNat_or hflags]
  zify at hfirst hsecond
  push_cast
  linear_combination hfirst + hsecond

/-- The limbs of a list from a position on: one limb, and those from the next position on. -/
theorem value_drop_eq (ws : Limbs) (i : Nat) :
    value (ws.drop i) = (ws.get i).toNat + UInt64.size * value (ws.drop (i + 1)) := by
  rw [value_drop, toNat_get, value_drop, Nat.pow_succ, ← Nat.div_div_eq_div_mul, Nat.mod_add_div]

/-- A limb of a number is a limb of its used limbs. -/
theorem word_eq_get (a : FixedNat) (i : Nat) : a.word i = a.words.get i := by
  rw [FixedNat.word, FixedNat.words, get, get, List.getD_eq_getElem?_getD,
    List.getD_eq_getElem?_getD, List.getElem?_take]
  split <;> rfl

/-- A carry chain is carried out: what its limbs and its last flag denote is the sum or the
difference of what the two numbers have from its first position on. -/
theorem ripple_spec {sign : Int} {step : Word → Word → Word → Word × Bool}
    (hstep : Exact sign step) (a b : FixedNat) (low window high : Limbs) (flag : Bool) :
    ∃ (digits : Limbs) (last : Bool), digits.length = window.length ∧
      ripple step a b window.length low.length (low ++ (window ++ high)) flag.toUInt64 =
        some (low ++ (digits ++ high), last.toUInt64) ∧
      (value digits : Int) + UInt64.size ^ window.length *
          (value (a.words.drop (low.length + window.length)) +
            sign * (value (b.words.drop (low.length + window.length)) + last.toNat)) =
        value (a.words.drop low.length) + sign * (value (b.words.drop low.length) + flag.toNat) := by
  induction window generalizing low flag with
  | nil => exact ⟨[], flag, rfl, rfl, by simp⟩
  | cons x window ih =>
      generalize ht : step (a.word low.length) (b.word low.length) flag.toUInt64 = next
      obtain ⟨t, carried⟩ := next
      obtain ⟨digits, last, hlen, hrun, hvalue⟩ := ih (low ++ [t]) carried
      rw [List.length_append, List.length_singleton] at hrun hvalue
      refine ⟨t :: digits, last, by rw [List.length_cons, List.length_cons, hlen], ?_, ?_⟩
      · rw [List.length_cons, ripple]
        simp only [ht]
        rw [List.cons_append, bind_of_eq_some (store_middle low _ x t rfl)]
        simpa using hrun
      · have hdigit := hstep (a.word low.length) (b.word low.length) flag
        have ha := value_drop_eq a.words low.length
        have hb := value_drop_eq b.words low.length
        rw [ht, word_eq_get, word_eq_get] at hdigit
        rw [ha, hb, value_cons, List.length_cons, show low.length + (window.length + 1) =
          low.length + 1 + window.length by omega]
        push_cast at hvalue hdigit ⊢
        rw [pow_succ]
        linear_combination hdigit + (UInt64.size : Int) * hvalue

/-- Above its size a number has no limbs. -/
theorem value_drop_words (a : FixedNat) {i : Nat} (h : a.size ≤ i) : value (a.words.drop i) = 0 := by
  have hlen : a.words.length ≤ i := (List.length_take_le _ _).trans h
  rw [List.drop_of_length_le hlen, value_nil]

/-- A sum is carried out; its last carry is the limb on top. -/
theorem sum_yields (a b : FixedNat) (h : max a.size b.size + 1 ≤ scratchLimbs) :
    Yields (sum a b) (max a.size b.size + 1) (a.value + b.value) := by
  rw [sum]
  generalize hlength : max a.size b.size = length at h ⊢
  obtain ⟨high, harea⟩ := area_eq h
  obtain ⟨digits, carry, hlen, hrun, hvalue⟩ :=
    ripple_spec exact_carrying a b [] (List.replicate length 0) (0 :: high) false
  rw [List.length_replicate] at hlen hrun hvalue
  rw [List.nil_append, List.nil_append, List.length_nil] at hrun
  rw [List.replicate_succ', List.append_assoc, List.singleton_append] at harea
  rw [List.length_nil, Nat.zero_add, value_drop_words a (by omega), value_drop_words b (by omega),
    List.drop_zero, List.drop_zero, Bool.toNat_false] at hvalue
  refine ⟨digits ++ [carry.toUInt64], ?_, ?_, ?_⟩
  · have hslice := slice_append (digits ++ [carry.toUInt64]) high
    rw [List.length_append, List.length_singleton, hlen, List.append_assoc,
      List.singleton_append] at hslice
    rw [harea]
    refine (bind_of_eq_some hrun _).trans ?_
    exact (bind_of_eq_some (store_middle digits high 0 _ hlen) _).trans hslice
  · rw [List.length_append, List.length_singleton, hlen]
  · rw [value_append, value_singleton, Word.toNat_toUInt64, hlen, FixedNat.value, FixedNat.value]
    zify
    linear_combination hvalue

/-- A difference is carried out; no borrow is left when the second number is not the larger. -/
theorem difference_yields (a b : FixedNat) (hle : b.value ≤ a.value)
    (h : a.size ≤ scratchLimbs) :
    Yields (difference a b) a.size (a.value - b.value) := by
  rw [difference]
  obtain ⟨high, harea⟩ := area_eq h
  obtain ⟨digits, borrow, hlen, hrun, hvalue⟩ :=
    ripple_spec exact_borrowing a b [] (List.replicate a.size 0) high false
  rw [List.length_replicate] at hlen hrun hvalue
  rw [List.nil_append, List.nil_append, List.length_nil] at hrun
  rw [List.length_nil, Nat.zero_add, value_drop_words a le_rfl, List.drop_zero, List.drop_zero,
    Bool.toNat_false] at hvalue
  refine ⟨digits, ?_, hlen, ?_⟩
  · have hslice := slice_append digits high
    rw [hlen] at hslice
    rw [harea]
    exact (bind_of_eq_some hrun _).trans hslice
  · have hlt := value_lt digits
    rw [hlen] at hlt
    rw [← Nat.cast_pow] at hvalue
    rw [FixedNat.value, FixedNat.value] at hle ⊢
    generalize UInt64.size ^ a.size = radix at hlt hvalue
    rw [Nat.cast_zero, zero_add] at hvalue
    have hexcess : value (b.words.drop a.size) + borrow.toNat = 0 := by
      by_contra hne
      have hmul := Nat.mul_le_mul_left radix (Nat.pos_of_ne_zero hne)
      zify at hmul hlt hle
      linarith
    zify at hexcess
    rw [hexcess] at hvalue
    zify [hle]
    linear_combination hvalue

/-! ### Products -/

/-- A partial product with the limb that it is added to and a carry fits a double word. -/
theorem mul_add_add_lt (x y o : Word) {carry : Nat} (h : carry < UInt64.size) :
    x.toNat * y.toNat + o.toNat + carry < 2 ^ 128 := by
  have hproduct : x.toNat * y.toNat ≤ (2 ^ 64 - 1) * (2 ^ 64 - 1) :=
    Nat.mul_le_mul (Nat.le_pred_of_lt (UInt64.toNat_lt x)) (Nat.le_pred_of_lt (UInt64.toNat_lt y))
  have ho := UInt64.toNat_lt o
  rw [UInt64.size] at h
  omega

/-- A row is carried out: its limbs and its carry denote the product of the limb with the rest of
the list, added to what the array held. -/
theorem addRow_spec (x : Word) (done ys low window high : Limbs) {i carry : Nat}
    (hlow : low.length = i + done.length) (hlen : window.length = ys.length)
    (hcarry : carry < UInt64.size) :
    ∃ (digits : Limbs) (top : Nat), digits.length = ys.length ∧ top < UInt64.size ∧
      addRow x (done ++ ys) i ys.length done.length (low ++ (window ++ high)) carry =
        some (low ++ (digits ++ high), top) ∧
      value digits + UInt64.size ^ ys.length * top =
        x.toNat * value ys + value window + carry := by
  induction ys generalizing done low window carry with
  | nil =>
      obtain rfl := List.eq_nil_of_length_eq_zero hlen
      exact ⟨[], carry, rfl, hcarry, rfl, by simp⟩
  | cons y ys ih =>
      obtain ⟨o, window, rfl⟩ := List.exists_cons_of_length_eq_add_one hlen
      have hsum := mul_add_add_lt x y o hcarry
      generalize ht : x.toNat * y.toNat + o.toNat + carry = t at hsum
      have hhigh : t / UInt64.size < UInt64.size := by
        rw [Nat.div_lt_iff_lt_mul (by decide), size_mul_size]
        exact hsum
      obtain ⟨digits, top, hdigits, htop, hrun, hvalue⟩ :=
        ih (done ++ [y]) (low ++ [UInt64.ofNat t]) window
          (by rw [List.length_append, List.length_append, hlow]; rfl) (Nat.succ.inj hlen) hhigh
      simp only [List.length_append, List.length_singleton, List.append_assoc,
        List.singleton_append] at hrun
      refine ⟨UInt64.ofNat t :: digits, top, congrArg Nat.succ hdigits, htop, ?_, ?_⟩
      · rw [List.length_cons, List.cons_append, addRow,
          bind_of_eq_some (getElem?_middle done ys y rfl),
          bind_of_eq_some (unsigned_of_lt (by omega)),
          bind_of_eq_some (getElem?_middle low _ o hlow),
          bind_of_eq_some (unsigned_of_lt (by omega)), ht,
          bind_of_eq_some (unsigned_of_lt hsum),
          bind_of_eq_some (store_middle low _ o _ hlow)]
        exact hrun
      · have hsplit := Nat.mod_add_div t UInt64.size
        have hdigit : (UInt64.ofNat t).toNat = t % UInt64.size := UInt64.toNat_ofNat'
        rw [value_cons, value_cons, value_cons, List.length_cons, pow_succ, hdigit]
        linear_combination hsplit - ht + UInt64.size * hvalue

/-- The rows of a product are carried out: above the limbs that are settled they leave the product
of the rest of the first list with the second, added to what the array held. -/
theorem addRows_spec (done xs ys settled acc : Limbs) (hsettled : settled.length = done.length)
    (hacc : acc.length = ys.length) :
    ∃ ws : Limbs, addRows (done ++ xs) ys xs.length done.length
        (settled ++ (acc ++ List.replicate xs.length 0)) = some (settled ++ ws) ∧
      ws.length = xs.length + ys.length ∧ value ws = value xs * value ys + value acc := by
  induction xs generalizing done settled acc with
  | nil => exact ⟨acc, by simp [addRows], by simp [hacc], by simp⟩
  | cons x xs ih =>
      obtain ⟨digits, top, hdigits, htop, hrow, hvalue⟩ :=
        addRow_spec x [] ys settled acc (0 :: List.replicate xs.length 0) hsettled hacc
          (by decide : 0 < UInt64.size)
      -- The lowest limb of the row is settled; the others, with its carry, go into the next row.
      obtain ⟨d, rest, hsplit⟩ : ∃ d rest, digits ++ [UInt64.ofNat top] = d :: rest :=
        List.exists_cons_of_ne_nil (by simp)
      have hrest : rest.length = ys.length := by
        have hlen := congrArg List.length hsplit
        rw [List.length_append, List.length_singleton, List.length_cons, hdigits] at hlen
        exact (Nat.succ.inj hlen).symm
      obtain ⟨ws, hrun, hlen, hproduct⟩ :=
        ih (done ++ [x]) (settled ++ [d]) rest (by simp [hsettled]) hrest
      refine ⟨d :: ws, ?_, by rw [List.length_cons, hlen, List.length_cons]; omega, ?_⟩
      · have hstore := store_above settled digits (List.replicate xs.length 0) 0
          (UInt64.ofNat top) hdigits
        have hjoin : digits ++ UInt64.ofNat top :: List.replicate xs.length 0 =
            d :: (rest ++ List.replicate xs.length 0) := by
          rw [← List.cons_append, ← hsplit, List.append_assoc, List.singleton_append]
        rw [hsettled, hjoin] at hstore
        simp only [List.length_append, List.length_singleton, List.append_assoc,
          List.singleton_append] at hrun
        rw [List.length_cons, List.replicate_succ, addRows,
          bind_of_eq_some (getElem?_middle done xs x rfl)]
        refine (bind_of_eq_some hrow _).trans ?_
        exact (bind_of_eq_some hstore _).trans hrun
      · have htotal := congrArg value hsplit
        rw [value_append, value_singleton, value_cons, hdigits, Word.toNat_ofNat_of_lt htop,
          hvalue] at htotal
        rw [value_cons, value_cons, hproduct]
        linear_combination -htotal

/-- A product is carried out. -/
theorem product_yields {a b : FixedNat} (ha : a.WellFormed) (hb : b.WellFormed)
    (h : a.size + b.size ≤ scratchLimbs) :
    Yields (product a b) (a.size + b.size) (a.value * b.value) := by
  have hzeros : List.replicate (a.size + b.size) (0 : Word) =
      [] ++ (List.replicate b.size 0 ++ List.replicate a.words.length 0) := by
    rw [ha.length_words, Nat.add_comm, List.replicate_add, List.nil_append]
  obtain ⟨ws, hrun, hlen, hvalue⟩ := addRows_spec [] a.words b.words [] (List.replicate b.size 0)
    rfl (by rw [List.length_replicate, hb.length_words])
  refine ⟨ws, ?_, ?_, ?_⟩
  · rw [product, bind_of_eq_some (array_of_le h), hzeros]
    exact hrun
  · rw [hlen, ha.length_words, hb.length_words]
  · rw [hvalue, value_replicate_zero, Nat.add_zero, FixedNat.value, FixedNat.value]

/-! ### Shifts and masks -/

/-- The first limb of what is left of a number. -/
theorem word_of_drop {a : FixedNat} {i : Nat} {w : Word} {ws : Limbs}
    (h : a.words.drop i = w :: ws) : a.word i = w ∧ a.words.drop (i + 1) = ws := by
  constructor
  · rw [word_eq_get, get, List.getD_eq_getElem?_getD, ← List.head?_drop, h, List.head?_cons,
      Option.getD_some]
  · rw [← List.tail_drop, h, List.tail_cons]

/-- A left shift is carried out: each limb finds above the settled ones what the limb below it has
spilled, and spills into the next. -/
theorem shiftUp_spec (a : FixedNat) {words bits : Nat} (hbits : bits < 64) (xs low high : Limbs)
    {i : Nat} {carry : Word} (hxs : a.words.drop i = xs) (hlow : low.length = i + words)
    (hcarry : bits = 0 → carry = 0) :
    shiftUp a words bits xs.length i (low ++ carry :: (List.replicate xs.length 0 ++ high)) =
      some (low ++ (shiftLeftBits bits xs carry ++ high)) := by
  induction xs generalizing i low carry with
  | nil => rfl
  | cons w xs ih =>
      obtain ⟨hw, hrest⟩ := word_of_drop hxs
      have hnext : ∀ out, (low ++ [out]).length = i + 1 + words := by
        intro out
        rw [List.length_append, List.length_singleton, hlow]
        omega
      rw [List.length_cons, List.replicate_succ, List.cons_append, shiftUp, hw, shiftLeftBits]
      by_cases hzero : bits = 0
      · subst hzero
        have hrun := ih (low ++ [w]) hrest (hnext w) fun _ => (rfl : (0 : Word) = 0)
        rw [List.append_assoc, List.append_assoc, List.singleton_append, List.singleton_append]
          at hrun
        have hsame : w <<< UInt64.ofNat 0 ||| carry = w := by
          rw [hcarry rfl, UInt64.or_zero]
          exact UInt64.shiftLeft_zero
        rw [hsame, if_pos rfl, bind_of_eq_some (store_middle low _ carry w hlow)]
        exact hrun
      · have hrun := ih (low ++ [w <<< UInt64.ofNat bits ||| carry]) hrest (hnext _)
          fun h => (absurd h hzero : w.spill bits = 0)
        have habove := store_middle (low ++ [w <<< UInt64.ofNat bits ||| carry])
          (List.replicate xs.length 0 ++ high) 0 (w.spill bits) (i := i + words + 1)
          (by rw [List.length_append, List.length_singleton, hlow])
        have hleft : shiftLeft w bits = some (w <<< UInt64.ofNat bits) := if_pos hbits
        have hright : shiftRight w (64 - bits) = some (w.spill bits) := by
          rw [shiftRight, if_pos (by omega), Word.spill, if_neg hzero]
        simp only [List.append_assoc, List.singleton_append] at hrun habove
        rw [if_neg hzero, bind_of_eq_some (getElem?_middle low _ carry hlow),
          bind_of_eq_some hleft, bind_of_eq_some (store_middle low _ carry _ hlow),
          bind_of_eq_some hright, UInt64.or_comm, bind_of_eq_some habove]
        exact hrun

/-- A left shift of a number is carried out. -/
theorem shiftedLeft_yields {a : FixedNat} (ha : a.WellFormed) {bits : Nat}
    (h : a.size + bits / 64 + 1 ≤ scratchLimbs) :
    Yields (shiftedLeft a bits) (a.size + bits / 64 + 1) (a.value * 2 ^ bits) := by
  obtain ⟨high, harea⟩ := area_eq h
  have hzeros : area = List.replicate (bits / 64) 0 ++
      0 :: (List.replicate a.words.length 0 ++ high) := by
    rw [harea, ha.length_words, Nat.add_comm a.size, Nat.add_assoc, List.replicate_add,
      List.append_assoc, List.replicate_succ, List.cons_append]
  have hlow : (List.replicate (bits / 64) (0 : Word)).length = 0 + bits / 64 := by
    rw [List.length_replicate, Nat.zero_add]
  have hrun := shiftUp_spec a (Nat.mod_lt bits (by decide : 0 < 64)) a.words _ high List.drop_zero
    hlow fun _ => (rfl : (0 : Word) = 0)
  have hlen : (a.words.shiftLeft bits).length = a.size + bits / 64 + 1 := by
    rw [Limbs.shiftLeft, List.length_append, List.length_replicate, length_shiftLeftBits,
      ha.length_words]
    omega
  refine ⟨a.words.shiftLeft bits, ?_, hlen, by rw [value_shiftLeft, FixedNat.value]⟩
  have hslice := slice_append (a.words.shiftLeft bits) high
  rw [← hzeros, ha.length_words, ← List.append_assoc] at hrun
  rw [hlen] at hslice
  exact (bind_of_eq_some hrun _).trans hslice

/-- A limb of a number shifted right. -/
theorem shiftedLimb_eq (a : FixedNat) (bits : Nat) {i : Nat} (hi : i < a.words.length - bits / 64) :
    shiftedLimb a (bits / 64) (bits % 64) i = some ((a.words.shiftRight bits).get i) := by
  have hget : ∀ j, a.word (j + bits / 64) = get (a.words.drop (bits / 64)) j := by
    intro j
    rw [word_eq_get, get, get, List.getD_eq_getElem?_getD, List.getD_eq_getElem?_getD,
      List.getElem?_drop, Nat.add_comm]
  have habove := hget (i + 1)
  rw [Nat.add_right_comm] at habove
  rw [shiftedLimb, hget, habove, Limbs.shiftRight,
    get_shiftRightBits _ _ (by rwa [List.length_drop])]
  generalize hbits : bits % 64 = shift
  have hlt : shift < 64 := hbits ▸ Nat.mod_lt bits (by decide)
  simp only [Word.spillRight]
  by_cases hzero : shift = 0
  · subst hzero
    rw [if_pos rfl, if_pos rfl, UInt64.or_zero]
    exact congrArg some UInt64.shiftRight_zero.symm
  · rw [if_neg hzero, if_neg hzero, shiftRight, if_pos hlt, shiftLeft, if_pos (by omega)]
    rfl

/-- A right shift of a number is carried out. -/
theorem shiftedRight_yields {a : FixedNat} (ha : a.WellFormed) {bits : Nat}
    (h : a.size - bits / 64 ≤ scratchLimbs) :
    Yields (shiftedRight a bits) (a.size - bits / 64) (a.value / 2 ^ bits) := by
  obtain ⟨high, harea⟩ := area_eq h
  have hlen : (a.words.shiftRight bits).length = a.size - bits / 64 := by
    rw [Limbs.shiftRight, length_shiftRightBits, List.length_drop, ha.length_words]
  have hlimb : ∀ i < (a.words.shiftRight bits).length,
      shiftedLimb a (bits / 64) (bits % 64) (([] : Limbs).length + i) =
        some ((a.words.shiftRight bits).get i) := by
    intro i hi
    rw [List.length_nil, Nat.zero_add]
    exact shiftedLimb_eq a bits (by rwa [ha.length_words, ← hlen])
  have hrun := fillUp_eq [] (a.words.shiftRight bits) (List.replicate (a.size - bits / 64) 0) high
    (by rw [List.length_replicate, hlen]) hlimb
  have hslice := slice_append (a.words.shiftRight bits) high
  rw [hlen, List.nil_append, List.nil_append, ← harea] at hrun
  rw [hlen] at hslice
  refine ⟨a.words.shiftRight bits, ?_, hlen, by rw [value_shiftRight, FixedNat.value]⟩
  exact (bind_of_eq_some hrun _).trans hslice

/-- The limbs of a masked list: unchanged below the one that the mask ends in, and zero above. -/
theorem get_mask (ws : Limbs) (bits : Nat) {i : Nat} (hi : i < ws.length) :
    (mask ws bits).get i =
      if bits / 64 < i then (0 : Word)
      else if i = bits / 64 then ws.get i &&& ((1 <<< UInt64.ofNat (bits % 64)) - 1)
      else ws.get i := by
  fun_induction mask ws bits generalizing i with
  | case1 => cases hi
  | case2 w ws bits h ih =>
      have hdiv : bits / 64 = (bits - 64) / 64 + 1 := by omega
      have hmod : bits % 64 = (bits - 64) % 64 := by omega
      rw [hdiv, hmod]
      cases i with
      | zero => rw [if_neg (Nat.not_lt_zero _), if_neg (Nat.succ_ne_zero _).symm]; rfl
      | succ i =>
          simp only [Nat.add_lt_add_iff_right, Nat.add_right_cancel_iff]
          exact ih (Nat.lt_of_succ_lt_succ hi)
  | case3 w ws bits h =>
      have hlt := Nat.lt_of_not_le h
      rw [Nat.div_eq_of_lt hlt, Nat.mod_eq_of_lt hlt]
      cases i with
      | zero => rw [if_neg (Nat.lt_irrefl _), if_pos rfl]; rfl
      | succ i =>
          rw [if_pos (Nat.succ_pos i), List.map_const']
          exact FixedNat.get_replicate_zero ws.length i

/-- A limb of a masked list. -/
theorem maskedLimb_eq (ws : Limbs) (bits : Nat) {i : Nat} (hi : i < ws.length) :
    maskedLimb ws bits i = some ((ws.mask bits).get i) := by
  have hone : shiftLeft 1 (bits % 64) = some (1 <<< UInt64.ofNat (bits % 64)) :=
    if_pos (Nat.mod_lt bits (by decide))
  rw [maskedLimb, bind_of_eq_some (getElem?_eq_get ws hi), get_mask ws bits hi, hone]
  rcases Nat.lt_trichotomy i (bits / 64) with hlt | heq | hgt
  · rw [if_neg (by omega), if_neg hlt.ne, if_neg hlt.not_gt, if_neg hlt.ne]
    rfl
  · by_cases hzero : bits % 64 = 0
    · rw [if_pos (.inr ⟨heq, hzero⟩), if_neg (Nat.not_lt.mpr heq.le), if_pos heq, hzero]
      exact congrArg some UInt64.and_zero.symm
    · rw [if_neg (by omega), if_pos heq, if_neg (Nat.not_lt.mpr heq.le), if_pos heq]
      rfl
  · rw [if_pos (.inl hgt), if_pos hgt]
    rfl

/-- Masking is carried out. -/
theorem masked_eq (a : FixedNat) (bits : Nat) : masked a bits = some (a.limbs.mask bits) := by
  have hlen : (a.limbs.mask bits).length = a.limbs.length := length_mask _ _
  have hlimb : ∀ i < (a.limbs.mask bits).length,
      maskedLimb a.limbs bits (([] : Limbs).length + i) = some ((a.limbs.mask bits).get i) := by
    intro i hi
    rw [List.length_nil, Nat.zero_add]
    exact maskedLimb_eq a.limbs bits (hlen ▸ hi)
  have hrun := fillUp_eq [] (a.limbs.mask bits) a.limbs [] hlen.symm hlimb
  rw [hlen, List.append_nil, List.append_nil] at hrun
  exact hrun

/-! ### Order -/

/-- A true statement counts one. -/
theorem flag_pos {p : Prop} [Decidable p] (h : p) : flag p = 1 :=
  if_pos h

/-- A false statement counts zero. -/
theorem flag_neg {p : Prop} [Decidable p] (h : ¬p) : flag p = 0 :=
  if_neg h

/-- One limb further down, a comparison is decided by what was above and then by that limb. -/
theorem compare_decideLimb (x y : Word) (result : Int) :
    Ord.compare (decideLimb x y result) 0 =
      (Ord.compare result 0).then (Ord.compare x.toNat y.toNat) := by
  by_cases hzero : result = 0
  · subst hzero
    rcases Nat.lt_trichotomy x.toNat y.toNat with hlt | heq | hgt
    · have hword : x < y := UInt64.lt_iff_toNat_lt.mpr hlt
      rw [Nat.compare_eq_lt.mpr hlt, decideLimb, flag_pos rfl, flag_neg (asymm hword),
        flag_pos hword]
      rfl
    · obtain rfl : x = y := UInt64.toNat_inj.mp heq
      rw [Nat.compare_eq_eq.mpr rfl, decideLimb, sub_self, mul_zero]
      rfl
    · have hword : y < x := UInt64.lt_iff_toNat_lt.mpr hgt
      rw [Nat.compare_eq_gt.mpr hgt, decideLimb, flag_pos rfl, flag_pos hword,
        flag_neg (asymm hword)]
      rfl
  · have hkept : decideLimb x y result = result := by
      rw [decideLimb, flag_neg hzero, zero_mul, add_zero]
    have hdecided : Ord.compare result 0 ≠ .eq := mt Int.compare_eq_eq.mp hzero
    rw [hkept]
    cases hcompare : Ord.compare result 0 with
    | lt => rfl
    | gt => rfl
    | eq => exact absurd hcompare hdecided

/-- A comparison taken through the limbs below a position is the one of the numbers that they
denote, unless it is decided already. -/
theorem compare_scan (a b : FixedNat) (n : Nat) (result : Int) :
    Ord.compare (scan a b n result) 0 = (Ord.compare result 0).then
      (Ord.compare (value (a.limbs.take n)) (value (b.limbs.take n))) := by
  have hpow := size_pow_pos
  have hstep : ∀ (ws : Limbs) (n : Nat), value (ws.take (n + 1)) =
      value (ws.take n) + UInt64.size ^ n * (ws.get n).toNat := by
    intro ws n
    rw [value_take, value_take, toNat_get, Nat.pow_succ, Nat.mod_mul]
  induction n generalizing result with
  | zero =>
      rw [scan, List.take_zero, List.take_zero, Nat.compare_eq_eq.mpr rfl]
      cases Ord.compare result 0 <;> rfl
  | succ n ih =>
      rw [scan, ih, compare_decideLimb, hstep, hstep, compare_add_mul, Ordering.then_assoc]
      · rw [value_take]; exact Nat.mod_lt _ (hpow n)
      · rw [value_take]; exact Nat.mod_lt _ (hpow n)

/-- The comparison of two buffers is the one of their numbers, whatever their capacities. -/
theorem order_eq {a b : FixedNat} (ha : a.WellFormed) (hb : b.WellFormed) :
    order a b = Ord.compare a.value b.value := by
  have htake : ∀ x : FixedNat, x.WellFormed → x.capacity ≤ max a.capacity b.capacity →
      value (x.limbs.take (max a.capacity b.capacity)) = x.value := by
    intro x hx hle
    rw [List.take_of_length_le hle, hx.value_limbs]
  rw [order, compare_scan, htake a ha (Nat.le_max_left _ _), htake b hb (Nat.le_max_right _ _)]
  rfl

end TrustedPlatform.Limbs.Scratch
