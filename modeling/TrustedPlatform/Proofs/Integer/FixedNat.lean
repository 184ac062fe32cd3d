import TrustedPlatform.Integer.FixedNat
import TrustedPlatform.Proofs.Bytes
import TrustedPlatform.Proofs.Integer.Limbs

/-!
# Well-formed numbers of fixed capacity

A well-formed buffer is determined by its capacity and its number, so that the results of all
operations can be given as `FixedNat.hold?` of the exact result: the number in a buffer of the
capacity, or a fatal allocation when it does not fit. What is observed of a buffer is observed of
its number.
-/

namespace TrustedPlatform.FixedNat

open Limbs (count count_le_iff)

/-! ### Buffers that hold a number -/

/-- A number in a buffer of the given capacity, which it is assumed to fit. -/
def ofNat (capacity n : Nat) : FixedNat :=
  ⟨Limbs.ofNat n ++ List.replicate (max capacity 1 - count n) 0, count n⟩

/-- A number in a buffer of the given capacity; fatal when it does not fit. -/
def hold? (capacity n : Nat) : Checked FixedNat :=
  if n < UInt64.size ^ max capacity 1 then .ok (ofNat capacity n) else .error (.fatal .allocation)

/-- The used limbs of a number are its shortest list. -/
@[simp] theorem words_ofNat (capacity n : Nat) : (ofNat capacity n).words = Limbs.ofNat n := by
  rw [words, ofNat, ← Limbs.length_ofNat n, List.take_left]

/-- The buffer made for a number holds it. -/
@[simp] theorem value_ofNat (capacity n : Nat) : (ofNat capacity n).value = n := by
  rw [value, words_ofNat, Limbs.value_ofNat]

/-- The used size of a number. -/
@[simp] theorem size_ofNat (capacity n : Nat) : (ofNat capacity n).size = count n := rfl

/-- The buffer made for a number has the requested capacity, or one limb. -/
theorem capacity_ofNat {capacity n : Nat} (h : n < UInt64.size ^ max capacity 1) :
    (ofNat capacity n).capacity = max capacity 1 := by
  rw [FixedNat.capacity, ofNat, List.length_append, Limbs.length_ofNat, List.length_replicate]
  exact Nat.add_sub_cancel' (count_le_iff.mpr h)

/-- The limb of the shortest list below the used size is not zero at the top. -/
theorem get_ofNat_top {n k : Nat} (h : count n = k + 1) : (Limbs.ofNat n).get k ≠ 0 := by
  intro hzero
  have hlen : (Limbs.ofNat n).length = k + 1 := (Limbs.length_ofNat n).trans h
  have htop := Limbs.toNat_get (Limbs.ofNat n) k
  rw [hzero, UInt64.toNat_zero, Limbs.value_ofNat, Nat.mod_eq_of_lt, eq_comm,
    Nat.div_eq_zero_iff_lt (Limbs.size_pow_pos k), ← count_le_iff, h] at htop
  · exact Nat.not_succ_le_self k htop
  · rw [Nat.div_lt_iff_lt_mul (Limbs.size_pow_pos k), ← Nat.pow_succ', ← count_le_iff, h]

/-- A limb of two joined lists. -/
theorem get_append (xs ys : Limbs) (i : Nat) :
    Limbs.get (xs ++ ys) i = if i < xs.length then xs.get i else ys.get (i - xs.length) := by
  simp only [Limbs.get, List.getD_eq_getElem?_getD, List.getElem?_append]
  split <;> rfl

/-- A limb of a list of zeros is zero. -/
theorem get_replicate_zero (k i : Nat) : Limbs.get (List.replicate k 0) i = 0 := by
  rw [Limbs.get, List.getD_eq_getElem?_getD, List.getElem?_replicate]
  split <;> rfl

/-- The buffer made for a number that fits is well formed. -/
theorem wellFormed_ofNat {capacity n : Nat} (h : n < UInt64.size ^ max capacity 1) :
    WellFormed (ofNat capacity n) := by
  have hcapacity := capacity_ofNat h
  refine ⟨?_, ?_, fun k hk => ?_, fun i hi => ?_⟩
  · rw [hcapacity]
    exact Nat.le_max_right _ _
  · rw [hcapacity, size_ofNat]
    exact count_le_iff.mpr h
  · rw [ofNat, get_append, Limbs.length_ofNat, if_pos (by rw [size_ofNat] at hk; omega)]
    exact get_ofNat_top hk
  · rw [size_ofNat] at hi
    rw [ofNat, get_append, Limbs.length_ofNat, if_neg (Nat.not_lt.mpr hi)]
    exact get_replicate_zero _ _

/-- Moving limbs into a buffer holds their number. -/
theorem ofLimbs?_eq (capacity : Nat) (ws : Limbs) :
    ofLimbs? capacity ws = hold? capacity ws.value := by
  have htrim : ws.take (count ws.value) = Limbs.ofNat ws.value := by
    rw [← Limbs.trim_eq, Limbs.trim, Limbs.significant_eq]
  simp only [ofLimbs?, hold?, Limbs.significant_eq, htrim]
  by_cases h : ws.value < UInt64.size ^ max capacity 1
  · rw [if_pos h, if_neg (Nat.not_lt.mpr (count_le_iff.mpr h)), ofNat]
  · rw [if_neg h, if_pos (Nat.lt_of_not_le (mt count_le_iff.mp h))]

/-! ### What well-formedness gives -/

namespace WellFormed

variable {a b : FixedNat}

/-- A well-formed buffer is its used limbs followed by zeros. -/
theorem limbs_eq (ha : WellFormed a) :
    a.limbs = a.words ++ List.replicate (a.capacity - a.size) 0 := by
  conv_lhs => rw [← List.take_append_drop a.size a.limbs]
  congr 1
  refine List.ext_getElem (by rw [List.length_drop, List.length_replicate]; rfl) fun i h1 h2 => ?_
  have hzero := ha.above_zero (a.size + i) (Nat.le_add_right _ _)
  rw [List.length_drop] at h1
  rw [Limbs.get, List.getD_eq_getElem _ _ (by omega)] at hzero
  rw [List.getElem_drop, List.getElem_replicate, hzero]

/-- As many limbs are used as the size says. -/
theorem length_words (ha : WellFormed a) : a.words.length = a.size :=
  List.length_take_of_le ha.size_le

/-- The whole buffer denotes the number. -/
theorem value_limbs (ha : WellFormed a) : a.limbs.value = a.value := by
  rw [ha.limbs_eq, Limbs.value_append_replicate_zero, value]

/-- A number is below the radix to the power of its size. -/
theorem value_lt (ha : WellFormed a) : a.value < UInt64.size ^ a.size := by
  have h := Limbs.value_lt a.words
  rwa [ha.length_words] at h

/-- The used size is the number of limbs that the number needs. -/
theorem size_eq (ha : WellFormed a) : a.size = count a.value := by
  refine Nat.le_antisymm ?_ (count_le_iff.mpr ha.value_lt)
  by_contra hlt
  obtain ⟨n, hn⟩ : ∃ n, a.size = n + 1 := ⟨a.size - 1, by omega⟩
  have htop := Limbs.toNat_get a.limbs n
  have hsmall : a.value / UInt64.size ^ n = 0 := by
    rw [Nat.div_eq_zero_iff_lt (Limbs.size_pow_pos n), ← count_le_iff]
    omega
  rw [ha.value_limbs, hsmall, Nat.zero_mod, Word.toNat_eq_zero_iff] at htop
  exact ha.top_ne_zero n hn htop

/-- The used limbs are the shortest list of the number. -/
theorem words_eq (ha : WellFormed a) : a.words = Limbs.ofNat a.value := by
  refine Limbs.eq_of_value_eq ?_ (Limbs.value_ofNat _).symm
  rw [ha.length_words, Limbs.length_ofNat, ha.size_eq]

/-- A number fits the buffer it is in. -/
theorem value_lt_capacity (ha : WellFormed a) : a.value < UInt64.size ^ max a.capacity 1 := by
  rw [← count_le_iff, ← ha.size_eq]
  exact ha.size_le.trans (Nat.le_max_left _ _)

/-- A well-formed buffer is determined by its capacity and its number. -/
theorem eq_ofNat (ha : WellFormed a) : a = ofNat a.capacity a.value := by
  have hcapacity : max a.capacity 1 = a.capacity := Nat.max_eq_left ha.capacity_pos
  have hlimbs := ha.limbs_eq
  have hwords := ha.words_eq
  have hsize := ha.size_eq
  rw [ofNat, hcapacity, ← hwords, ← hsize, ← hlimbs]

/-- No limb is used exactly when the number is zero. -/
theorem size_eq_zero_iff (ha : WellFormed a) : a.size = 0 ↔ a.value = 0 := by
  rw [ha.size_eq, Limbs.count_eq_zero_iff]

/-- The top used limb is not zero. -/
theorem top_word_ne_zero (ha : WellFormed a) (h : a.value ≠ 0) :
    a.words.get (a.words.length - 1) ≠ 0 := by
  have hpos : a.size ≠ 0 := mt ha.size_eq_zero_iff.mp h
  rw [ha.words_eq, Limbs.length_ofNat, ← ha.size_eq]
  exact get_ofNat_top (by rw [← ha.size_eq]; omega)

end WellFormed

/-! ### Other ways to make a buffer -/

/-- Limbs with their significant count are the buffer made for their number. -/
theorem mk_significant_eq {ws : Limbs} (h : ws ≠ []) :
    (⟨ws, ws.significant⟩ : FixedNat) = ofNat ws.length ws.value := by
  have hle : count ws.value ≤ ws.length := count_le_iff.mpr (Limbs.value_lt ws)
  have hmax : max ws.length 1 = ws.length := Nat.max_eq_left (List.length_pos_of_ne_nil h)
  have hlimbs : ws = Limbs.ofNat ws.value ++ List.replicate (ws.length - count ws.value) 0 := by
    refine Limbs.eq_of_value_eq ?_ ?_
    · rw [List.length_append, Limbs.length_ofNat, List.length_replicate, Nat.add_sub_cancel' hle]
    · rw [Limbs.value_append_replicate_zero, Limbs.value_ofNat]
  rw [ofNat, hmax, ← hlimbs, Limbs.significant_eq]

/-- Zero holds zero. -/
theorem zero_eq (capacity : Nat) : zero capacity = ofNat capacity 0 := rfl

/-- A word in a buffer holds its number. -/
theorem ofWord_eq (w : Word) (capacity : Nat) : ofWord w capacity = ofNat capacity w.toNat := by
  by_cases hw : w = 0
  · subst w
    show (⟨List.replicate (capacity - 1 + 1) 0, 0⟩ : FixedNat) =
      ⟨List.replicate (max capacity 1) 0, 0⟩
    congr 2
    omega
  · have hcount : count w.toNat = 1 := by
      refine Nat.le_antisymm (count_le_iff.mpr ?_) (Nat.pos_of_ne_zero fun h => ?_)
      · rw [Nat.pow_one]
        exact Word.toNat_lt w
      · exact hw ((Word.toNat_eq_zero_iff w).mp (Limbs.count_eq_zero_iff.mp h))
    have hlimbs : Limbs.ofNat w.toNat = [w] := by
      refine Limbs.eq_of_value_eq ?_ ?_
      · rw [Limbs.length_ofNat, hcount, List.length_singleton]
      · rw [Limbs.value_ofNat, Limbs.value_singleton]
    rw [ofWord, ofNat, hlimbs, hcount, if_neg hw, List.singleton_append]
    congr 3
    omega

/-- The limbs of a byte string given least significant byte first denote its number. -/
theorem value_limbsOfBytes (bytes : Bytes) :
    (limbsOfBytes bytes).value = Bytes.toNat bytes.reverse := by
  fun_induction limbsOfBytes bytes with
  | case1 => rfl
  | case2 b bytes ih =>
      have hlow : (Bytes.toUInt64 ((b :: bytes).take 8).reverse).toNat =
          Bytes.toNat ((b :: bytes).take 8).reverse :=
        Bytes.toNat_toUInt64 (by rw [List.length_reverse, List.length_take]; omega)
      have hsplit :
          (b :: bytes).reverse = (bytes.drop 7).reverse ++ ((b :: bytes).take 8).reverse := by
        rw [← List.reverse_append]
        exact congrArg List.reverse (List.take_append_drop 8 (b :: bytes)).symm
      rw [Limbs.value_cons, ih, hlow, hsplit, Bytes.toNat_append, List.length_reverse,
        List.length_take]
      by_cases hlen : 8 ≤ (b :: bytes).length
      · rw [Nat.min_eq_left hlen, Nat.add_comm, Nat.mul_comm]
        rfl
      · have hnil : bytes.drop 7 = [] := by
          rw [List.drop_eq_nil_iff]
          rw [List.length_cons] at hlen
          omega
        rw [hnil, List.reverse_nil, Bytes.toNat_nil, Nat.mul_zero, Nat.zero_mul]
        omega

/-- A byte string fills one limb for every eight bytes. -/
theorem length_limbsOfBytes (bytes : Bytes) :
    (limbsOfBytes bytes).length = Word.countForBytes bytes.length := by
  fun_induction limbsOfBytes bytes with
  | case1 => rfl
  | case2 b bytes ih =>
      rw [List.length_cons, ih, Word.countForBytes, Word.countForBytes, List.length_drop,
        List.length_cons]
      omega

/-- A byte string in a buffer as wide as itself. -/
theorem ofBytes_eq (bytes : Bytes) :
    ofBytes bytes = ofNat (Word.countForBytes bytes.length) (Bytes.toNat bytes) := by
  have hvalue := value_limbsOfBytes bytes.reverse
  have hlen := length_limbsOfBytes bytes.reverse
  rw [List.reverse_reverse] at hvalue
  rw [List.length_reverse] at hlen
  simp only [ofBytes]
  split
  · rename_i hnil
    rw [hnil] at hvalue hlen
    rw [hnil, ← hvalue, ← hlen]
    rfl
  · rename_i hne
    rw [mk_significant_eq hne, hvalue, hlen]

/-- A byte string fits the buffer made for it. -/
theorem toNat_lt_size_pow (bytes : Bytes) :
    Bytes.toNat bytes < UInt64.size ^ max (Word.countForBytes bytes.length) 1 := by
  refine (Bytes.toNat_lt bytes).trans_le ?_
  rw [show UInt64.size = 256 ^ 8 from rfl, ← Nat.pow_mul]
  refine Nat.pow_le_pow_right (by decide) ?_
  rw [Word.countForBytes]
  omega

/-- A byte string in a buffer of a given capacity. -/
theorem ofBytes?_eq (capacity : Nat) (bytes : Bytes) :
    ofBytes? capacity bytes = hold? capacity (Bytes.toNat bytes) := by
  rw [ofBytes?, ofLimbs?_eq, value_limbsOfBytes, List.reverse_reverse, Bytes.toNat_stripZeros]

/-- Moving a number to a buffer of another capacity. -/
theorem resized_eq (a : FixedNat) (capacity : Nat) : a.resized capacity = hold? capacity a.value :=
  ofLimbs?_eq capacity a.words

/-! ### Observations -/

/-- A number is zero when no limb is used. -/
theorem isZero_eq {a : FixedNat} (ha : WellFormed a) : a.isZero = (a.value == 0) := by
  rw [isZero, Bool.eq_iff_iff, beq_iff_eq, beq_iff_eq, ha.size_eq_zero_iff]

/-- The bit length is the one of the number. -/
theorem bitLength_eq (a : FixedNat) : a.bitLength = a.value.size :=
  Limbs.bitLength_eq a.words

/-- A bit is the one of the number. -/
theorem testBit_eq (a : FixedNat) (bit : Nat) : a.testBit bit = a.value.testBit bit :=
  Limbs.testBit_eq a.words bit

/-- The order is the one of the numbers. -/
theorem compare_eq {a b : FixedNat} (ha : WellFormed a) (hb : WellFormed b) :
    a.compare b = Ord.compare a.value b.value := by
  rw [compare, Limbs.compare_eq, ha.value_limbs, hb.value_limbs]

/-- A number equals a word when it equals the word's number. -/
theorem eqWord_eq {a : FixedNat} (ha : WellFormed a) (w : Word) :
    a.eqWord w = (a.value == w.toNat) := by
  rw [Bool.eq_iff_iff, beq_iff_eq, eqWord]
  match hsize : a.size with
  | 0 =>
      show (w == 0) = true ↔ _
      rw [beq_iff_eq, ha.size_eq_zero_iff.mp hsize, eq_comm (a := 0), Word.toNat_eq_zero_iff]
  | 1 =>
      have hlow := Limbs.toNat_get a.limbs 0
      have hlt := ha.value_lt
      rw [hsize, Nat.pow_one] at hlt
      rw [ha.value_limbs, Nat.pow_zero, Nat.div_one, Nat.mod_eq_of_lt hlt] at hlow
      show (a.limbs.get 0 == w) = true ↔ _
      rw [beq_iff_eq, ← hlow, UInt64.toNat_inj]
  | n + 2 =>
      have hlarge : UInt64.size ^ 1 ≤ a.value := by
        rw [← Limbs.lt_count_iff, ← ha.size_eq, hsize]
        omega
      have hw := Word.toNat_lt w
      rw [Nat.pow_one] at hlarge
      exact ⟨nofun, fun h => by omega⟩

/-- The bytes of limbs, lowest first, are the low bytes of their number. -/
theorem flatMap_bytes (ws : Limbs) :
    (ws.flatMap fun w => (Bytes.ofUInt64 w).reverse) =
      Bytes.lowBytes (8 * ws.length) (Limbs.value ws) := by
  induction ws with
  | nil => rfl
  | cons w ws ih =>
      have hlow := Bytes.lowBytes_add_mul 8 w.toNat (Limbs.value ws)
      have hhigh : (w.toNat + 256 ^ 8 * Limbs.value ws) / 256 ^ 8 = Limbs.value ws := by
        have hw : w.toNat < 256 ^ 8 := Word.toNat_lt w
        rw [Nat.add_mul_div_left _ _ (by decide), Nat.div_eq_of_lt hw, Nat.zero_add]
      rw [List.flatMap_cons, ih, Bytes.reverse_ofUInt64, List.length_cons, Nat.mul_succ,
        Nat.add_comm (8 * ws.length), Bytes.lowBytes_add, Limbs.value_cons,
        show UInt64.size = 256 ^ 8 from rfl, hlow, hhigh]

/-- The low bytes of a buffer are those of its number. -/
theorem lowBytes_eq (a : FixedNat) (width : Nat) :
    a.lowBytes width = Bytes.ofNatWidth width a.value := by
  have hvalue : a.value / 256 ^ (8 * a.words.length) = 0 := by
    rw [Nat.div_eq_zero_iff_lt (by positivity), Nat.pow_mul]
    exact Limbs.value_lt a.words
  simp only [lowBytes, Bytes.ofNatWidth, flatMap_bytes]
  congr 1
  rcases Nat.le_total width (8 * a.words.length) with h | h
  · obtain ⟨rest, hrest⟩ := Nat.exists_eq_add_of_le h
    rw [hrest, Bytes.lowBytes_add, List.take_left' (Bytes.length_lowBytes _ _),
      Bytes.length_lowBytes, Nat.sub_self, List.replicate_zero, List.append_nil, value]
  · obtain ⟨rest, hrest⟩ := Nat.exists_eq_add_of_le h
    rw [List.take_of_length_le (by rw [Bytes.length_lowBytes]; exact h), Bytes.length_lowBytes,
      hrest, Nat.add_sub_cancel_left, Bytes.lowBytes_add]
    rw [value] at hvalue ⊢
    rw [hvalue, Bytes.lowBytes_zero]

/-- The byte length is the one of the number. -/
theorem byteLength_eq (a : FixedNat) : a.byteLength = Bytes.widthOf a.value := by
  rw [byteLength, bitLength_eq, Bytes.widthOf_eq]

/-- The shortest byte string is the one of the number. -/
theorem toBytes_eq (a : FixedNat) : a.toBytes = Bytes.ofNat a.value := by
  rw [toBytes, lowBytes_eq, byteLength_eq, Bytes.ofNat]

end TrustedPlatform.FixedNat
