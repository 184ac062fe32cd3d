import Mathlib.Data.Nat.Digits.Lemmas
import Mathlib.Data.Nat.Size
import TrustedPlatform.Bytes
import TrustedPlatform.Proofs.Integer.Word

/-!
# Byte strings as numbers

Reading a byte string as a number and writing a number at a width undo each other up to leading
zero bytes: the writing keeps the number's remainder, and the reading at the string's own length
gives the string back.
-/

namespace TrustedPlatform.Bytes

/-! ### Reading -/

/-- No bytes denote zero. -/
@[simp] theorem toNat_nil : toNat [] = 0 := rfl

/-- The last byte is the lowest digit. -/
theorem toNat_concat (bytes : Bytes) (b : UInt8) :
    toNat (bytes ++ [b]) = toNat bytes * 256 + b.toNat := by
  rw [toNat, List.foldl_append]
  rfl

/-- The first part of a byte string weighs as much as the second is long. -/
theorem toNat_append (a b : Bytes) : toNat (a ++ b) = toNat a * 256 ^ b.length + toNat b := by
  induction b using List.reverseRecOn with
  | nil => rw [List.append_nil, List.length_nil, Nat.pow_zero, Nat.mul_one, toNat_nil, Nat.add_zero]
  | append_singleton b last ih =>
      rw [← List.append_assoc, toNat_concat, ih, toNat_concat, List.length_append,
        List.length_singleton, Nat.pow_succ, Nat.add_mul, Nat.mul_assoc, Nat.add_assoc]

/-- The first byte is the highest digit. -/
theorem toNat_cons (b : UInt8) (bytes : Bytes) :
    toNat (b :: bytes) = b.toNat * 256 ^ bytes.length + toNat bytes := by
  rw [← List.singleton_append, toNat_append]
  congr 2
  exact (toNat_concat [] b).trans (Nat.zero_add _)

/-- A byte string denotes less than 256 to the power of its length. -/
theorem toNat_lt (bytes : Bytes) : toNat bytes < 256 ^ bytes.length := by
  induction bytes using List.reverseRecOn with
  | nil => exact Nat.one_pos
  | append_singleton bytes b ih =>
      have hb := UInt8.toNat_lt b
      rw [toNat_concat, List.length_append, List.length_singleton, Nat.pow_succ]
      omega

/-- A byte string denotes less than two to the power of its bits. -/
theorem toNat_lt_two_pow (bytes : Bytes) : toNat bytes < 2 ^ (8 * bytes.length) := by
  rw [Nat.pow_mul]
  exact toNat_lt bytes

/-- The bits of the first byte stand above those of the others. -/
theorem toNat_cons_eq_or (b : UInt8) (rest : Bytes) :
    toNat (b :: rest) = b.toNat <<< (8 * rest.length) ||| toNat rest := by
  rw [← Nat.shiftLeft_add_eq_or_of_lt (toNat_lt_two_pow rest), toNat_cons, Nat.shiftLeft_eq,
    Nat.pow_mul]

/-- The low bits of a number up to a bit of its first byte. -/
theorem toNat_cons_mod (b : UInt8) (rest : Bytes) (used : Nat) :
    toNat (b :: rest) % 2 ^ (8 * rest.length + used) =
      (b.toNat % 2 ^ used) <<< (8 * rest.length) ||| toNat rest := by
  have hbelow : toNat rest < 2 ^ (8 * rest.length + used) :=
    (toNat_lt_two_pow rest).trans_le (Nat.pow_le_pow_right (by decide) (Nat.le_add_right _ _))
  rw [toNat_cons_eq_or, Nat.or_mod_two_pow, Nat.mod_eq_of_lt hbelow, Nat.shiftLeft_eq,
    Nat.shiftLeft_eq, Nat.pow_add, Nat.mul_comm (2 ^ (8 * rest.length)), Nat.mul_mod_mul_right]

/-- Zero bytes denote zero. -/
@[simp] theorem toNat_replicate_zero (k : Nat) : toNat (List.replicate k 0) = 0 := by
  induction k with
  | zero => rfl
  | succ k ih => rw [List.replicate_succ, toNat_cons, ih, UInt8.toNat_zero, Nat.zero_mul]

/-- Padding on the left with zeros keeps the number. -/
@[simp] theorem toNat_padLeft (width : Nat) (bytes : Bytes) :
    toNat (padLeft width bytes) = toNat bytes := by
  rw [padLeft, toNat_append, toNat_replicate_zero, Nat.zero_mul, Nat.zero_add]

/-- Padding on the left fills up to the width. -/
theorem length_padLeft {width : Nat} {bytes : Bytes} (h : bytes.length ≤ width) :
    (padLeft width bytes).length = width := by
  rw [padLeft, List.length_append, List.length_replicate, Nat.sub_add_cancel h]

/-- Stripping leading zeros keeps the number. -/
@[simp] theorem toNat_stripZeros (bytes : Bytes) : toNat (stripZeros bytes) = toNat bytes := by
  induction bytes with
  | nil => rfl
  | cons b bytes ih =>
      rw [stripZeros, List.dropWhile_cons]
      split
      · rename_i hb
        rw [toNat_cons, beq_iff_eq.mp hb, UInt8.toNat_zero, Nat.zero_mul, Nat.zero_add]
        exact ih
      · rfl

/-! ### Writing -/

/-- The number of low bytes written is the width. -/
@[simp] theorem length_lowBytes (width n : Nat) : (lowBytes width n).length = width := by
  induction width generalizing n with
  | zero => rfl
  | succ width ih => rw [lowBytes, List.length_cons, ih]

/-- A number is written in as many bytes as asked for. -/
@[simp] theorem length_ofNatWidth (width n : Nat) : (ofNatWidth width n).length = width := by
  rw [ofNatWidth, List.length_reverse, length_lowBytes]

/-- One more byte is written before the others, and its rank is the width of the others. -/
theorem ofNatWidth_succ (width n : Nat) :
    ofNatWidth (width + 1) n = ofNatWidth width (n / 256) ++ [UInt8.ofNat n] := by
  rw [ofNatWidth, lowBytes, List.reverse_cons, ofNatWidth]

/-- Writing at a width keeps the remainder. -/
theorem toNat_ofNatWidth (width n : Nat) : toNat (ofNatWidth width n) = n % 256 ^ width := by
  induction width generalizing n with
  | zero => rw [Nat.pow_zero, Nat.mod_one]; rfl
  | succ width ih =>
      have hsplit : n % 256 ^ (width + 1) = n % 256 + 256 * (n / 256 % 256 ^ width) := by
        rw [Nat.pow_succ', Nat.mod_mul]
      rw [ofNatWidth_succ, toNat_concat, ih, UInt8.toNat_ofNat', hsplit]
      omega

/-- A number that fits the width is written without loss. -/
theorem toNat_ofNatWidth_of_lt {width n : Nat} (h : n < 256 ^ width) :
    toNat (ofNatWidth width n) = n := by
  rw [toNat_ofNatWidth, Nat.mod_eq_of_lt h]

/-- Writing what was read at its own length gives the byte string back. -/
@[simp] theorem ofNatWidth_toNat (bytes : Bytes) :
    ofNatWidth bytes.length (toNat bytes) = bytes := by
  induction bytes using List.reverseRecOn with
  | nil => rfl
  | append_singleton bytes b ih =>
      have hb := UInt8.toNat_lt b
      have hdiv : (toNat bytes * 256 + b.toNat) / 256 = toNat bytes := by omega
      have hlast : UInt8.ofNat (toNat bytes * 256 + b.toNat) = b := by
        rw [← UInt8.toNat_inj, UInt8.toNat_ofNat']
        omega
      rw [List.length_append, List.length_singleton, toNat_concat, ofNatWidth_succ, hdiv, ih, hlast]

/-- Writing what was read at the width of the byte string gives it back. -/
theorem ofNatWidth_of_length {width : Nat} {bytes : Bytes} (h : bytes.length = width) :
    ofNatWidth width (toNat bytes) = bytes :=
  h ▸ ofNatWidth_toNat bytes

/-- Byte strings of one length that denote the same number are the same. -/
theorem eq_of_toNat_eq {a b : Bytes} (hlen : a.length = b.length) (h : toNat a = toNat b) :
    a = b := by
  rw [← ofNatWidth_toNat a, hlen, h, ofNatWidth_toNat]

/-- The low bytes of a number, those of its quotient following them. -/
theorem lowBytes_add (low high n : Nat) :
    lowBytes (low + high) n = lowBytes low n ++ lowBytes high (n / 256 ^ low) := by
  induction low generalizing n with
  | zero => rw [Nat.zero_add, Nat.pow_zero, Nat.div_one]; rfl
  | succ low ih =>
      rw [Nat.succ_add, lowBytes, ih, lowBytes, List.cons_append, Nat.div_div_eq_div_mul,
        Nat.pow_succ']

/-- A multiple of the weight above the low bytes does not change them. -/
theorem lowBytes_add_mul (width n m : Nat) :
    lowBytes width (n + 256 ^ width * m) = lowBytes width n := by
  induction width generalizing n with
  | zero => rfl
  | succ width ih =>
      have hpow : 256 ^ (width + 1) * m = 256 * (256 ^ width * m) := by
        rw [Nat.pow_succ', Nat.mul_assoc]
      have hlow : UInt8.ofNat (n + 256 * (256 ^ width * m)) = UInt8.ofNat n := by
        rw [← UInt8.toNat_inj, UInt8.toNat_ofNat', UInt8.toNat_ofNat']
        omega
      rw [lowBytes, hpow, Nat.add_mul_div_left _ _ (by decide), ih, hlow, lowBytes]

/-- The low bytes of zero. -/
theorem lowBytes_zero (width : Nat) : lowBytes width 0 = List.replicate width 0 := by
  induction width with
  | zero => rfl
  | succ width ih => rw [lowBytes, Nat.zero_div, ih, List.replicate_succ]; rfl

/-! ### Shortest writings -/

/-- A number needs one byte for every eight bits. -/
theorem widthOf_eq (n : Nat) : widthOf n = (n.size + 7) / 8 := by
  unfold widthOf
  split
  · rename_i h
    rw [h, Nat.size_zero]
  · rename_i h
    have hsize : n.size = n.log2 + 1 :=
      eq_of_forall_ge_iff fun k => by rw [Nat.size_le, Nat.add_one_le_iff, Nat.log2_lt h]
    omega

/-- A number needs no more bytes than `k` exactly when it is below 256 to that power. -/
theorem widthOf_le_iff {n k : Nat} : widthOf n ≤ k ↔ n < 256 ^ k := by
  rw [widthOf_eq, show 256 = 2 ^ 8 from rfl, ← Nat.pow_mul, ← Nat.size_le]
  omega

/-- A number is below 256 to the power of the bytes it needs. -/
theorem lt_pow_widthOf (n : Nat) : n < 256 ^ widthOf n :=
  widthOf_le_iff.mp le_rfl

/-- The shortest writing denotes the number. -/
@[simp] theorem toNat_ofNat (n : Nat) : toNat (ofNat n) = n :=
  toNat_ofNatWidth_of_lt (lt_pow_widthOf n)

/-- The shortest writing has as many bytes as the number needs. -/
@[simp] theorem length_ofNat (n : Nat) : (ofNat n).length = widthOf n :=
  length_ofNatWidth _ _

/-- A wider writing is the shortest one padded with zeros. -/
theorem ofNatWidth_eq_padLeft {width n : Nat} (h : n < 256 ^ width) :
    ofNatWidth width n = padLeft width (ofNat n) := by
  refine eq_of_toNat_eq ?_ ?_
  · rw [length_ofNatWidth, length_padLeft (length_ofNat n ▸ widthOf_le_iff.mpr h)]
  · rw [toNat_ofNatWidth_of_lt h, toNat_padLeft, toNat_ofNat]

/-- A byte string with no leading zero is as short as its number allows. -/
theorem length_eq_widthOf {bytes : Bytes} (h : bytes.head? ≠ some 0) :
    bytes.length = widthOf (toNat bytes) := by
  refine Nat.le_antisymm ?_ (widthOf_le_iff.mpr (toNat_lt bytes))
  match bytes, h with
  | [], _ => exact Nat.zero_le _
  | b :: rest, h =>
      by_contra hlt
      have hsmall := widthOf_le_iff.mp (Nat.le_of_lt_succ (Nat.lt_of_not_le hlt))
      have hb : b.toNat ≠ 0 := by
        intro hzero
        exact h (congrArg some (UInt8.toNat_inj.mp hzero : b = 0))
      have hweight := Nat.mul_le_mul_right (256 ^ rest.length) (Nat.one_le_iff_ne_zero.mpr hb)
      rw [toNat_cons] at hsmall
      omega

/-- A stripped byte string does not start with a zero. -/
theorem head?_stripZeros (bytes : Bytes) : (stripZeros bytes).head? ≠ some 0 := by
  induction bytes with
  | nil => exact nofun
  | cons b bytes ih =>
      rw [stripZeros, List.dropWhile_cons]
      split
      · exact ih
      · rename_i hb
        rw [List.head?_cons]
        exact fun h => hb (beq_iff_eq.mpr (Option.some.inj h))

/-- Stripping leading zeros gives the shortest writing. -/
theorem ofNat_toNat (bytes : Bytes) : ofNat (toNat bytes) = stripZeros bytes := by
  have h := length_eq_widthOf (head?_stripZeros bytes)
  rw [toNat_stripZeros] at h
  rw [ofNat, ← h, ← toNat_stripZeros bytes, ofNatWidth_toNat]

/-- The byte string of a number has no leading zeros. -/
@[simp] theorem stripZeros_ofNat (n : Nat) : (ofNat n).stripZeros = ofNat n := by
  rw [← ofNat_toNat, toNat_ofNat]

/-! ### Zeros before a byte one -/

/-- A byte one is the first byte that is not zero exactly when only zeros stand before it. -/
theorem dropWhile_eq_cons_one_iff {bytes rest : Bytes} :
    bytes.dropWhile (· == 0) = 1 :: rest ↔
      ∃ zeros, bytes = List.replicate zeros 0 ++ 1 :: rest := by
  constructor
  · intro hdrop
    have hzeros : bytes.takeWhile (· == 0) =
        List.replicate (bytes.takeWhile (· == 0)).length 0 :=
      List.eq_replicate_of_mem fun b hb =>
        beq_iff_eq.mp (List.all_eq_true.mp List.all_takeWhile b hb)
    refine ⟨(bytes.takeWhile (· == 0)).length, ?_⟩
    rw [← hzeros, ← hdrop, List.takeWhile_append_dropWhile]
  · rintro ⟨zeros, rfl⟩
    rw [List.dropWhile_append_of_pos fun b hb => beq_iff_eq.mpr (List.eq_of_mem_replicate hb)]
    rfl

/-! ### Words -/

/-- A byte of a word is a digit of its number. -/
theorem toUInt8_shiftRight (w : UInt64) {count : Nat} (h : count < 64) :
    (w >>> UInt64.ofNat count).toUInt8 = UInt8.ofNat (w.toNat / 2 ^ count) := by
  rw [← UInt8.toNat_inj, UInt64.toNat_toUInt8, Word.toNat_shiftRight w h, UInt8.toNat_ofNat']

/-- The eight bytes of a word, lowest first, are the low bytes of its number. -/
theorem reverse_ofUInt64 (w : UInt64) : (ofUInt64 w).reverse = lowBytes 8 w.toNat := by
  have hbyte : ∀ count < 64, (w >>> UInt64.ofNat count).toUInt8 =
      UInt8.ofNat (w.toNat / 2 ^ count) := fun _ h => toUInt8_shiftRight w h
  have hlow : w.toUInt8 = UInt8.ofNat w.toNat := by
    rw [← UInt8.toNat_inj, UInt64.toNat_toUInt8, UInt8.toNat_ofNat']
  show [w.toUInt8, (w >>> UInt64.ofNat 8).toUInt8, (w >>> UInt64.ofNat 16).toUInt8,
    (w >>> UInt64.ofNat 24).toUInt8, (w >>> UInt64.ofNat 32).toUInt8,
    (w >>> UInt64.ofNat 40).toUInt8, (w >>> UInt64.ofNat 48).toUInt8,
    (w >>> UInt64.ofNat 56).toUInt8] = _
  rw [hlow, hbyte 8 (by decide), hbyte 16 (by decide), hbyte 24 (by decide),
    hbyte 32 (by decide), hbyte 40 (by decide), hbyte 48 (by decide), hbyte 56 (by decide)]
  simp only [lowBytes, Nat.div_div_eq_div_mul]
  rfl

/-- A byte string of at most eight bytes is read as a word without loss. -/
theorem toNat_toUInt64 {bytes : Bytes} (h : bytes.length ≤ 8) :
    (toUInt64 bytes).toNat = toNat bytes := by
  induction bytes using List.reverseRecOn with
  | nil => rfl
  | append_singleton bytes b ih =>
      rw [List.length_append, List.length_singleton] at h
      have hword := ih (by omega)
      have hlt : toNat bytes < 256 ^ 7 :=
        (toNat_lt bytes).trans_le (Nat.pow_le_pow_right (by decide) (by omega))
      have hstep : toUInt64 (bytes ++ [b]) =
          (toUInt64 bytes <<< UInt64.ofNat 8) ||| b.toUInt64 := by
        rw [toUInt64, List.foldl_append]
        rfl
      have hshift : (toUInt64 bytes <<< UInt64.ofNat 8).toNat = toNat bytes * 2 ^ 8 := by
        rw [Word.toNat_shiftLeft _ (by decide), hword, Nat.mod_eq_of_lt (by omega)]
      rw [hstep, Word.toNat_or_of_lt hshift (by simpa using UInt8.toNat_lt b), hshift,
        UInt8.toNat_toUInt64, toNat_concat, show 2 ^ 8 = 256 from rfl]

/-- The four bytes of a word are those of its number. -/
theorem ofUInt32_eq (w : UInt32) : ofUInt32 w = ofNatWidth 4 w.toNat := by
  have hbyte : ∀ count < 32, (w >>> UInt32.ofNat count).toUInt8 =
      UInt8.ofNat (w.toNat / 2 ^ count) := fun count h => by
    rw [← UInt8.toNat_inj, UInt32.toNat_toUInt8, UInt32.toNat_shiftRight, UInt8.toNat_ofNat',
      UInt32.toNat_ofNat_of_lt' (by show count < 2 ^ 32; omega), Nat.mod_eq_of_lt h,
      Nat.shiftRight_eq_div_pow]
  have hlow : w.toUInt8 = UInt8.ofNat w.toNat := by
    rw [← UInt8.toNat_inj, UInt32.toNat_toUInt8, UInt8.toNat_ofNat']
  show [(w >>> UInt32.ofNat 24).toUInt8, (w >>> UInt32.ofNat 16).toUInt8,
    (w >>> UInt32.ofNat 8).toUInt8, w.toUInt8] = _
  rw [hlow, hbyte 8 (by decide), hbyte 16 (by decide), hbyte 24 (by decide)]
  simp only [ofNatWidth, lowBytes, Nat.div_div_eq_div_mul]
  rfl

/-- A number is written into four bytes as a word, what is above 32 bits being lost. -/
theorem ofUInt32_ofNat (n : Nat) : ofUInt32 (UInt32.ofNat n) = ofNatWidth 4 n := by
  rw [ofUInt32_eq, UInt32.toNat_ofNat']
  refine eq_of_toNat_eq ?_ ?_
  · rw [length_ofNatWidth, length_ofNatWidth]
  · rw [toNat_ofNatWidth, toNat_ofNatWidth]
    exact Nat.mod_mod _ _

/-! ### Differences -/

/-- A difference is as long as the shorter operand. -/
@[simp] theorem length_xor (a b : Bytes) : (xor a b).length = min a.length b.length :=
  List.length_zipWith

/-- A mask that is long enough cancels when it is applied twice. -/
theorem xor_xor_cancel {bytes mask : Bytes} (h : bytes.length ≤ mask.length) :
    xor (xor bytes mask) mask = bytes := by
  induction bytes generalizing mask with
  | nil => rfl
  | cons b bytes ih =>
      cases mask with
      | nil => exact absurd h (Nat.not_succ_le_zero _)
      | cons m mask =>
          show (b ^^^ m ^^^ m) :: xor (xor bytes mask) mask = b :: bytes
          rw [ih (Nat.le_of_succ_le_succ h), UInt8.xor_assoc, UInt8.xor_self, UInt8.xor_zero]

/-- A disjunction of bytes is zero when all of them are. -/
theorem foldl_or_eq_zero_iff (bytes : Bytes) (b : UInt8) :
    bytes.foldl (· ||| ·) b = 0 ↔ b = 0 ∧ ∀ c ∈ bytes, c = 0 := by
  induction bytes generalizing b with
  | nil => simp
  | cons c bytes ih =>
      rw [List.foldl_cons, ih, UInt8.or_eq_zero_iff, List.forall_mem_cons, and_assoc]

/-- The differences of two byte strings of one length are zero when the two are the same. -/
theorem forall_xor_eq_zero_iff {a b : Bytes} (hlen : a.length = b.length) :
    (∀ c ∈ xor a b, c = 0) ↔ a = b := by
  induction a generalizing b with
  | nil => simp [xor, List.length_eq_zero_iff.mp hlen.symm]
  | cons x a ih =>
      cases b with
      | nil => cases hlen
      | cons y b =>
          show (∀ c ∈ (x ^^^ y) :: xor a b, c = 0) ↔ _
          rw [List.forall_mem_cons, UInt8.xor_eq_zero_iff, ih (Nat.succ.inj hlen),
            List.cons_eq_cons]

/-- The comparison that reads every byte decides equality. -/
@[simp] theorem ctEq_iff (a b : Bytes) : ctEq a b = true ↔ a = b := by
  rw [ctEq, Bool.and_eq_true, beq_iff_eq, beq_iff_eq, foldl_or_eq_zero_iff]
  constructor
  · rintro ⟨hlen, -, hzero⟩
    exact (forall_xor_eq_zero_iff hlen).mp hzero
  · rintro rfl
    exact ⟨rfl, rfl, (forall_xor_eq_zero_iff rfl).mpr rfl⟩

end TrustedPlatform.Bytes
