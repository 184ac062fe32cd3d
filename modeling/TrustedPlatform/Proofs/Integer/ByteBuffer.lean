import TrustedPlatform.Integer.ByteBuffer
import TrustedPlatform.Proofs.Integer.Refinement

/-!
# The conversions in place give the same numbers and bytes

The limbs that are cut from the end of a byte string are those of its reading, the bytes taken out
of the limbs are those of its writing, and no access falls outside of a buffer: a byte string loaded
into a buffer with room for it leaves the buffer that holds its number, and a number written into a
caller's buffer leaves the bytes of the number at that width.
-/

namespace TrustedPlatform

namespace Limbs

/-- A limb that is not zero at the end counts all limbs before it. -/
theorem significant_concat (ws : Limbs) (w : Word) :
    significant (ws ++ [w]) = if w = 0 then significant ws else ws.length + 1 := by
  induction ws with
  | nil => rfl
  | cons v ws ih =>
      rw [List.cons_append, significant, ih, significant]
      by_cases hw : w = 0
      · simp only [if_pos hw]
      · simp only [if_neg hw, List.length_cons]

/-- A limb that is not zero at the end counts all bits before it. -/
theorem bitLength_concat (ws : Limbs) {w : Word} (hw : w ≠ 0) :
    bitLength (ws ++ [w]) = ws.length * 64 + w.bitLength := by
  have hpos : w.bitLength = w.toNat.log2 + 1 := if_neg hw
  induction ws with
  | nil => simp [bitLength]
  | cons v ws ih =>
      have hsucc : ws.length * 64 + w.bitLength = ws.length * 64 + w.toNat.log2 + 1 := by
        rw [hpos, Nat.add_assoc]
      rw [List.cons_append, bitLength, ih, hsucc, List.length_cons]
      show ws.length * 64 + w.toNat.log2 + 1 + 64 = _
      omega

end Limbs

namespace FixedNat

/-- A byte string that is not empty gives its eight low bytes to the first limb. -/
theorem limbsOfBytes_of_ne_nil {bytes : Bytes} (h : bytes ≠ []) :
    limbsOfBytes bytes =
      Bytes.toUInt64 (bytes.take 8).reverse :: limbsOfBytes (bytes.drop 8) := by
  cases bytes with
  | nil => exact absurd rfl h
  | cons b bytes => rw [limbsOfBytes, List.drop_succ_cons]

/-- A byte string fits a capacity when the limbs that it fills without its leading zeros do. -/
theorem fits_toNat_iff (capacity : Nat) (bytes : Bytes) :
    Fits capacity (Bytes.toNat bytes) ↔
      Word.countForBytes bytes.stripZeros.length ≤ max capacity 1 := by
  have hlength : bytes.stripZeros.length = Bytes.widthOf (Bytes.toNat bytes) := by
    rw [← Bytes.ofNat_toNat, Bytes.length_ofNat]
  unfold Fits Word.countForBytes
  rw [hlength, show UInt64.size = 256 ^ 8 from rfl, ← Nat.pow_mul, ← Bytes.widthOf_le_iff]
  omega

namespace InPlace

variable {a : FixedNat}

/-! ### Loading -/

/-- The words of the pieces cut from the end are the limbs of the byte string. -/
theorem map_endPieces (bytes : Bytes) :
    (endPieces bytes).map Bytes.toUInt64 = limbsOfBytes bytes.reverse := by
  fun_induction endPieces bytes with
  | case1 => simp [limbsOfBytes]
  | case2 b rest start ih =>
      have hne : (b :: rest).reverse ≠ [] := by simp
      rw [List.map_cons, ih, limbsOfBytes_of_ne_nil hne, List.take_reverse, List.reverse_reverse,
        List.drop_reverse]

/-- There is a piece for every limb that the byte string fills. -/
theorem length_endPieces (bytes : Bytes) :
    (endPieces bytes).length = Word.countForBytes bytes.length := by
  rw [← List.length_map (f := Bytes.toUInt64), map_endPieces, length_limbsOfBytes,
    List.length_reverse]

/-- Pieces that are no more than the limbs replace the first of them. -/
theorem loadPieces_eq {ws : Limbs} {pieces : List Bytes} (h : pieces.length ≤ ws.length) :
    loadPieces ws pieces = pieces.map Bytes.toUInt64 ++ ws.drop pieces.length := by
  fun_induction loadPieces ws pieces with
  | case1 w ws piece pieces ih => simp [ih (Nat.le_of_succ_le_succ h)]
  | case2 ws pieces hempty =>
      cases pieces with
      | nil => rfl
      | cons piece pieces =>
          cases ws with
          | nil => exact absurd h (Nat.not_succ_le_zero _)
          | cons w ws => exact (hempty w ws piece pieces rfl rfl).elim

/-- A size within the limbs is lowered to the significant ones. -/
theorem trimmedSize_eq {ws : Limbs} {size : Nat} (h : size ≤ ws.length) :
    trimmedSize ws size = some (Limbs.significant (ws.take size)) := by
  induction size with
  | zero => rfl
  | succ size ih =>
      have hlen : (ws.take size).length = size := List.length_take_of_le (Nat.le_of_succ_le h)
      rw [trimmedSize, List.getElem?_eq_getElem h, List.take_succ_eq_append_getElem h,
        Limbs.significant_concat, hlen, ih (Nat.le_of_succ_le h)]
      show (if ws[size] = 0 then _ else some (size + 1)) = _
      split
      · rfl
      · rfl

/-- A byte string that a buffer has room for leaves its number there. -/
theorem load_eq {bytes : Bytes} (ha : 1 ≤ a.capacity)
    (h : Word.countForBytes bytes.length ≤ a.capacity) :
    load a bytes = some (ofNat a.capacity (Bytes.toNat bytes)) := by
  have hpieces := length_endPieces bytes
  have hcleared : (a.limbs.map fun _ => (0 : Word)) = List.replicate a.capacity 0 :=
    List.map_const'
  have hlimbs : loadPieces (a.limbs.map fun _ => 0) (endPieces bytes) =
      limbsOfBytes bytes.reverse ++
        List.replicate (a.capacity - Word.countForBytes bytes.length) 0 := by
    rw [hcleared, loadPieces_eq (by rw [hpieces, List.length_replicate]; exact h), map_endPieces,
      hpieces, List.drop_replicate]
  have hlen : (limbsOfBytes bytes.reverse).length = Word.countForBytes bytes.length := by
    rw [length_limbsOfBytes, List.length_reverse]
  have hvalue : (limbsOfBytes bytes.reverse).value = Bytes.toNat bytes := by
    rw [value_limbsOfBytes, List.reverse_reverse]
  generalize limbsOfBytes bytes.reverse = low at hlimbs hlen hvalue
  generalize hbuffer : low ++ List.replicate (a.capacity - Word.countForBytes bytes.length) 0 =
    buffer at hlimbs
  have hcapacity : buffer.length = a.capacity := by
    rw [← hbuffer, List.length_append, hlen, List.length_replicate, Nat.add_sub_cancel' h]
  have hbytes : buffer.value = Bytes.toNat bytes := by
    rw [← hbuffer, Limbs.value_append_replicate_zero, hvalue]
  have hsignificant : Limbs.significant (buffer.take (Word.countForBytes bytes.length)) =
      Limbs.significant buffer := by
    rw [Limbs.significant_eq, Limbs.significant_eq, hbytes, ← hbuffer, List.take_left' hlen, hvalue]
  have hne : buffer ≠ [] := List.ne_nil_of_length_pos (hcapacity ▸ ha)
  unfold load
  simp only [hlimbs, hcapacity, Nat.min_eq_left h]
  rw [trimmedSize_eq (hcapacity ▸ h), hsignificant, ← hbytes, ← hcapacity, ← mk_significant_eq hne]
  rfl

/-- A byte string is put into a buffer when it fits without its leading zeros; otherwise the buffer
is left as it was. -/
theorem setBytes_eq (ha : 1 ≤ a.capacity) (bytes : Bytes) :
    setBytes a bytes =
      some (if Word.countForBytes bytes.stripZeros.length ≤ a.capacity then
        (ofNat a.capacity (Bytes.toNat bytes), .ok ()) else (a, .error (.fatal .allocation))) := by
  unfold setBytes
  by_cases h : Word.countForBytes bytes.stripZeros.length ≤ a.capacity
  · simp only [if_pos h, if_neg (Nat.not_lt.mpr h), load_eq ha h, Bytes.toNat_stripZeros]
    rfl
  · simp only [if_neg h, if_pos (Nat.lt_of_not_le h)]
    rfl

/-- A buffer as wide as a byte string takes it whole. -/
theorem load_zero (bytes : Bytes) :
    load (zero (Word.countForBytes bytes.length)) bytes = some (ofBytes bytes) := by
  have hcapacity : (zero (Word.countForBytes bytes.length)).capacity =
      max (Word.countForBytes bytes.length) 1 := List.length_replicate
  rw [load_eq (hcapacity ▸ Nat.le_max_right _ _) (hcapacity ▸ Nat.le_max_left _ _), ofBytes_eq,
    hcapacity, ofNat, ofNat, Nat.max_eq_left (Nat.le_max_right _ 1)]

/-! ### Writing -/

/-- The bits counted from the highest used limb are those of the number. -/
theorem usedBits_eq (ha : a.WellFormed) : usedBits a = some a.bitLength := by
  unfold usedBits
  by_cases hsize : a.size = 0
  · rw [if_pos hsize, bitLength, words, hsize]
    rfl
  · obtain ⟨n, hn⟩ := Nat.exists_eq_succ_of_ne_zero hsize
    have hlt : n < a.limbs.length := by
      have hle := ha.size_le
      rw [hn] at hle
      exact hle
    have htop : a.limbs[n] ≠ 0 := by
      have h := ha.top_ne_zero n hn
      rwa [Limbs.get, List.getD_eq_getElem _ _ hlt] at h
    have hwidth : Word.bitLength a.limbs[n] ≤ 64 := by
      rw [Word.bitLength_eq, Nat.size_le]
      exact UInt64.toNat_lt _
    have hwords : a.words = a.limbs.take n ++ [a.limbs[n]] := by
      rw [words, hn, List.take_succ_eq_append_getElem hlt]
    rw [if_neg hsize, hn, Nat.succ_sub_one, List.getElem?_eq_getElem hlt, bitLength, hwords,
      Limbs.bitLength_concat _ htop, List.length_take_of_le hlt.le]
    show some ((n + 1) * 64 - (64 - Word.bitLength a.limbs[n])) = _
    congr 1
    omega

/-- A byte that does not reach beyond a limb is the same in the number reduced to the limb. -/
theorem mod_size_div_mod (n : Nat) {count : Nat} (h : count + 8 ≤ 64) :
    n % UInt64.size / 2 ^ count % 2 ^ 8 = n / 2 ^ count % 2 ^ 8 := by
  have hsize : UInt64.size = 2 ^ count * 2 ^ (64 - count) := by
    rw [← Nat.pow_add, Nat.add_sub_cancel' (by omega)]
  rw [hsize, Nat.mod_mul_right_div_self, Nat.mod_mod_of_dvd _ (Nat.pow_dvd_pow 2 (by omega))]

/-- The byte at a rank is a digit of the number. -/
theorem byteAt_eq (ha : a.WellFormed) (rank : Nat) :
    byteAt a rank = some (UInt8.ofNat (a.value / 256 ^ rank)) := by
  have hrank : 256 ^ rank = UInt64.size ^ (rank / 8) * 2 ^ (rank % 8 * 8) := by
    rw [Limbs.size_pow_eq, ← Nat.pow_add, show 256 = 2 ^ 8 from rfl, ← Nat.pow_mul]
    congr 1
    omega
  unfold byteAt
  by_cases hlt : rank / 8 < a.size
  · have hin : rank / 8 < a.limbs.length := hlt.trans_le ha.size_le
    have hword := Limbs.toNat_get a.limbs (rank / 8)
    rw [Limbs.get, List.getD_eq_getElem _ _ hin, ha.value_limbs] at hword
    have hcount : rank % 8 * 8 + 8 ≤ 64 := by omega
    rw [if_pos hlt, List.getElem?_eq_getElem hin]
    show some (a.limbs[rank / 8] >>> UInt64.ofNat (rank % 8 * 8)).toUInt8 = _
    rw [Bytes.toUInt8_shiftRight _ (by omega), hword]
    congr 1
    rw [← UInt8.toNat_inj, UInt8.toNat_ofNat', UInt8.toNat_ofNat', mod_size_div_mod _ hcount,
      Nat.div_div_eq_div_mul, ← hrank]
  · have hle : UInt64.size ^ a.size ≤ 256 ^ rank := by
      rw [show UInt64.size = 256 ^ 8 from rfl, ← Nat.pow_mul]
      exact Nat.pow_le_pow_right (by decide) (by omega)
    rw [if_neg hlt, Nat.div_eq_of_lt (ha.value_lt.trans_le hle)]
    rfl

/-- The byte of the highest rank is written first. -/
theorem ofNatWidth_succ_cons (width n : Nat) :
    Bytes.ofNatWidth (width + 1) n =
      UInt8.ofNat (n / 256 ^ width) :: Bytes.ofNatWidth width n := by
  rw [Bytes.ofNatWidth, Bytes.lowBytes_add, List.reverse_append]
  rfl

/-- The overwritten bytes are those of the number at the width that is left. -/
theorem overwriteFrom_eq (ha : a.WellFormed) (i : Nat) (buffer : Bytes) :
    overwriteFrom a (i + buffer.length) i buffer =
      some (Bytes.ofNatWidth buffer.length a.value) := by
  induction buffer generalizing i with
  | nil => rfl
  | cons b rest ih =>
      have hrank : i + (b :: rest).length - 1 - i = rest.length := by
        rw [List.length_cons]
        omega
      have hnext : i + (b :: rest).length = i + 1 + rest.length := by
        rw [List.length_cons]
        omega
      rw [overwriteFrom, hrank, byteAt_eq ha, hnext, ih, List.length_cons, ofNatWidth_succ_cons]
      rfl

/-- A number is written into a buffer as it is in the conversion. -/
theorem write_eq (ha : a.WellFormed) (buffer : Bytes) :
    write a buffer = some (a.writeBytes buffer) := by
  have hall := overwriteFrom_eq ha 0 buffer
  rw [Nat.zero_add] at hall
  unfold write writeBytes toBytesPadded
  rw [usedBits_eq ha]
  show (if buffer.length < a.byteLength then some _ else _) = _
  by_cases h : buffer.length < a.byteLength
  · simp only [if_pos h]
    rfl
  · simp only [if_neg h, hall, lowBytes_eq]
    rfl

/-- The shortest byte string of a number, written into a buffer of its length. -/
theorem shortest_eq (ha : a.WellFormed) : shortest a = some a.toBytes := by
  have hall := overwriteFrom_eq ha 0 (List.replicate a.byteLength 0)
  rw [Nat.zero_add, List.length_replicate] at hall
  unfold shortest
  rw [usedBits_eq ha, toBytes, lowBytes_eq]
  exact hall

end InPlace

end FixedNat

end TrustedPlatform
