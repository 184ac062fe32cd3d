import TrustedPlatform.Derivation.Loop
import TrustedPlatform.Proofs.Derivation

/-!
# What the loops of key derivation give

The loop appends the blocks with its counters. From an empty buffer these counters are consecutive
numbers, as many as blocks are needed for the length, and as long as their numbers stay below `2^32`
none of them comes back. A byte of the result is therefore found in the block of its quotient by
the length of a block, at its remainder, and the loops give what `counterMode` gives.
-/

namespace TrustedPlatform.Derivation

/-! ### The bytes of consecutive blocks -/

/-- The number of blocks that cover a length. -/
def blockCount (size length : Nat) : Nat :=
  (length + size - 1) / size

/-- Nothing is covered by no blocks. -/
theorem blockCount_zero {size : Nat} (hsize : 0 < size) : blockCount size 0 = 0 := by
  rw [blockCount, Nat.zero_add]
  exact Nat.div_eq_of_lt (Nat.sub_lt hsize Nat.one_pos)

/-- One block covers its own length. -/
theorem blockCount_of_pos {size length : Nat} (hsize : 0 < size) (hlength : 0 < length) :
    blockCount size length = blockCount size (length - size) + 1 := by
  by_cases hle : size ≤ length
  · have hsplit : length + size - 1 = length - size + size - 1 + size := by omega
    rw [blockCount, hsplit, Nat.add_div_right _ hsize, blockCount]
  · have hsplit : length + size - 1 = length - 1 + size := by omega
    rw [Nat.sub_eq_zero_of_le (Nat.le_of_not_le hle), blockCount_zero hsize, blockCount, hsplit,
      Nat.add_div_right _ hsize, Nat.div_eq_of_lt (by omega)]

/-- Only nothing is covered by no blocks. -/
theorem blockCount_eq_zero_iff {size length : Nat} (hsize : 0 < size) :
    blockCount size length = 0 ↔ length = 0 := by
  constructor
  · intro hnone
    by_contra hlength
    rw [blockCount_of_pos hsize (Nat.pos_of_ne_zero hlength)] at hnone
    exact Nat.succ_ne_zero _ hnone
  · rintro rfl
    exact blockCount_zero hsize

/-- Blocks that cover a length are enough. -/
theorem blockCount_le {size length count : Nat} (hsize : 0 < size) (h : length ≤ count * size) :
    blockCount size length ≤ count := by
  rw [blockCount, ← Nat.lt_succ_iff, Nat.div_lt_iff_lt_mul hsize, Nat.succ_mul]
  omega

variable {block : UInt32 → Bytes} {size : Nat}

/-- A byte of consecutive blocks is a byte of the block that its quotient counts. -/
theorem getElem?_blocks (hsize : 0 < size) (hblock : ∀ counter, (block counter).length = size)
    (start : Nat) {count j : Nat} (hj : j < count * size) :
    (blocks block start count)[j]? = (block (UInt32.ofNat (start + j / size)))[j % size]? := by
  have hlength := length_blocks start hblock
  induction count with
  | zero => exact absurd hj (by omega)
  | succ count ih =>
      rw [blocks_succ]
      by_cases hlt : j < count * size
      · rw [List.getElem?_append_left (by rwa [hlength]), ih hlt]
      · have hle := Nat.le_of_not_lt hlt
        rw [Nat.succ_mul] at hj
        -- the byte stands in the last block
        obtain ⟨r, rfl⟩ := Nat.exists_eq_add_of_le hle
        have hr : r < size := by omega
        have hdiv : (count * size + r) / size = count := by
          rw [Nat.mul_comm, Nat.mul_add_div hsize, Nat.div_eq_of_lt hr, Nat.add_zero]
        rw [List.getElem?_append_right (by rwa [hlength]), hlength, Nat.add_sub_cancel_left, hdiv,
          Nat.mul_add_mod_of_lt hr]

/-- A byte of the blocks that are cut to a length is a byte of the block that its quotient
counts. -/
theorem getElem?_counterMode (hsize : 0 < size)
    (hblock : ∀ counter, (block counter).length = size) (start : Nat) {length j : Nat}
    (hj : j < length) :
    (counterMode block size start length)[j]? =
      (block (UInt32.ofNat (start + j / size)))[j % size]? := by
  have hcover := le_blockCount_mul hsize length
  rw [counterMode_eq_take start hsize hblock hcover, List.getElem?_take_of_lt hj,
    getElem?_blocks hsize hblock start (hj.trans_le hcover)]

/-! ### The loop -/

namespace BlockFunction

variable (f : BlockFunction) (length : Nat)

/-- The counters of the blocks that the loop appends to a buffer. -/
def counters (counter : UInt32) (out : Bytes) : List UInt32 :=
  if out.length < length then counter :: counters (counter + 1) (out ++ f.block counter) else []
termination_by length - out.length
decreasing_by
  next h => exact f.remaining_lt h counter

/-- The loop appends the blocks with its counters. -/
theorem extend_eq_append (counter : UInt32) (out : Bytes) :
    f.extend length counter out = out ++ (f.counters length counter out).flatMap f.block := by
  induction counter, out using counters.induct f length with
  | case1 counter out hshort ih =>
      rw [extend, if_pos hshort, counters, if_pos hshort, ih, List.flatMap_cons, List.append_assoc]
  | case2 counter out hlong =>
      rw [extend, if_neg hlong, counters, if_neg hlong, List.flatMap_nil, List.append_nil]

/-- The counters are consecutive, and as many as blocks are needed for what is left. -/
theorem counters_ofNat (start : Nat) (out : Bytes) :
    f.counters length (UInt32.ofNat start) out =
      (List.range (blockCount f.size (length - out.length))).map
        fun i => UInt32.ofNat (start + i) := by
  generalize hleft : blockCount f.size (length - out.length) = left
  -- on the number of blocks that are left
  induction left generalizing start out with
  | zero =>
      rw [blockCount_eq_zero_iff f.size_pos, Nat.sub_eq_zero_iff_le] at hleft
      rw [counters, if_neg (Nat.not_lt.mpr hleft)]
      rfl
  | succ left ih =>
      have hrest : 0 < length - out.length := Nat.pos_of_ne_zero fun hnone => by
        rw [(blockCount_eq_zero_iff f.size_pos).mpr hnone] at hleft
        cases hleft
      have hnext : blockCount f.size (length - (out ++ f.block (UInt32.ofNat start)).length) =
          left := by
        rw [blockCount_of_pos f.size_pos hrest] at hleft
        rw [List.length_append, f.length_block, ← Nat.sub_sub]
        exact Nat.succ.inj hleft
      have hcounter : UInt32.ofNat start + 1 = UInt32.ofNat (start + 1) :=
        (UInt32.ofNat_add start 1).symm
      rw [counters, if_pos (Nat.lt_of_sub_pos hrest), hcounter, ih (start + 1) _ hnext,
        List.range_succ_eq_map, List.map_cons, List.map_map]
      refine congrArg (_ :: ·) (List.map_congr_left fun i _ => ?_)
      rw [Function.comp_apply, Nat.add_assoc, Nat.add_comm 1]

/-- While their numbers fit, the counters do not wrap around. -/
theorem toNat_counters {start : Nat} (h : start + blockCount f.size length ≤ 2 ^ 32) :
    (f.counters length (UInt32.ofNat start) []).map UInt32.toNat =
      List.range' start (blockCount f.size length) := by
  rw [counters_ofNat, List.length_nil, Nat.sub_zero, List.map_map, List.range'_eq_map_range]
  refine List.map_congr_left fun i hi => ?_
  have hlt := List.mem_range.mp hi
  exact UInt32.toNat_ofNat_of_lt' (by show start + i < 2 ^ 32; omega)

/-- While their numbers fit, no counter comes back. -/
theorem nodup_counters {start : Nat} (h : start + blockCount f.size length ≤ 2 ^ 32) :
    (f.counters length (UInt32.ofNat start) []).Nodup := by
  refine List.Nodup.of_map UInt32.toNat ?_
  rw [toNat_counters f length h]
  exact List.nodup_range'

/-- From an empty buffer, the loop gives consecutive blocks. -/
theorem extend_nil (start : Nat) :
    f.extend length (UInt32.ofNat start) [] =
      blocks f.block start (blockCount f.size length) := by
  rw [extend_eq_append, counters_ofNat, List.nil_append, List.length_nil, Nat.sub_zero,
    List.flatMap_map]
  rfl

/-- Cut to the length, they are the blocks of counter mode. -/
theorem take_extend_nil (start : Nat) :
    (f.extend length (UInt32.ofNat start) []).take length =
      counterMode f.block f.size start length := by
  rw [extend_nil]
  rfl

end BlockFunction

/-! ### Labels -/

/-- A zero byte behind a label changes nothing, unless the label ends in one. -/
theorem terminated_append_zero {label : Bytes} (hlabel : label.getLast? ≠ some 0) :
    terminated (label ++ [0]) = terminated label := by
  rw [terminated, if_pos List.getLast?_concat, terminated, if_neg hlabel]

/-! ### The derivations -/

namespace BlockFunction

/-- The blocks over a key absorb the input of `deriveABlock`. -/
theorem block_ofKey (h : Hash) (key label contextU contextV : Bytes) (bits : UInt32) :
    (ofKey h key label contextU contextV bits).block =
      h.deriveABlock key label contextU contextV bits := by
  funext counter
  simp only [ofKey, Running.absorbLabel_eq]
  rfl

/-- The blocks over a shared secret absorb the input of `deriveEBlock`. -/
theorem block_ofSecret (h : Hash) (z label partyU partyV : Bytes) :
    (ofSecret h z label partyU partyV).block = h.deriveEBlock z label partyU partyV := by
  funext counter
  simp only [ofSecret, Running.absorbLabel_eq]
  rfl

end BlockFunction

namespace Loop

open BlockFunction

variable (h : Hash)

/-- Bits are cut from the blocks of counter mode. -/
theorem cut_extend (f : BlockFunction) (bits : UInt32) :
    cut (f.extend (byteCount bits) 1 []) bits =
      clearHighBits bits.toNat (counterMode f.block f.size 1 (byteCount bits)) := by
  rw [cut, ← take_extend_nil]
  rfl

/-- The loop over codes derives the same bits. -/
theorem deriveA_eq (key label contextU contextV : Bytes) (bits : UInt32) :
    deriveA h key label contextU contextV bits = h.deriveA key label contextU contextV bits := by
  unfold deriveA
  simp only [cut_extend, block_ofKey]
  rfl

/-- The loop over digests derives the same bits. -/
theorem deriveE_eq (z label partyU partyV : Bytes) (bits : UInt32) :
    deriveE h z label partyU partyV bits = h.deriveE z label partyU partyV bits := by
  unfold deriveE
  simp only [cut_extend, block_ofSecret]
  rfl

/-- The loop over a seed generates the same mask. -/
theorem mask_eq (seed : Bytes) (length : Nat) : mask h seed length = h.mask seed length :=
  take_extend_nil (ofSeed h seed) length 0

/-- A zero byte behind a label derives the same bits from a key. -/
theorem deriveA_append_zero {label : Bytes} (hlabel : label.getLast? ≠ some 0)
    (key contextU contextV : Bytes) (bits : UInt32) :
    deriveA h key (label ++ [0]) contextU contextV bits =
      deriveA h key label contextU contextV bits := by
  have hblock : h.deriveABlock key (label ++ [0]) contextU contextV bits =
      h.deriveABlock key label contextU contextV bits := by
    funext counter
    rw [Hash.deriveABlock, terminated_append_zero hlabel, Hash.deriveABlock]
  rw [deriveA_eq, deriveA_eq, Hash.deriveA, hblock, Hash.deriveA]

/-- A zero byte behind a label derives the same bits from a shared secret. -/
theorem deriveE_append_zero {label : Bytes} (hlabel : label.getLast? ≠ some 0)
    (z partyU partyV : Bytes) (bits : UInt32) :
    deriveE h z (label ++ [0]) partyU partyV bits = deriveE h z label partyU partyV bits := by
  have hblock : h.deriveEBlock z (label ++ [0]) partyU partyV =
      h.deriveEBlock z label partyU partyV := by
    funext counter
    rw [Hash.deriveEBlock, terminated_append_zero hlabel, Hash.deriveEBlock]
  rw [deriveE_eq, deriveE_eq, Hash.deriveE, hblock, Hash.deriveE]

end Loop

/-! ### Derived bits -/

/-- A byte string holds a number of bits of the blocks with counters from one on, and every block
has a counter of its own. -/
structure Derives (f : BlockFunction) (bits : UInt32) (out : Bytes) : Prop where
  /-- It has as many bytes as hold the bits. -/
  length_eq : out.length = (bits.toNat + 7) / 8
  /-- Its number has no more bits. -/
  toNat_lt : Bytes.toNat out < 2 ^ bits.toNat
  /-- The first byte keeps the low bits that the other bytes leave over. -/
  first_byte : ∃ b, (f.block 1)[0]? = some b ∧
    out[0]?.map UInt8.toNat = some (b.toNat % 2 ^ (bits.toNat - 8 * (out.length - 1)))
  /-- Every other byte stands in its block as it is. -/
  other_byte : ∀ j, 0 < j → j < out.length →
    out[j]? = (f.block (UInt32.ofNat (1 + j / f.size)))[j % f.size]?
  /-- The loop appends the blocks with its counters. -/
  extend_eq : f.extend out.length 1 [] = (f.counters out.length 1 []).flatMap f.block
  /-- These counters count up from one, without wrapping around. -/
  toNat_counters : (f.counters out.length 1 []).map UInt32.toNat =
    List.range' 1 (blockCount f.size out.length)
  /-- No counter comes back. -/
  nodup_counters : (f.counters out.length 1 []).Nodup

/-- The first byte of a byte string just long enough for a number of bits keeps those bits that the
other bytes leave over. -/
theorem clearHighBits_cons {bits : Nat} {b : UInt8} {rest : Bytes}
    (hlen : (b :: rest).length = (bits + 7) / 8) :
    ∃ kept : UInt8, clearHighBits bits (b :: rest) = kept :: rest ∧
      kept.toNat = b.toNat % 2 ^ (bits - 8 * rest.length) := by
  rw [List.length_cons] at hlen
  rw [clearHighBits]
  split
  · next hwhole =>
      refine ⟨b, rfl, ?_⟩
      rw [show bits - 8 * rest.length = 8 by omega, Nat.mod_eq_of_lt b.toNat_lt]
  · next hpart =>
      refine ⟨_, rfl, ?_⟩
      rw [toNat_and_lowBits b (Nat.mod_lt bits (by decide)),
        show bits - 8 * rest.length = bits % 8 by omega]

/-- A number of bits in 32 bits asks for fewer blocks than there are counters. -/
theorem blockCount_byteCount_le {size : Nat} (hsize : 0 < size) (bits : UInt32) :
    1 + blockCount size (byteCount bits) ≤ 2 ^ 32 := by
  have hone : blockCount size (byteCount bits) ≤ byteCount bits :=
    blockCount_le hsize (Nat.le_mul_of_pos_right _ hsize)
  have hword : bits.toNat < 2 ^ 32 := bits.toNat_lt
  unfold byteCount at hone ⊢
  omega

/-- The loop derives as many bits as asked for, at least one. -/
theorem derives_cut_extend (f : BlockFunction) {bits : UInt32} (hbits : 0 < bits) :
    Derives f bits (Loop.cut (f.extend (byteCount bits) 1 []) bits) := by
  have hpos : 0 < bits.toNat := UInt32.lt_iff_toNat_lt.mp hbits
  have hcount := blockCount_byteCount_le f.size_pos bits
  have hlength := length_counterMode 1 f.size_pos f.length_block (byteCount bits)
  have hbyte : ∀ j < byteCount bits,
      (counterMode f.block f.size 1 (byteCount bits))[j]? =
        (f.block (UInt32.ofNat (1 + j / f.size)))[j % f.size]? :=
    fun j => getElem?_counterMode f.size_pos f.length_block 1
  rw [Loop.cut_extend]
  generalize counterMode f.block f.size 1 (byteCount bits) = whole at hlength hbyte
  obtain ⟨b, rest, rfl⟩ : ∃ b rest, whole = b :: rest :=
    List.exists_cons_of_length_pos (by rw [hlength, byteCount]; omega)
  obtain ⟨kept, hclear, hkept⟩ := clearHighBits_cons hlength
  have hcleared : (kept :: rest).length = byteCount bits := hlength
  have hnumber := toNat_clearHighBits_lt hlength
  rw [hclear] at hnumber ⊢
  refine ⟨hcleared, hnumber, ⟨b, ?_, congrArg some hkept⟩, fun j hj hlt => ?_,
    f.extend_eq_append _ _ _, ?_, ?_⟩
  · have hfirst := hbyte 0 (hlength ▸ Nat.succ_pos _)
    rw [Nat.zero_div, Nat.zero_mod] at hfirst
    exact hfirst.symm
  · obtain ⟨i, rfl⟩ := Nat.exists_eq_add_of_le' hj
    exact hbyte (i + 1) (hcleared ▸ hlt)
  · rw [hcleared]
    exact f.toNat_counters _ hcount
  · rw [hcleared]
    exact f.nodup_counters _ hcount

end TrustedPlatform.Derivation
