import Mathlib.Algebra.BigOperators.Group.List.Basic
import Mathlib.Tactic.IntervalCases
import TrustedPlatform.Derivation
import TrustedPlatform.Proofs.Bytes

/-!
# Lengths and high bits of derived byte strings

The blocks of `counterMode` always cover the length that is asked for, so a mask is as long as
asked for, and any number of blocks that covers it gives the same bytes. Clearing the high bits of a
byte string leaves the remainder of its number, and commutes with differences.
-/

namespace TrustedPlatform

open TrustedPlatform.Derivation

/-- A digest has at most 64 bytes. -/
theorem Hash.size_le (h : Hash) : h.size ≤ 64 := by
  show h.algorithm.digestSize ≤ 64
  cases h.algorithm <;> decide

/-! ### Blocks -/

namespace Derivation

variable {block : UInt32 → Bytes} {size : Nat} (start : Nat)

/-- The blocks with counters `start`, `start + 1` and so on, one after the other. -/
def blocks (block : UInt32 → Bytes) (start count : Nat) : Bytes :=
  (List.range count).flatMap fun i => block (UInt32.ofNat (start + i))

/-- The last block stands behind the others. -/
theorem blocks_succ (block : UInt32 → Bytes) (start count : Nat) :
    blocks block start (count + 1) =
      blocks block start count ++ block (UInt32.ofNat (start + count)) := by
  rw [blocks, List.range_succ, List.flatMap_append, List.flatMap_singleton, blocks]

/-- Blocks of one size add up. -/
theorem length_blocks (hblock : ∀ counter, (block counter).length = size)
    (count : Nat) : (blocks block start count).length = count * size := by
  induction count with
  | zero => rw [Nat.zero_mul]; rfl
  | succ count ih => rw [blocks_succ, List.length_append, ih, hblock, Nat.succ_mul]

/-- The blocks that are cut to a length cover it. -/
theorem le_blockCount_mul (hsize : 0 < size) (length : Nat) :
    length ≤ (length + size - 1) / size * size := by
  have hdiv := Nat.div_add_mod' (length + size - 1) size
  have hmod := Nat.mod_lt (length + size - 1) hsize
  omega

/-- Blocks of one size are cut to the requested length. -/
theorem length_counterMode (hsize : 0 < size)
    (hblock : ∀ counter, (block counter).length = size) (length : Nat) :
    (counterMode block size start length).length = length := by
  show ((blocks block start ((length + size - 1) / size)).take length).length = length
  rw [List.length_take, length_blocks start hblock]
  exact Nat.min_eq_left (le_blockCount_mul hsize length)

/-- Fewer blocks stand at the front of more. -/
theorem blocks_isPrefix {few many : Nat} (h : few ≤ many) :
    blocks block start few <+: blocks block start many := by
  induction many, h using Nat.le_induction with
  | base => exact List.prefix_rfl
  | succ many _ ih => exact ih.trans (blocks_succ block start many ▸ List.prefix_append _ _)

/-- Any number of blocks that covers a length is cut to the same bytes. -/
theorem counterMode_eq_take (hsize : 0 < size)
    (hblock : ∀ counter, (block counter).length = size) {length count : Nat}
    (h : length ≤ count * size) :
    counterMode block size start length = (blocks block start count).take length := by
  have hneeded : (length + size - 1) / size ≤ count := by
    rw [← Nat.lt_succ_iff, Nat.div_lt_iff_lt_mul hsize, Nat.succ_mul]
    omega
  obtain ⟨rest, hrest⟩ : blocks block start _ <+: blocks block start count :=
    blocks_isPrefix start hneeded
  rw [← hrest, List.take_append_of_le_length]
  · rfl
  · rw [length_blocks start hblock]
    exact le_blockCount_mul hsize length

/-- A shorter derivation is the front of a longer one. -/
theorem counterMode_isPrefix (hsize : 0 < size)
    (hblock : ∀ counter, (block counter).length = size) {short long : Nat} (h : short ≤ long) :
    counterMode block size start short <+: counterMode block size start long := by
  have hcover := le_blockCount_mul hsize long
  rw [counterMode_eq_take start hsize hblock (h.trans hcover),
    counterMode_eq_take start hsize hblock hcover]
  exact List.take_prefix_take_left h

end Derivation

/-- A mask is as long as asked for. -/
@[simp] theorem Hash.length_mask (h : Hash) (seed : Bytes) (length : Nat) :
    (h.mask seed length).length = length :=
  length_counterMode 0 h.size_pos (fun _ => h.length_digest _) length

/-! ### High bits -/

namespace Derivation

/-- Clearing bits keeps the length. -/
@[simp] theorem length_clearHighBits (bits : Nat) (bytes : Bytes) :
    (clearHighBits bits bytes).length = bytes.length := by
  cases bytes with
  | nil => rfl
  | cons b rest =>
      rw [clearHighBits]
      split <;> rfl

/-- Derived bits take as many bytes as hold them. -/
theorem length_of_deriveA {h : Hash} {key label contextU contextV : Bytes} {bits : UInt32}
    {derived : Bytes} (hderived : h.deriveA key label contextU contextV bits = .ok derived) :
    derived.length = byteCount bits := by
  have hblock (counter : UInt32) :
      (h.deriveABlock key label contextU contextV bits counter).length = h.size :=
    h.length_mac _ _
  rw [Hash.deriveA, Require.parameter] at hderived
  split at hderived
  · cases hderived
    rw [length_clearHighBits, length_counterMode 1 h.size_pos hblock]
  · cases hderived

/-- Only the first byte has bits to clear. -/
theorem clearHighBits_append (bits : Nat) {bytes : Bytes} (h : bytes ≠ []) (rest : Bytes) :
    clearHighBits bits (bytes ++ rest) = clearHighBits bits bytes ++ rest := by
  cases bytes with
  | nil => exact absurd rfl h
  | cons b bytes =>
      simp only [List.cons_append, clearHighBits]
      split <;> rfl

/-- Bits are cleared once. -/
@[simp] theorem clearHighBits_clearHighBits (bits : Nat) (bytes : Bytes) :
    clearHighBits bits (clearHighBits bits bytes) = clearHighBits bits bytes := by
  cases bytes with
  | nil => rfl
  | cons b rest =>
      by_cases h : bits % 8 = 0
      · simp [clearHighBits, h]
      · simp [clearHighBits, h, UInt8.and_assoc]

/-- The bits of a difference are cleared by clearing those of its operands. -/
theorem clearHighBits_xor (bits : Nat) (a b : Bytes) :
    clearHighBits bits (Bytes.xor a b) =
      Bytes.xor (clearHighBits bits a) (clearHighBits bits b) := by
  cases a with
  | nil => rfl
  | cons x a =>
      cases b with
      | nil => simp [Bytes.xor, clearHighBits]
      | cons y b =>
          have hmask (m : UInt8) : (x ^^^ y) &&& m = (x &&& m) ^^^ (y &&& m) := by
            simp only [← UInt8.toNat_inj, UInt8.toNat_and, UInt8.toNat_xor,
              Nat.and_xor_distrib_right]
          by_cases h : bits % 8 = 0
          · simp [clearHighBits, h, Bytes.xor]
          · simp [clearHighBits, h, Bytes.xor, hmask]

/-- A first byte of zero or one keeps its bits. -/
theorem clearHighBits_of_le_one (bits : Nat) {b : UInt8} (h : b ≤ 1) (rest : Bytes) :
    clearHighBits bits (b :: rest) = b :: rest := by
  rw [clearHighBits]
  split
  · rfl
  · next hbits =>
      have hlow : 1 ≤ bits % 8 ∧ bits % 8 < 8 := by omega
      generalize bits % 8 = count at hlow
      obtain ⟨hpos, hlt⟩ := hlow
      have hb : b = 0 ∨ b = 1 := by
        rw [UInt8.le_iff_toNat_le, UInt8.toNat_one] at h
        simp only [← UInt8.toNat_inj, UInt8.toNat_zero, UInt8.toNat_one]
        omega
      rcases hb with rfl | rfl
      · rw [UInt8.zero_and]
      · interval_cases count <;> rfl

/-- The mask keeps the low bits of a byte. -/
theorem toNat_and_lowBits (b : UInt8) {count : Nat} (h : count < 8) :
    (b &&& ((1 <<< UInt8.ofNat count) - 1)).toNat = b.toNat % 2 ^ count := by
  have hmask : ((1 <<< UInt8.ofNat count) - 1 : UInt8).toNat = 2 ^ count - 1 := by
    interval_cases count <;> rfl
  rw [UInt8.toNat_and, hmask, Nat.and_two_pow_sub_one_eq_mod]

/-- Clearing the high bits of a byte string just long enough for a number of bits leaves these bits
of its number. -/
theorem toNat_clearHighBits {bits : Nat} {bytes : Bytes} (hlen : bytes.length = (bits + 7) / 8) :
    Bytes.toNat (clearHighBits bits bytes) = Bytes.toNat bytes % 2 ^ bits := by
  cases bytes with
  | nil => exact (Nat.zero_mod _).symm
  | cons b rest =>
      rw [clearHighBits]
      split
      · next hbits =>
          have hwhole : bits = 8 * (b :: rest).length := by omega
          rw [hwhole, Nat.mod_eq_of_lt (Bytes.toNat_lt_two_pow _)]
      · next hbits =>
          rw [List.length_cons] at hlen
          -- the bits of the first byte stand above those of the others
          have hsplit := Bytes.toNat_cons_mod b rest (bits % 8)
          rw [show 8 * rest.length + bits % 8 = bits by omega] at hsplit
          rw [hsplit, Bytes.toNat_cons_eq_or, toNat_and_lowBits b (Nat.mod_lt bits (by decide))]

/-- A byte string just long enough for a number of bits has no more than those bits once the others
are cleared. -/
theorem toNat_clearHighBits_lt {bits : Nat} {bytes : Bytes}
    (hlen : bytes.length = (bits + 7) / 8) : Bytes.toNat (clearHighBits bits bytes) < 2 ^ bits := by
  rw [toNat_clearHighBits hlen]
  exact Nat.mod_lt _ (Nat.two_pow_pos bits)

end Derivation

end TrustedPlatform
