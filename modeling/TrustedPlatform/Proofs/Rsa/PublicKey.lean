import TrustedPlatform.Proofs.Bytes
import TrustedPlatform.Proofs.Integer.Limbs
import TrustedPlatform.Rsa.PublicKey

/-!
# The modulus of a public key

The rules that a public key is admitted by, read from the bytes of its modulus, say of the number
that it is odd, has at most 64 limbs and is written in as many bytes as the key has.
-/

namespace TrustedPlatform

namespace Bytes

/-- The bit length of a byte string is that of its number. -/
theorem bitLength_eq (bytes : Bytes) : bytes.bitLength = (toNat bytes).size := by
  rw [← toNat_stripZeros, bitLength]
  have hhead := head?_stripZeros bytes
  cases hstrip : bytes.stripZeros with
  | nil => rw [toNat_nil, Nat.size_zero]
  | cons b rest =>
      have hb : b.toNat ≠ 0 := by
        intro h
        rw [hstrip, List.head?_cons] at hhead
        exact hhead (congrArg some (UInt8.toNat_inj.mp h))
      have hpow : 256 ^ rest.length = 2 ^ (8 * rest.length) := Nat.pow_mul 2 8 _ ▸ rfl
      have hrest := toNat_lt_two_pow rest
      rw [toNat_cons, hpow]
      show 8 * rest.length + (b.toNat.log2 + 1) = _
      refine Nat.le_antisymm ?_ ?_
      · rw [← Nat.add_assoc, Nat.succ_le_iff, Nat.lt_size, Nat.pow_add, Nat.mul_comm]
        exact (Nat.mul_le_mul_right _ (Nat.log2_self_le hb)).trans (Nat.le_add_right _ _)
      · rw [Nat.size_le, Nat.pow_add, Nat.mul_comm (2 ^ (8 * rest.length))]
        calc b.toNat * 2 ^ (8 * rest.length) + toNat rest
            < (b.toNat + 1) * 2 ^ (8 * rest.length) := by
              rw [Nat.add_one_mul b.toNat]
              exact Nat.add_lt_add_left hrest _
          _ ≤ 2 ^ (b.toNat.log2 + 1) * 2 ^ (8 * rest.length) :=
              Nat.mul_le_mul_right _ Nat.lt_log2_self

/-- The lowest bit of the number is that of the last byte. -/
theorem isOdd_iff (bytes : Bytes) : bytes.isOdd = true ↔ toNat bytes % 2 = 1 := by
  rw [isOdd, beq_iff_eq, ← UInt8.toNat_inj, UInt8.toNat_and]
  show _ &&& 1 = 1 ↔ _
  rw [Nat.and_one_is_mod]
  induction bytes using List.reverseRecOn with
  | nil => simp [toNat]
  | append_singleton bytes b =>
      rw [List.getLastD_concat, toNat_concat]
      omega

end Bytes

namespace Rsa.PublicKey

open Bytes (toNat)
open Limbs (count)

/-- The modulus is odd. -/
theorem toNat_modulus_odd (key : PublicKey) : toNat key.modulus % 2 = 1 :=
  (Bytes.isOdd_iff _).mp key.isOdd

/-- The modulus has at most 64 limbs. -/
theorem count_modulus_le (key : PublicKey) : count (toNat key.modulus) ≤ 64 := by
  have hsize := key.bitLength_le
  rw [Bytes.bitLength_eq, Nat.size_le] at hsize
  rwa [Limbs.count_le_iff, Limbs.size_pow_eq, show 64 * 64 = maxModulusBits from rfl]

/-- The modulus is written in as many bytes as the key has. -/
theorem toNat_modulus_lt (key : PublicKey) : toNat key.modulus < 256 ^ key.size := by
  rw [← Bytes.widthOf_le_iff, Bytes.widthOf_eq, ← Bytes.bitLength_eq]
  exact le_rfl

/-- The modulus takes up all bytes of the key. -/
theorem pow_size_le (key : PublicKey) : 256 ^ (key.size - 1) ≤ toNat key.modulus := by
  have hbits : 512 ≤ key.modulus.bitLength := key.le_bitLength
  have hsize : key.size = (key.modulus.bitLength + 7) / 8 := rfl
  rw [Bytes.bitLength_eq] at hbits hsize
  rw [show 256 = 2 ^ 8 from rfl, ← Nat.pow_mul, ← Nat.lt_size]
  omega

/-- A key has at least 64 bytes. -/
theorem le_size (key : PublicKey) : 64 ≤ key.size := by
  have hbits : 512 ≤ key.modulus.bitLength := key.le_bitLength
  show 64 ≤ (key.modulus.bitLength + 7) / 8
  omega

/-- A block as long as the modulus that starts with a zero is below the modulus. -/
theorem toNat_lt_of_head? (key : PublicKey) {block : Bytes} (hhead : block.head? = some 0)
    (hlen : block.length = key.size) : toNat block < toNat key.modulus := by
  obtain ⟨rest, rfl⟩ := List.head?_eq_some_iff.mp hhead
  have hrest : rest.length = key.size - 1 := by
    rw [← hlen, List.length_cons, Nat.add_sub_cancel]
  rw [Bytes.toNat_cons, UInt8.toNat_zero, Nat.zero_mul, Nat.zero_add]
  exact (hrest ▸ Bytes.toNat_lt rest).trans_le key.pow_size_le

/-- A number below the modulus is written in full in as many bytes as the key has. -/
theorem toNat_ofNatWidth_size (key : PublicKey) {x : Nat} (h : x < toNat key.modulus) :
    toNat (Bytes.ofNatWidth key.size x) = x :=
  Bytes.toNat_ofNatWidth_of_lt (h.trans key.toNat_modulus_lt)

/-- A number below the modulus, written in as many bytes as the key has, is its byte string filled
up with zeros. -/
theorem ofNatWidth_size_eq (key : PublicKey) {input : Bytes} (h : toNat input < toNat key.modulus) :
    Bytes.ofNatWidth key.size (toNat input) = input.stripZeros.padLeft key.size := by
  rw [Bytes.ofNatWidth_eq_padLeft (h.trans key.toNat_modulus_lt), Bytes.ofNat_toNat]

end Rsa.PublicKey

end TrustedPlatform
