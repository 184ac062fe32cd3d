import TrustedPlatform.Cipher.Aes
import TrustedPlatform.Proofs.Bytes
import TrustedPlatform.Proofs.Cipher.Field

/-!
# Encryption permutes the blocks

Every step of the cipher can be undone: substituting, as the table of substitutions lists each byte
once; shifting the rows; mixing the columns, which gives the block back when it is done four times;
and adding a round key. Hence no two blocks have one encryption, whatever the round keys are.
-/

namespace TrustedPlatform

namespace Aes

open ByteField

/-! ### Substituting -/

/-- The numbers that the bytes are substituted by, in their order, as the standard lists them. -/
def standardSubstitutions : List Nat :=
  [0x63, 0x7c, 0x77, 0x7b, 0xf2, 0x6b, 0x6f, 0xc5, 0x30, 0x01, 0x67, 0x2b, 0xfe, 0xd7, 0xab, 0x76,
    0xca, 0x82, 0xc9, 0x7d, 0xfa, 0x59, 0x47, 0xf0, 0xad, 0xd4, 0xa2, 0xaf, 0x9c, 0xa4, 0x72, 0xc0,
    0xb7, 0xfd, 0x93, 0x26, 0x36, 0x3f, 0xf7, 0xcc, 0x34, 0xa5, 0xe5, 0xf1, 0x71, 0xd8, 0x31, 0x15,
    0x04, 0xc7, 0x23, 0xc3, 0x18, 0x96, 0x05, 0x9a, 0x07, 0x12, 0x80, 0xe2, 0xeb, 0x27, 0xb2, 0x75,
    0x09, 0x83, 0x2c, 0x1a, 0x1b, 0x6e, 0x5a, 0xa0, 0x52, 0x3b, 0xd6, 0xb3, 0x29, 0xe3, 0x2f, 0x84,
    0x53, 0xd1, 0x00, 0xed, 0x20, 0xfc, 0xb1, 0x5b, 0x6a, 0xcb, 0xbe, 0x39, 0x4a, 0x4c, 0x58, 0xcf,
    0xd0, 0xef, 0xaa, 0xfb, 0x43, 0x4d, 0x33, 0x85, 0x45, 0xf9, 0x02, 0x7f, 0x50, 0x3c, 0x9f, 0xa8,
    0x51, 0xa3, 0x40, 0x8f, 0x92, 0x9d, 0x38, 0xf5, 0xbc, 0xb6, 0xda, 0x21, 0x10, 0xff, 0xf3, 0xd2,
    0xcd, 0x0c, 0x13, 0xec, 0x5f, 0x97, 0x44, 0x17, 0xc4, 0xa7, 0x7e, 0x3d, 0x64, 0x5d, 0x19, 0x73,
    0x60, 0x81, 0x4f, 0xdc, 0x22, 0x2a, 0x90, 0x88, 0x46, 0xee, 0xb8, 0x14, 0xde, 0x5e, 0x0b, 0xdb,
    0xe0, 0x32, 0x3a, 0x0a, 0x49, 0x06, 0x24, 0x5c, 0xc2, 0xd3, 0xac, 0x62, 0x91, 0x95, 0xe4, 0x79,
    0xe7, 0xc8, 0x37, 0x6d, 0x8d, 0xd5, 0x4e, 0xa9, 0x6c, 0x56, 0xf4, 0xea, 0x65, 0x7a, 0xae, 0x08,
    0xba, 0x78, 0x25, 0x2e, 0x1c, 0xa6, 0xb4, 0xc6, 0xe8, 0xdd, 0x74, 0x1f, 0x4b, 0xbd, 0x8b, 0x8a,
    0x70, 0x3e, 0xb5, 0x66, 0x48, 0x03, 0xf6, 0x0e, 0x61, 0x35, 0x57, 0xb9, 0x86, 0xc1, 0x1d, 0x9e,
    0xe1, 0xf8, 0x98, 0x11, 0x69, 0xd9, 0x8e, 0x94, 0x9b, 0x1e, 0x87, 0xe9, 0xce, 0x55, 0x28, 0xdf,
    0x8c, 0xa1, 0x89, 0x0d, 0xbf, 0xe6, 0x42, 0x68, 0x41, 0x99, 0x2d, 0x0f, 0xb0, 0x54, 0xbb, 0x16]

/-- The affine map that follows the inversion. -/
def affine (i : UInt8) : UInt8 :=
  i ^^^ rotateLeft i 1 ^^^ rotateLeft i 2 ^^^ rotateLeft i 3 ^^^ rotateLeft i 4 ^^^ 0x63

/-- The table of the standard has 256 entries, among them every byte, and the entry for a byte is the
affine image of its inverse. A byte and its entry are taken together as the two digits of a number. -/
theorem memberBits_standardSubstitutions :
    standardSubstitutions.length = 256 ∧ memberBits standardSubstitutions = 2 ^ 256 - 1 ∧
      memberBits (inverses.map fun p => 256 * p.1.toNat + (affine p.2).toNat) =
        memberBits (standardSubstitutions.zipIdx.map fun p => 256 * p.2 + p.1) := by
  decide +kernel

/-- Every byte is the substitution of one byte. -/
theorem standardSubstitutions_perm : standardSubstitutions.Perm (List.range 256) :=
  perm_range_of_memberBits memberBits_standardSubstitutions.1 memberBits_standardSubstitutions.2.1

/-- The entry of the standard for a byte is its computed substitution. -/
theorem getElem?_standardSubstitutions (x : UInt8) :
    standardSubstitutions[x.toNat]? = some (substituteByte x).toNat := by
  have hmem : 256 * x.toNat + (substituteByte x).toNat ∈
      inverses.map fun p => 256 * p.1.toNat + (affine p.2).toNat :=
    List.mem_map.mpr ⟨_, mem_inverses x, rfl⟩
  rw [mem_iff_of_memberBits_eq memberBits_standardSubstitutions.2.2, List.mem_map] at hmem
  obtain ⟨⟨entry, i⟩, hentry, hnumber⟩ := hmem
  rw [List.mem_zipIdx_iff_getElem?] at hentry
  have hlt : entry < 256 := by
    rw [← List.mem_range, ← standardSubstitutions_perm.mem_iff]
    exact List.mem_of_getElem? hentry
  have hx := (substituteByte x).toNat_lt
  obtain ⟨rfl, rfl⟩ : i = x.toNat ∧ entry = (substituteByte x).toNat := by
    dsimp only at hnumber
    omega
  exact hentry

/-- The substitution that is looked up is the one that is computed. -/
theorem substitute_eq (x : UInt8) : substitute x = substituteByte x := by
  have hlt : x.toNat < 256 := x.toNat_lt
  show substitutions[x.toNat] = _
  rw [substitutions, Vector.getElem_ofFn, UInt8.ofNat_toNat]

/-- No two bytes have one substitution. -/
theorem substitute_injective : Function.Injective substitute := by
  intro x y hxy
  have hentries : standardSubstitutions[x.toNat]? = standardSubstitutions[y.toNat]? := by
    rw [getElem?_standardSubstitutions, getElem?_standardSubstitutions, ← substitute_eq, hxy,
      substitute_eq]
  have hnodup : standardSubstitutions.Nodup :=
    standardSubstitutions_perm.nodup_iff.mpr List.nodup_range
  have hlt : x.toNat < standardSubstitutions.length :=
    memberBits_standardSubstitutions.1 ▸ x.toNat_lt
  exact UInt8.toNat_inj.mp ((List.getElem?_inj hlt hnodup).mp hentries)

namespace Column

/-- No two columns have one substitution. -/
theorem substitute_injective : Function.Injective substitute := by
  intro a b h
  obtain ⟨a0, a1, a2, a3⟩ := a
  obtain ⟨b0, b1, b2, b3⟩ := b
  simp only [substitute, mk.injEq, Aes.substitute_injective.eq_iff] at h
  exact mk.injEq .. ▸ h

/-- Mixing a column twice adds to each byte four times the sum of the bytes two places apart. -/
theorem mix_mix (a : Column) :
    let even := ByteField.double (ByteField.double (a.r0 ^^^ a.r2))
    let odd := ByteField.double (ByteField.double (a.r1 ^^^ a.r3))
    a.mix.mix = ⟨a.r0 ^^^ even, a.r1 ^^^ odd, a.r2 ^^^ even, a.r3 ^^^ odd⟩ := by
  simp only [mix, ByteField.double_xor, mk.injEq]
  refine ⟨?_, ?_, ?_, ?_⟩ <;>
    simp only [UInt8.xor_assoc, ByteField.xor_left_comm, UInt8.xor_comm,
      ByteField.xor_cancel_left, UInt8.xor_self, UInt8.zero_xor]

/-- Mixing a column four times gives it back. -/
theorem mix_mix_mix_mix (a : Column) : a.mix.mix.mix.mix = a := by
  have hsum (x y e : UInt8) : (x ^^^ e) ^^^ (y ^^^ e) = x ^^^ y := by
    rw [UInt8.xor_comm y, UInt8.xor_assoc, ByteField.xor_cancel_left]
  have hcancel (x e : UInt8) : (x ^^^ e) ^^^ e = x := by
    rw [UInt8.xor_assoc, UInt8.xor_self, UInt8.xor_zero]
  -- the sums of the bytes two places apart are the same before and after
  simp only [mix_mix, hsum, hcancel]

/-- No two columns are mixed alike. -/
theorem mix_injective : Function.Injective mix := by
  have hinverse : Function.LeftInverse (fun a : Column => a.mix.mix.mix) mix := mix_mix_mix_mix
  exact hinverse.injective

/-- No two columns have one sum with a third. -/
theorem add_injective (k : Column) : Function.Injective fun a => add a k := by
  intro a b h
  obtain ⟨a0, a1, a2, a3⟩ := a
  obtain ⟨b0, b1, b2, b3⟩ := b
  simpa only [add, mk.injEq, UInt8.xor_left_inj] using h

end Column

namespace Block

/-- No two blocks have one substitution. -/
theorem substitute_injective : Function.Injective substitute := by
  rintro ⟨a0, a1, a2, a3⟩ ⟨b0, b1, b2, b3⟩ h
  simpa only [substitute, mk.injEq, Column.substitute_injective.eq_iff] using h

/-- No two blocks have their rows shifted alike. -/
theorem shiftRows_injective : Function.Injective shiftRows := by
  rintro ⟨⟨_, _, _, _⟩, ⟨_, _, _, _⟩, ⟨_, _, _, _⟩, ⟨_, _, _, _⟩⟩
    ⟨⟨_, _, _, _⟩, ⟨_, _, _, _⟩, ⟨_, _, _, _⟩, ⟨_, _, _, _⟩⟩ h
  simp only [shiftRows, mk.injEq, Column.mk.injEq] at h ⊢
  tauto

/-- No two blocks are mixed alike. -/
theorem mix_injective : Function.Injective mix := by
  rintro ⟨a0, a1, a2, a3⟩ ⟨b0, b1, b2, b3⟩ h
  simpa only [mix, mk.injEq, Column.mix_injective.eq_iff] using h

/-- Blocks may be added in either order. -/
theorem add_comm (a b : Block) : a.add b = b.add a := by
  simp only [add, Column.add, UInt8.xor_comm]

/-- No two blocks have one sum with a round key. -/
theorem add_injective (k : Block) : Function.Injective fun a => add a k := by
  rintro ⟨a0, a1, a2, a3⟩ ⟨b0, b1, b2, b3⟩ h
  simpa only [add, mk.injEq, (Column.add_injective _).eq_iff] using h

end Block

/-! ### Encrypting -/

/-- No two blocks are the same after some rounds. -/
theorem rounds_injective (keys : List Block) : Function.Injective (rounds keys) := by
  intro a b h
  induction keys generalizing a b with
  | nil => exact h
  | cons key keys ih =>
      cases keys with
      | nil =>
          exact Block.substitute_injective (Block.shiftRows_injective (Block.add_injective key h))
      | cons next keys =>
          have hmixed := Block.add_injective key (ih h)
          exact Block.substitute_injective (Block.shiftRows_injective (Block.mix_injective hmixed))

/-- No two blocks have one encryption. -/
theorem encryptWith_injective (keys : List Block) : Function.Injective (encryptWith keys) := by
  intro a b h
  cases keys with
  | nil => exact h
  | cons first rest => exact Block.add_injective first (rounds_injective rest h)

/-! ### Blocks and bytes -/

/-- A block is read back from its bytes. -/
theorem Block.toBytes_ofBytes {bytes : Bytes} (h : bytes.length = 16) :
    (Block.ofBytes bytes).toBytes = bytes := by
  match bytes, h with
  | [_, _, _, _, _, _, _, _, _, _, _, _, _, _, _, _], _ => rfl

/-- A block has sixteen bytes. -/
@[simp] theorem Block.length_toBytes (a : Block) : a.toBytes.length = 16 := rfl

/-- No two blocks have the same bytes. -/
theorem Block.toBytes_injective : Function.Injective Block.toBytes :=
  Function.LeftInverse.injective (g := Block.ofBytes) fun _ => rfl

end Aes

end TrustedPlatform
