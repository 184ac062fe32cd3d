import TrustedPlatform.Proofs.Cipher.Standard

/-!
# Encryption is the cipher of the standard

The columns of the key schedule are the words of the standard, and the rounds on columns are its
rounds on squares of bytes. With the layers this gives `encrypt_eq_cipher`: for every key of thirty-two
bytes the encryption permutes the byte strings of length sixteen, and is the cipher of the standard.
-/

namespace TrustedPlatform.Aes

open Standard (word fullRounds State)

variable (key : Bytes)

/-! ### The key schedule -/

/-- A column of the schedule of the standard. -/
def scheduleColumn (i : Nat) : Column :=
  .ofWord (word key i)

/-- The first columns are those of the key. -/
theorem scheduleColumn_of_lt {i : Nat} (h : i < 8) :
    scheduleColumn key i = Column.ofBytes (key.drop (4 * i)) := by
  rw [scheduleColumn, word, if_pos h, Column.ofWord, Column.ofBytes]
  simp [List.getD_eq_getElem?_getD]

/-- The round constants are the powers of two. -/
theorem powersOfTwo_getD {j : Nat} (h : j < 7) :
    Standard.powersOfTwo.getD j 0 = 1 <<< UInt8.ofNat j := by
  interval_cases j <;> rfl

/-- The column that is added is the one of the standard. -/
theorem scheduleCore_eq {i : Nat} (h : i < 60) (w : Standard.Word) :
    scheduleCore i (.ofWord w) = .ofWord (Standard.core i w) := by
  unfold scheduleCore Standard.core
  split
  · show (⟨substitute (w 1) ^^^ 1 <<< UInt8.ofNat (i / 8 - 1), substitute (w 2) ^^^ 0,
        substitute (w 3) ^^^ 0, substitute (w 0) ^^^ 0⟩ : Column) =
      ⟨Standard.subByte (w 1) ^^^ Standard.powersOfTwo.getD (i / 8 - 1) 0,
        Standard.subByte (w 2) ^^^ 0, Standard.subByte (w 3) ^^^ 0, Standard.subByte (w 0) ^^^ 0⟩
    rw [powersOfTwo_getD (by omega)]
    simp only [substitute_eq_subByte]
  · split
    · show (⟨substitute (w 0), substitute (w 1), substitute (w 2), substitute (w 3)⟩ : Column) = _
      simp only [substitute_eq_subByte, Column.ofWord]
    · rfl

/-- A column after the first eight is the one eight places back with the last one, transformed. -/
theorem scheduleColumn_add {i : Nat} (h : i + 8 < 60) :
    scheduleColumn key (i + 8) =
      (scheduleColumn key i).add (scheduleCore (i + 8) (scheduleColumn key (i + 7))) := by
  rw [scheduleColumn, word, if_neg (by omega), scheduleColumn, scheduleColumn, scheduleCore_eq h]
  rfl

/-- A column counted from the latest. -/
theorem getD_reverse_map_range (f : Nat → Column) {n k : Nat} (h : k < n) (d : Column) :
    ((List.range n).map f).reverse.getD k d = f (n - 1 - k) := by
  rw [List.getD_eq_getElem _ _ (by simpa using h)]
  simp

/-- The latest column stands before the others. -/
theorem reverse_map_range_succ (f : Nat → Column) (n : Nat) :
    ((List.range (n + 1)).map f).reverse = f n :: ((List.range n).map f).reverse := by
  rw [List.range_succ, List.map_append, List.reverse_append]
  rfl

/-- Expanding the columns goes on with those of the standard. -/
theorem expand_eq {i count : Nat} (hi : 8 ≤ i) (h : i + count ≤ 60) :
    expand i count ((List.range i).map (scheduleColumn key)).reverse =
      ((List.range (i + count)).map (scheduleColumn key)).reverse := by
  induction count generalizing i with
  | zero => rfl
  | succ count ih =>
      obtain ⟨k, rfl⟩ := Nat.exists_eq_add_of_le' hi
      have hnew : (scheduleColumn key k).add (scheduleCore (k + 8) (scheduleColumn key (k + 7))) =
          scheduleColumn key (k + 8) := (scheduleColumn_add key (by omega)).symm
      have hlast : k + 8 - 1 - 0 = k + 7 := rfl
      have hback : k + 8 - 1 - 7 = k := by omega
      rw [expand, getD_reverse_map_range _ (by omega), getD_reverse_map_range _ (by omega), hlast,
        hback, hnew, ← reverse_map_range_succ, ih (by omega) (by omega), Nat.add_assoc (k + 8),
        Nat.add_comm 1]

/-- The block of the four columns of a round. -/
def roundKey (round : Nat) : Block :=
  ⟨scheduleColumn key (4 * round), scheduleColumn key (4 * round + 1),
    scheduleColumn key (4 * round + 2), scheduleColumn key (4 * round + 3)⟩

/-- The columns of a round are its four words. -/
theorem state_roundKey (round : Nat) (r c : Fin 4) :
    (roundKey key round).state r c = word key (4 * round + c) r := by
  have hcolumn : (roundKey key round).column c = scheduleColumn key (4 * round + c) := by
    fin_cases c <;> rfl
  rw [Block.state, hcolumn, scheduleColumn, Column.byte_ofWord]

/-- Columns are grouped four at a time. -/
theorem groupBlocks_map_range (f : Nat → Column) (n : Nat) :
    groupBlocks ((List.range (4 * n)).map f) =
      (List.range n).map fun k => ⟨f (4 * k), f (4 * k + 1), f (4 * k + 2), f (4 * k + 3)⟩ := by
  induction n generalizing f with
  | zero => rfl
  | succ n ih =>
      have hrange : (List.range (4 * n + 4)).map f =
          f 0 :: f 1 :: f 2 :: f 3 :: (List.range (4 * n)).map fun k => f (k + 4) := by
        simp only [List.range_succ_eq_map, List.map_cons, List.map_map]
        rfl
      rw [Nat.mul_succ, hrange, groupBlocks, ih, List.range_succ_eq_map (n := n), List.map_cons,
        List.map_map]
      congr 1

/-- The round keys are the words of the schedule, four at a time. -/
theorem roundKeys_eq : roundKeys key = (List.range 15).map (roundKey key) := by
  have hfirst : (List.range 8).map (fun i => Column.ofBytes (key.drop (4 * i))) =
      (List.range 8).map (scheduleColumn key) :=
    List.map_congr_left fun i hi => (scheduleColumn_of_lt key (List.mem_range.mp hi)).symm
  have hexpand := expand_eq key (le_refl 8) (le_refl (8 + 52))
  unfold roundKeys
  rw [hfirst]
  show groupBlocks (expand 8 52 _).reverse = _
  rw [hexpand, List.reverse_reverse]
  exact groupBlocks_map_range _ 15

/-! ### Rounds -/

variable {key}

/-- Adding the block of a round adds its four words. -/
theorem state_add_roundKey (a : Block) (round : Nat) :
    (a.add (roundKey key round)).state = Standard.addRoundKey (word key) round a.state := by
  rw [Block.state_add]
  funext r c
  rw [state_roundKey]
  rfl

/-- The rounds that are left, of which the last does not mix. -/
theorem state_rounds (left done : Nat) (s : State) (a : Block)
    (ha : a.state = fullRounds (word key) done s) :
    (rounds ((List.range' (done + 1) (left + 1)).map (roundKey key)) a).state =
      Standard.addRoundKey (word key) (done + left + 1)
        (Standard.shiftRows (Standard.subBytes (fullRounds (word key) (done + left) s))) := by
  induction left generalizing done a with
  | zero =>
      show (a.substitute.shiftRows.add (roundKey key (done + 1))).state = _
      rw [state_add_roundKey, Block.state_shiftRows, Block.state_substitute, ha]
      rfl
  | succ left ih =>
      have hnext : (a.substitute.shiftRows.mix.add (roundKey key (done + 1))).state =
          fullRounds (word key) (done + 1) s := by
        rw [state_add_roundKey, Block.state_mix, Block.state_shiftRows, Block.state_substitute, ha]
        rfl
      have hrest := ih (done + 1) _ hnext
      rw [Nat.add_right_comm done 1 left] at hrest
      exact hrest

/-- A block is encrypted as the standard does it. -/
theorem encrypt_eq (key block : Bytes) : encrypt key block = Standard.cipher key block := by
  have hfirst : ((Block.ofBytes block).add (roundKey key 0)).state =
      fullRounds (word key) 0 (.ofBytes block) := by
    rw [state_add_roundKey, Block.state_ofBytes]
    rfl
  have hrounds := state_rounds 13 0 (.ofBytes block) _ hfirst
  unfold encrypt
  rw [roundKeys_eq, ← Block.toBytes_state]
  exact congrArg State.toBytes hrounds


/-! ### Blocks of bytes -/

/-- No two byte strings of sixteen bytes are one block. -/
theorem Block.ofBytes_injOn : Set.InjOn Block.ofBytes {bytes | bytes.length = 16} := by
  intro a ha b hb h
  rw [← Block.toBytes_ofBytes ha, h, Block.toBytes_ofBytes hb]

/-- A key permutes the blocks. -/
theorem bijOn_encrypt (key : Bytes) :
    Set.BijOn (encrypt key) {block | block.length = 16} {block | block.length = 16} := by
  have hmaps : Set.MapsTo (encrypt key) {block | block.length = 16} {block | block.length = 16} :=
    fun _ _ => Block.length_toBytes _
  have hinj : Set.InjOn (encrypt key) {block | block.length = 16} := fun a ha b hb h =>
    Block.ofBytes_injOn ha hb (encryptWith_injective _ (Block.toBytes_injective h))
  have : Finite UInt8 := .of_injective UInt8.toFin fun _ _ => UInt8.toFin_inj.mp
  exact ((List.finite_length_eq UInt8 16).injOn_iff_bijOn_of_mapsTo hmaps).mp hinj

/-- The round keys are the sixty words of the standard, four to a round. -/
theorem getElem?_roundKeys {round : Nat} (h : round < 15) :
    (roundKeys key)[round]? = some (roundKey key round) := by
  rw [roundKeys_eq, List.getElem?_map, List.getElem?_range h, Option.map_some]

/-- Encryption is the AES-256 of the standard, for every key and every block of sixteen bytes, and a
permutation of these blocks. The computed substitution is the published table: the 254th power in
the field of polynomials modulo `x^8 + x^4 + x^3 + x + 1`, which is the reciprocal of every byte but
zero, followed by the affine map. Shifting the rows, mixing the columns, where bytes are multiplied as
polynomials, and adding a round key are those of the standard on the square of bytes, and the words
of the round keys are its sixty words. -/
theorem encrypt_eq_cipher (key : Bytes) :
    Set.BijOn (encrypt key) {block | block.length = 16} {block | block.length = 16} ∧
    (∀ block, encrypt key block = Standard.cipher key block) ∧
    (∀ x, substitute x = Standard.subByte x ∧ substituteByte x = Standard.subByte x ∧
      (∀ i < 8, let b := (ByteField.inverse x).toNat.testBit
        (substituteByte x).toNat.testBit i =
          (b i ^^ b ((i + 4) % 8) ^^ b ((i + 5) % 8) ^^ b ((i + 6) % 8) ^^ b ((i + 7) % 8) ^^
            Nat.testBit 0x63 i)) ∧
      ByteField.polynomial (ByteField.inverse x) =
        ByteField.polynomial x ^ 254 %ₘ ByteField.modulus ∧
      (x ≠ 0 → ByteField.mul x (ByteField.inverse x) = 1)) ∧
    (∀ x y, ByteField.polynomial (ByteField.mul x y) =
      ByteField.polynomial x * ByteField.polynomial y %ₘ ByteField.modulus) ∧
    (∀ a : Block, a.substitute.state = Standard.subBytes a.state ∧
      a.shiftRows.state = Standard.shiftRows a.state ∧
      a.mix.state = Standard.mixColumns a.state ∧ a.state.toBytes = a.toBytes) ∧
    ((roundKeys key).length = 15 ∧ ∀ round < 15, ∃ k, (roundKeys key)[round]? = some k ∧
      (∀ r c : Fin 4, k.state r c = word key (4 * round + c) r) ∧
      ∀ a : Block, (a.add k).state = Standard.addRoundKey (word key) round a.state) := by
  refine ⟨bijOn_encrypt key, encrypt_eq key, fun x => ?_, ByteField.polynomial_mul, fun a => ?_,
    ?_, fun round h => ?_⟩
  · exact ⟨substitute_eq_subByte x, substituteByte_eq x, fun i hi => testBit_substituteByte x hi,
      ByteField.polynomial_inverse x, ByteField.mul_inverse⟩
  · exact ⟨a.state_substitute, a.state_shiftRows, a.state_mix, a.toBytes_state⟩
  · rw [roundKeys_eq, List.length_map, List.length_range]
  · exact ⟨_, getElem?_roundKeys h, state_roundKey key round, fun a => state_add_roundKey a round⟩

end TrustedPlatform.Aes
