import TrustedPlatform.Proofs.Cipher.Encryption
import TrustedPlatform.Random.Conditioning

/-!
# What a chained cipher reads

The chained cipher reads the whole blocks of a byte string and skips what is left over, so that it
reads all of a byte string exactly when the blocks are whole. As every step permutes the blocks, no
byte that is read can be replaced by another one without a change of the last block.
-/

namespace TrustedPlatform.Conditioning

/-! ### Whole blocks -/

/-- The whole blocks of a byte string. -/
def wholeBlocks (bytes : Bytes) : List Bytes :=
  (bytes.chunks 16).filter fun piece => piece.length == 16

/-- What is shorter than a block has no whole blocks. -/
theorem wholeBlocks_of_lt {bytes : Bytes} (h : bytes.length < 16) : wholeBlocks bytes = [] := by
  cases bytes with
  | nil => rw [wholeBlocks, Bytes.chunks, List.filter_nil]
  | cons b rest =>
      have htake : (b :: rest).take (max 16 1) = b :: rest := List.take_of_length_le h.le
      have hdrop : rest.drop (16 - 1) = [] :=
        List.drop_of_length_le (Nat.le_of_succ_le_succ h.le)
      rw [wholeBlocks, Bytes.chunks, htake, hdrop, Bytes.chunks, List.filter_cons_of_neg,
        List.filter_nil]
      simpa using h.ne

/-- The first block is split off. -/
theorem wholeBlocks_append {block : Bytes} (h : block.length = 16) (rest : Bytes) :
    wholeBlocks (block ++ rest) = block :: wholeBlocks rest := by
  obtain ⟨b, tail, rfl⟩ := List.exists_cons_of_length_pos (h ▸ Nat.succ_pos 15 : 0 < block.length)
  have htail : tail.length = 16 - 1 := Nat.succ.inj h
  have htake : (b :: (tail ++ rest)).take (max 16 1) = b :: tail := by
    rw [← List.cons_append]
    exact List.take_left' h
  rw [wholeBlocks, List.cons_append, Bytes.chunks, htake, List.drop_left' htail,
    List.filter_cons_of_pos (by simpa using htail), wholeBlocks]

/-- The first sixteen bytes are the first block. -/
theorem wholeBlocks_of_le {bytes : Bytes} (h : 16 ≤ bytes.length) :
    wholeBlocks bytes = bytes.take 16 :: wholeBlocks (bytes.drop 16) := by
  have hblock : (bytes.take 16).length = 16 := List.length_take_of_le h
  rw [← wholeBlocks_append hblock, List.take_append_drop]

/-- Whole blocks stand before those of what follows them. -/
theorem wholeBlocks_append_of_dvd {front : Bytes} (h : 16 ∣ front.length) (rest : Bytes) :
    wholeBlocks (front ++ rest) = wholeBlocks front ++ wholeBlocks rest := by
  obtain ⟨n, hn⟩ := h
  induction n generalizing front with
  | zero =>
      have hnone : wholeBlocks [] = [] := wholeBlocks_of_lt (Nat.succ_pos 15)
      rw [List.eq_nil_of_length_eq_zero hn, hnone]
      rfl
  | succ n ih =>
      have hfront : 16 ≤ front.length := by omega
      have hdrop : (front.drop 16).length = 16 * n := by
        rw [List.length_drop]
        omega
      have hboth : 16 ≤ (front ++ rest).length := by
        rw [List.length_append]
        omega
      rw [wholeBlocks_of_le hboth, wholeBlocks_of_le hfront, List.take_append_of_le_length hfront,
        List.drop_append_of_le_length hfront, ih hdrop, List.cons_append]

/-- The whole blocks are the byte string up to its last multiple of sixteen. -/
theorem flatten_wholeBlocks (bytes : Bytes) :
    (wholeBlocks bytes).flatten = bytes.take (16 * (bytes.length / 16)) := by
  -- on the number of whole blocks, as `chunks` recurses over single bytes
  generalize hn : bytes.length / 16 = n
  induction n generalizing bytes with
  | zero =>
      rw [wholeBlocks_of_lt (by omega), Nat.mul_zero, List.take_zero]
      rfl
  | succ n ih =>
      have hdrop : (bytes.drop 16).length / 16 = n := by
        rw [List.length_drop]
        omega
      rw [wholeBlocks_of_le (by omega), List.flatten_cons, ih _ hdrop, Nat.mul_succ, Nat.add_comm,
        List.take_add]

/-- The blocks of a byte string that consists of whole blocks leave nothing over. -/
theorem flatten_wholeBlocks_of_dvd {bytes : Bytes} (h : 16 ∣ bytes.length) :
    (wholeBlocks bytes).flatten = bytes := by
  rw [flatten_wholeBlocks, Nat.mul_div_cancel' h, List.take_length]

/-! ### Chaining -/

variable (keys : List Aes.Block)

/-- The last block of a chained encryption that goes on from a block. -/
def absorb (value : Aes.Block) (blocks : List Bytes) : Aes.Block :=
  blocks.foldl (fun value block => Aes.encryptWith keys (value.add (Aes.Block.ofBytes block))) value

/-- The chained encryption of a byte string goes over its whole blocks. -/
theorem chain_eq_absorb (bytes : Bytes) :
    chain keys bytes = absorb keys (Aes.Block.ofBytes []) (wholeBlocks bytes) := rfl

/-- A chained encryption goes on behind its first blocks. -/
theorem absorb_append (value : Aes.Block) (front rest : List Bytes) :
    absorb keys value (front ++ rest) = absorb keys (absorb keys value front) rest :=
  List.foldl_append

/-- No two blocks lead to one block. -/
theorem absorb_injective (blocks : List Bytes) :
    Function.Injective fun value => absorb keys value blocks := by
  induction blocks with
  | nil => exact Function.injective_id
  | cons block blocks ih =>
      have hstep := (Aes.encryptWith_injective keys).comp
        (Aes.Block.add_injective (Aes.Block.ofBytes block))
      exact ih.comp hstep

/-- A block that is exchanged for another one changes the last block. -/
theorem block_eq_of_chain_eq {front block block' rest : Bytes} (hfront : 16 ∣ front.length)
    (hblock : block.length = 16) (hblock' : block'.length = 16)
    (h : chain keys (front ++ (block ++ rest)) = chain keys (front ++ (block' ++ rest))) :
    block = block' := by
  simp only [chain_eq_absorb, wholeBlocks_append_of_dvd hfront, wholeBlocks_append hblock,
    wholeBlocks_append hblock', absorb_append] at h
  generalize absorb keys (Aes.Block.ofBytes []) (wholeBlocks front) = value at h
  have hstep := absorb_injective keys (wholeBlocks rest) h
  have hsum := Aes.encryptWith_injective keys hstep
  rw [Aes.Block.add_comm value, Aes.Block.add_comm value] at hsum
  exact Aes.Block.ofBytes_injOn hblock hblock' (Aes.Block.add_injective value hsum)

/-- No byte of whole blocks can be replaced by another one without a change of the last block. -/
theorem getElem?_of_chain_set_eq {bytes : Bytes} (hdvd : 16 ∣ bytes.length) {j : Nat} {b : UInt8}
    (hj : j < bytes.length) (h : chain keys (bytes.set j b) = chain keys bytes) :
    bytes[j]? = some b := by
  -- the byte stands in the block that its quotient counts
  obtain ⟨front, block, rest, rfl, hfront, hblock⟩ : ∃ front block rest,
      bytes = front ++ (block ++ rest) ∧ front.length = 16 * (j / 16) ∧ block.length = 16 := by
    refine ⟨bytes.take (16 * (j / 16)), (bytes.drop (16 * (j / 16))).take 16,
      (bytes.drop (16 * (j / 16))).drop 16, ?_, ?_, ?_⟩
    · rw [List.take_append_drop, List.take_append_drop]
    · rw [List.length_take]
      omega
    · rw [List.length_take, List.length_drop]
      omega
  have hplace : j - front.length < block.length := by omega
  rw [List.set_append_right _ _ (by omega), List.set_append_left _ _ hplace] at h
  have hset : block.set (j - front.length) b = block :=
    block_eq_of_chain_eq keys (hfront ▸ Nat.dvd_mul_right _ _)
      (by rw [List.length_set, hblock]) hblock h
  rw [List.getElem?_append_right (by omega), List.getElem?_append_left hplace, ← hset,
    List.getElem?_set_self hplace]

end TrustedPlatform.Conditioning
