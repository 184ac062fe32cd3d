import TrustedPlatform.Proofs.Derivation.Loop
import TrustedPlatform.Proofs.Random.Chaining
import TrustedPlatform.Proofs.Random.Framing

/-!
# Conditioning as the standard defines it

The derivation function of SP 800-90A, section 10.3.2, over any block cipher, lengths being counted in
bytes: `BlockCipher.derive` follows its steps, with the loops as loops and a refusal of lengths that
have no 32-bit form. `conditioning_exact` says that the conditioning of this library is that function
over the standard AES-256, and what its passes read.
-/

namespace TrustedPlatform.Conditioning

open TrustedPlatform.Derivation

/-! ### The derivation function of the standard -/

namespace Standard

/-- A block cipher on byte strings. -/
structure BlockCipher where
  /-- The number of bytes in a key. -/
  keyLength : Nat
  /-- The number of bytes in a block. -/
  blockLength : Nat
  /-- A block is not empty. -/
  blockLength_pos : 0 < blockLength
  /-- The encryption of a block under a key. -/
  encrypt : Bytes → Bytes → Bytes
  /-- It is a block. -/
  length_encrypt : ∀ key block, (encrypt key block).length = blockLength

/-- The standard cipher with keys of 256 bits. -/
def aes256 : BlockCipher where
  keyLength := 32
  blockLength := 16
  blockLength_pos := by decide
  encrypt := Aes.Standard.cipher
  length_encrypt _ _ := List.length_ofFn

/-- The largest number of bytes that may be asked for, of 512 bits. -/
def maxReturned : Nat := 64

/-- A number in 32 bits, if it is small enough. -/
def integer (n : Nat) : Option Bytes :=
  if n < 2 ^ 32 then some (Bytes.ofNatWidth 4 n) else none

namespace BlockCipher

variable (c : BlockCipher)

/-- A byte string with zeros appended one by one until its blocks are whole. -/
def pad (s : Bytes) : Bytes :=
  if s.length % c.blockLength = 0 then s else pad (s ++ [0])
termination_by missing c.blockLength s.length
decreasing_by
  next h =>
    rw [missing_eq_succ c.blockLength_pos h, List.length_append]
    exact Nat.lt_succ_self _

/-- As many zeros are appended as are missing. -/
theorem pad_eq (s : Bytes) :
    c.pad s = s ++ List.replicate (missing c.blockLength s.length) 0 := by
  induction s using pad.induct c with
  | case1 s h => rw [pad, if_pos h, missing, h, Nat.sub_zero, Nat.mod_self, List.replicate_zero,
      List.append_nil]
  | case2 s h ih =>
      rw [pad, if_neg h, ih, missing_eq_succ c.blockLength_pos h, List.replicate_succ,
        List.append_assoc, List.length_append]
      rfl

/-- The first `n` blocks of a byte string. -/
def blocks : Nat → Bytes → List Bytes
  | 0, _ => []
  | n + 1, data => data.take c.blockLength :: blocks n (data.drop c.blockLength)

/-- The last block of the chained encryption of a byte string, the function `BCC`. -/
def chain (key data : Bytes) : Bytes :=
  (c.blocks (data.length / c.blockLength) data).foldl
    (fun value block => c.encrypt key (Bytes.xor value block)) (List.replicate c.blockLength 0)

/-- The last block has the length of one. -/
theorem length_chain (key data : Bytes) : (c.chain key data).length = c.blockLength := by
  unfold chain
  generalize c.blocks (data.length / c.blockLength) data = blocks
  cases blocks using List.reverseRecOn with
  | nil => exact List.length_replicate
  | append_singleton blocks block =>
      rw [List.foldl_append]
      exact c.length_encrypt _ _

/-- The passes over a byte string, each begun with its counter, as a function of the counter. -/
def passes (key s : Bytes) : BlockFunction where
  block i := c.chain key (Bytes.ofUInt32 i ++ List.replicate (c.blockLength - 4) 0 ++ s)
  size := c.blockLength
  size_pos := c.blockLength_pos
  length_block _ := c.length_chain _ _

/-- A byte string extended, up to a length, by blocks that are encryptions one of the other. -/
def stretch (key : Bytes) (length : Nat) (x temp : Bytes) : Bytes :=
  if temp.length < length then
    stretch key length (c.encrypt key x) (temp ++ c.encrypt key x)
  else temp
termination_by length - temp.length
decreasing_by
  have hblock := c.length_encrypt key x
  have hpos := c.blockLength_pos
  rw [List.length_append]
  omega

/-- The derivation of a number of bytes from an input. -/
def derive (input : Bytes) (count : Nat) : Option Bytes := do
  guard (count ≤ maxReturned)
  -- both lengths, the input and a closing byte
  let s := c.pad ((← integer input.length) ++ (← integer count) ++ input ++ [0x80])
  let key := ((List.range 32).map UInt8.ofNat).take c.keyLength
  let temp := (c.passes key s).extend (c.keyLength + c.blockLength) 0 []
  let x := (temp.drop c.keyLength).take c.blockLength
  return (c.stretch (temp.take c.keyLength) count x []).take count

end BlockCipher

end Standard

open Standard

/-! ### Chaining -/

/-- The bytes of a block to which a piece of its length is added. -/
theorem toBytes_add_ofBytes (a : Aes.Block) {piece : Bytes} (h : piece.length = 16) :
    (a.add (Aes.Block.ofBytes piece)).toBytes = Bytes.xor a.toBytes piece := by
  match piece, h with
  | [_, _, _, _, _, _, _, _, _, _, _, _, _, _, _, _], _ => rfl

/-- The bytes of an encrypted block. -/
theorem toBytes_encryptWith (key : Bytes) (a : Aes.Block) :
    (Aes.encryptWith (Aes.roundKeys key) a).toBytes = aes256.encrypt key a.toBytes :=
  Aes.encrypt_eq key a.toBytes

/-- A chained encryption goes on as that of the standard. -/
theorem toBytes_absorb (key : Bytes) (value : Aes.Block) {blocks : List Bytes}
    (h : ∀ block ∈ blocks, block.length = 16) :
    (absorb (Aes.roundKeys key) value blocks).toBytes =
      blocks.foldl (fun value block => aes256.encrypt key (Bytes.xor value block)) value.toBytes := by
  induction blocks generalizing value with
  | nil => rfl
  | cons block blocks ih =>
      obtain ⟨hblock, hblocks⟩ := List.forall_mem_cons.mp h
      have hstep : (Aes.encryptWith (Aes.roundKeys key) (value.add (Aes.Block.ofBytes block))).toBytes =
          aes256.encrypt key (Bytes.xor value.toBytes block) := by
        rw [toBytes_encryptWith, toBytes_add_ofBytes value hblock]
      rw [List.foldl_cons, ← hstep]
      exact ih _ hblocks

/-- A byte string is split into its whole blocks. -/
theorem blocks_eq_wholeBlocks (data : Bytes) :
    aes256.blocks (data.length / 16) data = wholeBlocks data := by
  generalize hn : data.length / 16 = n
  induction n generalizing data with
  | zero => rw [wholeBlocks_of_lt (by omega), BlockCipher.blocks]
  | succ n ih =>
      have hdrop : (data.drop 16).length / 16 = n := by
        rw [List.length_drop]
        omega
      rw [BlockCipher.blocks, wholeBlocks_of_le (by omega)]
      exact congrArg (_ :: ·) (ih _ hdrop)

/-- The chained encryption is that of the standard. -/
theorem toBytes_chain (key data : Bytes) :
    (chain (Aes.roundKeys key) data).toBytes = aes256.chain key data := by
  have hlength : ∀ block ∈ wholeBlocks data, block.length = 16 := fun block hblock =>
    beq_iff_eq.mp (List.mem_filter.mp hblock).2
  rw [chain_eq_absorb, toBytes_absorb key _ hlength, ← blocks_eq_wholeBlocks]
  rfl

/-! ### Deriving -/

/-- The blocks that the three passes give. -/
def material (input : Bytes) : Bytes :=
  (List.range 3).flatMap fun i => (chain (Aes.roundKeys fixedKey) (framed i input)).toBytes

/-- A frame is padded as the standard does it. -/
theorem pad_eq_frame (input : Bytes) :
    aes256.pad (Bytes.ofNatWidth 4 input.length ++ Bytes.ofNatWidth 4 seedLength ++ input ++ [0x80]) =
      frame input := by
  rw [BlockCipher.pad_eq, length_unfilled, frame_eq]
  simp only [List.append_assoc, List.singleton_append]
  rfl

/-- The passes are those of the standard. -/
theorem extend_passes (input : Bytes) :
    (aes256.passes fixedKey (frame input)).extend 48 0 [] = material input := by
  have hcount : blockCount aes256.blockLength 48 = 3 := by decide
  have hpass (i : Nat) : (aes256.passes fixedKey (frame input)).block (UInt32.ofNat (0 + i)) =
      (chain (Aes.roundKeys fixedKey) (framed i input)).toBytes := by
    rw [toBytes_chain, Nat.zero_add, framed, counterBlock]
    rfl
  calc (aes256.passes fixedKey (frame input)).extend 48 0 []
      = blocks (aes256.passes fixedKey (frame input)).block 0 3 :=
        hcount ▸ (aes256.passes fixedKey (frame input)).extend_nil 48 0
    _ = material input := by
        rw [blocks, material]
        exact congrArg (List.flatMap · _) (funext hpass)

/-- Encryptions one of the other fill a byte string up by whole blocks. -/
theorem stretch_eq (key : Bytes) {length : Nat} (count : Nat) (x : Aes.Block) {temp : Bytes}
    (h : length - temp.length = 16 * count) :
    aes256.stretch key length x.toBytes temp = temp ++ iterate (Aes.roundKeys key) count x := by
  induction count generalizing x temp with
  | zero =>
      rw [BlockCipher.stretch, if_neg (by omega), iterate, List.append_nil]
  | succ count ih =>
      have hrest : length - (temp ++ (Aes.encryptWith (Aes.roundKeys key) x).toBytes).length =
          16 * count := by
        rw [List.length_append, Aes.Block.length_toBytes]
        omega
      rw [BlockCipher.stretch, if_pos (by omega), ← toBytes_encryptWith, ih _ hrest, iterate,
        List.append_assoc]

/-- Encryptions one of the other are as many blocks. -/
theorem length_iterate (keys : List Aes.Block) (count : Nat) (block : Aes.Block) :
    (iterate keys count block).length = 16 * count := by
  induction count generalizing block with
  | zero => rfl
  | succ count ih =>
      rw [iterate, List.length_append, ih, Aes.Block.length_toBytes, Nat.mul_succ, Nat.add_comm]

/-- An input is conditioned to as many bytes as a seed has. -/
theorem length_derive (input : Bytes) : (derive input).length = seedLength :=
  length_iterate _ 3 _

/-- While lengths fit into 32 bits, the seed is the one that the standard derives. -/
theorem standard_derive_eq {input : Bytes} (h : input.length < 2 ^ 32) :
    aes256.derive input seedLength = some (derive input) := by
  have hlength : integer input.length = some (Bytes.ofNatWidth 4 input.length) := if_pos h
  have hcount : integer seedLength = some (Bytes.ofNatWidth 4 seedLength) := if_pos (by decide)
  have hx : ((material input).drop 32).take 16 =
      (Aes.Block.ofBytes ((material input).drop 32)).toBytes := rfl
  rw [BlockCipher.derive, hlength, hcount]
  show some ((aes256.stretch (((aes256.passes fixedKey (aes256.pad _)).extend 48 0 []).take 32)
    seedLength ((((aes256.passes fixedKey (aes256.pad _)).extend 48 0 []).drop 32).take 16) []).take
      seedLength) = _
  rw [pad_eq_frame, extend_passes, hx, stretch_eq _ 3 _ rfl, List.nil_append]
  exact congrArg some (List.take_of_length_le (length_derive input).le)

/-! ### What the passes read -/

/-- A buffer frames an input for the pass with counter `i`. -/
structure Frames (input : Bytes) (i : Nat) (s : Bytes) : Prop where
  /-- A block holds the counter; behind it stand the length of the input, that of a seed, the input,
  a closing byte and fewer than sixteen zeros. -/
  layout : ∃ zeros < 16, s = Bytes.ofNatWidth 4 i ++ List.replicate 12 0 ++
    Bytes.ofNatWidth 4 input.length ++ Bytes.ofNatWidth 4 seedLength ++ input ++ [0x80] ++
    List.replicate zeros 0
  /-- What stands behind the block of the counter fills whole blocks. -/
  dvd_length : 16 ∣ (s.drop 16).length
  /-- It is not empty. -/
  length_pos : 0 < (s.drop 16).length
  /-- The buffer never outgrows the room that is set aside for it. -/
  length_le : s.length ≤ input.length + 3 * 16
  /-- The chained cipher skips nothing. -/
  flatten_eq : (wholeBlocks s).flatten = s
  /-- It gives another block if any one byte is another. -/
  chain_set_ne : ∀ keys j b, j < s.length → s[j]? ≠ some b → chain keys (s.set j b) ≠ chain keys s
  /-- Writing the counter has left everything behind it as it was. -/
  drop_eq : s.drop 4 = (InPlace.buffer input).drop 4
  /-- The input is read back by the length that stands before it. -/
  read_eq : (s.drop 24).take (Bytes.toNat ((s.drop 16).take 4)) = input

/-- While its length fits into 32 bits, an input is framed in the buffer of every pass. -/
theorem frames_framed {input : Bytes} (h : input.length < 2 ^ 32) (i : Nat) :
    Frames input i (framed i input) := by
  have hdvd : 16 ∣ (framed i input).length := length_framed i input ▸ Nat.dvd_mul_right _ _
  refine ⟨⟨missing 16 (input.length + 9), Nat.mod_lt _ (by decide), ?_⟩, ?_, ?_, ?_,
    flatten_wholeBlocks_of_dvd hdvd, fun keys j b hj hb heq => ?_, ?_, ?_⟩
  · rw [framed, counterBlock_eq, frame_eq]
    simp only [List.append_assoc, List.singleton_append]
  · rw [drop_framed, length_frame]
    exact Nat.dvd_mul_right _ _
  · rw [drop_framed, length_frame]
    omega
  · rw [length_framed]
    omega
  · exact hb (getElem?_of_chain_set_eq keys hdvd hj heq)
  · rw [InPlace.buffer_eq, drop_four_framed, drop_four_framed]
  · rw [show 24 = 16 + 8 from rfl, ← List.drop_drop, drop_framed, take_frame,
      Bytes.toNat_ofNatWidth_of_lt h, take_drop_frame]

/-- Conditioning an input whose length fits into 32 bits. Each of the three passes reads a buffer that
frames the input for its counter, and all of it; no other input gives one of these buffers, or the
beginning of one. The seed made in the buffer is as long as a key and a block, and the one that the
standard derives over AES-256. -/
theorem conditioning_exact {input : Bytes} (h : input.length < 2 ^ 32) :
    (∃ passes, InPlace.run input = some passes ∧ passes.length = 3 ∧
      ∀ i pass, passes[i]? = some pass → pass.buffer = framed i input ∧
        Frames input i pass.buffer ∧ pass.block.toBytes = aes256.chain fixedKey pass.buffer) ∧
    (∀ i, Function.Injective (framed i)) ∧
    (∀ i other, other.length < 2 ^ 32 → framed i other <+: framed i input → other = input) ∧
    InPlace.derive input = some (derive input) ∧ (derive input).length = seedLength ∧
    aes256.derive input seedLength = some (derive input) := by
  refine ⟨⟨_, InPlace.run_eq input, rfl, fun i pass hpass => ?_⟩, framed_injective,
    fun i other hother hprefix => ?_, InPlace.derive_eq input, length_derive input,
    standard_derive_eq h⟩
  · rw [List.getElem?_map, Option.map_eq_some_iff] at hpass
    obtain ⟨k, hk, rfl⟩ := hpass
    obtain ⟨-, rfl⟩ := List.getElem?_eq_some_iff.mp hk
    rw [List.getElem_range]
    exact ⟨rfl, frames_framed h i, toBytes_chain _ _⟩
  · exact eq_of_frame_prefix hother h ((List.prefix_append_right_inj _).mp hprefix)

/-- Seven bytes leave nothing to fill up: the second pass reads its counter and one block more. -/
theorem conditioning_exact_seven_bytes :
    let input : Bytes := [1, 2, 3, 4, 5, 6, 7]
    input.length < 2 ^ 32 ∧
    (∃ passes pass, InPlace.run input = some passes ∧ passes[1]? = some pass ∧
      pass.buffer = counterBlock 1 ++ [0, 0, 0, 7, 0, 0, 0, 48, 1, 2, 3, 4, 5, 6, 7, 0x80] ∧
      pass.block.toBytes = aes256.chain fixedKey pass.buffer) ∧
    InPlace.derive input = aes256.derive input seedLength := by
  intro input
  have hlt : input.length < 2 ^ 32 := by decide
  have hframe : frame input = [0, 0, 0, 7, 0, 0, 0, 48, 1, 2, 3, 4, 5, 6, 7, 0x80] := by decide
  obtain ⟨⟨passes, hrun, hlength, hpasses⟩, -, -, hseed, -, hstandard⟩ := conditioning_exact hlt
  have hsecond : passes[1]? = some passes[1] := List.getElem?_eq_getElem (by omega)
  obtain ⟨hbuffer, -, hblock⟩ := hpasses 1 _ hsecond
  exact ⟨hlt, ⟨passes, _, hrun, hsecond, hbuffer.trans (congrArg _ hframe), hblock⟩,
    hseed.trans hstandard.symm⟩

end TrustedPlatform.Conditioning
