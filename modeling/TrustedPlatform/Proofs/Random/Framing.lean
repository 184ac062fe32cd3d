import TrustedPlatform.Proofs.Bytes
import TrustedPlatform.Random.Conditioning.Buffer

/-!
# The frame of an input

A frame begins with the length of its input and ends, behind a closing byte, in fewer than sixteen
zeros, so that it fills whole blocks and no two inputs have one frame; while lengths fit into 32 bits,
not even the beginning of a frame is one. In the buffer of the conditioning a free block stands before
the frame, and a counter written over its first bytes leaves all the rest: every pass reads its own
counter and the same frame.
-/

namespace TrustedPlatform.Conditioning

/-! ### Frames -/

/-- The number of bytes that are missing from a length to whole blocks. -/
def missing (size length : Nat) : Nat :=
  (size - length % size) % size

/-- A byte more leaves one less missing, while some are missing. -/
theorem missing_eq_succ {size length : Nat} (hsize : 0 < size) (h : length % size ≠ 0) :
    missing size length = missing size (length + 1) + 1 := by
  have hlt := Nat.mod_lt length hsize
  have hnext : (length + 1) % size = (length % size + 1) % size := (Nat.mod_add_mod _ _ _).symm
  rw [missing, missing, hnext]
  generalize length % size = r at h hlt
  have hsome : (size - r) % size = size - r := Nat.mod_eq_of_lt (by omega)
  rw [hsome]
  by_cases hlast : r + 1 = size
  · rw [hlast, Nat.mod_self, Nat.sub_zero, Nat.mod_self]
    omega
  · have hmore : (r + 1) % size = r + 1 := Nat.mod_eq_of_lt (by omega)
    have hfewer : (size - (r + 1)) % size = size - (r + 1) := Nat.mod_eq_of_lt (by omega)
    rw [hmore, hfewer]
    omega

/-- Before it is filled up, a frame has nine bytes more than its input. -/
theorem length_unfilled (input : Bytes) : (Bytes.ofNatWidth 4 input.length ++
    Bytes.ofNatWidth 4 seedLength ++ input ++ [0x80]).length = input.length + 9 := by
  simp only [List.length_append, Bytes.length_ofNatWidth, List.length_singleton]
  omega

/-- The parts of a frame, one behind the other. -/
theorem frame_eq (input : Bytes) :
    frame input = Bytes.ofNatWidth 4 input.length ++ (Bytes.ofNatWidth 4 seedLength ++
      (input ++ 0x80 :: List.replicate (missing 16 (input.length + 9)) 0)) := by
  unfold frame missing
  rw [Bytes.ofUInt32_ofNat, Bytes.ofUInt32_ofNat]
  dsimp only
  rw [length_unfilled]
  simp only [List.append_assoc, List.singleton_append]

/-- A frame has as few whole blocks as hold its parts. -/
theorem length_frame (input : Bytes) : (frame input).length = 16 * ((input.length + 24) / 16) := by
  rw [frame_eq]
  simp only [List.length_append, Bytes.length_ofNatWidth, List.length_cons, List.length_replicate,
    missing]
  omega

/-- A frame begins with the length of its input. -/
theorem take_frame (input : Bytes) : (frame input).take 4 = Bytes.ofNatWidth 4 input.length := by
  rw [frame_eq]
  exact List.take_left' (Bytes.length_ofNatWidth _ _)

/-- The input stands behind eight bytes of its frame. -/
theorem take_drop_frame (input : Bytes) : ((frame input).drop 8).take input.length = input := by
  rw [frame_eq, ← List.append_assoc, List.drop_left', List.take_left' rfl]
  rw [List.length_append, Bytes.length_ofNatWidth, Bytes.length_ofNatWidth]

/-- Frames of inputs of one length are the same for one input only. -/
theorem eq_of_frame_eq_of_length {a b : Bytes} (hlength : a.length = b.length)
    (h : frame a = frame b) : a = b := by
  rw [← take_drop_frame a, h, hlength, take_drop_frame]

/-- No two inputs have one frame. -/
theorem frame_injective : Function.Injective frame := by
  intro a b h
  -- the numbers of blocks leave a difference of less than sixteen, the lengths at the front none
  have hblocks := congrArg List.length h
  have hfront := congrArg (fun s => Bytes.toNat (s.take 4)) h
  simp only [length_frame] at hblocks
  simp only [take_frame, Bytes.toNat_ofNatWidth] at hfront
  exact eq_of_frame_eq_of_length (by omega) h

/-- While lengths fit into 32 bits, no frame begins with the frame of another input. -/
theorem eq_of_frame_prefix {a b : Bytes} (ha : a.length < 2 ^ 32) (hb : b.length < 2 ^ 32)
    (h : frame a <+: frame b) : a = b := by
  have hfour : 4 ≤ (frame a).length := by
    rw [length_frame]
    omega
  have hfront : (frame b).take 4 = (frame a).take 4 := by
    obtain ⟨rest, hrest⟩ := h
    rw [← hrest, List.take_append_of_le_length hfour]
  have hlength : b.length = a.length := by
    rw [take_frame, take_frame] at hfront
    have hnumber := congrArg Bytes.toNat hfront
    rwa [Bytes.toNat_ofNatWidth_of_lt hb, Bytes.toNat_ofNatWidth_of_lt ha] at hnumber
  refine eq_of_frame_eq_of_length hlength.symm (h.eq_of_length ?_)
  rw [length_frame, length_frame, hlength]

/-! ### Buffers -/

/-- The buffer that pass number `i` reads. -/
def framed (i : Nat) (input : Bytes) : Bytes :=
  counterBlock i ++ frame input

/-- The counter stands in a block. -/
theorem counterBlock_eq (i : Nat) :
    counterBlock i = Bytes.ofNatWidth 4 i ++ List.replicate 12 0 := by
  rw [counterBlock, Bytes.ofUInt32_ofNat]

/-- The counter takes a block of its own. -/
@[simp] theorem length_counterBlock (i : Nat) : (counterBlock i).length = 16 := by
  rw [counterBlock_eq, List.length_append, Bytes.length_ofNatWidth, List.length_replicate]

/-- Behind the block of the counter stands the frame. -/
theorem drop_framed (i : Nat) (input : Bytes) : (framed i input).drop 16 = frame input :=
  List.drop_left' (length_counterBlock i)

/-- Behind the counter stand twelve zeros and the frame, whatever the counter. -/
theorem drop_four_framed (i : Nat) (input : Bytes) :
    (framed i input).drop 4 = List.replicate 12 0 ++ frame input := by
  rw [framed, counterBlock_eq, List.append_assoc]
  exact List.drop_left' (Bytes.length_ofNatWidth 4 i)

/-- A buffer has a block more than the frame in it. -/
theorem length_framed (i : Nat) (input : Bytes) :
    (framed i input).length = 16 * ((input.length + 40) / 16) := by
  rw [framed, List.length_append, length_counterBlock, length_frame]
  omega

/-- For one counter, no two inputs have one buffer. -/
theorem framed_injective (i : Nat) : Function.Injective (framed i) :=
  fun _ _ h => frame_injective (List.append_cancel_left h)

namespace InPlace

/-- The buffer before the passes is the one of the first pass. -/
theorem buffer_eq (input : Bytes) : buffer input = framed 0 input := by
  have hlength : (List.replicate 16 0 ++ Bytes.ofUInt32 (UInt32.ofNat input.length) ++
      Bytes.ofUInt32 (UInt32.ofNat seedLength) ++ input ++ [0x80]).length =
      input.length + 9 + 16 := by
    simp only [List.length_append, List.length_replicate, Bytes.ofUInt32, List.length_cons,
      List.length_nil]
    omega
  -- the free block does not count modulo sixteen
  have hzeros : (List.replicate 16 (0 : UInt8)).take ((16 - (input.length + 9 + 16) % 16) % 16) =
      List.replicate (missing 16 (input.length + 9)) 0 := by
    rw [List.take_replicate, Nat.add_mod_right, missing]
    congr 1
    omega
  unfold buffer
  dsimp only
  rw [hlength, hzeros, framed, frame_eq, Bytes.ofUInt32_ofNat, Bytes.ofUInt32_ofNat]
  simp only [List.append_assoc, List.singleton_append]
  rfl

/-- Bytes written over the front of a buffer leave what stands behind them. -/
theorem overwriteFront_append {bytes old : Bytes} (h : bytes.length = old.length) (rest : Bytes) :
    overwriteFront bytes (old ++ rest) = some (bytes ++ rest) := by
  induction bytes generalizing old with
  | nil =>
      rw [List.eq_nil_of_length_eq_zero h.symm]
      rfl
  | cons b bytes ih =>
      cases old with
      | nil => cases h
      | cons a old =>
          rw [List.cons_append, overwriteFront, ih (Nat.succ.inj h)]
          rfl

/-- A counter is written into the buffer of any pass. -/
theorem overwriteFront_framed (i k : Nat) (input : Bytes) :
    overwriteFront (Bytes.ofUInt32 (UInt32.ofNat i)) (framed k input) = some (framed i input) := by
  have hlength : (Bytes.ofUInt32 (UInt32.ofNat i)).length =
      (Bytes.ofUInt32 (UInt32.ofNat k)).length := rfl
  simp only [framed, counterBlock, List.append_assoc]
  exact overwriteFront_append hlength _

/-- The pass over the buffer with counter `i`. -/
def passOver (keys : List Aes.Block) (input : Bytes) (i : Nat) : Pass :=
  ⟨framed i input, chain keys (framed i input)⟩

/-- The passes read one buffer after the other, which differ in their counters only. -/
theorem passes_framed (keys : List Aes.Block) (i count k : Nat) (input : Bytes) :
    passes keys i count (framed k input) =
      some ((List.range' i count).map (passOver keys input)) := by
  induction count generalizing i k with
  | zero => rfl
  | succ count ih =>
      rw [passes, overwriteFront_framed i k input]
      show (passes keys (i + 1) count (framed i input)).bind _ = _
      rw [ih (i + 1) i]
      rfl

/-- There are three passes. -/
theorem run_eq (input : Bytes) :
    run input = some ((List.range 3).map (passOver (Aes.roundKeys fixedKey) input)) := by
  rw [run, buffer_eq, passes_framed]
  rfl

/-- In the buffer the same seed is made. -/
theorem derive_eq (input : Bytes) : derive input = some (Conditioning.derive input) := by
  rw [derive, run_eq]
  rfl

end InPlace

end TrustedPlatform.Conditioning
