import TrustedPlatform.Proofs.Bytes
import TrustedPlatform.Proofs.Derivation
import TrustedPlatform.Proofs.Random.Outcome
import TrustedPlatform.Rsa.Oaep
import TrustedPlatform.Rsa.Pkcs1

/-!
# Encoded messages are parsed back

Both paddings start a block of `k` bytes with a zero, and from every block that they give, whatever
was drawn, the message is read back. A block is given for every message that is short enough,
provided that the source gives its bytes and, where zeros are drawn again, at last one that is not
zero.
-/

namespace TrustedPlatform.Rsa

variable {σ : Type} [RandomSource σ] {I : σ → Prop}

/-! ### Optimal asymmetric padding -/

namespace Oaep

variable {h : Hash} {label message seed block : Bytes} {k length : Nat}

/-- A data block takes the digest of the label, a byte one and the message, or more. -/
theorem length_dataBlock (hlen : h.size + 1 + message.length ≤ length) :
    (dataBlock h label message length).length = length := by
  have hdigest : (h.digest label).length = h.size := h.length_digest label
  simp only [dataBlock, List.length_append, hdigest, List.length_replicate, List.length_cons]
  omega

/-- An encoded message is a byte longer than the seed and the data block. -/
theorem length_maskWith (hseed : seed.length = h.size) :
    (maskWith h seed block).length = 1 + h.size + block.length := by
  simp only [maskWith, List.length_cons, List.length_append, Bytes.length_xor, Hash.length_mask,
    hseed, Nat.min_self]
  omega

/-- The masks come off in the opposite order. -/
theorem unmask_maskWith (hseed : seed.length = h.size) :
    unmask h (maskWith h seed block) = block := by
  have hmaskedSeed (masked : Bytes) :
      (Bytes.xor seed (h.mask masked h.size)).length = h.size := by
    rw [Bytes.length_xor, Hash.length_mask, hseed, Nat.min_self]
  have hlength : (maskWith h seed block).length - h.size - 1 = block.length := by
    rw [length_maskWith hseed]
    omega
  rw [unmask, hlength]
  simp only [maskWith, List.drop_succ_cons, List.drop_zero, Nat.add_comm 1]
  rw [List.take_left' (hmaskedSeed _), List.drop_left' (hmaskedSeed _),
    Bytes.xor_xor_cancel (by rw [hseed, Hash.length_mask]),
    Bytes.xor_xor_cancel (by rw [Hash.length_mask])]

/-- The message is read back from its encoding. -/
theorem decode_encodeWith (hk : 2 * h.size + 2 ≤ k) (hlen : message.length ≤ k - (2 * h.size + 2))
    (hseed : seed.length = h.size) :
    decode h label (encodeWith h label message k seed) = .ok message := by
  have hdigest : (h.digest label).length = h.size := h.length_digest label
  have hblock : (dataBlock h label message (k - h.size - 1)).length = k - h.size - 1 :=
    length_dataBlock (by omega)
  have hencoded : (encodeWith h label message k seed).length = k := by
    rw [encodeWith, length_maskWith hseed, hblock]
    omega
  have hzeros : ∀ b ∈ List.replicate (k - h.size - 1 - h.size - 1 - message.length) (0 : UInt8),
      (b == 0) = true :=
    fun b hb => beq_iff_eq.mpr (List.eq_of_mem_replicate hb)
  rw [decode, hencoded, overhead, if_neg (Nat.not_lt.mpr hk), encodeWith, unmask_maskWith hseed]
  simp only [dataBlock, List.append_assoc, List.drop_left' hdigest, List.take_left' hdigest]
  rw [List.dropWhile_append_of_pos hzeros]
  simp [maskWith]

/-- Encodings are given only for short messages, and the message is read back from them. -/
theorem encode_yields (h : Hash) (label message : Bytes) (k : Nat) :
    (encode h label message k : Randomized σ Bytes).Yields fun encoded =>
      (2 * h.size + 2 ≤ k ∧ message.length ≤ k - (2 * h.size + 2)) ∧
      (encoded.head? = some 0 ∧ encoded.length = k) ∧
      decode h label encoded = .ok message := by
  refine (Randomized.Yields.parameter _ _ _).bind fun _ hoverhead => ?_
  refine (Randomized.Yields.maxLength _ _ _).bind fun _ hlen => ?_
  refine (Randomized.Yields.draw _).bind fun seed hseed => .pure ?_
  have hk : 2 * h.size + 2 ≤ k := of_decide_eq_true hoverhead
  have hlen : message.length ≤ k - (2 * h.size + 2) := hlen
  refine ⟨⟨hk, hlen⟩, ⟨rfl, ?_⟩, decode_encodeWith hk hlen hseed⟩
  rw [encodeWith, length_maskWith hseed, length_dataBlock (by omega)]
  omega

/-- A message that is short enough is encoded. -/
theorem encode_settles (hI : RandomSource.Reliable I) (hk : 2 * h.size + 2 ≤ k)
    (hlen : message.length ≤ k - (2 * h.size + 2)) :
    Randomized.Settles I fun _ => (encode h label message k : Randomized σ Bytes) := by
  refine (Randomized.Settles.lift (if_pos (decide_eq_true hk))).bind fun _ => ?_
  refine (Randomized.Settles.lift (if_pos hlen)).bind fun _ => ?_
  exact (Randomized.Settles.draw hI _).bind fun seed => .pure _

end Oaep

/-! ### PKCS #1 v1.5 padding -/

/-- Single bytes drawn one after the other are not all zero. -/
inductive YieldsNonzero : σ → Prop where
  | found {s t : σ} {bytes : Bytes} (h : RandomSource.fill s 1 = (.ok bytes, t))
      (hne : bytes.headD 0 ≠ 0) : YieldsNonzero s
  | again {s t : σ} {bytes : Bytes} (h : RandomSource.fill s 1 = (.ok bytes, t))
      (hzero : bytes.headD 0 = 0) (ht : YieldsNonzero t) : YieldsNonzero s

namespace Pkcs1

variable {message padding : Bytes} {k : Nat}

/-- A byte that was drawn again is not zero. -/
theorem drawNonzero_yields (retries : Nat) :
    (drawNonzero retries : Randomized σ UInt8).Yields (· ≠ 0) := by
  induction retries with
  | zero => exact .throw _
  | succ retries ih =>
      refine (Randomized.Yields.draw 1).bind fun bytes _ => ?_
      exact .ite (p := bytes.headD 0 = 0) (fun _ => ih) fun hne => .pure hne

/-- The padding is as long as what was drawn, and it has no zeros. -/
theorem replaceZeros_yields (retries : Nat) (drawn : Bytes) :
    (replaceZeros retries drawn : Randomized σ Bytes).Yields fun padding =>
      padding.length = drawn.length ∧ ∀ b ∈ padding, b ≠ 0 := by
  induction drawn with
  | nil => exact .pure ⟨rfl, nofun⟩
  | cons b rest ih =>
      have hrest (c : UInt8) (hc : c ≠ 0) :
          (replaceZeros retries rest >>= fun rest => pure (c :: rest) : Randomized σ Bytes).Yields
            fun padding => padding.length = (b :: rest).length ∧ ∀ b ∈ padding, b ≠ 0 :=
        ih.bind fun padding h => .pure
          ⟨congrArg (· + 1) h.1, List.forall_mem_cons.mpr ⟨hc, h.2⟩⟩
      refine .ite (p := b = 0) (fun _ => ?_) fun hne => ?_
      · exact (drawNonzero_yields retries).bind hrest
      · exact (Randomized.Yields.pure (P := (· ≠ 0)) hne).bind hrest

/-- One attempt draws a byte and decides by it whether there is another one. -/
theorem runFrom_drawNonzero_succ {s t : σ} {bytes : Bytes}
    (hfill : RandomSource.fill s 1 = (.ok bytes, t)) (retries : Nat) :
    (drawNonzero (retries + 1)).runFrom s =
      (if bytes.headD 0 = 0 then drawNonzero retries else pure (bytes.headD 0)).runFrom t :=
  Randomized.runFrom_bind_ok hfill

/-- A byte that is not zero is drawn at last. -/
theorem drawNonzero_settles (hI : RandomSource.Reliable I) (hredraw : ∀ s, I s → YieldsNonzero s) :
    Randomized.Settles I fun retries => (drawNonzero retries : Randomized σ UInt8) := by
  intro s hs
  have hnext {s t : σ} {bytes : Bytes} (hs : I s)
      (hfill : RandomSource.fill s 1 = (.ok bytes, t)) : I t := by
    obtain ⟨_, t', hfill', ht⟩ := hI s hs 1
    rw [hfill, Prod.mk.injEq] at hfill'
    exact hfill'.2 ▸ ht
  induction hredraw s hs with
  | @found s t bytes hfill hne =>
      refine ⟨1, bytes.headD 0, t, hnext hs hfill, fun retries hle => ?_⟩
      obtain ⟨retries, rfl⟩ := Nat.exists_eq_add_of_le' hle
      rw [runFrom_drawNonzero_succ hfill, if_neg hne]
      rfl
  | @again s t bytes hfill hzero _ ih =>
      obtain ⟨bound, b, u, hu, hrun⟩ := ih (hnext hs hfill)
      refine ⟨bound + 1, b, u, hu, fun retries hle => ?_⟩
      obtain ⟨retries, rfl⟩ := Nat.exists_eq_add_of_le' (Nat.le_of_add_left_le hle)
      rw [runFrom_drawNonzero_succ hfill, if_pos hzero]
      exact hrun retries (Nat.le_of_succ_le_succ hle)

/-- Every zero is replaced. -/
theorem replaceZeros_settles (hI : RandomSource.Reliable I)
    (hredraw : ∀ s, I s → YieldsNonzero s) (drawn : Bytes) :
    Randomized.Settles I fun retries => (replaceZeros retries drawn : Randomized σ Bytes) := by
  induction drawn with
  | nil => exact .pure _
  | cons b rest ih =>
      have hrest (c : UInt8) : Randomized.Settles I fun retries =>
          (replaceZeros retries rest >>= fun rest => pure (c :: rest) : Randomized σ Bytes) :=
        ih.bind fun padding => .pure _
      by_cases hb : b = 0
      · subst hb
        exact (drawNonzero_settles hI hredraw).bind hrest
      · simp only [replaceZeros, if_neg hb]
        exact (Randomized.Settles.pure b).bind hrest

/-- The message is read back from a block whose padding has no zeros. -/
theorem decodeMessage_eq (hpadding : ∀ b ∈ padding, b ≠ 0) (hlen : minPadding ≤ padding.length) :
    decodeMessage (0 :: 2 :: (padding ++ 0 :: message)) = .ok message := by
  have hnonzero : ∀ b ∈ padding, (b != 0) = true := fun b hb => bne_iff_ne.mpr (hpadding b hb)
  simp only [decodeMessage]
  rw [List.dropWhile_append_of_pos hnonzero, List.takeWhile_append_of_pos hnonzero]
  simp [hlen]

/-- Blocks are given only for short messages, and the message is read back from them. -/
theorem encodeMessage_yields (retries : Nat) (message : Bytes) (k : Nat) :
    (encodeMessage retries message k : Randomized σ Bytes).Yields fun block =>
      (11 ≤ k ∧ message.length ≤ k - 11) ∧ (block.head? = some 0 ∧ block.length = k) ∧
      decodeMessage block = .ok message := by
  refine (Randomized.Yields.parameter _ _ _).bind fun _ hoverhead => ?_
  refine (Randomized.Yields.maxLength _ _ _).bind fun _ hlen => ?_
  refine (Randomized.Yields.draw _).bind fun drawn hdrawn => ?_
  refine (replaceZeros_yields retries drawn).bind fun padding hpadding => .pure ?_
  have hk : 11 ≤ k := of_decide_eq_true hoverhead
  have hlen : message.length ≤ k - 11 := hlen
  have hpad : padding.length = k - message.length - 3 := hpadding.1.trans hdrawn
  refine ⟨⟨hk, hlen⟩, ⟨rfl, ?_⟩, decodeMessage_eq hpadding.2 ?_⟩
  · simp only [List.length_cons, List.length_append, hpad]
    omega
  · rw [minPadding, hpad]
    omega

/-- A message that is short enough is encoded. -/
theorem encodeMessage_settles (hI : RandomSource.Reliable I)
    (hredraw : ∀ s, I s → YieldsNonzero s) (hk : 11 ≤ k) (hlen : message.length ≤ k - 11) :
    Randomized.Settles I fun retries => (encodeMessage retries message k : Randomized σ Bytes) := by
  refine (Randomized.Settles.lift (if_pos (decide_eq_true hk))).bind fun _ => ?_
  refine (Randomized.Settles.lift (if_pos hlen)).bind fun _ => ?_
  refine (Randomized.Settles.draw hI _).bind fun drawn => ?_
  exact (replaceZeros_settles hI hredraw drawn).bind fun padding => .pure _

end Pkcs1

end TrustedPlatform.Rsa
