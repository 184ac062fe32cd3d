import TrustedPlatform.Proofs.Rsa.Padding

/-!
# What PKCS #1 v1.5 padding accepts

A message is decoded exactly from the blocks of the format, in which the first zero behind the marks
ends the padding, and what is encoded has the format, however many zeros were drawn. The scan of the
whole block finds what a search with an early exit finds. The main theorem is `padding_exact`.
-/

namespace TrustedPlatform.Rsa.Pkcs1

variable {block message padding rest : Bytes} {b : UInt8}

/-- A block of the format holds a message: behind the marks `00 02` there are eight bytes or more,
none of them zero, and behind these a zero and the message. -/
def Holds (block message : Bytes) : Prop :=
  ∃ padding : Bytes, minPadding ≤ padding.length ∧ (∀ b ∈ padding, b ≠ 0) ∧
    block = 0 :: 2 :: (padding ++ 0 :: message)

/-- A block that holds a message has the length of what it is made of. -/
theorem Holds.overhead_le (h : Holds block message) : overhead ≤ block.length := by
  obtain ⟨padding, hlen, -, rfl⟩ := h
  simp only [overhead, List.length_cons, List.length_append]
  omega

/-! ### The first zero -/

/-- The first zero divides a byte string into what has no zeros, and what follows. -/
theorem split_of_dropWhile (hdrop : rest.dropWhile (· != 0) = b :: message) :
    (∀ c ∈ rest.takeWhile (· != 0), c ≠ 0) ∧
      rest = rest.takeWhile (· != 0) ++ 0 :: message := by
  have hb : b = 0 := by
    have hhead := List.head?_dropWhile_not (· != 0) rest
    rw [hdrop] at hhead
    simpa using hhead
  subst hb
  refine ⟨fun c hc => bne_iff_ne.mp (List.all_eq_true.mp List.all_takeWhile c hc), ?_⟩
  rw [← hdrop, List.takeWhile_append_dropWhile]

/-- What follows a padding without zeros is a message when the padding is long enough. -/
theorem decodeMessage_append (hpadding : ∀ b ∈ padding, b ≠ 0) (message : Bytes) :
    decodeMessage (0 :: 2 :: (padding ++ 0 :: message)) =
      if minPadding ≤ padding.length then .ok message
      else .error (.decryption "PKCS#1 v1.5") := by
  have hnonzero : ∀ b ∈ padding, (b != 0) = true := fun b hb => bne_iff_ne.mpr (hpadding b hb)
  simp only [decodeMessage]
  rw [List.dropWhile_append_of_pos hnonzero, List.takeWhile_append_of_pos hnonzero]
  simp

/-- A block is decoded or refused, always with one fault. -/
theorem decodeMessage_cases (block : Bytes) :
    (∃ message, decodeMessage block = .ok message) ∨
      decodeMessage block = .error (.decryption "PKCS#1 v1.5") := by
  unfold decodeMessage
  dsimp only
  split
  · split
    · split
      · exact .inl ⟨_, rfl⟩
      · exact .inr rfl
    · exact .inr rfl
  · exact .inr rfl

/-- A message is decoded exactly from the blocks that hold it. -/
theorem decodeMessage_eq_ok_iff : decodeMessage block = .ok message ↔ Holds block message := by
  constructor
  · intro hok
    unfold decodeMessage at hok
    dsimp only at hok
    split at hok
    case h_2 => cases hok
    case h_1 rest =>
      split at hok
      case h_2 => cases hok
      case h_1 b found hfound =>
        split at hok
        case isFalse => cases hok
        case isTrue hlen =>
          cases hok
          obtain ⟨hpadding, hrest⟩ := split_of_dropWhile hfound
          exact ⟨_, hlen, hpadding, congrArg (0 :: 2 :: ·) hrest⟩
  · rintro ⟨padding, hlen, hpadding, rfl⟩
    exact decodeMessage_eq hpadding hlen

/-! ### The scan of the whole block -/

namespace Scan

variable {s : Scan}

/-- Once the zero is found, the scan stays as it is. -/
theorem run_found (hfound : s.looking = false) (i : Nat) (bytes : Bytes) : s.run i bytes = s := by
  induction bytes generalizing i with
  | nil => rfl
  | cons b rest ih =>
      have hstep : s.step i b = s := by
        obtain ⟨looking, index⟩ := s
        subst hfound
        simp [step]
      rw [run, hstep, ih]

/-- The scan passes over bytes that are not zero. -/
theorem run_append (hpadding : ∀ b ∈ padding, b ≠ 0) (index i : Nat) (rest : Bytes) :
    run ⟨true, index⟩ i (padding ++ rest) = run ⟨true, index⟩ (i + padding.length) rest := by
  induction padding generalizing i with
  | nil => rfl
  | cons b padding ih =>
      obtain ⟨hb, hpadding⟩ := List.forall_mem_cons.mp hpadding
      have hstep : step ⟨true, index⟩ i b = ⟨true, index⟩ := by simp [step, hb]
      rw [List.cons_append, run, hstep, ih hpadding, List.length_cons, Nat.add_right_comm,
        Nat.add_assoc]

/-- The scan finds the first zero, and passes over what follows it. -/
theorem run_zero (hpadding : ∀ b ∈ padding, b ≠ 0) (index i : Nat) (message : Bytes) :
    run ⟨true, index⟩ i (padding ++ 0 :: message) = ⟨false, i + padding.length⟩ := by
  have hstep : step ⟨true, index⟩ (i + padding.length) 0 = ⟨false, i + padding.length⟩ := by
    simp [step]
  rw [run_append hpadding, run, hstep, run_found rfl]

/-- Without a zero, the scan goes on looking. -/
theorem run_nonzero (hrest : ∀ b ∈ rest, b ≠ 0) (index i : Nat) :
    run ⟨true, index⟩ i rest = ⟨true, index⟩ := by
  have hrun := run_append hrest index i []
  rwa [List.append_nil] at hrun

end Scan

/-- The scan of the whole block decodes what the search with an early exit decodes. -/
theorem decodeScanning_eq (block : Bytes) : decodeScanning block = decodeMessage block := by
  rw [decodeScanning]
  dsimp only
  split
  case isTrue hshort =>
    -- a block that is too short is refused by the search as well
    obtain ⟨message, hok⟩ | hrefused := decodeMessage_cases block
    · exact absurd (decodeMessage_eq_ok_iff.mp hok).overhead_le (Nat.not_le.mpr hshort)
    · exact hrefused.symm
  case isFalse hlong =>
    by_cases hmarked : block.take 2 = [0, 2]
    case neg =>
      have hrefused : decodeMessage block = .error (.decryption "PKCS#1 v1.5") := by
        refine (decodeMessage_cases block).resolve_left ?_
        rintro ⟨message, hok⟩
        obtain ⟨padding, -, -, rfl⟩ := decodeMessage_eq_ok_iff.mp hok
        exact hmarked rfl
      rw [beq_eq_false_iff_ne.mpr hmarked, hrefused]
      rfl
    case pos =>
      obtain ⟨rest, rfl⟩ : ∃ rest, block = 0 :: 2 :: rest :=
        ⟨block.drop 2, by rw [← List.take_append_drop 2 block, hmarked]; rfl⟩
      by_cases hzero : 0 ∈ rest
      · obtain ⟨padding, message, rfl, hnone⟩ := List.eq_append_cons_of_mem hzero
        have hpadding : ∀ b ∈ padding, b ≠ 0 := fun b hb h => hnone (h ▸ hb)
        have hmessage : (0 :: 2 :: (padding ++ 0 :: message)).drop (2 + padding.length + 1) =
            message := by
          rw [show 2 + padding.length + 1 = padding.length + 1 + 2 by omega]
          simp [List.drop_append]
        rw [List.drop_succ_cons, List.drop_succ_cons, List.drop_zero, Scan.run_zero hpadding,
          decodeMessage_append hpadding, hmessage]
        simp [Nat.add_comm 2]
      · have hrest : ∀ b ∈ rest, b ≠ 0 := fun b hb h => hzero (h ▸ hb)
        rw [List.drop_succ_cons, List.drop_succ_cons, List.drop_zero, Scan.run_nonzero hrest,
          Bool.not_true, Bool.and_false, Bool.false_and, if_neg Bool.false_ne_true]
        refine ((decodeMessage_cases _).resolve_left ?_).symm
        rintro ⟨message, hok⟩
        obtain ⟨padding, -, -, hblock⟩ := decodeMessage_eq_ok_iff.mp hok
        have hsplit : rest = padding ++ 0 :: message := congrArg (List.drop 2) hblock
        exact hzero (hsplit ▸ List.mem_append_right padding List.mem_cons_self)

/-! ### The format -/

/-- Whatever the byte string: a message is decoded exactly when the byte string holds it, every
other byte string is refused with the one fault, and a scan of the whole block decodes the same.
Whatever the source, the zeros that it gives and the bound on the bytes that are drawn again: an
encoding has as many bytes as asked for and holds its message; and there is one for each message
that fits, from a source that gives bytes and at last one that is not zero. -/
theorem padding_exact (block message : Bytes) :
    (decodeMessage block = .ok message ↔ Holds block message) ∧
    ((¬∃ message, Holds block message) →
      decodeMessage block = .error (.decryption "PKCS#1 v1.5")) ∧
    decodeScanning block = decodeMessage block ∧
    ∀ {σ : Type} [RandomSource σ] (k : Nat),
      (∀ retries, (encodeMessage retries message k : Randomized σ Bytes).Yields fun encoded =>
        encoded.length = k ∧ Holds encoded message) ∧
      (overhead + message.length ≤ k → ∀ {I : σ → Prop}, RandomSource.Reliable I →
        (∀ s, I s → YieldsNonzero s) → Randomized.Settles I fun retries =>
          (encodeMessage retries message k : Randomized σ Bytes)) := by
  refine ⟨decodeMessage_eq_ok_iff, fun hnone => ?_, decodeScanning_eq block, fun k => ⟨?_, ?_⟩⟩
  · refine (decodeMessage_cases block).resolve_left ?_
    rintro ⟨found, hok⟩
    exact hnone ⟨found, decodeMessage_eq_ok_iff.mp hok⟩
  · intro retries
    exact (encodeMessage_yields retries message k).mono fun encoded ⟨_, ⟨_, hlen⟩, hdecode⟩ =>
      ⟨hlen, decodeMessage_eq_ok_iff.mp hdecode⟩
  · intro hfits I hI hredraw
    have hoverhead : overhead = 11 := rfl
    exact encodeMessage_settles hI hredraw (by omega) (by omega)

/-- No message at all is encoded behind the least padding, though the source begins with ten zeros:
eight of them are drawn at first, and two when the first of these is drawn again. -/
theorem padding_exact_shortest :
    let source : ByteStream := ⟨fun i => if i < 10 then 0 else 1, none, 0⟩
    let block : Bytes := 0 :: 2 :: (List.replicate 8 1 ++ [0])
    (encodeMessage 3 [] 11).runFrom source = (.ok block, { source with used := 18 }) ∧
      Holds block [] ∧ decodeMessage block = .ok [] := by
  intro source block
  have hrun :
      (encodeMessage 3 [] 11).runFrom source = (.ok block, { source with used := 18 }) := rfl
  obtain ⟨hdecode, -, -, hencode⟩ := padding_exact block []
  have hholds : Holds block [] := ((hencode 11).1 3 source block (congrArg Prod.fst hrun)).2
  exact ⟨hrun, hholds, hdecode.mpr hholds⟩

end TrustedPlatform.Rsa.Pkcs1
