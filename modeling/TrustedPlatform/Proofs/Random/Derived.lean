import TrustedPlatform.Proofs.Derivation
import TrustedPlatform.Random.Derived

/-!
# A derived stream, however it is read

The bytes that a stream gives out are those of one long derivation, in order, whatever the sizes of
the requests. What carries this is `Follows`: the blocks made so far are the bytes given out followed
by those pending. Every step of the copying loop keeps it, and so does every request, which is
refused exactly when it goes beyond the limit. The main theorem is `serve_start`.
-/

namespace TrustedPlatform.DerivedStream

open TrustedPlatform.Derivation

variable {origin s : DerivedStream} {delivered buffer : Bytes}

/-! ### The position in the stream -/

/-- The stream goes on where `delivered` ends in the stream that `origin` starts. -/
structure Follows (origin s : DerivedStream) (delivered : Bytes) : Prop where
  hash : s.hash = origin.hash
  seed : s.seed = origin.seed
  label : s.label = origin.label
  context : s.context = origin.context
  limit : s.limit = origin.limit
  made : blocks origin.block 1 s.counter.toNat = delivered ++ s.pending

/-- The blocks to come are those of the stream that was started. -/
theorem Follows.block (h : Follows origin s delivered) : s.block = origin.block := by
  funext counter
  rw [DerivedStream.block, h.hash, h.seed, h.label, h.context, h.limit, DerivedStream.block]

/-- The bytes of the blocks made are given out or pending. -/
theorem Follows.counter_mul (h : Follows origin s delivered) :
    s.counter.toNat * origin.hash.size = delivered.length + s.pending.length := by
  rw [← length_blocks 1 origin.length_block, h.made, List.length_append]

/-- What has been given out is the front of the derivation. -/
theorem Follows.delivered_eq (h : Follows origin s delivered) :
    delivered = counterMode origin.block origin.hash.size 1 delivered.length := by
  have hcovered : delivered.length ≤ s.counter.toNat * origin.hash.size :=
    h.counter_mul ▸ Nat.le_add_right _ _
  rw [counterMode_eq_take 1 origin.hash.size_pos origin.length_block hcovered, h.made,
    List.take_left]

/-- The counter of the next block does not wrap within the limit. -/
theorem Follows.toNat_counter_succ (h : Follows origin s delivered) (hused : s.pending = [])
    (hroom : delivered.length < origin.limit.toNat) :
    (s.counter + 1).toNat = s.counter.toNat + 1 := by
  have hmade := h.counter_mul
  rw [hused, List.length_nil, Nat.add_zero] at hmade
  have hle := Nat.le_mul_of_pos_right s.counter.toNat origin.hash.size_pos
  have hlimit := origin.limit.toNat_lt
  rw [UInt32.toNat_add, UInt32.toNat_one]
  omega

/-- A block is made in its turn. -/
theorem Follows.refill (h : Follows origin s delivered)
    (hroom : delivered.length < origin.limit.toNat) : Follows origin s.refill delivered := by
  rw [DerivedStream.refill]
  split
  · next hend =>
      have hused : s.pending = [] := List.drop_eq_nil_of_le hend.ge
      refine { h with made := ?_ }
      show blocks origin.block 1 (s.counter + 1).toNat =
        delivered ++ (s.block (s.counter + 1)).drop 0
      have hcounter : UInt32.ofNat (1 + s.counter.toNat) = s.counter + 1 := by
        rw [Nat.add_comm, ← h.toNat_counter_succ hused hroom, UInt32.ofNat_toNat]
      rw [h.toNat_counter_succ hused hroom, blocks_succ, h.made, hused, List.append_nil, hcounter,
        List.drop_zero, h.block]
  · exact h

/-- Pending bytes are given out in order. -/
theorem Follows.skip (h : Follows origin s delivered) {n : Nat} (hn : n ≤ s.pending.length) :
    Follows origin (s.skip n hn) (delivered ++ s.pending.take n) := by
  refine { h with made := ?_ }
  show blocks origin.block 1 s.counter.toNat =
    delivered ++ s.pending.take n ++ s.current.drop (s.used + n)
  rw [h.made, List.append_assoc, ← List.drop_drop, ← pending, List.take_append_drop]

/-- The loop gives out the next bytes. -/
theorem Follows.copy (h : Follows origin s delivered)
    (hroom : delivered.length + buffer.length ≤ origin.limit.toNat) :
    Follows origin (s.copy buffer).2 (delivered ++ (s.copy buffer).1) := by
  -- by induction on what is left of the buffer; each pass copies at least one byte
  induction hleft : buffer.length using Nat.strong_induction_on generalizing s delivered buffer with
  | _ left ih =>
      rw [DerivedStream.copy]
      split
      · rw [List.append_nil]
        exact h
      · next hbuffer =>
          have hbytes := List.length_pos_iff.mpr hbuffer
          have hpending := s.length_pending_refill_pos
          have hskip := (h.refill (by omega)).skip (Nat.min_le_left _ buffer.length)
          show Follows origin (DerivedStream.copy _ _).2 (delivered ++ (List.take _ _ ++ _))
          rw [← List.append_assoc]
          refine ih _ ?_ hskip ?_ rfl
          · rw [List.length_drop]
            omega
          · rw [List.length_append, List.length_take, List.length_drop]
            omega

/-! ### Requests -/

/-- The stream stands after the bytes `delivered`, has counted them and keeps the limit. -/
structure Accounts (origin s : DerivedStream) (delivered : Bytes) : Prop where
  follows : Follows origin s delivered
  produced : s.produced = delivered.length
  within : 8 * delivered.length ≤ origin.limit.toNat

/-- The limit that remains. -/
theorem Accounts.remaining (h : Accounts origin s delivered) :
    s.remaining = origin.limit.toNat - 8 * delivered.length := by
  rw [DerivedStream.remaining, h.follows.limit, h.produced]

/-- A new stream has given out nothing. -/
theorem accounts_start (hash : Hash) (seed label context : Bytes) (limit : UInt32) :
    Accounts (start hash seed label context limit) (start hash seed label context limit) [] where
  follows := ⟨rfl, rfl, rfl, rfl, rfl, rfl⟩
  produced := rfl
  within := Nat.zero_le _

/-- A request beyond the limit changes nothing. -/
theorem fill_of_lt (h : s.remaining < 8 * buffer.length) :
    s.fill buffer =
      ⟨s, buffer, .error (.parameter "out" "request exceeds the stream's bit limit")⟩ :=
  if_pos h

/-- A request within the limit is served with the next bytes. -/
theorem Accounts.fill (h : Accounts origin s delivered) (hfits : 8 * buffer.length ≤ s.remaining) :
    (s.fill buffer).outcome = .ok () ∧
      Accounts origin (s.fill buffer).state (delivered ++ (s.fill buffer).buffer) := by
  have hlength := s.length_copy buffer
  have hwithin := h.within
  rw [h.remaining] at hfits
  have hroom : delivered.length + buffer.length ≤ origin.limit.toNat := by omega
  have hfollows := h.follows.copy hroom
  rw [DerivedStream.fill, if_neg (by rw [h.remaining]; omega)]
  refine ⟨rfl, { hfollows with }, ?_, ?_⟩
  · show s.produced + buffer.length = (delivered ++ (s.copy buffer).1).length
    rw [List.length_append, hlength, h.produced]
  · show 8 * (delivered ++ (s.copy buffer).1).length ≤ origin.limit.toNat
    rw [List.length_append, hlength]
    omega

/-- The bytes of the buffers that a sequence of requests fills, one after the other, and the stream
afterwards. A refused request adds nothing, and the next one is made all the same. -/
def serve (s : DerivedStream) : List Bytes → Bytes × DerivedStream
  | [] => ([], s)
  | buffer :: requests =>
      let first := s.fill buffer
      let rest := serve first.state requests
      match first.outcome with
      | .ok () => (first.buffer ++ rest.1, rest.2)
      | .error _ => rest

/-- A sequence of requests is served with the next bytes. -/
theorem Accounts.serve (h : Accounts origin s delivered) (requests : List Bytes) :
    Accounts origin (s.serve requests).2 (delivered ++ (s.serve requests).1) := by
  induction requests generalizing s delivered with
  | nil => exact (List.append_nil delivered).symm ▸ h
  | cons buffer requests ih =>
      by_cases hfits : 8 * buffer.length ≤ s.remaining
      · obtain ⟨hok, hnext⟩ := h.fill hfits
        rw [DerivedStream.serve, hok]
        show Accounts origin _ (delivered ++ ((s.fill buffer).buffer ++ _))
        rw [← List.append_assoc]
        exact ih hnext
      · rw [DerivedStream.serve, fill_of_lt (Nat.lt_of_not_le hfits)]
        exact ih h

/-! ### The derivation -/

/-- A whole number of bytes is derived without clearing bits. -/
theorem deriveA_of_whole {hash : Hash} {key label contextU contextV : Bytes} {bits : UInt32}
    (hpos : 0 < bits) (hwhole : bits.toNat % 8 = 0) :
    hash.deriveA key label contextU contextV bits =
      .ok (counterMode (hash.deriveABlock key label contextU contextV bits) hash.size 1
        (byteCount bits)) := by
  have hkeep (bytes : Bytes) : clearHighBits bits.toNat bytes = bytes := by
    cases bytes with
    | nil => rfl
    | cons b rest => rw [clearHighBits, if_pos hwhole]
  rw [Hash.deriveA, Require.parameter, if_pos (decide_eq_true hpos)]
  show Except.ok (clearHighBits _ _) = _
  rw [hkeep]

/-- However a new stream is read, the filled buffers hold the front of the derivation; what remains
is the limit without eight times their length; and the next request is served, with the bytes that
follow, exactly when it fits into what remains, and otherwise changes nothing. -/
theorem serve_start (hash : Hash) (seed label context : Bytes) (limit : UInt32)
    (requests : List Bytes) :
    let delivered := ((start hash seed label context limit).serve requests).1
    let s := ((start hash seed label context limit).serve requests).2
    let derived := counterMode (hash.deriveABlock seed label context [] limit) hash.size 1
    delivered = derived delivered.length ∧
    (0 < limit → limit.toNat % 8 = 0 →
      ∃ whole, hash.deriveA seed label context [] limit = .ok whole ∧ delivered <+: whole) ∧
    8 * delivered.length ≤ limit.toNat ∧
    s.remaining = limit.toNat - 8 * delivered.length ∧
    ∀ buffer,
      (8 * buffer.length ≤ s.remaining →
        (s.fill buffer).outcome = .ok () ∧
        (s.fill buffer).buffer =
          (derived (delivered.length + buffer.length)).drop delivered.length) ∧
      (s.remaining < 8 * buffer.length →
        s.fill buffer =
          ⟨s, buffer, .error (.parameter "out" "request exceeds the stream's bit limit")⟩) := by
  intro delivered s derived
  have h : Accounts (start hash seed label context limit) s delivered :=
    (accounts_start hash seed label context limit).serve requests
  refine ⟨h.follows.delivered_eq, fun hpos hwhole => ⟨_, deriveA_of_whole hpos hwhole, ?_⟩, h.within,
    h.remaining, fun buffer => ⟨fun hfits => ?_, fill_of_lt⟩⟩
  · have hbytes : delivered.length ≤ byteCount limit := by
      have hwithin : 8 * delivered.length ≤ limit.toNat := h.within
      unfold byteCount
      omega
    rw [h.follows.delivered_eq]
    exact counterMode_isPrefix 1 hash.size_pos (fun _ => hash.length_mac _ _) hbytes
  · obtain ⟨hok, hnext⟩ := h.fill hfits
    have hlonger := hnext.follows.delivered_eq
    rw [List.length_append, length_fill] at hlonger
    exact ⟨hok, (List.drop_left' rfl).symm.trans (congrArg (List.drop delivered.length) hlonger)⟩

/-- Three requests to a stream of 128 bytes, of which the second is refused, read the whole
derivation. -/
theorem serve_start_three_requests :
    let hash := HashAlgorithm.sha256.hash
    let served := (start hash [1] [2] [3] 1024).serve
      [List.replicate 45 0, List.replicate 84 0, List.replicate 83 0]
    served.1.length = 128 ∧ served.2.remaining = 0 ∧
      ∃ whole, hash.deriveA [1] [2] [3] [] 1024 = .ok whole ∧ served.1 <+: whole :=
  ⟨by decide +kernel, by decide +kernel,
    (serve_start HashAlgorithm.sha256.hash [1] [2] [3] 1024
      [List.replicate 45 0, List.replicate 84 0, List.replicate 83 0]).2.1 (by decide) (by decide)⟩

end TrustedPlatform.DerivedStream
