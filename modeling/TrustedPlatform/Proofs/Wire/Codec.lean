import TrustedPlatform.Proofs.Bytes
import TrustedPlatform.Wire.Point

/-!
# Reading and writing the wire form

An input is framed when its first two bytes announce a size within the capacity and that many bytes
follow. Reading accepts framed inputs alone, uses up exactly the frame, and what it gives is written
back as the bytes of the frame; what was written is read again, whatever follows it. A point is two
buffers, the second framed where the first one ends. The main statement is `wire_codec`.
-/

namespace TrustedPlatform.Wire

/-- Reading and writing undo each other, where `Framed` tells which inputs are accepted and how many
bytes are used of them. -/
structure RoundTrip {α : Type} (marshal : α → Bytes)
    (unmarshal? : Bytes → Except CommandError (α × Nat)) (Framed : Bytes → Nat → Prop) : Prop where
  /-- What was written is read again, and what follows it is not used. -/
  unmarshal_marshal : ∀ x trailing,
    unmarshal? (marshal x ++ trailing) = .ok (x, (marshal x).length)
  /-- Exactly the framed inputs are accepted, and exactly the frame is used. -/
  accepted_iff : ∀ input used, (∃ x, unmarshal? input = .ok (x, used)) ↔ Framed input used
  /-- What was read is written as the bytes that were used. -/
  marshal_unmarshal : ∀ input x used, unmarshal? input = .ok (x, used) →
    marshal x = input.take used
  /-- All other inputs are refused for their size. -/
  refused : ∀ input e, unmarshal? input = .error e → e = .size

/-! ### Buffers -/

namespace Buffer

variable {capacity used : Nat} {input bytes : Bytes}

/-- The first two bytes of the input announce a size within the capacity, and the input is not
shorter than the two bytes and the size; these are the bytes used. -/
structure Framed (capacity : Nat) (input : Bytes) (used : Nat) : Prop where
  used_eq : used = 2 + Bytes.toNat (input.take 2)
  size_le : Bytes.toNat (input.take 2) ≤ capacity
  used_le : used ≤ input.length

/-- A byte string that is short enough is a buffer's content. -/
theorem ofBytes?_eq (h : bytes.length ≤ capacity) :
    (ofBytes? bytes : Except CommandError (Buffer capacity)) = .ok ⟨bytes, h⟩ :=
  dif_pos h

/-- A byte string that is too long is refused. -/
theorem ofBytes?_of_lt (h : capacity < bytes.length) :
    (ofBytes? bytes : Except CommandError (Buffer capacity)) = .error .size :=
  dif_neg (Nat.not_le.mpr h)

/-- The two bytes of a size below `2 ^ 16` denote it. -/
theorem toNat_header {n : Nat} (h : n < 2 ^ 16) :
    (UInt16.ofNat n >>> 8).toUInt8.toNat * 256 + (UInt16.ofNat n).toUInt8.toNat = n := by
  have hn : (UInt16.ofNat n).toNat = n := UInt16.toNat_ofNat_of_lt h
  have hhigh : (UInt16.ofNat n >>> 8).toNat = n / 256 := by
    rw [UInt16.toNat_shiftRight, hn, Nat.shiftRight_eq_div_pow]
    rfl
  rw [UInt16.toNat_toUInt8, UInt16.toNat_toUInt8, hhigh, hn]
  omega

/-- The two bytes of a size are determined by it. -/
theorem header_eq (high low : UInt8) :
    (UInt16.ofNat (high.toNat * 256 + low.toNat) >>> 8).toUInt8 = high ∧
      (UInt16.ofNat (high.toNat * 256 + low.toNat)).toUInt8 = low := by
  have hhigh := UInt8.toNat_lt high
  have hlow := UInt8.toNat_lt low
  have hheader := toNat_header (n := high.toNat * 256 + low.toNat) (by omega)
  have hlow' := UInt8.toNat_lt (UInt16.ofNat (high.toNat * 256 + low.toNat)).toUInt8
  rw [← UInt8.toNat_inj, ← UInt8.toNat_inj]
  omega

/-- The size that the first two bytes of an input announce. -/
theorem toNat_take_two (high low : UInt8) (rest : Bytes) :
    Bytes.toNat ((high :: low :: rest).take 2) = high.toNat * 256 + low.toNat := by
  show (0 * 256 + high.toNat) * 256 + low.toNat = _
  rw [Nat.zero_mul, Nat.zero_add]

/-- Two bytes are written before the content. -/
theorem length_marshal (x : Buffer capacity) : x.marshal.length = 2 + x.length := by
  rw [marshal, List.length_cons, List.length_cons, length]
  omega

/-- The bytes behind the announced size, as many as it says. -/
theorem unmarshal?_cons (high low : UInt8) (rest : Bytes)
    (hcapacity : high.toNat * 256 + low.toNat ≤ capacity)
    (hrest : high.toNat * 256 + low.toNat ≤ rest.length) :
    unmarshal? (high :: low :: rest) =
      .ok (⟨rest.take (high.toNat * 256 + low.toNat),
        (List.length_take_le _ _).trans hcapacity⟩, 2 + (high.toNat * 256 + low.toNat)) := by
  have hcontent : (rest.take (high.toNat * 256 + low.toNat)).length ≤ capacity :=
    (List.length_take_le _ _).trans hcapacity
  rw [unmarshal?, if_neg (by omega), ofBytes?_eq hcontent]
  rfl

/-- A size above the capacity, or more than what follows it, is refused. -/
theorem unmarshal?_cons_of_lt (high low : UInt8) (rest : Bytes)
    (h : capacity < high.toNat * 256 + low.toNat ∨ rest.length < high.toNat * 256 + low.toNat) :
    (unmarshal? (high :: low :: rest) : Except CommandError (Buffer capacity × Nat)) =
      .error .size := by
  rw [unmarshal?, if_pos h]

/-- What was written is read again, whatever follows it. -/
theorem unmarshal?_marshal_append (x : Buffer capacity) (h : x.length < 2 ^ 16)
    (trailing : Bytes) : unmarshal? (x.marshal ++ trailing) = .ok (x, x.marshal.length) := by
  obtain ⟨bytes, hbytes⟩ := x
  have hsize := toNat_header h
  rw [length] at hsize
  rw [length_marshal, marshal, List.cons_append, List.cons_append, length, unmarshal?_cons]
  · simp only [hsize, List.take_left]
  · rwa [hsize]
  · rw [hsize, List.length_append]
    exact Nat.le_add_right _ _

/-- An input is refused for its size, or it is framed and gives a buffer that is written as the bytes
of the frame. -/
theorem unmarshal?_cases (capacity : Nat) (input : Bytes) :
    (unmarshal? input : Except CommandError (Buffer capacity × Nat)) = .error .size ∨
      ∃ (x : Buffer capacity) (used : Nat), unmarshal? input = .ok (x, used) ∧
        Framed capacity input used ∧ x.marshal = input.take used := by
  match input with
  | [] => exact .inl rfl
  | [_] => exact .inl rfl
  | high :: low :: rest =>
      by_cases hrefused : capacity < high.toNat * 256 + low.toNat ∨
          rest.length < high.toNat * 256 + low.toNat
      · exact .inl (unmarshal?_cons_of_lt high low rest hrefused)
      · rw [not_or, Nat.not_lt, Nat.not_lt] at hrefused
        have hsize := toNat_take_two high low rest
        obtain ⟨hhigh, hlow⟩ := header_eq high low
        refine .inr ⟨_, _, unmarshal?_cons high low rest hrefused.1 hrefused.2,
          ⟨by rw [hsize], hsize.trans_le hrefused.1, ?_⟩, ?_⟩
        · rw [List.length_cons, List.length_cons]
          omega
        · simp only [marshal, length, List.length_take_of_le hrefused.2, hhigh, hlow]
          rw [Nat.add_comm 2]
          rfl

/-- An accepted input is framed, and the buffer is written as the bytes that were used. -/
theorem framed_of_unmarshal? {x : Buffer capacity} (h : unmarshal? input = .ok (x, used)) :
    Framed capacity input used ∧ x.marshal = input.take used := by
  obtain hrefused | ⟨y, usedY, hok, hframed⟩ := unmarshal?_cases capacity input
  · rw [hrefused] at h
    cases h
  · rw [hok] at h
    cases h
    exact hframed

/-- A framed input is accepted. -/
theorem Framed.exists_unmarshal? (h : Framed capacity input used) :
    ∃ x : Buffer capacity, unmarshal? input = .ok (x, used) := by
  obtain ⟨hused, hsize, hlen⟩ := h
  match input, hused, hsize, hlen with
  | [], hused, _, hlen => rw [List.length_nil] at hlen; omega
  | [_], hused, _, hlen => rw [List.length_singleton] at hlen; omega
  | high :: low :: rest, hused, hsize, hlen =>
      rw [toNat_take_two] at hused hsize
      rw [List.length_cons, List.length_cons] at hlen
      rw [hused]
      exact ⟨_, unmarshal?_cons high low rest hsize (by omega)⟩

/-- An input that is not accepted is refused for its size. -/
theorem eq_size_of_unmarshal? {e : CommandError}
    (h : (unmarshal? input : Except CommandError (Buffer capacity × Nat)) = .error e) :
    e = .size := by
  obtain hrefused | ⟨x, used, hok, -⟩ := unmarshal?_cases capacity input
  · rw [hrefused] at h
    cases h
    rfl
  · rw [hok] at h
    cases h

/-- Buffers whose sizes can be written in two bytes. -/
theorem marshal_roundTrip (h : capacity < 2 ^ 16) :
    RoundTrip (marshal : Buffer capacity → Bytes) unmarshal? (Framed capacity) where
  unmarshal_marshal x := unmarshal?_marshal_append x (x.length_le.trans_lt h)
  accepted_iff _ _ := ⟨fun ⟨_, h⟩ => (framed_of_unmarshal? h).1, Framed.exists_unmarshal?⟩
  marshal_unmarshal _ _ _ h := (framed_of_unmarshal? h).2
  refused _ _ := eq_size_of_unmarshal?

/-- An assignment takes the content whole, or refuses it and leaves the buffer as it was. -/
theorem assign_cases (buffer : Buffer capacity) (bytes : Bytes) :
    (bytes.length ≤ capacity ∧ (buffer.assign bytes).1.bytes = bytes ∧
        (buffer.assign bytes).2 = .ok ()) ∨
      (capacity < bytes.length ∧ buffer.assign bytes = (buffer, .error .size)) := by
  rcases Nat.lt_or_ge capacity bytes.length with h | h
  · exact .inr ⟨h, by rw [assign, ofBytes?_of_lt h]⟩
  · refine .inl ⟨h, ?_⟩
    rw [assign, ofBytes?_eq h]
    exact ⟨rfl, rfl⟩

end Buffer

/-! ### Points -/

namespace Point

variable {used : Nat} {input : Bytes}

/-- Coordinates that are short enough are those of a wire point. -/
theorem ofCoordinates?_eq {x y : Bytes} (hx : x.length ≤ maxCoordinateBytes)
    (hy : y.length ≤ maxCoordinateBytes) :
    ofCoordinates? x y = .ok ⟨⟨x, hx⟩, ⟨y, hy⟩⟩ := by
  rw [ofCoordinates?, Buffer.ofBytes?_eq hx, Buffer.ofBytes?_eq hy]
  rfl

/-- A frame for each coordinate, the second where the first one ends. -/
def Framed (input : Bytes) (used : Nat) : Prop :=
  ∃ usedX usedY, Buffer.Framed maxCoordinateBytes input usedX ∧
    Buffer.Framed maxCoordinateBytes (input.drop usedX) usedY ∧ used = usedX + usedY

/-- The two buffers of a point are written one after the other. -/
theorem length_marshal (p : Point) :
    p.marshal.length = (2 + p.x.length) + (2 + p.y.length) := by
  rw [marshal, List.length_append, Buffer.length_marshal, Buffer.length_marshal]

/-- Both coordinates are read, one after the other. -/
theorem unmarshal?_eq {x y : Parameter} {usedX usedY : Nat}
    (hx : Buffer.unmarshal? input = .ok (x, usedX))
    (hy : Buffer.unmarshal? (input.drop usedX) = .ok (y, usedY)) :
    unmarshal? input = .ok (⟨x, y⟩, usedX + usedY) := by
  simp only [unmarshal?, hx, hy, bind, Except.bind]
  rfl

/-- An input is refused for its size, or both coordinates are read from it. -/
theorem unmarshal?_cases (input : Bytes) :
    unmarshal? input = .error .size ∨
      ∃ (x : Parameter) (usedX : Nat) (y : Parameter) (usedY : Nat),
        Buffer.unmarshal? input = .ok (x, usedX) ∧
          Buffer.unmarshal? (input.drop usedX) = .ok (y, usedY) ∧
          unmarshal? input = .ok (⟨x, y⟩, usedX + usedY) := by
  obtain hrefused | ⟨x, usedX, hx, -⟩ := Buffer.unmarshal?_cases maxCoordinateBytes input
  · left
    rw [unmarshal?, hrefused]
    rfl
  · obtain hrefused | ⟨y, usedY, hy, -⟩ :=
      Buffer.unmarshal?_cases maxCoordinateBytes (input.drop usedX)
    · left
      simp only [unmarshal?, hx, hrefused, bind, Except.bind]
    · exact .inr ⟨x, usedX, y, usedY, hx, hy, unmarshal?_eq hx hy⟩

/-- An accepted input gave both coordinates. -/
theorem exists_of_unmarshal? {p : Point} (h : unmarshal? input = .ok (p, used)) :
    ∃ usedX usedY, Buffer.unmarshal? input = .ok (p.x, usedX) ∧
      Buffer.unmarshal? (input.drop usedX) = .ok (p.y, usedY) ∧ used = usedX + usedY := by
  obtain hrefused | ⟨x, usedX, y, usedY, hx, hy, hok⟩ := unmarshal?_cases input
  · rw [hrefused] at h
    cases h
  · rw [hok] at h
    cases h
    exact ⟨usedX, usedY, hx, hy, rfl⟩

/-- An input that is not accepted is refused for its size. -/
theorem eq_size_of_unmarshal? {e : CommandError} (h : unmarshal? input = .error e) :
    e = .size := by
  obtain hrefused | ⟨x, usedX, y, usedY, -, -, hok⟩ := unmarshal?_cases input
  · rw [hrefused] at h
    cases h
    rfl
  · rw [hok] at h
    cases h

/-- Points are read and written by reading and writing their coordinates. -/
theorem marshal_roundTrip : RoundTrip marshal unmarshal? Framed where
  unmarshal_marshal p trailing := by
    have hx := Buffer.unmarshal?_marshal_append p.x (p.x.length_le.trans_lt (by decide))
      (p.y.marshal ++ trailing)
    have hy := Buffer.unmarshal?_marshal_append p.y (p.y.length_le.trans_lt (by decide)) trailing
    rw [marshal, List.append_assoc, List.length_append]
    refine unmarshal?_eq hx ?_
    rw [List.drop_left]
    exact hy
  accepted_iff input used := by
    constructor
    · rintro ⟨p, h⟩
      obtain ⟨usedX, usedY, hx, hy, hused⟩ := exists_of_unmarshal? h
      exact ⟨usedX, usedY, (Buffer.framed_of_unmarshal? hx).1, (Buffer.framed_of_unmarshal? hy).1,
        hused⟩
    · rintro ⟨usedX, usedY, hx, hy, rfl⟩
      obtain ⟨x, hx⟩ := hx.exists_unmarshal?
      obtain ⟨y, hy⟩ := hy.exists_unmarshal?
      exact ⟨⟨x, y⟩, unmarshal?_eq hx hy⟩
  marshal_unmarshal input p used h := by
    obtain ⟨usedX, usedY, hx, hy, rfl⟩ := exists_of_unmarshal? h
    rw [marshal, (Buffer.framed_of_unmarshal? hx).2, (Buffer.framed_of_unmarshal? hy).2,
      List.take_add]
  refused _ _ := eq_size_of_unmarshal?

end Point

/-- Reading and writing undo each other, for buffers of every capacity that two bytes can announce
and for points; what is written of a buffer is two bytes and its content. A content that does not
fit is refused, and an assignment of it changes nothing. -/
theorem wire_codec (capacity : Nat) (hcapacity : capacity ≤ 65535) :
    RoundTrip (Buffer.marshal : Buffer capacity → Bytes) Buffer.unmarshal?
        (Buffer.Framed capacity) ∧
      (∀ x : Buffer capacity, x.marshal.length = 2 + x.length) ∧
      RoundTrip Point.marshal Point.unmarshal? Point.Framed ∧
      (∀ p : Point, p.marshal.length = (2 + p.x.length) + (2 + p.y.length)) ∧
      ∀ (buffer : Buffer capacity) (bytes : Bytes),
        (bytes.length ≤ capacity ∧ (buffer.assign bytes).1.bytes = bytes ∧
            (buffer.assign bytes).2 = .ok ()) ∨
          (capacity < bytes.length ∧ buffer.assign bytes = (buffer, .error .size)) :=
  ⟨Buffer.marshal_roundTrip (Nat.lt_succ_of_le hcapacity), Buffer.length_marshal,
    Point.marshal_roundTrip, Point.length_marshal, Buffer.assign_cases⟩

/-- The longest buffer that two bytes can announce is read again in front of another byte. -/
theorem wire_codec_longest : 65535 ≤ 65535 ∧
    Buffer.unmarshal? ((⟨List.replicate 65535 1, (List.length_replicate).le⟩ :
        Buffer 65535).marshal ++ [7]) =
      .ok (⟨List.replicate 65535 1, (List.length_replicate).le⟩, 65537) := by
  obtain ⟨hbuffer, hlength, -⟩ := wire_codec 65535 le_rfl
  have h := hbuffer.unmarshal_marshal ⟨List.replicate 65535 1, (List.length_replicate).le⟩ [7]
  have hsize : (⟨List.replicate 65535 1, (List.length_replicate).le⟩ : Buffer 65535).length =
      65535 := List.length_replicate
  rw [hlength, hsize] at h
  exact ⟨le_rfl, h⟩

/-- A point in front of another byte. -/
example : Point.unmarshal? [0, 2, 1, 2, 0, 1, 3, 9] =
    .ok (⟨⟨[1, 2], by decide⟩, ⟨[3], by decide⟩⟩, 7) := by cbv

end TrustedPlatform.Wire
