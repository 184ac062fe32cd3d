import TrustedPlatform.Proofs.Integer.ByteBuffer
import TrustedPlatform.Proofs.Integer.Registers

/-!
# Byte strings and numbers determine each other

`Registers.bytes_round_trip` is the main statement. Reading a byte string and writing it again takes
away its leading zeros and nothing else, and writing a number and reading it again gives the number.
A register takes a byte string exactly when it has room for it without its leading zeros, and a
caller's buffer takes a number exactly when it is no shorter than the shortest byte string; what is
refused leaves register and buffer as they were. The conversions in place, limb by limb and byte by
byte, give the same results and stay within their buffers.
-/

namespace TrustedPlatform

namespace FixedNat

variable {a : FixedNat}

/-! ### Reading -/

/-- A capacity below one limb makes a buffer of one. -/
theorem ofNat_max_one (capacity n : Nat) : ofNat (max capacity 1) n = ofNat capacity n := by
  rw [ofNat, ofNat, Nat.max_eq_left (Nat.le_max_right capacity 1)]

/-- The capacity of a cleared buffer. -/
theorem capacity_zero (capacity : Nat) : (zero capacity).capacity = max capacity 1 :=
  (held_zero capacity).capacity_eq

/-- A fresh buffer holds a byte string when its own capacity does. -/
theorem ofBytes?_max_one (capacity : Nat) (bytes : Bytes) :
    ofBytes? (max capacity 1) bytes = ofBytes? capacity bytes := by
  rw [ofBytes?_eq, ofBytes?_eq, hold?, hold?, Nat.max_eq_left (Nat.le_max_right capacity 1),
    ofNat_max_one]

/-- What becomes of a buffer into which a byte string is put. The string is accepted exactly when the
limbs that it fills without its leading zeros are no more than those of the buffer; the buffer then
holds it in the limbs that it has. A refused string leaves the buffer as it was. -/
structure Takes (a : FixedNat) (bytes : Bytes) (result : FixedNat) (outcome : Checked Unit) :
    Prop where
  accepted_iff : outcome = .ok () ↔ Word.countForBytes bytes.stripZeros.length ≤ a.capacity
  held : outcome = .ok () → Held a.capacity result ∧ result.toBytes = bytes.stripZeros
  refused : outcome ≠ .ok () → outcome = .error (.fatal .allocation) ∧ result = a

/-- Putting a byte string into a buffer in place never leaves the buffer, and gives what the
conversion gives at the capacity of the buffer. -/
theorem takes_setBytes (ha : 1 ≤ a.capacity) (bytes : Bytes) :
    ∃ result outcome, InPlace.setBytes a bytes = some (result, outcome) ∧
      a.Takes bytes result outcome ∧
      ofBytes? a.capacity bytes = outcome.map fun _ => result := by
  have hfits := fits_toNat_iff a.capacity bytes
  have hset := InPlace.setBytes_eq ha bytes
  rw [Nat.max_eq_left ha] at hfits
  by_cases h : Word.countForBytes bytes.stripZeros.length ≤ a.capacity
  · rw [if_pos h] at hset
    refine ⟨_, _, hset, ⟨by simp [h], fun _ => ⟨held_ofNat (hfits.mpr h), ?_⟩, by simp⟩, ?_⟩
    · rw [toBytes_eq, value_ofNat, Bytes.ofNat_toNat]
    · rw [ofBytes?_eq, hold?_of_fits (hfits.mpr h)]
      rfl
  · rw [if_neg h] at hset
    refine ⟨_, _, hset, ⟨by simp [h], by simp, by simp⟩, ?_⟩
    rw [ofBytes?_eq, hold?_of_not_fits (mt hfits.mp h)]
    rfl

/-- Zeros in front of a byte string do not matter. -/
theorem ofBytes?_replicate_append (capacity zeros : Nat) (bytes : Bytes) :
    ofBytes? capacity (List.replicate zeros 0 ++ bytes) = ofBytes? capacity bytes := by
  rw [ofBytes?_eq, ofBytes?_eq, Bytes.toNat_append, Bytes.toNat_replicate_zero, Nat.zero_mul,
    Nat.zero_add]

/-- A byte string that was read is written without its leading zeros. -/
theorem toBytes_ofBytes (bytes : Bytes) : (ofBytes bytes).toBytes = bytes.stripZeros := by
  rw [ofBytes_eq, toBytes_eq, value_ofNat, Bytes.ofNat_toNat]

/-- A byte string is read as the number it denotes. -/
theorem value_ofBytes (bytes : Bytes) : (ofBytes bytes).value = Bytes.toNat bytes := by
  rw [ofBytes_eq, value_ofNat]

/-- A byte string is read as a number exactly when it denotes it. -/
theorem compare_ofBytes (ha : a.WellFormed) (bytes : Bytes) :
    (ofBytes bytes).compare a = .eq ↔ Bytes.toNat bytes = a.value := by
  rw [compare_eq (held_ofBytes bytes).wellFormed ha, value_ofBytes, Nat.compare_eq_eq]

/-- A number that was written is read with the limbs it had. -/
theorem words_ofBytes_toBytes (ha : a.WellFormed) : (ofBytes a.toBytes).words = a.words := by
  rw [(held_ofBytes a.toBytes).wellFormed.words_eq, ha.words_eq, value_ofBytes, toBytes_eq,
    Bytes.toNat_ofNat]

/-! ### Writing -/

/-- The shortest byte string has the byte length of the number. -/
theorem length_toBytes (a : FixedNat) : a.toBytes.length = a.byteLength := by
  rw [toBytes_eq, Bytes.length_ofNat, byteLength_eq]

/-- Zero alone is written as no bytes. -/
theorem toBytes_eq_nil_iff (a : FixedNat) : a.toBytes = [] ↔ a.value = 0 := by
  rw [← List.length_eq_zero_iff, length_toBytes, byteLength_eq, ← Nat.le_zero, Bytes.widthOf_le_iff,
    Nat.pow_zero, Nat.lt_one_iff]

/-- A width that is no less than the shortest takes the number, and the only byte string of that
width that denotes it. -/
theorem toBytesPadded_eq_ok_iff (a : FixedNat) (width : Nat) (bytes : Bytes) :
    a.toBytesPadded width = .ok bytes ↔
      a.toBytes.length ≤ width ∧ bytes.length = width ∧ Bytes.toNat bytes = a.value := by
  rw [length_toBytes]
  unfold toBytesPadded
  by_cases h : width < a.byteLength
  · rw [if_pos h]
    simp [h]
  · have hle : a.byteLength ≤ width := Nat.le_of_not_lt h
    have hvalue : a.value < 256 ^ width := by rwa [← Bytes.widthOf_le_iff, ← byteLength_eq]
    rw [if_neg h, lowBytes_eq]
    constructor
    · intro hbytes
      cases hbytes
      exact ⟨hle, Bytes.length_ofNatWidth _ _, Bytes.toNat_ofNatWidth_of_lt hvalue⟩
    · rintro ⟨-, hlen, hbytes⟩
      rw [← hbytes, Bytes.ofNatWidth_of_length hlen]

/-- A width that is less than the shortest is refused. -/
theorem toBytesPadded_of_lt {width : Nat} (h : width < a.toBytes.length) :
    a.toBytesPadded width = .error (.length "BigNum encoding" a.toBytes.length width) := by
  rw [length_toBytes] at h ⊢
  exact if_pos h

/-- What becomes of a caller's buffer into which a number is written. It takes the number exactly when
it is no shorter than the shortest byte string, and is then the byte string of its own length;
otherwise it is left as it was, and both lengths are reported. -/
structure Fills (a : FixedNat) (buffer result : Bytes) (outcome : Checked Unit) : Prop where
  accepted_iff : outcome = .ok () ↔ a.toBytes.length ≤ buffer.length
  filled : outcome = .ok () → a.toBytesPadded buffer.length = .ok result
  refused : outcome ≠ .ok () → result = buffer ∧
    outcome = .error (.length "BigNum encoding" a.toBytes.length buffer.length)

/-- Writing a number fills the caller's buffer or leaves it. -/
theorem fills_writeBytes (a : FixedNat) (buffer : Bytes) :
    a.Fills buffer (a.writeBytes buffer).1 (a.writeBytes buffer).2 := by
  unfold writeBytes
  by_cases h : buffer.length < a.toBytes.length
  · have hrefused := toBytesPadded_of_lt h
    rw [hrefused]
    exact ⟨by simp [h], nofun, fun _ => ⟨rfl, rfl⟩⟩
  · have hle : a.toBytes.length ≤ buffer.length := Nat.le_of_not_lt h
    have hvalue : a.value < 256 ^ buffer.length := by
      rwa [← Bytes.widthOf_le_iff, ← byteLength_eq, ← length_toBytes]
    have hpadded := (toBytesPadded_eq_ok_iff a buffer.length _).mpr
      ⟨hle, Bytes.length_ofNatWidth _ _, Bytes.toNat_ofNatWidth_of_lt hvalue⟩
    rw [hpadded]
    exact ⟨by simp [hle], fun _ => hpadded, fun hne => absurd rfl hne⟩

end FixedNat

namespace Registers

open FixedNat

variable {file : Registers}

/-- Byte strings and the numbers of a register file, for all byte strings, numbers and capacities.
A byte string that is read and written again loses its leading zeros, all of it when it denotes zero;
a number that is written and read again is the same, with the same limbs. A byte string enters a
register, or a fresh buffer of some capacity, exactly when it fits without its leading zeros, so that
more of them change nothing; a refused one leaves the file as it was. A number has a byte string of a
given width exactly when the width is at least the shortest, and then the only one that is read as
it; a caller's buffer that is too short is left as it was. All of it is what the conversions in place
do, and none of them leaves a buffer. -/
theorem bytes_round_trip (hfile : file.WellFormed) (r a capacity width zeros : Nat)
    (bytes buffer : Bytes) :
    (InPlace.load (zero (Word.countForBytes bytes.length)) bytes = some (ofBytes bytes) ∧
      (ofBytes bytes).WellFormed ∧ (ofBytes bytes).toBytes = bytes.stripZeros) ∧
    (InPlace.shortest (file a) = some (file a).toBytes ∧
      (ofBytes (file a).toBytes).compare (file a) = .eq ∧
      (ofBytes (file a).toBytes).words = (file a).words ∧
      ((file a).toBytes = [] ↔ (file a).value = 0)) ∧
    (∃ result outcome, InPlace.setBytes (file r) bytes = some (result, outcome) ∧
      (file r).Takes bytes result outcome ∧
      file.step (.setBytes r bytes) = file.write r (outcome.map fun _ => result)) ∧
    (∃ result outcome, InPlace.setBytes (zero capacity) bytes = some (result, outcome) ∧
      (zero capacity).Takes bytes result outcome ∧
      file.step (.createBytesWithin r bytes capacity) =
        file.write r (outcome.map fun _ => result)) ∧
    (file.step (.setBytes r (List.replicate zeros 0 ++ bytes)) = file.step (.setBytes r bytes) ∧
      file.step (.createBytesWithin r (List.replicate zeros 0 ++ bytes) capacity) =
        file.step (.createBytesWithin r bytes capacity)) ∧
    (∀ encoded, (file a).toBytesPadded width = .ok encoded ↔
      (file a).toBytes.length ≤ width ∧ encoded.length = width ∧
        (ofBytes encoded).compare (file a) = .eq) ∧
    (InPlace.write (file a) buffer = some ((file a).writeBytes buffer) ∧
      (file a).Fills buffer ((file a).writeBytes buffer).1 ((file a).writeBytes buffer).2) := by
  have ha := hfile a
  have hfresh : 1 ≤ (zero capacity).capacity := by
    rw [capacity_zero]
    exact Nat.le_max_right _ _
  refine ⟨⟨InPlace.load_zero bytes, (held_ofBytes bytes).wellFormed, toBytes_ofBytes bytes⟩,
    ⟨InPlace.shortest_eq ha, ?_, words_ofBytes_toBytes ha, toBytes_eq_nil_iff _⟩, ?_, ?_, ?_,
    fun encoded => ?_, InPlace.write_eq ha buffer, fills_writeBytes _ buffer⟩
  · rw [compare_ofBytes ha, toBytes_eq, Bytes.toNat_ofNat]
  · obtain ⟨result, outcome, hset, htakes, heq⟩ := takes_setBytes (hfile r).capacity_pos bytes
    exact ⟨result, outcome, hset, htakes, by rw [step, heq]⟩
  · obtain ⟨result, outcome, hset, htakes, heq⟩ := takes_setBytes hfresh bytes
    rw [capacity_zero, ofBytes?_max_one] at heq
    exact ⟨result, outcome, hset, htakes, by rw [step, heq]⟩
  · simp only [step, ofBytes?_replicate_append, and_self]
  · rw [toBytesPadded_eq_ok_iff, compare_ofBytes ha]

/-- Nine bytes behind two zeros take two limbs: they enter a register of two limbs and no register
of one, and come out without the zeros. They are not written into eight bytes. -/
theorem bytes_round_trip_partial_limb :
    let bytes : Bytes := [0, 0, 1, 0, 0, 0, 0, 0, 0, 0, 2]
    let file := initial.run [.createBytes 0 bytes, .create 1 2]
    file.WellFormed ∧ (ofBytes bytes).toBytes = [1, 0, 0, 0, 0, 0, 0, 0, 2] ∧
      (file.step (.setBytes 1 bytes)).2 = .ok true ∧
      file.step (.setBytes 2 bytes) = (file, .error (.fatal .allocation)) ∧
      (file 0).writeBytes (List.replicate 8 7) =
        (List.replicate 8 7, .error (.length "BigNum encoding" 9 8)) := by
  intro bytes file
  have hfile : file.WellFormed := wellFormed_initial.run _
  obtain ⟨⟨-, -, hstripped⟩, -, ⟨wide, taken, -, hwide, hstep⟩, -⟩ :=
    bytes_round_trip hfile 1 0 1 8 0 bytes []
  obtain ⟨-, -, ⟨narrow, refused, -, hnarrow, hkept⟩, -, -, -, -, hfills⟩ :=
    bytes_round_trip hfile 2 0 1 8 0 bytes (List.replicate 8 7)
  have htaken : taken = .ok () := hwide.accepted_iff.mpr (by decide)
  have hrefused : refused ≠ .ok () := mt hnarrow.accepted_iff.mp (by decide)
  have hlength : (file 0).toBytes.length = 9 := congrArg List.length hstripped
  have hshort : ((file 0).writeBytes (List.replicate 8 7)).2 ≠ .ok () :=
    mt hfills.accepted_iff.mp (by rw [hlength]; decide)
  obtain ⟨hbuffer, houtcome⟩ := hfills.refused hshort
  rw [hlength] at houtcome
  refine ⟨hfile, hstripped, ?_, ?_, Prod.ext hbuffer houtcome⟩
  · rw [hstep, htaken]
    rfl
  · rw [hkept, (hnarrow.refused hrefused).1]
    rfl

end Registers

end TrustedPlatform
