import TrustedPlatform.Proofs.Rsa.Padding

/-!
# What optimal asymmetric padding accepts

A byte string is decoded exactly when it is the encoding of a message under a seed, and then it is
the encoding of no other message and under no other seed. The scan of the whole data block finds
what a search with an early exit finds. The main theorem is `decode_accepts`.
-/

namespace TrustedPlatform

namespace ByteStream

/-- The bytes of a byte string, to be read once. -/
def ofBytes (bytes : Bytes) : ByteStream :=
  ⟨fun i => bytes.getD i 0, some bytes.length, 0⟩

/-- A draw of all the bytes gives the byte string. -/
theorem fill_ofBytes (bytes : Bytes) :
    RandomSource.fill (ofBytes bytes) bytes.length =
      (.ok bytes, { ofBytes bytes with used := bytes.length }) := by
  have hbytes : (List.range bytes.length).map (fun i => bytes.getD (0 + i) 0) = bytes := by
    refine List.ext_getElem (by simp) fun i _ hi => ?_
    simp [hi]
  show (ofBytes bytes).read bytes.length = _
  rw [read, hasBytes]
  simp only [ofBytes, Nat.zero_add, Nat.le_refl, decide_true, if_true] at hbytes ⊢
  rw [hbytes]

end ByteStream

namespace Rsa.Oaep

variable {h : Hash} {label message seed encoded bytes : Bytes}

/-! ### The scan of the data block -/

namespace Scan

variable {s : Scan}

/-- Once the byte one is found, the scan stays as it is. -/
theorem run_found (hfound : s.looking = false) (i : Nat) (bytes : Bytes) : s.run i bytes = s := by
  induction bytes generalizing i with
  | nil => rfl
  | cons b rest ih =>
      have hstep : s.step i b = s := by
        obtain ⟨looking, good, index⟩ := s
        subst hfound
        simp [step]
      rw [run, hstep, ih]

/-- What is not good does not become good. -/
theorem good_run (hbad : s.good = false) (i : Nat) (bytes : Bytes) :
    (s.run i bytes).good = false := by
  induction bytes generalizing s i with
  | nil => exact hbad
  | cons b rest ih =>
      refine ih ?_ (i + 1)
      rw [step, hbad, Bool.false_and]

/-- The scan passes over a zero. -/
theorem step_zero (good : Bool) (index i : Nat) :
    step ⟨true, good, index⟩ i 0 = ⟨true, good, index⟩ := by
  simp [step]

/-- The scan finds the byte one behind zeros, and passes over what follows it. -/
theorem run_zeros (good : Bool) (index i zeros : Nat) (message : Bytes) :
    run ⟨true, good, index⟩ i (List.replicate zeros 0 ++ 1 :: message) =
      ⟨false, good, i + zeros⟩ := by
  induction zeros generalizing i with
  | zero =>
      have hstep : step ⟨true, good, index⟩ i 1 = ⟨false, good, i⟩ := by simp [step]
      rw [List.replicate_zero, List.nil_append, run, hstep, run_found rfl, Nat.add_zero]
  | succ zeros ih =>
      rw [List.replicate_succ, List.cons_append, run, step_zero, ih, Nat.add_right_comm,
        Nat.add_assoc]

/-- Without a byte one behind zeros, the scan ends badly or goes on looking. -/
theorem run_refused (hnone : ∀ message, bytes.dropWhile (· == 0) ≠ 1 :: message) (good : Bool)
    (index i : Nat) :
    ((run ⟨true, good, index⟩ i bytes).good && !(run ⟨true, good, index⟩ i bytes).looking) =
      false := by
  induction bytes generalizing i with
  | nil => exact Bool.and_false _
  | cons b rest ih =>
      rw [run]
      by_cases hzero : b = 0
      · subst hzero
        rw [step_zero]
        exact ih hnone (i + 1)
      · have hone : b ≠ 1 := fun h => hnone rest (by rw [h]; rfl)
        have hbad : (step ⟨true, good, index⟩ i b).good = false := by simp [step, hzero, hone]
        rw [good_run hbad, Bool.false_and]

end Scan

/-! ### Accepted byte strings -/

/-- The seed in an encoded message. -/
def seedOf (h : Hash) (encoded : Bytes) : Bytes :=
  Bytes.xor ((encoded.drop 1).take h.size) (h.mask (encoded.drop (1 + h.size)) h.size)

/-- The seed is read back from what it masked. -/
theorem seedOf_maskWith {block : Bytes} (hseed : seed.length = h.size) :
    seedOf h (maskWith h seed block) = seed := by
  have hmaskedSeed (masked : Bytes) :
      (Bytes.xor seed (h.mask masked h.size)).length = h.size := by
    rw [Bytes.length_xor, Hash.length_mask, hseed, Nat.min_self]
  simp only [seedOf, maskWith, List.drop_succ_cons, List.drop_zero, Nat.add_comm 1]
  rw [List.take_left' (hmaskedSeed _), List.drop_left' (hmaskedSeed _),
    Bytes.xor_xor_cancel (by rw [hseed, Hash.length_mask])]

/-- The seed is as long as a digest. -/
theorem length_seedOf (hlength : 1 + h.size ≤ encoded.length) :
    (seedOf h encoded).length = h.size := by
  rw [seedOf, Bytes.length_xor, Hash.length_mask, List.length_take, List.length_drop]
  omega

/-- The data block takes what the seed and the first byte leave. -/
theorem length_unmask (h : Hash) (encoded : Bytes) :
    (unmask h encoded).length = encoded.length - h.size - 1 := by
  rw [unmask, Bytes.length_xor, Hash.length_mask, List.length_drop]
  omega

/-- Seed and data block give the encoded message back. -/
theorem maskWith_unmask (hlength : 1 + h.size ≤ encoded.length) (hhead : encoded.head? = some 0) :
    maskWith h (seedOf h encoded) (unmask h encoded) = encoded := by
  have hblock : Bytes.xor (unmask h encoded) (h.mask (seedOf h encoded) (unmask h encoded).length) =
      encoded.drop (1 + h.size) := by
    rw [length_unmask]
    exact Bytes.xor_xor_cancel (by rw [Hash.length_mask, List.length_drop]; omega)
  have hseed : Bytes.xor (seedOf h encoded) (h.mask (encoded.drop (1 + h.size)) h.size) =
      (encoded.drop 1).take h.size :=
    Bytes.xor_xor_cancel (by rw [Hash.length_mask, List.length_take]; exact Nat.min_le_left _ _)
  obtain ⟨b, rest, rfl⟩ := List.exists_cons_of_length_pos (l := encoded) (by omega)
  cases hhead
  simp only [maskWith, hblock, hseed]
  rw [Nat.add_comm 1 h.size]
  exact congrArg (0 :: ·) (List.take_append_drop h.size rest)

/-- A byte string is decoded or refused, always with one fault. -/
theorem decode_cases (h : Hash) (label encoded : Bytes) :
    (∃ message, decode h label encoded = .ok message) ∨
      decode h label encoded = .error (.decryption "OAEP") := by
  rw [decode]
  dsimp only
  split
  · exact .inr rfl
  split
  · split
    · exact .inl ⟨_, rfl⟩
    · exact .inr rfl
  · exact .inr rfl

/-- A message is decoded exactly from byte strings of the form. -/
theorem decode_eq_ok_iff :
    decode h label encoded = .ok message ↔
      overhead h ≤ encoded.length ∧ encoded.head? = some 0 ∧
        ∃ zeros, unmask h encoded = h.digest label ++ (List.replicate zeros 0 ++ 1 :: message) := by
  have hdigest : (h.digest label).length = h.size := h.length_digest label
  rw [decode]
  dsimp only
  constructor
  · intro hok
    split at hok
    case isTrue => cases hok
    case isFalse hlong =>
      split at hok
      case h_2 => cases hok
      case h_1 found hfound =>
        obtain ⟨zeros, hzeros⟩ := Bytes.dropWhile_eq_cons_one_iff.mp hfound
        split at hok
        case isFalse => cases hok
        case isTrue hgood =>
          cases hok
          refine ⟨Nat.le_of_not_lt hlong, hgood.1, zeros, ?_⟩
          rw [← hzeros, ← (Bytes.ctEq_iff _ _).mp hgood.2, List.take_append_drop]
  · rintro ⟨hlong, hhead, zeros, hblock⟩
    have hfound : (List.replicate zeros (0 : UInt8) ++ 1 :: message).dropWhile (· == 0) =
        1 :: message := Bytes.dropWhile_eq_cons_one_iff.mpr ⟨zeros, rfl⟩
    have hgood : Bytes.ctEq (h.digest label) (h.digest label) = true := (Bytes.ctEq_iff _ _).mpr rfl
    rw [if_neg (Nat.not_lt.mpr hlong), hblock, List.drop_left' hdigest, List.take_left' hdigest,
      hfound]
    exact if_pos ⟨hhead, hgood⟩

/-- The scan of the whole data block decodes what the search with an early exit decodes. -/
theorem decodeScanning_eq (h : Hash) (label encoded : Bytes) :
    decodeScanning h label encoded = decode h label encoded := by
  rw [decodeScanning, decode]
  by_cases hshort : encoded.length < overhead h
  · rw [if_pos hshort, if_pos hshort]
  rw [if_neg hshort, if_neg hshort]
  dsimp only
  by_cases hform : ∃ message, ((unmask h encoded).drop h.size).dropWhile (· == 0) = 1 :: message
  · obtain ⟨message, hmessage⟩ := hform
    obtain ⟨zeros, hzeros⟩ := Bytes.dropWhile_eq_cons_one_iff.mp hmessage
    have hrest : (unmask h encoded).drop (h.size + zeros + 1) = message := by
      rw [Nat.add_assoc, ← List.drop_drop, hzeros]
      simp [← List.drop_drop]
    rw [hmessage, hzeros, Scan.run_zeros]
    dsimp only
    rw [hrest]
    simp
  · rw [Scan.run_refused (not_exists.mp hform), if_neg Bool.false_ne_true]
    split
    · exact absurd ⟨_, ‹_›⟩ hform
    · rfl

/-- A message is decoded from nothing but its encodings. -/
theorem encodeWith_seedOf (hdecode : decode h label encoded = .ok message) :
    message.length ≤ encoded.length - overhead h ∧
      encodeWith h label message encoded.length (seedOf h encoded) = encoded := by
  obtain ⟨hlong, hhead, zeros, hblock⟩ := decode_eq_ok_iff.mp hdecode
  rw [overhead] at hlong
  have hlength := congrArg List.length hblock
  rw [length_unmask, List.length_append, List.length_append, List.length_replicate,
    List.length_cons, show (h.digest label).length = h.size from h.length_digest label] at hlength
  have hdata : dataBlock h label message (encoded.length - h.size - 1) = unmask h encoded := by
    rw [dataBlock, hblock, List.append_assoc]
    have hzeros : encoded.length - h.size - 1 - h.size - 1 - message.length = zeros := by omega
    rw [hzeros]
  refine ⟨by rw [overhead]; omega, ?_⟩
  rw [encodeWith, hdata, maskWith_unmask (by omega) hhead]

/-- An encoding has no other seed and no other data block. -/
theorem maskWith_injective {seed' block block' : Bytes} (hseed : seed.length = h.size)
    (hseed' : seed'.length = h.size) (hsame : maskWith h seed block = maskWith h seed' block') :
    seed = seed' ∧ block = block' := by
  constructor
  · calc
      seed = seedOf h (maskWith h seed block) := (seedOf_maskWith hseed).symm
      _ = seed' := by rw [hsame, seedOf_maskWith hseed']
  · calc
      block = unmask h (maskWith h seed block) := (unmask_maskWith hseed).symm
      _ = block' := by rw [hsame, unmask_maskWith hseed']

/-- A message that fits is encoded under the seed that a source gives. -/
theorem runFrom_encode {σ : Type} [RandomSource σ] {s t : σ} {k : Nat}
    (hfill : RandomSource.fill s h.size = (.ok seed, t)) (hk : overhead h ≤ k)
    (hfits : message.length ≤ k - overhead h) :
    (encode h label message k).runFrom s = (.ok (encodeWith h label message k seed), t) := by
  have hparameter : Require.parameter (overhead h ≤ k) "modulus"
      "too small for OAEP with this hash" = .ok () := if_pos (decide_eq_true hk)
  have hlength : Require.maxLength "OAEP message" message.length (k - overhead h) = .ok () :=
    if_pos hfits
  rw [encode, Randomized.runFrom_lift_bind_ok hparameter, Randomized.runFrom_lift_bind_ok hlength,
    Randomized.runFrom_draw_bind_ok hfill]
  rfl

/-- Nothing else is an encoding under that seed. -/
theorem encode_eq_ok_iff {σ : Type} [RandomSource σ] {s t : σ} {k : Nat}
    (hfill : RandomSource.fill s h.size = (.ok seed, t)) :
    ((encode h label message k).runFrom s).1 = .ok encoded ↔
      (overhead h ≤ k ∧ message.length ≤ k - overhead h) ∧
        encodeWith h label message k seed = encoded := by
  constructor
  · intro hok
    obtain ⟨⟨hk, hfits⟩, -⟩ := encode_yields h label message k s encoded hok
    rw [runFrom_encode hfill hk hfits] at hok
    exact ⟨⟨hk, hfits⟩, Except.ok.inj hok⟩
  · rintro ⟨⟨hk, hfits⟩, rfl⟩
    rw [runFrom_encode hfill hk hfits]

/-- A byte string is the encoding of a message under a seed, in as many bytes as it has. -/
def Encodes (h : Hash) (label message seed encoded : Bytes) : Prop :=
  seed.length = h.size ∧
    ((encode h label message encoded.length).runFrom (ByteStream.ofBytes seed)).1 = .ok encoded

/-- A byte string is an encoding when the message fits in it and masking gives it. -/
theorem encodes_iff :
    Encodes h label message seed encoded ↔ seed.length = h.size ∧
      (overhead h ≤ encoded.length ∧ message.length ≤ encoded.length - overhead h) ∧
        encodeWith h label message encoded.length seed = encoded := by
  refine and_congr_right fun hseed => ?_
  have hfill := ByteStream.fill_ofBytes seed
  rw [hseed] at hfill
  exact encode_eq_ok_iff hfill

/-- A message is decoded from its encodings. -/
theorem Encodes.decode_eq (hencodes : Encodes h label message seed encoded) :
    decode h label encoded = .ok message := by
  obtain ⟨hseed, ⟨hlong, hfits⟩, hencoded⟩ := encodes_iff.mp hencodes
  have hdecode : decode h label (encodeWith h label message encoded.length seed) = .ok message :=
    decode_encodeWith hlong hfits hseed
  rwa [hencoded] at hdecode

/-- What is decoded is encoded as the byte string under its seed. -/
theorem encodes_of_decode (hok : decode h label encoded = .ok message) :
    Encodes h label message (seedOf h encoded) encoded := by
  have hlong : 2 * h.size + 2 ≤ encoded.length := (decode_eq_ok_iff.mp hok).1
  obtain ⟨hfits, hencoded⟩ := encodeWith_seedOf hok
  exact encodes_iff.mpr ⟨length_seedOf (by omega), ⟨hlong, hfits⟩, hencoded⟩

/-- A byte string encodes one message under one seed. -/
theorem Encodes.unique {message' seed' : Bytes} (hencodes : Encodes h label message seed encoded)
    (hencodes' : Encodes h label message' seed' encoded) : message = message' ∧ seed = seed' := by
  have hmessage : message = message' :=
    Except.ok.inj (hencodes.decode_eq.symm.trans hencodes'.decode_eq)
  obtain ⟨hseed, -, hencoded⟩ := encodes_iff.mp hencodes
  obtain ⟨hseed', -, hencoded'⟩ := encodes_iff.mp hencodes'
  exact ⟨hmessage, (maskWith_injective hseed hseed' (hencoded.trans hencoded'.symm)).1⟩

/-- Whatever the hash, the label and the byte string: a message is decoded exactly when there is a
seed under which it is encoded as the byte string, and exactly when the byte string has the form,
wherever the byte one stands in it. The message and the seed are then the only ones, every other
byte string is refused with the one fault, and a scan of the whole data block decodes the same. -/
theorem decode_accepts (h : Hash) (label encoded : Bytes) :
    (∀ message, decode h label encoded = .ok message ↔
      overhead h ≤ encoded.length ∧ ∃ seed, Encodes h label message seed encoded) ∧
    (∀ message, decode h label encoded = .ok message ↔
      overhead h ≤ encoded.length ∧ encoded.head? = some 0 ∧ ∃ zeros,
        unmask h encoded = h.digest label ++ (List.replicate zeros 0 ++ 1 :: message)) ∧
    (∀ message seed message' seed', Encodes h label message seed encoded →
      Encodes h label message' seed' encoded → message = message' ∧ seed = seed') ∧
    ((¬∃ message seed, Encodes h label message seed encoded) →
      decode h label encoded = .error (.decryption "OAEP")) ∧
    decodeScanning h label encoded = decode h label encoded := by
  refine ⟨fun message => ⟨fun hok => ?_, ?_⟩, fun message => decode_eq_ok_iff,
    fun _ _ _ _ => Encodes.unique, fun hnone => ?_, decodeScanning_eq h label encoded⟩
  · exact ⟨(decode_eq_ok_iff.mp hok).1, _, encodes_of_decode hok⟩
  · rintro ⟨-, seed, hencodes⟩
    exact hencodes.decode_eq
  · obtain ⟨message, hok⟩ | hrefused := decode_cases h label encoded
    · exact absurd ⟨message, _, encodes_of_decode hok⟩ hnone
    · exact hrefused

end Rsa.Oaep

end TrustedPlatform
