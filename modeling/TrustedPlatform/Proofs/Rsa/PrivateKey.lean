import Mathlib.NumberTheory.LucasLehmer
import TrustedPlatform.Proofs.Arithmetic.Residue
import TrustedPlatform.Proofs.Rsa.PublicKey
import TrustedPlatform.Proofs.Rsa.Recombination
import TrustedPlatform.Rsa.PrivateKey

/-!
# The two primitives undo each other

For a private key whose parts fit together, `privateOp` computes the power by the private exponent
modulo the modulus, though it works modulo each prime apart, and each of the two primitives undoes
the other. The main theorem is `PrivateKey.Valid.primitives_inverse`.
-/

namespace TrustedPlatform.Rsa

open Bytes (toNat)
open LawfulArithmetic (Denotes RoomToReduce)
open Limbs (count count_mono)

/-- The parts of a private key fit together: two distinct primes that multiply to the modulus, and
an exponent inverse to the public one modulo the order of the unit group. -/
structure PrivateKey.Valid (key : PrivateKey) : Prop where
  prime_p : (toNat key.p).Prime
  prime_q : (toNat key.q).Prime
  ne : toNat key.p ≠ toNat key.q
  mul_eq : toNat key.p * toNat key.q = toNat key.publicKey.modulus
  d_lt : toNat key.d < (toNat key.p - 1) * (toNat key.q - 1)
  inverse : key.publicKey.exponent.toNat * toNat key.d ≡ 1
    [MOD (toNat key.p - 1) * (toNat key.q - 1)]

/-- The parts of a private key belong to one key: as in `PrivateKey.Valid`, but the exponent may be
any inverse of the public one, of whatever size. -/
structure PrivateKey.Consistent (key : PrivateKey) : Prop where
  prime_p : (toNat key.p).Prime
  prime_q : (toNat key.q).Prime
  ne : toNat key.p ≠ toNat key.q
  mul_eq : toNat key.p * toNat key.q = toNat key.publicKey.modulus
  inverse : key.publicKey.exponent.toNat * toNat key.d ≡ 1
    [MOD (toNat key.p - 1) * (toNat key.q - 1)]

namespace PrivateKey.Consistent

variable {key : PrivateKey}

/-- A factor of the modulus is odd. -/
theorem three_le_of_dvd {n p : Nat} (hp : p.Prime) (hn : n % 2 = 1) (hdvd : p ∣ n) : 3 ≤ p := by
  have htwo : p ≠ 2 := by
    rintro rfl
    omega
  have := hp.two_le
  omega

/-- The first prime is odd. -/
theorem three_le_p (h : key.Consistent) : 3 ≤ toNat key.p :=
  three_le_of_dvd h.prime_p key.publicKey.toNat_modulus_odd (h.mul_eq ▸ dvd_mul_right _ _)

/-- The second prime is odd. -/
theorem three_le_q (h : key.Consistent) : 3 ≤ toNat key.q :=
  three_le_of_dvd h.prime_q key.publicKey.toNat_modulus_odd (h.mul_eq ▸ dvd_mul_left _ _)

/-- The unit group has more than one element. -/
theorem one_lt_order (h : key.Consistent) : 1 < (toNat key.p - 1) * (toNat key.q - 1) := by
  have hp := h.three_le_p
  have hq := h.three_le_q
  exact Nat.one_lt_mul_iff.mpr ⟨by omega, by omega, .inl (by omega)⟩

/-- The reduced exponent modulo the first prime raises to the same powers. -/
theorem pow_mod_p (h : key.Consistent) [Fact (toNat key.p).Prime] (r : ZMod (toNat key.p)) :
    r ^ (toNat key.d % (toNat key.p - 1)) = r ^ toNat key.d := by
  have hp := h.three_le_p
  have hdvd := not_dvd_of_modEq_one (by omega) (h.inverse.of_mul_right (toNat key.q - 1))
  exact pow_mod_pred (fun hd => hdvd ((Nat.dvd_of_mod_eq_zero hd).mul_left _)) r

/-- The reduced exponent modulo the second prime raises to the same powers. -/
theorem pow_mod_q (h : key.Consistent) [Fact (toNat key.q).Prime] (r : ZMod (toNat key.q)) :
    r ^ (toNat key.d % (toNat key.q - 1)) = r ^ toNat key.d := by
  have hq := h.three_le_q
  have hdvd := not_dvd_of_modEq_one (by omega) (h.inverse.of_mul_left (toNat key.p - 1))
  exact pow_mod_pred (fun hd => hdvd ((Nat.dvd_of_mod_eq_zero hd).mul_left _)) r

/-- Raising to two inverse exponents in turn gives the input back. -/
theorem pow_pow_mod (h : key.Consistent) {e d x : Nat}
    (hed : e * d ≡ 1 [MOD (toNat key.p - 1) * (toNat key.q - 1)])
    (hx : x < toNat key.publicKey.modulus) :
    (x ^ e % toNat key.publicKey.modulus) ^ d % toNat key.publicKey.modulus = x := by
  have hprimeP : Fact (toNat key.p).Prime := ⟨h.prime_p⟩
  have hprimeQ : Fact (toNat key.q).Prime := ⟨h.prime_q⟩
  have hpos : 0 < e * d := by
    refine Nat.pos_of_ne_zero fun hzero => not_dvd_of_modEq_one h.one_lt_order hed ?_
    rw [hzero]
    exact dvd_zero _
  have hself := pow_modEq_self h.ne hed hpos x
  rw [h.mul_eq, Nat.ModEq, Nat.mod_eq_of_lt hx] at hself
  rw [← Nat.pow_mod, ← Nat.pow_mul, hself]

end PrivateKey.Consistent

namespace PrivateKey.Valid

variable {key : PrivateKey}

/-- The parts of a valid key belong to one key. -/
theorem consistent (h : key.Valid) : key.Consistent :=
  ⟨h.prime_p, h.prime_q, h.ne, h.mul_eq, h.inverse⟩

/-- The private exponent is at most the modulus. -/
theorem d_le (h : key.Valid) : toNat key.d ≤ toNat key.publicKey.modulus := by
  have hle := Nat.mul_le_mul (Nat.sub_le (toNat key.p) 1) (Nat.sub_le (toNat key.q) 1)
  rw [h.mul_eq] at hle
  exact h.d_lt.le.trans hle

/-- Raising to two inverse exponents in turn gives the input back. -/
theorem pow_pow_mod (h : key.Valid) {e d x : Nat}
    (hed : e * d ≡ 1 [MOD (toNat key.p - 1) * (toNat key.q - 1)])
    (hx : x < toNat key.publicKey.modulus) :
    (x ^ e % toNat key.publicKey.modulus) ^ d % toNat key.publicKey.modulus = x :=
  h.consistent.pow_pow_mod hed hx

end PrivateKey.Valid

variable {α : Type} [Arithmetic α] [LawfulArithmetic α]

/-- An input below the modulus is raised to the public exponent. -/
theorem publicOp_eq {key : PublicKey} {input : Bytes} (h : toNat input < toNat key.modulus) :
    publicOp α key input = .ok (Bytes.ofNatWidth key.size
      (toNat input ^ key.exponent.toNat % toNat key.modulus)) := by
  have hne : NeZero (toNat key.modulus) := ⟨Nat.ne_zero_of_lt h⟩
  have hn := LawfulArithmetic.ofBytes (α := α) key.modulus
  have hm := LawfulArithmetic.ofBytes (α := α) input
  have he := LawfulArithmetic.ofWord (α := α) key.exponent.toUInt64
  have hmodulus : Modulus (Arithmetic.ofBytes key.modulus : α) (toNat key.modulus) :=
    ⟨hn, key.count_modulus_le⟩
  have hinput := Residue.of_denotes (p := toNat key.modulus) hm
    ((count_mono h.le).trans key.count_modulus_le)
  refine Returns.eq_ok ?_
  rw [publicOp, LawfulArithmetic.lt hm hn, decide_eq_true h]
  refine (hinput.pow hmodulus he).bind fun c hc => ?_
  have hvalue := hc.denotes
  rw [UInt32.toNat_toUInt64, ← Nat.cast_pow, ZMod.val_natCast] at hvalue
  exact ⟨_, LawfulArithmetic.toBytesPadded_eq hvalue
    ((Nat.mod_lt _ (NeZero.pos _)).trans key.toNat_modulus_lt), rfl⟩

/-- The exponent reduced modulo one less than a prime is returned. -/
theorem reduceExponent {p d : Nat} {m x : α} (hm : Modulus m p) (hp : 3 ≤ p) (hx : Denotes x d)
    (hd : RoomToReduce α d) {β : Type} {f : α → Checked β} {Q : β → Prop}
    (hf : ∀ e, Denotes e (d % (p - 1)) → Returns (f e) Q) :
    Returns (do
      let p' ← Arithmetic.sub m (Arithmetic.ofWord 1)
      f (← Arithmetic.reduce x p')) Q := by
  have hone : Denotes (Arithmetic.ofWord 1 : α) 1 := LawfulArithmetic.ofWord 1
  refine (LawfulArithmetic.sub_returns hm.denotes hone hm.count_le (by omega)).bind fun p' hp' => ?_
  refine (hd hx hp' ?_ (by omega)).bind hf
  exact (count_mono (Nat.sub_le p 1)).trans hm.count_le

/-- Arithmetic in buffers has the room to reduce a number that fits the scratch area. -/
theorem roomToReduce_of_bitLength {bytes : Bytes}
    (h : bytes.bitLength ≤ 64 * FixedNat.scratchLimbs) : RoomToReduce FixedNat (toNat bytes) := by
  refine LawfulArithmetic.roomToReduce_of_count ?_
  rwa [Limbs.count_le_iff, Limbs.size_pow_eq, ← Nat.size_le, ← Bytes.bitLength_eq]

/-- An input below the modulus is raised to the private exponent, when there is room to reduce that
exponent. -/
theorem PrivateKey.Consistent.privateOp_eq {key : PrivateKey} (h : key.Consistent)
    (hroom : RoomToReduce α (toNat key.d)) {input : Bytes}
    (hlt : toNat input < toNat key.publicKey.modulus) :
    privateOp α key input = .ok (Bytes.ofNatWidth key.publicKey.size
      (toNat input ^ toNat key.d % toNat key.publicKey.modulus)) := by
  have hprimeP : Fact (toNat key.p).Prime := ⟨h.prime_p⟩
  have hprimeQ : Fact (toNat key.q).Prime := ⟨h.prime_q⟩
  have hcount {m : Nat} (hm : m ≤ toNat key.publicKey.modulus) : count m ≤ 64 :=
    (count_mono hm).trans key.publicKey.count_modulus_le
  have hple : toNat key.p ≤ toNat key.publicKey.modulus :=
    h.mul_eq ▸ Nat.le_mul_of_pos_right _ h.prime_q.pos
  have hqle : toNat key.q ≤ toNat key.publicKey.modulus :=
    h.mul_eq ▸ Nat.le_mul_of_pos_left _ h.prime_p.pos
  have hn := LawfulArithmetic.ofBytes (α := α) key.publicKey.modulus
  have hc := LawfulArithmetic.ofBytes (α := α) input
  have hp : Modulus (Arithmetic.ofBytes key.p : α) (toNat key.p) :=
    ⟨LawfulArithmetic.ofBytes key.p, hcount hple⟩
  have hq : Modulus (Arithmetic.ofBytes key.q : α) (toNat key.q) :=
    ⟨LawfulArithmetic.ofBytes key.q, hcount hqle⟩
  have hd := LawfulArithmetic.ofBytes (α := α) key.d
  -- `q` is invertible modulo `p`, since it is another prime
  have hqne : (toNat key.q : ZMod (toNat key.p)) ≠ 0 := by
    rw [Ne, ZMod.natCast_eq_zero_iff, Nat.prime_dvd_prime_iff_eq h.prime_p h.prime_q]
    exact h.ne
  refine Returns.eq_ok ?_
  rw [privateOp, LawfulArithmetic.lt hc hn, decide_eq_true hlt]
  refine reduceExponent hp h.three_le_p hd hroom fun dp hdp => ?_
  refine reduceExponent hq h.three_le_q hd hroom fun dq hdq => ?_
  refine ((Residue.of_denotes hq.denotes hq.count_le).inverse hp hqne).bind fun o ho => ?_
  obtain ⟨qInverse, rfl, hqInverse⟩ := ho
  refine ((Residue.of_denotes hc (hcount hlt.le)).pow hp hdp).bind fun m1 hm1 => ?_
  refine ((Residue.of_denotes hc (hcount hlt.le)).pow hq hdq).bind fun m2 hm2 => ?_
  rw [h.pow_mod_p, ← Nat.cast_pow] at hm1
  rw [h.pow_mod_q, ← Nat.cast_pow] at hm2
  generalize toNat input ^ toNat key.d = x at hm1 hm2 ⊢
  -- the power modulo `q` is read modulo `p`, and the multiple of `q` that is missing is added to it
  have hm2residue := Residue.of_denotes (p := toNat key.p) hm2.denotes (hq.count_val_le _)
  refine ((hm1.residue hp).sub hp hm2residue).bind fun t ht => ?_
  refine ((hqInverse.residue hp).mul hp (ht.residue hp)).bind fun u hu => ?_
  refine (LawfulArithmetic.mul_returns hu.denotes hq.denotes (hp.count_val_le _)
    hq.count_le).bind fun uq huq => ?_
  have huqle := multiplier_mul_le (x : ZMod (toNat key.p)) (x : ZMod (toNat key.q))
  rw [h.mul_eq] at huqle
  refine (LawfulArithmetic.add_returns hm2.denotes huq (hq.count_val_le _)
    (hcount huqle)).bind fun m hm => ?_
  have hm : Denotes m (recombine (x : ZMod (toNat key.p)) (x : ZMod (toNat key.q))) := hm
  rw [recombine_eq_mod h.ne, h.mul_eq] at hm
  exact ⟨_, LawfulArithmetic.toBytesPadded_eq hm
    ((Nat.mod_lt _ (Nat.zero_lt_of_lt hlt)).trans key.publicKey.toNat_modulus_lt), rfl⟩

/-- An input below the modulus is raised to the private exponent. -/
theorem privateOp_eq {key : PrivateKey} (h : key.Valid) {input : Bytes}
    (hlt : toNat input < toNat key.publicKey.modulus) :
    privateOp α key input = .ok (Bytes.ofNatWidth key.publicKey.size
      (toNat input ^ toNat key.d % toNat key.publicKey.modulus)) :=
  h.consistent.privateOp_eq (LawfulArithmetic.roomToReduce_of_count
    (((count_mono h.d_le).trans key.publicKey.count_modulus_le).trans (by decide))) hlt

/-- The public primitive refuses an input that is not below the modulus. -/
theorem publicOp_refused {key : PublicKey} {input : Bytes} (h : toNat key.modulus ≤ toNat input) :
    publicOp α key input = .error (.parameter "input" "not below the modulus") := by
  have hn := LawfulArithmetic.ofBytes (α := α) key.modulus
  have hm := LawfulArithmetic.ofBytes (α := α) input
  rw [publicOp, LawfulArithmetic.lt hm hn, decide_eq_false (Nat.not_lt.mpr h)]
  rfl

/-- The public primitive answers a block with one below the modulus. -/
theorem publicOp_returns {key : PublicKey} {input : Bytes} (hlt : toNat input < toNat key.modulus) :
    Returns (publicOp α key input) fun output => output.length = key.size ∧
      toNat output = toNat input ^ key.exponent.toNat % toNat key.modulus ∧
      toNat output < toNat key.modulus := by
  have hbelow := Nat.mod_lt (toNat input ^ key.exponent.toNat) (Nat.zero_lt_of_lt hlt)
  have hwritten := key.toNat_ofNatWidth_size hbelow
  exact ⟨_, publicOp_eq hlt, Bytes.length_ofNatWidth _ _, hwritten, hwritten.trans_lt hbelow⟩

/-- What the public primitive answers is below the modulus. -/
theorem lt_of_publicOp_eq_ok {key : PublicKey} {input output : Bytes}
    (hop : publicOp α key input = .ok output) : toNat input < toNat key.modulus := by
  refine Nat.lt_of_not_le fun hle => ?_
  rw [publicOp_refused hle] at hop
  cases hop

/-- A number raised to the private exponent, written in as many bytes as the modulus has. -/
def PrivateKey.power (key : PrivateKey) (x : Nat) : Bytes :=
  Bytes.ofNatWidth key.publicKey.size (x ^ toNat key.d % toNat key.publicKey.modulus)

/-- The public primitive gives back a number below the modulus from its power. -/
theorem PrivateKey.Consistent.publicOp_power {key : PrivateKey} (h : key.Consistent) {x : Nat}
    (hlt : x < toNat key.publicKey.modulus) :
    publicOp α key.publicKey (key.power x) = .ok (Bytes.ofNatWidth key.publicKey.size x) := by
  have hbelow : x ^ toNat key.d % toNat key.publicKey.modulus < toNat key.publicKey.modulus :=
    Nat.mod_lt _ (Nat.zero_lt_of_lt hlt)
  have hwritten : toNat (key.power x) = x ^ toNat key.d % toNat key.publicKey.modulus :=
    key.publicKey.toNat_ofNatWidth_size hbelow
  have hinverse := h.inverse
  rw [Nat.mul_comm key.publicKey.exponent.toNat] at hinverse
  rw [publicOp_eq (hwritten.trans_lt hbelow), hwritten, h.pow_pow_mod hinverse hlt]

/-- The byte strings as long as the modulus from which the public primitive gives a block are the
power of the block. -/
theorem PrivateKey.Consistent.publicOp_eq_ok_iff {key : PrivateKey} (h : key.Consistent)
    {input output : Bytes} :
    input.length = key.publicKey.size ∧ publicOp α key.publicKey input = .ok output ↔
      output.length = key.publicKey.size ∧ toNat output < toNat key.publicKey.modulus ∧
        input = key.power (toNat output) := by
  constructor
  · rintro ⟨hlen, hop⟩
    have hlt := lt_of_publicOp_eq_ok hop
    obtain ⟨output', hreturned, hsize, hvalue, hbelow⟩ := publicOp_returns (α := α) hlt
    obtain rfl := Except.ok.inj (hop.symm.trans hreturned)
    refine ⟨hsize, hbelow, ?_⟩
    rw [PrivateKey.power, hvalue, h.pow_pow_mod h.inverse hlt, Bytes.ofNatWidth_of_length hlen]
  · rintro ⟨hsize, hlt, rfl⟩
    refine ⟨Bytes.length_ofNatWidth _ _, ?_⟩
    rw [h.publicOp_power hlt, Bytes.ofNatWidth_of_length hsize]

/-- The private primitive refuses an input that is not below the modulus. -/
theorem privateOp_refused {key : PrivateKey} {input : Bytes}
    (h : toNat key.publicKey.modulus ≤ toNat input) :
    privateOp α key input = .error (.parameter "input" "not below the modulus") := by
  have hn := LawfulArithmetic.ofBytes (α := α) key.publicKey.modulus
  have hc := LawfulArithmetic.ofBytes (α := α) input
  rw [privateOp, LawfulArithmetic.lt hc hn, decide_eq_false (Nat.not_lt.mpr h)]
  rfl

/-- On an input below the modulus, the private primitive begins by reducing the private exponent
modulo one less than the first prime. -/
theorem privateOp_eq_bind_reduce {key : PrivateKey} {input : Bytes}
    (hlt : toNat input < toNat key.publicKey.modulus) {p' : α}
    (hsub : Arithmetic.sub (Arithmetic.ofBytes key.p) (Arithmetic.ofWord 1) = .ok p') :
    ∃ f, privateOp α key input = Arithmetic.reduce (Arithmetic.ofBytes key.d) p' >>= f := by
  have hn := LawfulArithmetic.ofBytes (α := α) key.publicKey.modulus
  have hc := LawfulArithmetic.ofBytes (α := α) input
  rw [privateOp, LawfulArithmetic.lt hc hn, decide_eq_true hlt]
  dsimp only
  rw [hsub]
  exact ⟨_, rfl⟩

/-- Below the modulus, the private primitive computes the power by the private exponent, and each of
the two primitives undoes the other, up to the zeros that fill the block; other inputs are refused
by both. -/
theorem PrivateKey.Valid.primitives_inverse {key : PrivateKey} (h : key.Valid) (input : Bytes) :
    (toNat input < toNat key.publicKey.modulus →
      privateOp α key input = .ok (Bytes.ofNatWidth key.publicKey.size
        (toNat input ^ toNat key.d % toNat key.publicKey.modulus)) ∧
      (publicOp α key.publicKey input >>= privateOp α key) =
        .ok (input.stripZeros.padLeft key.publicKey.size) ∧
      (privateOp α key input >>= publicOp α key.publicKey) =
        .ok (input.stripZeros.padLeft key.publicKey.size) ∧
      (input.stripZeros.padLeft key.publicKey.size).length = key.publicKey.size) ∧
    (toNat key.publicKey.modulus ≤ toNat input →
      publicOp α key.publicKey input = .error (.parameter "input" "not below the modulus") ∧
      privateOp α key input = .error (.parameter "input" "not below the modulus")) := by
  refine ⟨fun hlt => ?_, fun hle => ⟨publicOp_refused hle, privateOp_refused hle⟩⟩
  have hblock := key.publicKey.ofNatWidth_size_eq hlt
  have hbelow (x : Nat) : x % toNat key.publicKey.modulus < toNat key.publicKey.modulus :=
    Nat.mod_lt x (Nat.zero_lt_of_lt hlt)
  have hwritten (x : Nat) := key.publicKey.toNat_ofNatWidth_size (hbelow x)
  refine ⟨privateOp_eq h hlt, ?_, ?_, ?_⟩
  · rw [publicOp_eq hlt]
    show privateOp α key _ = _
    rw [privateOp_eq h (by rw [hwritten]; exact hbelow _), hwritten, h.pow_pow_mod h.inverse hlt,
      hblock]
  · have hinverse := h.inverse
    rw [Nat.mul_comm key.publicKey.exponent.toNat] at hinverse
    rw [privateOp_eq h hlt]
    show publicOp α key.publicKey _ = _
    rw [publicOp_eq (by rw [hwritten]; exact hbelow _), hwritten, h.pow_pow_mod hinverse hlt,
      hblock]
  · rw [← hblock, Bytes.length_ofNatWidth]

/-- A key of 648 bits whose primes are Mersenne primes. -/
def mersenneKey : PrivateKey where
  publicKey :=
    { modulus := Bytes.ofNat (mersenne 521 * mersenne 127)
      exponent := defaultExponent
      stripped := by decide +kernel
      le_bitLength := by decide +kernel
      bitLength_le := by decide +kernel
      isOdd := by decide +kernel
      admissible := by decide +kernel }
  p := Bytes.ofNat (mersenne 521)
  q := Bytes.ofNat (mersenne 127)
  d := Bytes.ofNat ((1 + 10880 * ((mersenne 521 - 1) * (mersenne 127 - 1))) / 65537)

/-- The parts of the key fit together. -/
theorem mersenneKey_valid : mersenneKey.Valid where
  prime_p := by
    rw [mersenneKey, Bytes.toNat_ofNat]
    exact lucas_lehmer_sufficiency 521 (by norm_num) (by norm_num)
  prime_q := by
    rw [mersenneKey, Bytes.toNat_ofNat]
    exact lucas_lehmer_sufficiency 127 (by norm_num) (by norm_num)
  ne := by decide +kernel
  mul_eq := by decide +kernel
  d_lt := by decide +kernel
  inverse := by decide +kernel

/-- The second prime of the key, with a leading zero, is encrypted and decrypted; the modulus is
refused. -/
theorem PrivateKey.Valid.primitives_inverse_mersenne :
    mersenneKey.Valid ∧
    toNat (0 :: mersenneKey.q) < toNat mersenneKey.publicKey.modulus ∧
    (publicOp FixedNat mersenneKey.publicKey (0 :: mersenneKey.q) >>=
      privateOp FixedNat mersenneKey) =
        .ok ((Bytes.stripZeros (0 :: mersenneKey.q)).padLeft mersenneKey.publicKey.size) ∧
    publicOp FixedNat mersenneKey.publicKey mersenneKey.publicKey.modulus =
      .error (.parameter "input" "not below the modulus") := by
  have hlt : toNat (0 :: mersenneKey.q) < toNat mersenneKey.publicKey.modulus := by decide +kernel
  have hbelow := (mersenneKey_valid.primitives_inverse (α := FixedNat) (0 :: mersenneKey.q)).1 hlt
  have hrefused := (mersenneKey_valid.primitives_inverse (α := FixedNat)
    mersenneKey.publicKey.modulus).2 le_rfl
  exact ⟨mersenneKey_valid, hlt, hbelow.2.1, hrefused.1⟩

end TrustedPlatform.Rsa
