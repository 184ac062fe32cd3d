import TrustedPlatform.Proofs.Rsa.Primality

/-!
# Candidates for a prime

A candidate is a drawn number with bits set at three places, whatever byte they fall into:
`toNat_candidateBytes` gives its number for every number of bits. It is passed on exactly when no
odd prime below one thousand divides it and the exponent is coprime to one less.
-/

namespace TrustedPlatform.Rsa

open Bytes (toNat toNat_cons_eq_or toNat_cons_mod)
open LawfulArithmetic (Denotes)

/-! ### The bits of a candidate -/

section Bits

/-- Setting the lowest bit of the last byte sets that of the number. -/
theorem toNat_setLowest {bytes : Bytes} (h : bytes ≠ []) :
    toNat (bytes.dropLast ++ [bytes.getLastD 0 ||| 1]) = toNat bytes ||| 1 := by
  obtain ⟨init, b, rfl⟩ := (List.eq_nil_or_concat bytes).resolve_left h
  have hor (b : UInt8) : toNat (init ++ [b]) = toNat init <<< 8 ||| b.toNat := by
    rw [Bytes.toNat_concat, ← Nat.shiftLeft_add_eq_or_of_lt b.toNat_lt, Nat.shiftLeft_eq]
  rw [List.concat_eq_append, List.dropLast_concat, List.getLastD_concat, hor, hor, UInt8.toNat_or,
    ← Nat.or_assoc, UInt8.toNat_one]

/-- The mask that is shifted down keeps the low bits of a byte. -/
theorem toNat_and_highMask (b : UInt8) {top : Nat} (h : top < 8) :
    (b &&& (0xff >>> UInt8.ofNat (7 - top))).toNat = b.toNat % 2 ^ (top + 1) := by
  have hmask : (0xff >>> UInt8.ofNat (7 - top) : UInt8).toNat = 2 ^ (top + 1) - 1 := by
    interval_cases top <;> rfl
  rw [UInt8.toNat_and, hmask, Nat.and_two_pow_sub_one_eq_mod]

/-- One bit of a byte. -/
theorem toNat_one_shiftLeft {i : Nat} (h : i < 8) :
    (1 <<< UInt8.ofNat i : UInt8).toNat = 2 ^ i := by
  interval_cases i <;> rfl

/-- A power of two above some bytes. -/
theorem two_pow_shiftLeft {i width bits : Nat} (h : i + 8 * width = bits) :
    (2 ^ i) <<< (8 * width) = 2 ^ bits := by
  rw [Nat.shiftLeft_eq, ← Nat.pow_add, h]

/-- The number of so many bits that is made from a drawn one: its two top bits and its lowest one
are set. -/
def candidate (bits drawn : Nat) : Nat :=
  drawn % 2 ^ bits ||| 2 ^ (bits - 1) ||| 2 ^ (bits - 2) ||| 1

/-- A first byte of which one bit is used shares the top bits with the second. -/
theorem toNat_raise_two (first second : UInt8) (rest : Bytes) :
    toNat (((first &&& (0xff >>> UInt8.ofNat 7)) ||| 1) :: (second ||| 0x80) :: rest) ||| 1 =
      candidate (8 * (second :: rest).length + 1) (toNat (first :: second :: rest)) := by
  have htop : 1 <<< (8 * (second :: rest).length) = 2 ^ (8 * (second :: rest).length + 1 - 1) :=
    two_pow_shiftLeft (i := 0) (by omega)
  have hnext : 0x80 <<< (8 * rest.length) = 2 ^ (8 * (second :: rest).length + 1 - 2) :=
    two_pow_shiftLeft (i := 7) (by rw [List.length_cons]; omega)
  rw [candidate, toNat_cons_mod, ← htop, ← hnext, toNat_cons_eq_or, toNat_cons_eq_or (_ ||| _),
    toNat_cons_eq_or second, UInt8.toNat_or, UInt8.toNat_or,
    toNat_and_highMask first (show 0 < 8 by decide), Nat.shiftLeft_or_distrib,
    Nat.shiftLeft_or_distrib]
  ac_rfl

/-- A first byte of which more bits are used has both top bits. -/
theorem toNat_raise_one (first : UInt8) (rest : Bytes) {top : Nat} (hpos : 0 < top)
    (htop : top < 8) :
    toNat (((first &&& (0xff >>> UInt8.ofNat (7 - top))) ||| (1 <<< UInt8.ofNat top) |||
        (1 <<< UInt8.ofNat (top - 1))) :: rest) ||| 1 =
      candidate (8 * rest.length + (top + 1)) (toNat (first :: rest)) := by
  rw [candidate, toNat_cons_mod, toNat_cons_eq_or, UInt8.toNat_or, UInt8.toNat_or,
    toNat_and_highMask first htop, toNat_one_shiftLeft htop, toNat_one_shiftLeft (by omega),
    Nat.shiftLeft_or_distrib, Nat.shiftLeft_or_distrib,
    two_pow_shiftLeft (show top + _ = 8 * rest.length + (top + 1) - 1 by omega),
    two_pow_shiftLeft (show top - 1 + _ = 8 * rest.length + (top + 1) - 2 by omega)]
  ac_rfl

/-- The number of a candidate, in whichever bytes the bits are that are set. -/
theorem toNat_candidateBytes {bits : Nat} {drawn : Bytes} (hbits : 2 ≤ bits)
    (hlen : drawn.length = (bits + 7) / 8) :
    toNat (candidateBytes bits drawn) = candidate bits (toNat drawn) := by
  cases drawn with
  | nil =>
      rw [List.length_nil] at hlen
      omega
  | cons first rest =>
      rw [List.length_cons] at hlen
      obtain ⟨top, htop, rfl⟩ : ∃ top < 8, bits = 8 * rest.length + (top + 1) :=
        ⟨bits - 1 - 8 * rest.length, by omega, by omega⟩
      have hexcess : 8 * (first :: rest).length - (8 * rest.length + (top + 1)) = 7 - top := by
        rw [List.length_cons]
        omega
      unfold candidateBytes
      simp only [hexcess, show 7 - (7 - top) = top by omega]
      cases top with
      | zero =>
          cases rest with
          | nil => exact absurd hbits (by decide)
          | cons second rest =>
              have hraise := toNat_raise_two first second rest
              exact (toNat_setLowest (List.cons_ne_nil _ _)).trans hraise
      | succ top =>
          have hraise := toNat_raise_one first rest (Nat.succ_pos top) htop
          cases rest <;> exact (toNat_setLowest (List.cons_ne_nil _ _)).trans hraise

end Bits

/-! ### Admissible candidates -/

/-- No odd prime below one thousand divides the number. -/
def PassesSieve (n : Nat) : Prop :=
  ∀ r, r.Prime → 3 ≤ r → r < 1000 → ¬r ∣ n

/-- A number that nothing from three to one thousand divides passes in particular. -/
theorem passesSieve_of_not_dvd {n : Nat} (h : ∀ r < 1000, 3 ≤ r → ¬r ∣ n) : PassesSieve n :=
  fun r _ hle hlt => h r hlt hle

/-- A number with no divisor above one and below itself is a prime. -/
theorem hasNoDivisor_iff {n : Nat} (hn : 2 ≤ n) : hasNoDivisor n = true ↔ n.Prime := by
  rw [Nat.prime_def_lt, and_iff_right hn, hasNoDivisor, List.all_eq_true]
  refine forall_congr' fun d => ?_
  rw [List.mem_range, Bool.or_eq_true, decide_eq_true_eq, bne_iff_ne, ne_eq,
    ← Nat.dvd_iff_mod_eq_zero]
  refine imp_congr_right fun _ => ⟨fun h hdvd => ?_, fun h => ?_⟩
  · have hpos := Nat.pos_of_dvd_of_pos hdvd (by omega)
    have htwo := h.resolve_right (not_not_intro hdvd)
    omega
  · by_cases hdvd : d ∣ n
    · exact .inl (by rw [h hdvd]; decide)
    · exact .inr hdvd

/-- The words that a number is divided by are the odd primes below one thousand. -/
theorem mem_smallPrimes_iff {w : Word} :
    w ∈ smallPrimes ↔ w.toNat.Prime ∧ 3 ≤ w.toNat ∧ w.toNat < 1000 := by
  rw [smallPrimes, List.mem_map]
  constructor
  · rintro ⟨r, hr, rfl⟩
    rw [List.mem_filter, List.mem_range, Bool.and_eq_true, decide_eq_true_eq] at hr
    obtain ⟨hlt, hle, hdivisor⟩ := hr
    rw [UInt64.toNat_ofNat_of_lt' (hlt.trans (by decide))]
    exact ⟨(hasNoDivisor_iff (by omega)).mp hdivisor, hle, hlt⟩
  · rintro ⟨hprime, hle, hlt⟩
    refine ⟨w.toNat, ?_, UInt64.ofNat_toNat⟩
    rw [List.mem_filter, List.mem_range, Bool.and_eq_true, decide_eq_true_eq,
      hasNoDivisor_iff (by omega)]
    exact ⟨hlt, hle, hprime⟩

/-- The sieve lets a number pass that is larger than the words when none of them divides it. -/
theorem passesSieve_exact {n : Nat} {words : List Word}
    (hwords : ∀ w ∈ words, w.toNat ≠ 0 ∧ w.toNat < n) :
    Returns (passesSieve n words) fun passes => passes = true ↔ ∀ w ∈ words, ¬w.toNat ∣ n := by
  induction words with
  | nil => exact .ok ⟨fun _ => nofun, fun _ => rfl⟩
  | cons w rest ih =>
      obtain ⟨hne, hlt⟩ := hwords w List.mem_cons_self
      have hremainder : Arithmetic.modWord n w = .ok (UInt64.ofNat (n % w.toNat)) :=
        Exact.unlessZero_of_ne hne _
      have hzero : UInt64.ofNat (n % w.toNat) = 0 ↔ w.toNat ∣ n := by
        have hbelow := (Nat.mod_lt n (Nat.pos_of_ne_zero hne)).trans w.toNat_lt
        rw [← UInt64.toNat_inj, UInt64.toNat_ofNat_of_lt' hbelow, Nat.dvd_iff_mod_eq_zero]
        rfl
      rw [passesSieve, hremainder]
      refine Returns.ite (fun hdvd => .ok ?_) fun hdvd => ?_
      · -- a word that divides the number is not the number itself
        exact ⟨fun h => absurd (LawfulArithmetic.exact_eq_iff.mp h) hlt.ne',
          fun h => absurd (hzero.mp hdvd) (h w List.mem_cons_self)⟩
      · refine (ih fun w hw => hwords w (List.mem_cons_of_mem _ hw)).mono fun passes hpasses => ?_
        rw [hpasses, List.forall_mem_cons, and_iff_right (mt hzero.mpr hdvd)]

/-- The small primes let a number above them pass when it passes the sieve. -/
theorem passesSieve_smallPrimes {n : Nat} (hn : 1000 ≤ n) :
    Returns (passesSieve n smallPrimes) fun passes => passes = true ↔ PassesSieve n := by
  have hwords : ∀ w ∈ smallPrimes, w.toNat ≠ 0 ∧ w.toNat < n := by
    intro w hw
    obtain ⟨-, hle, hlt⟩ := mem_smallPrimes_iff.mp hw
    omega
  refine (passesSieve_exact hwords).mono fun passes hpasses => hpasses.trans ?_
  constructor
  · intro h r hprime hle hlt
    have hvalue : (UInt64.ofNat r).toNat = r := UInt64.toNat_ofNat_of_lt' (hlt.trans (by decide))
    have hmem : UInt64.ofNat r ∈ smallPrimes := by
      rw [mem_smallPrimes_iff, hvalue]
      exact ⟨hprime, hle, hlt⟩
    exact hvalue ▸ h _ hmem
  · intro h w hw
    obtain ⟨hprime, hle, hlt⟩ := mem_smallPrimes_iff.mp hw
    exact h _ hprime hle hlt

/-- A number is admissible for an exponent when no small prime divides it and the exponent is
coprime to one less. -/
def Admissible (e n : Nat) : Prop :=
  PassesSieve n ∧ e.Coprime (n - 1)

/-- The admissible numbers are recognized. -/
theorem isAdmissible_exact (e : Nat) {n : Nat} (hn : 1000 ≤ n) :
    Returns (isAdmissible e n) fun admissible => admissible = true ↔ Admissible e n := by
  have hbelow : Arithmetic.sub n (Arithmetic.ofWord 1) = .ok (n - 1) :=
    LawfulArithmetic.exact_sub_of_le (show 1 ≤ n by omega)
  refine (passesSieve_smallPrimes hn).bind fun sieved hsieved => ?_
  refine .ite (fun h => ?_) fun h => ?_
  · rw [hbelow]
    exact .ok (LawfulArithmetic.exact_eq_iff.trans (and_iff_right (hsieved.mp h)).symm)
  · exact .ok ⟨nofun, fun hadmissible => absurd (hsieved.mpr hadmissible.1) h⟩

/-! ### The shape of a prime factor -/

/-- A factor of so many bits of a modulus for an exponent: its top two bits are set, and it is odd
and admissible. -/
structure FactorShape (bits e p : Nat) : Prop where
  size_eq : p.size = bits
  top_bits : p.testBit (bits - 1) = true ∧ p.testBit (bits - 2) = true
  odd : p % 2 = 1
  admissible : Admissible e p

/-- A candidate is odd and has its number of bits, the top two of them set. -/
theorem candidate_bits {bits : Nat} (hbits : 2 ≤ bits) (drawn : Nat) :
    (candidate bits drawn).size = bits ∧
      ((candidate bits drawn).testBit (bits - 1) = true ∧
        (candidate bits drawn).testBit (bits - 2) = true) ∧
      candidate bits drawn % 2 = 1 := by
  have hlt : candidate bits drawn < 2 ^ bits := by
    have hpow {i : Nat} (h : i < bits) : 2 ^ i < 2 ^ bits := Nat.pow_lt_pow_right (by decide) h
    have hone : 1 < 2 ^ bits := Nat.one_lt_two_pow (by omega)
    exact Nat.or_lt_two_pow (Nat.or_lt_two_pow (Nat.or_lt_two_pow
      (Nat.mod_lt _ (Nat.two_pow_pos bits)) (hpow (by omega))) (hpow (by omega))) hone
  have htop : (candidate bits drawn).testBit (bits - 1) = true := by
    simp [candidate, Nat.testBit_two_pow]
  have hnext : (candidate bits drawn).testBit (bits - 2) = true := by
    simp [candidate, Nat.testBit_two_pow]
  refine ⟨Nat.le_antisymm (Nat.size_le.mpr hlt) ?_, ⟨htop, hnext⟩, ?_⟩
  · have hsize := Nat.lt_size.mpr (Nat.ge_two_pow_of_testBit htop)
    omega
  · exact Nat.or_mod_two_eq_one.mpr (.inr rfl)

namespace FactorShape

variable {bits e p q : Nat}

/-- A factor has its number of bits. -/
theorem lt_two_pow (h : FactorShape bits e p) : p < 2 ^ bits :=
  Nat.size_le.mp h.size_eq.le

/-- A factor of more than one bit is above one. -/
theorem one_lt (h : FactorShape bits e p) (hbits : 2 ≤ bits) : 1 < p := by
  have hle := Nat.lt_size.mp (show 1 < p.size by rw [h.size_eq]; omega)
  omega

/-- With its top two bits set a factor is at least three quarters of the power of two above. -/
theorem three_mul_le (h : FactorShape bits e p) (hbits : 2 ≤ bits) : 3 * 2 ^ (bits - 2) ≤ p := by
  obtain ⟨j, rfl⟩ : ∃ j, bits = j + 2 := ⟨bits - 2, by omega⟩
  obtain ⟨htop, hnext⟩ := h.top_bits
  rw [Nat.testBit_eq_decide_div_mod_eq, decide_eq_true_eq] at htop hnext
  have hhalf : p / 2 ^ (j + 1) = p / 2 ^ j / 2 := by rw [Nat.div_div_eq_div_mul, ← Nat.pow_succ]
  have hquotient : 3 ≤ p / 2 ^ j := by
    rw [show j + 2 - 1 = j + 1 from rfl, hhalf] at htop
    rw [Nat.add_sub_cancel] at hnext
    generalize p / 2 ^ j = quotient at htop hnext ⊢
    omega
  exact (Nat.le_div_iff_mul_le (Nat.two_pow_pos j)).mp hquotient

/-- The product of two factors has exactly twice their bits. -/
theorem size_mul (hbits : 2 ≤ bits) (hp : FactorShape bits e p) (hq : FactorShape bits e q) :
    (p * q).size = 2 * bits := by
  have hple := hp.three_mul_le hbits
  have hqle := hq.three_mul_le hbits
  have hupper : p * q < 2 ^ (2 * bits) := by
    rw [Nat.two_mul, Nat.pow_add]
    exact Nat.mul_lt_mul'' hp.lt_two_pow hq.lt_two_pow
  have hlower : 2 ^ (2 * bits - 1) ≤ p * q := by
    obtain ⟨j, rfl⟩ : ∃ j, bits = j + 2 := ⟨bits - 2, by omega⟩
    calc 2 ^ (2 * (j + 2) - 1) = 8 * (2 ^ j * 2 ^ j) := by
          rw [← Nat.pow_add, show 2 * (j + 2) - 1 = 3 + (j + j) by omega, Nat.pow_add]
      _ ≤ 9 * (2 ^ j * 2 ^ j) := Nat.mul_le_mul_right _ (by decide)
      _ = (3 * 2 ^ j) * (3 * 2 ^ j) := by ring
      _ ≤ p * q := Nat.mul_le_mul hple hqle
  have hsize := Nat.lt_size.mpr hlower
  exact Nat.le_antisymm (Nat.size_le.mpr hupper) (by omega)

/-- The product of two factors is odd. -/
theorem mul_odd (hp : FactorShape bits e p) (hq : FactorShape bits e q) : p * q % 2 = 1 := by
  rw [Nat.mul_mod, hp.odd, hq.odd]

end FactorShape

end TrustedPlatform.Rsa
