import Mathlib.Tactic.NormNum.Prime
import TrustedPlatform.Proofs.Arithmetic.StrongProbablePrime
import TrustedPlatform.Proofs.Rsa.Refinement

/-!
# What the random primality test says

A round of the test draws a base between two and two less than the number, and asks whether the
number is a strong probable prime to that base. `Tested` is the course of a number of such rounds:
it ends with the first base that shows the number composite, or with the first draw that fails. A
prime passes all rounds, because it divides no base in that range.
-/

namespace TrustedPlatform.Rsa

open Arithmetic (bitLength testBit)
open Bytes (toNat)
open LawfulArithmetic (Denotes)
open Limbs (count)

/-! ### Parts of a round in exact arithmetic -/

/-- The bits below the lowest set one are zero. -/
theorem trailingZeros_spec {n : Nat} (hn : n ≠ 0) :
    (n >>> trailingZeros n) % 2 = 1 ∧ (n >>> trailingZeros n) * 2 ^ trailingZeros n = n := by
  have hfound : ∃ i, (List.range (bitLength n)).find? (testBit n) = some i := by
    rw [← Option.isSome_iff_exists, List.find?_isSome]
    obtain ⟨i, hi⟩ := Nat.exists_testBit_of_ne_zero hn
    refine ⟨i, List.mem_range.mpr ?_, hi⟩
    rw [LawfulArithmetic.exact_bitLength, Nat.lt_size]
    exact Nat.ge_two_pow_of_testBit hi
  obtain ⟨i, hi⟩ := hfound
  have hvalue : trailingZeros n = i := congrArg (·.getD 0) hi
  obtain ⟨hset, -, hclear⟩ := List.find?_range_eq_some.mp hi
  rw [hvalue, Nat.shiftRight_eq_div_pow]
  constructor
  · exact of_decide_eq_true ((Nat.testBit_eq_decide_div_mod_eq (x := n) (i := i)).symm.trans hset)
  · refine Nat.div_mul_cancel (Nat.dvd_of_mod_eq_zero (Nat.eq_of_testBit_eq fun j => ?_))
    rw [Nat.testBit_mod_two_pow, Nat.zero_testBit]
    by_cases hj : j < i
    · have hzero : n.testBit j = false := Bool.eq_false_of_not_eq_true' (hclear j hj)
      rw [hzero, Bool.and_false]
    · rw [decide_eq_false hj, Bool.false_and]

/-- Repeated squaring reaches a remainder by a positive number of squarings. -/
theorem squaresReach_exact {n : Nat} (hn : n ≠ 0) (top count x : Nat) :
    Returns (squaresReach n top count x) fun reached =>
      reached = true ↔ ∃ i < count, x ^ 2 ^ (i + 1) % n = top := by
  induction count generalizing x with
  | zero => exact .ok ⟨nofun, fun ⟨_, hi, _⟩ => absurd hi (Nat.not_lt_zero _)⟩
  | succ count ih =>
      have hsquare : Arithmetic.modMul x x n = .ok (x * x % n) := Exact.unlessZero_of_ne hn _
      have hpow (i : Nat) : (x * x % n) ^ 2 ^ i % n = x ^ 2 ^ (i + 1) % n := by
        rw [← Nat.pow_mod, ← Nat.pow_two, ← Nat.pow_mul, ← Nat.pow_succ']
      rw [squaresReach, hsquare]
      refine Returns.ite (fun htop => ?_) fun htop => ?_
      · have htop := LawfulArithmetic.exact_eq_iff.mp htop
        exact .ok ⟨fun _ => ⟨0, Nat.succ_pos _, by rwa [Nat.pow_one, Nat.pow_two]⟩, fun _ => rfl⟩
      · have htop := mt LawfulArithmetic.exact_eq_iff.mpr htop
        refine (ih (x * x % n)).mono fun reached hreached => hreached.trans ?_
        constructor
        · rintro ⟨i, hi, h⟩
          exact ⟨i + 1, Nat.succ_lt_succ hi, (hpow _).symm.trans h⟩
        · rintro ⟨i, hi, h⟩
          cases i with
          | zero => exact absurd (by rwa [Nat.pow_one, Nat.pow_two] at h) htop
          | succ i => exact ⟨i, Nat.lt_of_succ_lt_succ hi, (hpow _).trans h⟩

/-- The test with one base decides whether squaring passes. -/
theorem survives_exact {n : Nat} (hn : 1 < n) (odd a : Nat) {twos : Nat} (htwos : 0 < twos) :
    Returns (survives n (n - 1) odd twos a) fun survived =>
      survived = true ↔ PassesSquaring n odd twos a := by
  have hpower : Arithmetic.modPow a odd n = .ok (a ^ odd % n) :=
    (Exact.unlessZero_of_ne (Nat.ne_of_gt (Nat.zero_lt_of_lt hn)) _).trans
      (congrArg Except.ok (Exact.modPow_eq n a odd))
  have hsquares (i : Nat) : (a ^ odd % n) ^ 2 ^ i % n = a ^ (odd * 2 ^ i) % n := by
    rw [← Nat.pow_mod, Nat.pow_mul]
  have hfirst : (Arithmetic.eqWord (a ^ odd % n) 1 || Arithmetic.eq (a ^ odd % n) (n - 1)) = true ↔
      a ^ odd % n = 1 ∨ a ^ odd % n = n - 1 := by
    rw [Bool.or_eq_true, LawfulArithmetic.exact_eq_iff]
    exact or_congr_left LawfulArithmetic.exact_eq_iff
  rw [survives, hpower]
  refine Returns.ite (fun h => ?_) fun h => ?_
  · refine .ok ⟨fun _ => (hfirst.mp h).imp_right fun htop => ⟨0, htwos, ?_⟩, fun _ => rfl⟩
    rwa [Nat.pow_zero, Nat.mul_one]
  · obtain ⟨hone, htop⟩ := not_or.mp (mt hfirst.mpr h)
    refine (squaresReach_exact (by omega) (n - 1) (twos - 1) _).mono
      fun survived hsurvived => hsurvived.trans ?_
    constructor
    · rintro ⟨i, hi, h⟩
      exact .inr ⟨i + 1, by omega, (hsquares _).symm.trans h⟩
    · rintro (h | ⟨i, hi, h⟩)
      · exact absurd h hone
      · cases i with
        | zero => exact absurd (by rwa [Nat.pow_zero, Nat.mul_one] at h) htop
        | succ i => exact ⟨i, by omega, (hsquares _).trans h⟩

/-- The base that a drawn byte string stands for. -/
def base (n : Nat) (bytes : Bytes) : Nat :=
  toNat bytes % (n - 3) + 2

/-- A base is between two and two less than the number. -/
theorem base_mem {n : Nat} (hn : 5 ≤ n) (bytes : Bytes) :
    2 ≤ base n bytes ∧ base n bytes ≤ n - 2 := by
  have hlt : toNat bytes % (n - 3) < n - 3 := Nat.mod_lt _ (by omega)
  rw [base]
  omega

/-- A witness is the base of its bytes. -/
theorem witnessOfBytes_exact {n : Nat} (hn : 5 ≤ n) (bytes : Bytes) :
    witnessOfBytes n bytes = .ok (base n bytes) := by
  have hrange : Arithmetic.sub n (Arithmetic.ofWord 3) = .ok (n - 3) :=
    LawfulArithmetic.exact_sub_of_le (show 3 ≤ n by omega)
  have hoffset : Arithmetic.reduce (toNat bytes) (n - 3) = .ok (toNat bytes % (n - 3)) := by
    rw [LawfulArithmetic.exact_reduce, Exact.unlessZero_of_ne (by omega)]
  rw [witnessOfBytes, hrange]
  show (Arithmetic.reduce (toNat bytes) (n - 3) >>= fun offset => Arithmetic.add offset 2) = _
  rw [hoffset]
  rfl

/-! ### The course of the rounds -/

/-- The number of bytes that a base of the number is drawn from. -/
def baseWidth (n : Nat) : Nat :=
  (n.size + 7) / 8 + 8

section Rounds

variable {σ : Type} [RandomSource σ]

/-- The rounds of a test of the number, from one state of the source to another. -/
inductive Tested (n : Nat) : Nat → σ → Checked Bool → σ → Prop where
  | done (s : σ) : Tested n 0 s (.ok true) s
  | failed {rounds : Nat} {s t : σ} {e : Fault}
      (hfill : RandomSource.fill s (baseWidth n) = (.error e, t)) :
      Tested n (rounds + 1) s (.error e) t
  | refuted {rounds : Nat} {s t : σ} {bytes : Bytes}
      (hfill : RandomSource.fill s (baseWidth n) = (.ok bytes, t))
      (hcomposite : ¬StrongProbablePrime n (base n bytes)) : Tested n (rounds + 1) s (.ok false) t
  | passed {rounds : Nat} {s t u : σ} {bytes : Bytes} {outcome : Checked Bool}
      (hfill : RandomSource.fill s (baseWidth n) = (.ok bytes, t))
      (hprobable : StrongProbablePrime n (base n bytes)) (hrest : Tested n rounds t outcome u) :
      Tested n (rounds + 1) s outcome u

variable {n rounds : Nat} {s t : σ} {outcome : Checked Bool}

/-- A prime is never shown composite. -/
theorem Tested.ne_false_of_prime (hprime : n.Prime) (hn : 5 ≤ n) (h : Tested n rounds s outcome t) :
    outcome ≠ .ok false := by
  induction h with
  | done => rintro ⟨⟩
  | failed => rintro ⟨⟩
  | @refuted _ _ _ bytes _ hcomposite =>
      have hmem := base_mem hn bytes
      refine absurd (strongProbablePrime_of_prime hprime fun hdvd => ?_) hcomposite
      exact absurd (Nat.le_of_dvd (by omega) hdvd) (by omega)
  | passed _ _ _ ih => exact ih

/-- With a reliable source the rounds end in a verdict. -/
theorem Tested.exists_ok {I : σ → Prop} (hI : RandomSource.Reliable I) (hs : I s)
    (h : Tested n rounds s outcome t) : (∃ verdict, outcome = .ok verdict) ∧ I t := by
  induction h with
  | done => exact ⟨⟨true, rfl⟩, hs⟩
  | failed hfill =>
      obtain ⟨⟨_, hok⟩, _⟩ := hI.of_fill hs hfill
      cases hok
  | refuted hfill _ => exact ⟨⟨false, rfl⟩, (hI.of_fill hs hfill).2⟩
  | passed hfill _ _ ih => exact ih (hI.of_fill hs hfill).2

/-- From an endless sequence, rounds that are all passed draw one base each. -/
theorem Tested.eq_of_endless {s t : ByteStream} (h : Tested n rounds s (.ok true) t)
    (hs : s.length = none) : t = { s with used := s.used + rounds * baseWidth n } := by
  generalize houtcome : (.ok true : Checked Bool) = outcome at h
  induction h with
  | done => rw [Nat.zero_mul, Nat.add_zero]
  | failed => cases houtcome
  | refuted => cases houtcome
  | @passed rounds s t u bytes outcome hfill _ _ ih =>
      rw [ByteStream.fill_of_endless hs] at hfill
      obtain ⟨-, rfl⟩ := Prod.mk.inj hfill
      rw [ih hs houtcome, Nat.succ_mul, Nat.add_comm (rounds * _)]
      exact congrArg (ByteStream.mk s.byte s.length) (Nat.add_assoc ..)

end Rounds

/-! ### The test in a lawful arithmetic -/

section Test

variable {α : Type} [Arithmetic α] [LawfulArithmetic α] {x : α} {n : Nat}
variable {σ : Type} [RandomSource σ]

/-- Numbers below five are recognized. -/
theorem lt_five_eq (hx : Denotes x n) : Arithmetic.lt x (Arithmetic.ofWord 5) = decide (n < 5) :=
  LawfulArithmetic.lt hx (LawfulArithmetic.ofWord 5)

/-- Small and even numbers are recognized without a draw. -/
theorem isProbablePrime_of_small_or_even (hx : Denotes x n) (h : n < 5 ∨ n % 2 = 0)
    (rounds : Nat) :
    (isProbablePrime x rounds : Randomized σ Bool) = pure (decide (n = 2 ∨ n = 3)) := by
  have hword (w : Word) : Arithmetic.eqWord x w = decide (n = w.toNat) :=
    LawfulArithmetic.eq hx (LawfulArithmetic.ofWord w)
  rw [isProbablePrime, lt_five_eq hx, hword, hword, LawfulArithmetic.testBit hx, Nat.testBit_zero]
  by_cases hlt : n < 5
  · rw [if_pos (decide_eq_true hlt), Bool.decide_or]
    rfl
  · rw [if_neg (mt of_decide_eq_true hlt), if_neg (by rw [decide_eq_true_eq]; omega),
      decide_eq_false (by omega)]

/-- The base of every byte string of the drawn length is computed, and the test with it decides what
the base shows. -/
def DecidesRounds (x : α) (n : Nat) (top odd : α) (twos : Nat) : Prop :=
  ∀ bytes, bytes.length = baseWidth n →
    Returns (witnessOfBytes x bytes) fun w => Denotes w (base n bytes) ∧
      Returns (survives x top odd twos w) fun survived =>
        survived = true ↔ StrongProbablePrime n (base n bytes)

/-- The parts of one less than the number are computed, and rounds are decided with them. -/
def RunsInRounds (x : α) (n : Nat) : Prop :=
  ∃ top odd, Arithmetic.sub x (Arithmetic.ofWord 1) = .ok top ∧
    Arithmetic.shiftRight top (trailingZeros top) = .ok odd ∧
    DecidesRounds x n top odd (trailingZeros top)

/-- Rounds that are decided take the course that they are meant to. -/
theorem DecidesRounds.tested {top odd : α} {twos : Nat} (h : DecidesRounds x n top odd twos)
    (hx : Denotes x n) (rounds : Nat) (s : σ) :
    Tested n rounds s ((survivesRounds x top odd twos rounds).runFrom s).1
      ((survivesRounds x top odd twos rounds).runFrom s).2 := by
  induction rounds generalizing s with
  | zero => exact .done s
  | succ rounds ih =>
      rw [survivesRounds, LawfulArithmetic.bitLength hx, ← baseWidth]
      rcases hfill : RandomSource.fill s (baseWidth n) with ⟨e | bytes, t⟩
      · rw [Randomized.runFrom_draw_bind_error hfill]
        exact .failed hfill
      · have hlength := RandomSource.length_of_fill s _ bytes (congrArg Prod.fst hfill)
        obtain ⟨w, hw, -, survived, hsurvived, hverdict⟩ := h bytes hlength
        rw [Randomized.runFrom_draw_bind_ok hfill, Randomized.runFrom_lift_bind_ok hw,
          Randomized.runFrom_lift_bind_ok hsurvived]
        cases survived with
        | false => exact .refuted hfill (mt hverdict.mpr Bool.false_ne_true)
        | true => exact .passed hfill (hverdict.mp rfl) (ih t)

/-- An odd number from five on is tested in rounds. -/
theorem RunsInRounds.tested (h : RunsInRounds x n) (hx : Denotes x n) (hn : 5 ≤ n)
    (hodd : n % 2 = 1) (rounds : Nat) (s : σ) :
    Tested n rounds s ((isProbablePrime x rounds).runFrom s).1
      ((isProbablePrime x rounds).runFrom s).2 := by
  obtain ⟨top, odd, htop, hshift, hround⟩ := h
  rw [isProbablePrime, lt_five_eq hx, if_neg (mt of_decide_eq_true (Nat.not_lt_of_le hn)),
    LawfulArithmetic.testBit hx, if_pos (by rw [Nat.testBit_zero, hodd]; rfl),
    Randomized.runFrom_lift_bind_ok htop, Randomized.runFrom_lift_bind_ok hshift]
  exact hround.tested hx rounds s

/-- The parts of one less than an odd number. -/
theorem split_pred {n : Nat} (hn : 1 < n) (hodd : n % 2 = 1) :
    0 < trailingZeros (n - 1) ∧ ((n - 1) >>> trailingZeros (n - 1)) % 2 = 1 ∧
      ((n - 1) >>> trailingZeros (n - 1)) * 2 ^ trailingZeros (n - 1) = n - 1 := by
  have hspec := trailingZeros_spec (n := n - 1) (by omega)
  refine ⟨Nat.pos_of_ne_zero fun hzero => ?_, hspec⟩
  rw [hzero, Nat.shiftRight_zero] at hspec
  omega

/-- Exact arithmetic runs in rounds. -/
theorem exact_runsInRounds {n : Nat} (hn : 5 ≤ n) (hodd : n % 2 = 1) : RunsInRounds n n := by
  obtain ⟨htwos, hoddPart, hsplit⟩ := split_pred (by omega) hodd
  have htop : Arithmetic.sub n (Arithmetic.ofWord 1) = .ok (n - 1) :=
    LawfulArithmetic.exact_sub_of_le (show 1 ≤ n by omega)
  refine ⟨n - 1, _, htop, rfl, fun bytes _ => ?_⟩
  rw [witnessOfBytes_exact hn]
  refine .ok ⟨rfl, (survives_exact (by omega) _ _ htwos).mono fun survived hsurvived => ?_⟩
  exact hsurvived.trans (strongProbablePrime_iff hoddPart hsplit).symm

/-- Arithmetic runs in rounds on a number whose square fits the scratch area. -/
theorem runsInRounds_of_within {limit : Nat} (hlimit : limit + limit ≤ FixedNat.scratchLimbs)
    (hx : Within limit x n) (hn : 5 ≤ n) (hodd : n % 2 = 1) : RunsInRounds x n := by
  have hscratch : FixedNat.scratchLimbs = 130 := rfl
  have hsize := (size_le_mul_count n).trans (Nat.mul_le_mul_left 64 hx.count_le)
  obtain ⟨top', odd', htop', hshift', hround⟩ := exact_runsInRounds hn hodd
  have hsub : Refines True (Within limit) (Arithmetic.sub x (Arithmetic.ofWord 1)) (.ok top') :=
    htop' ▸ hx.sub hlimit (LawfulArithmetic.ofWord 1)
  obtain ⟨top, htop, htopWithin⟩ := hsub.returns trivial
  have hshift := htopWithin.shiftRight hlimit (trailingZeros top')
  rw [hshift', ← trailingZeros_eq htopWithin.denotes] at hshift
  obtain ⟨odd, hshift, hoddWithin⟩ := hshift.returns trivial
  refine ⟨top, odd, htop, hshift, fun bytes hbytes => ?_⟩
  obtain ⟨_, hbase, rfl, hsurvives⟩ := hround bytes hbytes
  rw [baseWidth] at hbytes
  have hwitness : Refines True (Within limit) (witnessOfBytes x bytes)
      (.ok (base n bytes)) :=
    hbase ▸ witnessOfBytes_refines hlimit hx (by omega)
  refine (hwitness.returns trivial).mono fun w hw => ⟨hw.denotes, ?_⟩
  rw [trailingZeros_eq htopWithin.denotes]
  refine ((survives_refines hlimit hx htopWithin.denotes hoddWithin.denotes _ hw).returns_of_returns
    trivial hsurvives).mono ?_
  rintro survived ⟨_, rfl, hverdict⟩
  exact hverdict

/-- A prime is not called composite. -/
theorem RunsInRounds.ne_false_of_prime (h : 5 ≤ n → n % 2 = 1 → RunsInRounds x n)
    (hx : Denotes x n) (hprime : n.Prime) (rounds : Nat) (s : σ) :
    ((isProbablePrime x rounds).runFrom s).1 ≠ .ok false := by
  by_cases hearly : n < 5 ∨ n % 2 = 0
  · rw [isProbablePrime_of_small_or_even hx hearly]
    have hvalue : n = 2 ∨ n = 3 := by
      rcases hprime.eq_two_or_odd with htwo | hodd
      · exact .inl htwo
      · have hone := hprime.one_lt
        omega
    rw [decide_eq_true hvalue]
    rintro ⟨⟩
  · have hn : 5 ≤ n := by omega
    exact ((h hn (by omega)).tested hx hn (by omega) rounds s).ne_false_of_prime hprime hn

/-- With a reliable source the test ends in a verdict. -/
theorem RunsInRounds.exists_ok (h : 5 ≤ n → n % 2 = 1 → RunsInRounds x n) (hx : Denotes x n)
    {I : σ → Prop} (hI : RandomSource.Reliable I) (rounds : Nat) {s : σ} (hs : I s) :
    (∃ verdict, ((isProbablePrime x rounds).runFrom s).1 = .ok verdict) ∧
      I ((isProbablePrime x rounds).runFrom s).2 := by
  by_cases hearly : n < 5 ∨ n % 2 = 0
  · rw [isProbablePrime_of_small_or_even hx hearly]
    exact ⟨⟨_, rfl⟩, hs⟩
  · have hn : 5 ≤ n := by omega
    exact ((h hn (by omega)).tested hx hn (by omega) rounds s).exists_ok hI hs

/-- With a reliable source a prime is accepted. -/
theorem RunsInRounds.accepts (h : 5 ≤ n → n % 2 = 1 → RunsInRounds x n) (hx : Denotes x n)
    (hprime : n.Prime) {I : σ → Prop} (hI : RandomSource.Reliable I) (rounds : Nat) {s : σ}
    (hs : I s) : ∃ t, I t ∧ (isProbablePrime x rounds).runFrom s = (.ok true, t) := by
  obtain ⟨⟨verdict, hverdict⟩, ht⟩ := exists_ok h hx hI rounds hs
  refine ⟨_, ht, Prod.ext ?_ rfl⟩
  cases verdict with
  | true => exact hverdict
  | false => exact absurd hverdict (ne_false_of_prime h hx hprime rounds s)

end Test

/-! ### What the test is asked for -/

/-- A test of the number `n`, which the arithmetic holds as `x`: it takes the course of its rounds,
with bases in their range; it accepts a prime, and what it does not accept is zero, one or
composite. -/
structure TestsPrimality {α : Type} [Arithmetic α] [LawfulArithmetic α] (x : α) (n : Nat) :
    Prop where
  recognizes : n < 5 ∨ n % 2 = 0 → ∀ (σ : Type) [RandomSource σ] (rounds : Nat) (s : σ),
    (isProbablePrime x rounds).runFrom s = (.ok (decide (n = 2 ∨ n = 3)), s)
  tests : 5 ≤ n → n % 2 = 1 → ∀ (σ : Type) [RandomSource σ] (rounds : Nat) (s : σ),
    Tested n rounds s ((isProbablePrime x rounds).runFrom s).1
      ((isProbablePrime x rounds).runFrom s).2
  witness_mem : 5 ≤ n → n % 2 = 1 → ∀ bytes, bytes.length = baseWidth n →
    Returns (witnessOfBytes x bytes) fun w => ∃ a, Denotes w a ∧ 2 ≤ a ∧ a ≤ n - 2
  accepts : n.Prime → ∀ (σ : Type) [RandomSource σ] (I : σ → Prop), RandomSource.Reliable I →
    ∀ (rounds : Nat) (s : σ), I s →
      ∃ t, I t ∧ (isProbablePrime x rounds).runFrom s = (.ok true, t)
  certifies : ∀ (σ : Type) [RandomSource σ] (rounds : Nat) (s t : σ),
    (isProbablePrime x rounds).runFrom s = (.ok false, t) →
      n = 0 ∨ n = 1 ∨ ∃ a b, 1 < a ∧ 1 < b ∧ a * b = n

/-- A number that is no prime is zero, one or composite. -/
theorem composite_of_not_prime {n : Nat} (h : ¬n.Prime) :
    n = 0 ∨ n = 1 ∨ ∃ a b, 1 < a ∧ 1 < b ∧ a * b = n := by
  rcases Nat.lt_or_ge n 2 with hlt | hle
  · omega
  · obtain ⟨a, ⟨b, rfl⟩, ha, hlt⟩ := Nat.exists_dvd_of_not_prime2 hle h
    have hb : 1 < b := (Nat.lt_mul_iff_one_lt_right (by omega)).mp hlt
    exact .inr (.inr ⟨a, b, ha, hb, rfl⟩)

/-- A test that runs in rounds is one. -/
theorem RunsInRounds.testsPrimality {α : Type} [Arithmetic α] [LawfulArithmetic α] {x : α} {n : Nat}
    (h : 5 ≤ n → n % 2 = 1 → RunsInRounds x n) (hx : Denotes x n) : TestsPrimality x n where
  recognizes hearly σ _ rounds s := by
    rw [isProbablePrime_of_small_or_even hx hearly]
    rfl
  tests hn hodd σ _ rounds s := (h hn hodd).tested hx hn hodd rounds s
  witness_mem hn hodd bytes hbytes := by
    obtain ⟨_, _, _, _, hround⟩ := h hn hodd
    exact (hround bytes hbytes).mono fun w hw => ⟨_, hw.1, base_mem hn bytes⟩
  accepts hprime _ _ _ hI rounds _ hs := accepts h hx hprime hI rounds hs
  certifies σ _ rounds s t hrun :=
    composite_of_not_prime fun hprime =>
      ne_false_of_prime h hx hprime rounds s (congrArg Prod.fst hrun)

/-- The test never rejects a prime: of any size in exact arithmetic, and of up to 65 limbs, whose
squares just fit the scratch area, in buffers. -/
theorem isProbablePrime_testsPrimality (n : Nat) :
    (∀ x : FixedNat, Denotes x n → count n ≤ 65 → TestsPrimality x n) ∧ TestsPrimality n n :=
  ⟨fun x hx hcount => RunsInRounds.testsPrimality
    (runsInRounds_of_within (by decide) (⟨hx, hcount⟩ : Within 65 x n)) hx,
    RunsInRounds.testsPrimality exact_runsInRounds rfl⟩

/-- The largest known Fermat prime, for which all sixteen squarings may be needed, is accepted. -/
theorem isProbablePrime_testsPrimality_fermat :
    Denotes (Arithmetic.ofWord 65537 : FixedNat) 65537 ∧ count 65537 ≤ 65 ∧
      Nat.Prime 65537 ∧ ∃ t, (isProbablePrime (Arithmetic.ofWord 65537 : FixedNat) 8).runFrom
        (⟨fun _ => 3, none, 0⟩ : ByteStream) = (.ok true, t) := by
  have hx : Denotes (Arithmetic.ofWord 65537 : FixedNat) 65537 := LawfulArithmetic.ofWord _
  have hcount : count 65537 ≤ 65 :=
    (Limbs.count_le_of_lt_two_pow (show 65537 < 2 ^ 64 by decide)).trans (by decide)
  have hprime : Nat.Prime 65537 := by norm_num
  obtain ⟨t, -, hrun⟩ := ((isProbablePrime_testsPrimality 65537).1 _ hx hcount).accepts hprime _ _
    (ByteStream.IsConstant.reliable 3) 8 ⟨fun _ => 3, none, 0⟩ ⟨rfl, rfl⟩
  exact ⟨hx, hcount, hprime, t, hrun⟩

end TrustedPlatform.Rsa
