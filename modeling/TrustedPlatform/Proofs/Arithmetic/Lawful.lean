import TrustedPlatform.Arithmetic.Fixed
import TrustedPlatform.Proofs.Integer.Euclid
import TrustedPlatform.Proofs.Integer.Power

/-!
# Lawful arithmetic

An arithmetic is lawful when its numbers denote natural numbers and each of its operations refines
the one of exact arithmetic. The laws name the room that an operation may ask for, in limbs of a
scratch area of `FixedNat.scratchLimbs`; exact arithmetic itself is lawful, and so is the one in
buffers.
-/

namespace TrustedPlatform

open FixedNat (scratchLimbs)
open Limbs (count count_mono)

/-- An arithmetic whose operations refine the exact ones. -/
class LawfulArithmetic (α : Type) [Arithmetic α] where
  /-- A number of the arithmetic stands for a natural number. -/
  Denotes : α → Nat → Prop
  ofBytes (bytes : Bytes) : Denotes (Arithmetic.ofBytes bytes) (Bytes.toNat bytes)
  ofWord (w : Word) : Denotes (Arithmetic.ofWord w) w.toNat
  toBytes {x : α} {n : Nat} (hx : Denotes x n) : Arithmetic.toBytes x = Bytes.ofNat n
  toBytesPadded {x : α} {n : Nat} (hx : Denotes x n) (width : Nat) :
    Refines True Eq (Arithmetic.toBytesPadded x width) (Arithmetic.toBytesPadded n width)
  isZero {x : α} {n : Nat} (hx : Denotes x n) : Arithmetic.isZero x = (n == 0)
  bitLength {x : α} {n : Nat} (hx : Denotes x n) : Arithmetic.bitLength x = n.size
  testBit {x : α} {n : Nat} (hx : Denotes x n) (bit : Nat) :
    Arithmetic.testBit x bit = n.testBit bit
  compare {x y : α} {n k : Nat} (hx : Denotes x n) (hy : Denotes y k) :
    Arithmetic.compare x y = Ord.compare n k
  add {x y : α} {n k : Nat} (hx : Denotes x n) (hy : Denotes y k) :
    Refines (max (count n) (count k) + 1 ≤ scratchLimbs) Denotes (Arithmetic.add x y)
      (Arithmetic.add n k)
  sub {x y : α} {n k : Nat} (hx : Denotes x n) (hy : Denotes y k) :
    Refines (count n ≤ scratchLimbs) Denotes (Arithmetic.sub x y) (Arithmetic.sub n k)
  mul {x y : α} {n k : Nat} (hx : Denotes x n) (hy : Denotes y k) :
    Refines (count n + count k ≤ scratchLimbs) Denotes (Arithmetic.mul x y) (Arithmetic.mul n k)
  divRem {x y : α} {n k : Nat} (hx : Denotes x n) (hy : Denotes y k) :
    Refines (max (count n) (count k) ≤ scratchLimbs)
      (fun p q => Denotes p.1 q.1 ∧ Denotes p.2 q.2) (Arithmetic.divRem x y)
      (Arithmetic.divRem n k)
  modWord {x : α} {n : Nat} (hx : Denotes x n) (w : Word) :
    Refines True Eq (Arithmetic.modWord x w) (Arithmetic.modWord n w)
  shiftLeft {x : α} {n : Nat} (hx : Denotes x n) (bits : Nat) :
    Refines (n = 0 ∨ count n + bits / 64 + 1 ≤ scratchLimbs) Denotes
      (Arithmetic.shiftLeft x bits) (Arithmetic.shiftLeft n bits)
  shiftRight {x : α} {n : Nat} (hx : Denotes x n) (bits : Nat) :
    Refines (count n - bits / 64 ≤ scratchLimbs) Denotes (Arithmetic.shiftRight x bits)
      (Arithmetic.shiftRight n bits)
  modMul {x y z : α} {n k m : Nat} (hx : Denotes x n) (hy : Denotes y k) (hz : Denotes z m) :
    Refines (count n + count k ≤ scratchLimbs) Denotes (Arithmetic.modMul x y z)
      (Arithmetic.modMul n k m)
  modInverse {x z : α} {n m : Nat} (hx : Denotes x n) (hz : Denotes z m) :
    Refines (count n ≤ scratchLimbs ∧ count m + 1 ≤ scratchLimbs) (Option.Rel Denotes)
      (Arithmetic.modInverse x z) (Arithmetic.modInverse n m)
  gcd {x y : α} {n k : Nat} (hx : Denotes x n) (hy : Denotes y k) :
    Refines (max (count n) (count k) ≤ scratchLimbs) Denotes (Arithmetic.gcd x y)
      (Arithmetic.gcd n k)
  modPow {x e z : α} {n k m : Nat} (hx : Denotes x n) (he : Denotes e k) (hz : Denotes z m) :
    Refines (count n ≤ scratchLimbs ∧ count m + count m ≤ scratchLimbs) Denotes
      (Arithmetic.modPow x e z) (Arithmetic.modPow n k m)

namespace LawfulArithmetic

/-! ### Exact arithmetic -/

/-- A computation refines itself. -/
theorem refines_self {β : Type} (room : Prop) (outcome : Checked β) :
    Refines room Eq outcome outcome :=
  .of_eq rfl

/-- The bit length of exact arithmetic. -/
theorem exact_bitLength (n : Nat) : Arithmetic.bitLength n = n.size := by
  show (if n = 0 then 0 else n.log2 + 1) = n.size
  split
  · rename_i h
    rw [h, Nat.size_zero]
  · rename_i h
    exact (Word.size_eq_log2_add_one h).symm

end LawfulArithmetic

/-- Exact arithmetic is lawful. -/
instance : LawfulArithmetic Nat where
  Denotes := Eq
  ofBytes _ := rfl
  ofWord _ := rfl
  toBytes hx := hx ▸ rfl
  toBytesPadded hx _ := hx ▸ LawfulArithmetic.refines_self _ _
  isZero hx := hx ▸ rfl
  bitLength hx := hx ▸ LawfulArithmetic.exact_bitLength _
  testBit hx _ := hx ▸ rfl
  compare hx hy := hx ▸ hy ▸ rfl
  add hx hy := hx ▸ hy ▸ LawfulArithmetic.refines_self _ _
  sub hx hy := hx ▸ hy ▸ LawfulArithmetic.refines_self _ _
  mul hx hy := hx ▸ hy ▸ LawfulArithmetic.refines_self _ _
  divRem hx hy := hx ▸ hy ▸ (LawfulArithmetic.refines_self _ _).mono id fun _ _ h => h ▸ ⟨rfl, rfl⟩
  modWord hx _ := hx ▸ LawfulArithmetic.refines_self _ _
  shiftLeft hx _ := hx ▸ LawfulArithmetic.refines_self _ _
  shiftRight hx _ := hx ▸ LawfulArithmetic.refines_self _ _
  modMul hx hy hz := hx ▸ hy ▸ hz ▸ LawfulArithmetic.refines_self _ _
  modInverse hx hz := hx ▸ hz ▸ (LawfulArithmetic.refines_self _ _).mono id fun v _ h =>
    h ▸ by cases v with
      | none => exact .none
      | some x => exact .some rfl
  gcd hx hy := hx ▸ hy ▸ LawfulArithmetic.refines_self _ _
  modPow hx he hz := hx ▸ he ▸ hz ▸ LawfulArithmetic.refines_self _ _

/-! ### Arithmetic in buffers -/

namespace FixedNat

variable {x : FixedNat} {n : Nat}

/-- The byte strings of a given width agree, and are refused for the same widths. -/
theorem toBytesPadded_refines (hx : x.Denotes n) (width : Nat) :
    Refines True Eq (x.toBytesPadded width) (Exact.toBytesPadded n width) := by
  unfold toBytesPadded Exact.toBytesPadded
  rw [byteLength_eq, lowBytes_eq, hx.value_eq]
  refine .ite Iff.rfl (fun _ => .error ⟨rfl, rfl⟩) fun _ => .ok rfl

/-- The remainders by a word agree. -/
theorem modWord_refines (hx : x.Denotes n) (w : Word) :
    Refines True Eq (x.modWord w)
      (Exact.unlessZero w.toNat fun _ => UInt64.ofNat (n % w.toNat)) := by
  rw [modWord_eq, hx.value_eq]
  exact LawfulArithmetic.refines_self _ _

/-- The product with a power of two fits the capacity it is given. -/
theorem shiftLeft_refines (hx : x.Denotes n) (bits : Nat) :
    Refines (n = 0 ∨ count n + bits / 64 + 1 ≤ scratchLimbs) Denotes
      (x.shiftLeft (x.size + Word.countForBits bits + 1) bits) (.ok (n <<< bits)) := by
  rw [shiftLeft_eq hx.wellFormed, hx.value_eq, hx.size_eq, Nat.shiftLeft_eq]
  by_cases hzero : n = 0
  · rw [if_pos hzero, hzero, Nat.zero_mul]
    exact .ok (denotes_ofNat (Limbs.size_pow_pos _))
  · have hfits : Fits (count n + Word.countForBits bits + 1) (n * 2 ^ bits) := by
      refine fits_of_count_le (Limbs.count_le_iff.mpr ?_)
      have hpow : 2 ^ bits ≤ UInt64.size ^ Word.countForBits bits := by
        rw [Limbs.size_pow_eq, Word.countForBits]
        exact Nat.pow_le_pow_right (by decide) (by omega)
      calc n * 2 ^ bits < UInt64.size ^ count n * UInt64.size ^ Word.countForBits bits :=
            Nat.mul_lt_mul_of_lt_of_le (Limbs.lt_size_pow_count n) hpow
            (Limbs.size_pow_pos _)
        _ ≤ UInt64.size ^ (count n + Word.countForBits bits + 1) := by
            rw [← Nat.pow_add]
            exact Nat.pow_le_pow_right (by decide) (Nat.le_succ _)
    rw [if_neg hzero]
    exact inScratch_refines (fun h => h.resolve_left hzero) (hold?_refines fun _ => hfits)

/-- The quotient by a power of two, zero when every used limb is shifted out. -/
theorem shiftRight_refines (hx : x.Denotes n) (bits : Nat) :
    Refines (count n - bits / 64 ≤ scratchLimbs) Denotes (x.shiftRight x.size bits)
      (.ok (n >>> bits)) := by
  rw [shiftRight_eq, hx.value_eq, hx.size_eq, Nat.shiftRight_eq_div_pow]
  by_cases hall : count n ≤ bits / 64
  · have hzero : n / 2 ^ bits = 0 := by
      rw [Nat.div_eq_zero_iff_lt (Nat.two_pow_pos bits)]
      refine (Limbs.count_le_iff.mp hall).trans_le ?_
      rw [Limbs.size_pow_eq]
      exact Nat.pow_le_pow_right (by decide) (by omega)
    rw [if_pos hall, hzero]
    exact .ok (denotes_ofNat (Limbs.size_pow_pos _))
  · rw [if_neg hall]
    refine inScratch_refines id (hold?_refines fun _ => ?_)
    exact (fits_of_count_le le_rfl).mono (Nat.div_le_self n _)

/-- The sum needs at most one limb more than the larger summand. -/
theorem fits_add (n k : Nat) : Fits (max (count n) (count k) + 1) (n + k) := by
  refine fits_of_count_le (Limbs.count_le_iff.mpr ?_)
  have hn := Limbs.count_le_iff.mp (Nat.le_max_left (count n) (count k))
  have hk := Limbs.count_le_iff.mp (Nat.le_max_right (count n) (count k))
  have hsize : 2 ≤ UInt64.size := Limbs.one_lt_size
  rw [Nat.pow_succ]
  calc n + k < UInt64.size ^ max (count n) (count k) * 2 := by omega
    _ ≤ UInt64.size ^ max (count n) (count k) * UInt64.size := Nat.mul_le_mul_left _ hsize

/-- The product needs at most the limbs of both factors. -/
theorem fits_mul (n k : Nat) : Fits (count n + count k) (n * k) := by
  refine fits_of_count_le (Limbs.count_le_iff.mpr ?_)
  rw [Nat.pow_add]
  exact Nat.mul_lt_mul'' (Limbs.lt_size_pow_count n) (Limbs.lt_size_pow_count k)

/-- A number fits a capacity equal to its count. -/
theorem fits_count (n : Nat) : Fits (count n) n :=
  fits_of_count_le le_rfl

/-- A remainder fits where the modulus does. -/
theorem fits_mod (n : Nat) {m : Nat} (h : m ≠ 0) : Fits (count m) (n % m) :=
  (fits_count m).mono (Nat.mod_lt n (Nat.pos_of_ne_zero h)).le

/-- A greatest common divisor fits where both numbers do. -/
theorem fits_gcd (n k : Nat) : Fits (max (count n) (count k)) (Nat.gcd n k) := by
  rcases Nat.eq_zero_or_pos n with rfl | hn
  · rw [Nat.gcd_zero_left]
    exact fits_of_count_le (Nat.le_max_right _ _)
  · have hfits : Fits (max (count n) (count k)) n := fits_of_count_le (Nat.le_max_left _ _)
    exact hfits.mono (Nat.gcd_le_left k hn)

end FixedNat

open FixedNat (fits_count)

/-- Arithmetic in buffers is lawful. -/
instance : LawfulArithmetic FixedNat where
  Denotes := FixedNat.Denotes
  ofBytes bytes := by
    show (FixedNat.ofBytes bytes).Denotes _
    rw [FixedNat.ofBytes_eq]
    exact FixedNat.denotes_ofNat (FixedNat.toNat_lt_size_pow bytes)
  ofWord w := FixedNat.denotes_ofWord w 1
  toBytes {x n} hx := by
    show x.toBytes = _
    rw [FixedNat.toBytes_eq, hx.value_eq]
  toBytesPadded hx width := FixedNat.toBytesPadded_refines hx width
  isZero {x n} hx := by
    show x.isZero = _
    rw [FixedNat.isZero_eq hx.wellFormed, hx.value_eq]
  bitLength hx := hx.bitLength_eq
  testBit {x n} hx bit := by
    show x.testBit bit = _
    rw [FixedNat.testBit_eq, hx.value_eq]
  compare hx hy := hx.compare_eq hy
  add {x y n k} hx hy := by
    show Refines _ _ (FixedNat.add (max x.size y.size + 1) x y) (.ok (n + k))
    rw [hx.size_eq, hy.size_eq]
    exact FixedNat.add_refines hx hy id fun _ => FixedNat.fits_add n k
  sub {x y n k} hx hy := by
    show Refines _ _ (FixedNat.sub x.size x y) (if n < k then _ else .ok (n - k))
    rw [hx.size_eq]
    exact FixedNat.sub_refines _ hx hy id fun _ => fits_count n
  mul {x y n k} hx hy := by
    show Refines _ _ (FixedNat.mul (x.size + y.size) x y) (.ok (n * k))
    rw [hx.size_eq, hy.size_eq]
    exact FixedNat.mul_refines hx hy id fun _ => FixedNat.fits_mul n k
  divRem {x y n k} hx hy := by
    show Refines _ _ (FixedNat.divRem x.size y.size x y) (Exact.unlessZero k fun _ => _)
    rw [hx.size_eq, hy.size_eq]
    exact FixedNat.divRem_refines _ _ hx hy id (fun _ => (fits_count n).mono (Nat.div_le_self n k))
      fun hk _ => FixedNat.fits_mod n hk
  modWord hx w := FixedNat.modWord_refines hx w
  shiftLeft hx bits := FixedNat.shiftLeft_refines hx bits
  shiftRight hx bits := FixedNat.shiftRight_refines hx bits
  modMul {x y z n k m} hx hy hz := by
    show Refines _ _ (FixedNat.modMul z.size x y z) (Exact.unlessZero m fun _ => n * k % m)
    rw [hz.size_eq]
    exact FixedNat.modMul_refines hx hy hz id fun hm _ => FixedNat.fits_mod _ hm
  modInverse {x z n m} hx hz := by
    show Refines _ _ (FixedNat.modInverse z.size x z) (Exact.unlessZero m fun _ => _)
    rw [hz.size_eq]
    exact FixedNat.modInverse_refines hx hz id fun hm _ hinverse _ =>
      (fits_count m).mono (Exact.modInverse_spec hm hinverse).1.le
  gcd {x y n k} hx hy := by
    show Refines _ _ (FixedNat.gcd (max x.size y.size) x y) (.ok (Nat.gcd n k))
    rw [hx.size_eq, hy.size_eq]
    refine FixedNat.gcd_refines hx hy fun h => ?_
    exact ⟨(Nat.le_max_left _ _).trans h, (Nat.le_max_right _ _).trans h, FixedNat.fits_gcd n k⟩
  modPow {x e z n k m} hx he hz := by
    show Refines _ _ (FixedNat.modPow z.size x e z) (Exact.unlessZero m fun _ => _)
    rw [hz.size_eq]
    exact FixedNat.modPow_refines _ hx he hz id fun hm _ => FixedNat.fits_mod _ hm

/-! ### Derived operations -/

namespace LawfulArithmetic

variable {α : Type} [Arithmetic α] [LawfulArithmetic α]
variable {x y z : α} {n k m : Nat}

/-- The numbers of a sum's limbs. -/
theorem count_add_le (n k : Nat) : count (n + k) ≤ max (count n) (count k) + 1 :=
  Limbs.count_le_iff.mpr (by simpa [FixedNat.Fits] using FixedNat.fits_add n k)

/-- The remainder. -/
theorem reduce (hx : Denotes x n) (hz : Denotes z m) :
    Refines (max (count n) (count m) ≤ scratchLimbs) Denotes (Arithmetic.reduce x z)
      (Arithmetic.reduce n m) :=
  (divRem hx hz).bind fun _ _ h => .ok h.2

/-- The remainder in exact arithmetic. -/
theorem exact_reduce (n m : Nat) : Arithmetic.reduce n m = Exact.unlessZero m fun _ => n % m := by
  show (Exact.unlessZero m (fun _ => (n / m, n % m)) >>= fun p => .ok p.2) = _
  unfold Exact.unlessZero
  split <;> rfl

/-- A difference that does not fall below zero in exact arithmetic. -/
theorem exact_sub_of_le (h : k ≤ n) : Arithmetic.sub n k = .ok (n - k) :=
  if_neg (Nat.not_lt.mpr h)

/-- The sum modulo a third number. -/
theorem modAdd (hx : Denotes x n) (hy : Denotes y k) (hz : Denotes z m) :
    Refines (max (count n) (count k) + 1 ≤ scratchLimbs ∧ count m ≤ scratchLimbs) Denotes
      (Arithmetic.modAdd x y z) (Arithmetic.modAdd n k m) := by
  have hadd : Refines (max (count n) (count k) + 1 ≤ scratchLimbs ∧ count m ≤ scratchLimbs)
      Denotes (Arithmetic.add x y) (.ok (n + k)) := (add hx hy).under And.left
  show Refines _ _ (Arithmetic.add x y >>= fun s => Arithmetic.reduce s z)
    (Arithmetic.reduce (n + k) m)
  refine hadd.bind_ok fun s hs => (reduce hs hz).under ?_
  rintro ⟨hsum, hm⟩
  exact max_le ((count_add_le n k).trans hsum) hm

/-- The sum modulo a third number in exact arithmetic. -/
theorem exact_modAdd (n k m : Nat) :
    Arithmetic.modAdd n k m = Exact.unlessZero m fun _ => (n + k) % m :=
  exact_reduce (n + k) m

/-- The difference modulo a third number in exact arithmetic. -/
theorem exact_modSub (n k m : Nat) :
    Arithmetic.modSub n k m = Exact.unlessZero m fun _ =>
      if n % m < k % m then n % m + m - k % m else n % m - k % m := by
  simp only [Arithmetic.modSub, exact_reduce]
  by_cases hm : m = 0
  · subst hm
    rfl
  · have hlt := Nat.mod_lt k (Nat.pos_of_ne_zero hm)
    rw [Exact.unlessZero_of_ne hm, Exact.unlessZero_of_ne hm, Exact.unlessZero_of_ne hm]
    show (if Ord.compare (n % m) (k % m) ≠ .lt
        then if n % m < k % m then .error (.fatal .parameter) else .ok (n % m - k % m)
        else if n % m + m < k % m then .error (.fatal .parameter)
          else .ok (n % m + m - k % m)) = (_ : Checked Nat)
    by_cases h : n % m < k % m
    · rw [if_neg (not_not.mpr (Nat.compare_eq_lt.mpr h)), if_neg (by omega), if_pos h]
    · rw [if_pos (mt Nat.compare_eq_lt.mp h), if_neg h, if_neg h]

/-- The difference modulo a third number. -/
theorem modSub (hx : Denotes x n) (hy : Denotes y k) (hz : Denotes z m) :
    Refines (count n ≤ scratchLimbs ∧ count k ≤ scratchLimbs ∧ count m + 1 ≤ scratchLimbs) Denotes
      (Arithmetic.modSub x y z) (Arithmetic.modSub n k m) := by
  generalize hroom :
    (count n ≤ scratchLimbs ∧ count k ≤ scratchLimbs ∧ count m + 1 ≤ scratchLimbs) = room
  have hlimits : room → count n ≤ scratchLimbs ∧ count k ≤ scratchLimbs ∧
      count m + 1 ≤ scratchLimbs := hroom.mpr
  have hn : Refines room Denotes (Arithmetic.reduce x z) (Arithmetic.reduce n m) := by
    refine (reduce hx hz).under fun h => ?_
    exact max_le (hlimits h).1 (Nat.le_of_succ_le (hlimits h).2.2)
  have hk : Refines room Denotes (Arithmetic.reduce y z) (Arithmetic.reduce k m) := by
    refine (reduce hy hz).under fun h => ?_
    exact max_le (hlimits h).2.1 (Nat.le_of_succ_le (hlimits h).2.2)
  rw [exact_reduce] at hn hk
  rw [exact_modSub, Arithmetic.modSub]
  by_cases hm : m = 0
  · subst hm
    exact hn.bind_error
  · rw [Exact.unlessZero_of_ne hm] at hn hk ⊢
    have hnlt := Nat.mod_lt n (Nat.pos_of_ne_zero hm)
    have hklt := Nat.mod_lt k (Nat.pos_of_ne_zero hm)
    have hncount : count (n % m) ≤ count m := count_mono hnlt.le
    refine hn.bind_ok fun a ha => ?_
    refine hk.bind_ok fun b hb => ?_
    rw [compare ha hb]
    by_cases h : n % m < k % m
    · -- the modulus is added first, which takes one limb more than the modulus has
      have hlifted : count (n % m + m) ≤ count m + 1 := by
        have hle := count_add_le (n % m) m
        rwa [Nat.max_eq_right hncount] at hle
      have hadd : Refines room Denotes (Arithmetic.add a z) (.ok (n % m + m)) := by
        refine (add ha hz).under fun h => ?_
        exact (Nat.succ_le_succ (max_le hncount le_rfl)).trans (hlimits h).2.2
      rw [if_neg (not_not.mpr (Nat.compare_eq_lt.mpr h)), if_pos h]
      refine hadd.bind_ok fun lifted hl => ?_
      rw [← exact_sub_of_le (hklt.le.trans (Nat.le_add_left m (n % m)))]
      exact (sub hl hb).under fun h => hlifted.trans (hlimits h).2.2
    · rw [if_pos (mt Nat.compare_eq_lt.mp h), if_neg h, ← exact_sub_of_le (Nat.le_of_not_lt h)]
      exact (sub ha hb).under fun h => hncount.trans (Nat.le_of_succ_le (hlimits h).2.2)

/-- The low bits in exact arithmetic. -/
theorem exact_maskBits (n bits : Nat) : Arithmetic.maskBits n bits = .ok (n % 2 ^ bits) := by
  have hsplit := Nat.div_add_mod' n (2 ^ bits)
  have hhigh : n >>> bits <<< bits = n / 2 ^ bits * 2 ^ bits := by
    rw [Nat.shiftRight_eq_div_pow, Nat.shiftLeft_eq]
  show Arithmetic.sub n (n >>> bits <<< bits) = _
  rw [hhigh, exact_sub_of_le (by omega)]
  congr 1
  omega

/-- A quotient by a power of two has as many limbs less as the power has whole limbs. -/
theorem count_shiftRight (n bits : Nat) :
    n >>> bits = 0 ∨ count (n >>> bits) + bits / 64 ≤ count n := by
  rcases Nat.eq_zero_or_pos (n >>> bits) with h | h
  · exact .inl h
  · have hcount : count (n >>> bits) ≠ 0 := mt Limbs.count_eq_zero_iff.mp h.ne'
    have hlow := Limbs.lt_count_iff.mp (Nat.sub_one_lt hcount)
    have hweight : UInt64.size ^ (bits / 64) ≤ 2 ^ bits := by
      rw [Limbs.size_pow_eq]
      exact Nat.pow_le_pow_right (by decide) (Nat.mul_div_le bits 64)
    have hle : UInt64.size ^ (count (n >>> bits) - 1 + bits / 64) ≤ n := by
      rw [Nat.pow_add]
      refine (Nat.mul_le_mul hlow hweight).trans ?_
      rw [Nat.shiftRight_eq_div_pow]
      exact Nat.div_mul_le_self n _
    have := Limbs.lt_count_iff.mpr hle
    exact .inr (by omega)

/-- The low bits. -/
theorem maskBits (hx : Denotes x n) (bits : Nat) :
    Refines (count n + 1 ≤ scratchLimbs) Denotes (Arithmetic.maskBits x bits)
      (Arithmetic.maskBits n bits) := by
  have hright : Refines (count n + 1 ≤ scratchLimbs) Denotes (Arithmetic.shiftRight x bits)
      (.ok (n >>> bits)) := by
    refine (shiftRight hx bits).under fun h => ?_
    omega
  show Refines _ _ _ (Arithmetic.sub n (n >>> bits <<< bits))
  refine hright.bind_ok fun high hhigh => ?_
  -- shifted back, the high part has no more limbs than the number
  have hcount := count_shiftRight n bits
  have hleft : Refines (count n + 1 ≤ scratchLimbs) Denotes (Arithmetic.shiftLeft high bits)
      (.ok (n >>> bits <<< bits)) := by
    refine (shiftLeft hhigh bits).under fun h => ?_
    exact hcount.imp_right fun hle => (Nat.succ_le_succ hle).trans h
  refine hleft.bind_ok fun masked hmasked => ?_
  exact (sub hx hmasked).under Nat.le_of_succ_le

/-- A word is recognized. -/
theorem eqWord (hx : Denotes x n) (w : Word) :
    Arithmetic.eqWord x w = Arithmetic.eqWord n w := by
  rw [Arithmetic.eqWord, compare hx (ofWord w)]
  rfl

/-- A smaller number is recognized. -/
theorem lt (hx : Denotes x n) (hy : Denotes y k) : Arithmetic.lt x y = decide (n < k) := by
  rw [Arithmetic.lt, compare hx hy, Bool.eq_iff_iff, beq_iff_eq, Nat.compare_eq_lt,
    decide_eq_true_eq]

/-- An equal number is recognized. -/
theorem eq (hx : Denotes x n) (hy : Denotes y k) : Arithmetic.eq x y = decide (n = k) := by
  rw [Arithmetic.eq, compare hx hy, Bool.eq_iff_iff, beq_iff_eq, Nat.compare_eq_eq,
    decide_eq_true_eq]

/-- A number is denoted by no other. -/
theorem denotes_unique (h : Denotes x n) (h' : Denotes x k) : n = k := by
  have hself : Arithmetic.eq x x = true := by
    rw [LawfulArithmetic.eq h h]
    exact decide_eq_true rfl
  rwa [LawfulArithmetic.eq h h', decide_eq_true_eq] at hself

end LawfulArithmetic

end TrustedPlatform
