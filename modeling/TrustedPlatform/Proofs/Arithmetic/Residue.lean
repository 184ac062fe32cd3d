import Mathlib.Algebra.Field.ZMod
import Mathlib.Data.ENat.Basic
import TrustedPlatform.Proofs.Arithmetic.Lawful
import TrustedPlatform.Proofs.Bytes

/-!
# Residues in a lawful arithmetic

The operations never run out of room on numbers of at most 64 limbs. Such a number stands for its
residue class modulo another, and the modular operations return the reduced representative of the
sum, the difference, the product, the power or the inverse of the classes. On longer numbers the
modular operations may run out of room, but what they do return is still that representative.
-/

namespace TrustedPlatform

open LawfulArithmetic (Denotes)
open FixedNat (scratchLimbs)
open Limbs (count count_mono)

variable {α : Type} [Arithmetic α] [LawfulArithmetic α]

namespace LawfulArithmetic

variable {x y : α} {n k : Nat}

/-- The sum is returned. -/
theorem add_returns (hx : Denotes x n) (hy : Denotes y k) (hn : count n ≤ 64) (hk : count k ≤ 64) :
    Returns (Arithmetic.add x y) (Denotes · (n + k)) := by
  have hscratch : scratchLimbs = 130 := rfl
  exact (add hx hy).returns (by omega)

/-- The difference is returned. -/
theorem sub_returns (hx : Denotes x n) (hy : Denotes y k) (hn : count n ≤ 64) (hle : k ≤ n) :
    Returns (Arithmetic.sub x y) (Denotes · (n - k)) := by
  have hrefines := sub hx hy
  rw [exact_sub_of_le hle] at hrefines
  exact hrefines.returns (hn.trans (by decide))

/-- The product is returned. -/
theorem mul_returns (hx : Denotes x n) (hy : Denotes y k) (hn : count n ≤ 64) (hk : count k ≤ 64) :
    Returns (Arithmetic.mul x y) (Denotes · (n * k)) := by
  have hscratch : scratchLimbs = 130 := rfl
  exact (mul hx hy).returns (by omega)

/-- The quotient and the remainder are returned. -/
theorem divRem_returns (hx : Denotes x n) (hy : Denotes y k) (hn : count n ≤ 64)
    (hk : count k ≤ 64) (hne : k ≠ 0) :
    Returns (Arithmetic.divRem x y) fun v => Denotes v.1 (n / k) ∧ Denotes v.2 (n % k) := by
  have hrefines : Refines _ _ _ (Exact.unlessZero k fun _ => (n / k, n % k)) := divRem hx hy
  rw [Exact.unlessZero_of_ne hne] at hrefines
  exact hrefines.returns ((max_le hn hk).trans (by decide))

variable (α) in
/-- The arithmetic has the room to reduce the number modulo every number of at most 64 limbs. -/
def RoomToReduce (n : Nat) : Prop :=
  ∀ {x y : α} {k : Nat}, Denotes x n → Denotes y k → count k ≤ 64 → k ≠ 0 →
    Returns (Arithmetic.reduce x y) (Denotes · (n % k))

/-- There is room for a number that fits the scratch area. -/
theorem roomToReduce_of_count (h : count n ≤ scratchLimbs) : RoomToReduce α n := by
  intro x y k hx hy hk hne
  have hrefines := reduce hx hy
  rw [exact_reduce, Exact.unlessZero_of_ne hne] at hrefines
  exact hrefines.returns (max_le h (hk.trans (by decide)))

/-- Exact arithmetic has room for every number. -/
theorem roomToReduce_exact (n : Nat) : RoomToReduce Nat n := by
  rintro x y k rfl rfl - hne
  rw [exact_reduce, Exact.unlessZero_of_ne hne]
  exact .ok rfl

/-- A product beyond the scratch area cannot be computed in buffers. -/
theorem mul_exhausted {x y : FixedNat} (hx : x.Denotes n) (hy : y.Denotes k)
    (hroom : scratchLimbs < count n + count k) :
    Arithmetic.mul x y = .error (.fatal .allocation) := by
  show FixedNat.mul (x.size + y.size) x y = _
  rw [FixedNat.mul_eq, FixedNat.inScratch, hx.size_eq, hy.size_eq, if_pos hroom]

/-- Numbers beyond the scratch area cannot be divided in buffers. -/
theorem divRem_exhausted {x y : FixedNat} (hx : x.Denotes n) (hy : y.Denotes k)
    (hroom : scratchLimbs < count n ∨ scratchLimbs < count k) (hk : k ≠ 0) :
    Arithmetic.divRem x y = .error (.fatal .allocation) := by
  show FixedNat.divRem x.size y.size x y = _
  rw [FixedNat.divRem_eq hx.wellFormed hy.wellFormed, FixedNat.unlessZero, hy.value_eq, if_neg hk,
    FixedNat.inScratch, hx.size_eq, hy.size_eq, if_pos (lt_max_iff.mpr hroom)]

/-- A number beyond the scratch area cannot be reduced in buffers. -/
theorem reduce_exhausted {x y : FixedNat} (hx : x.Denotes n) (hy : y.Denotes k)
    (hn : scratchLimbs < count n) (hk : k ≠ 0) :
    Arithmetic.reduce x y = .error (.fatal .allocation) := by
  rw [Arithmetic.reduce, divRem_exhausted hx hy (.inl hn) hk]
  rfl

variable (α) in
/-- How much room an arithmetic has, as the most limbs that the numbers may have that it multiplies,
taken together, and divides, taken apart: it computes with these, and fails on others. -/
structure HasRoom (limit : ℕ∞) : Prop where
  scratch_le : (scratchLimbs : ℕ∞) ≤ limit
  mul_returns : ∀ {x y : α} {n k : Nat}, Denotes x n → Denotes y k →
    ((count n + count k : Nat) : ℕ∞) ≤ limit → Returns (Arithmetic.mul x y) (Denotes · (n * k))
  mul_exhausted : ∀ {x y : α} {n k : Nat}, Denotes x n → Denotes y k →
    limit < ((count n + count k : Nat) : ℕ∞) → Arithmetic.mul x y = .error (.fatal .allocation)
  divRem_returns : ∀ {x y : α} {n k : Nat}, Denotes x n → Denotes y k →
    (count n : ℕ∞) ≤ limit → (count k : ℕ∞) ≤ limit → k ≠ 0 →
    Returns (Arithmetic.divRem x y) fun v => Denotes v.1 (n / k) ∧ Denotes v.2 (n % k)
  divRem_exhausted : ∀ {x y : α} {n k : Nat}, Denotes x n → Denotes y k →
    limit < (count n : ℕ∞) ∨ limit < (count k : ℕ∞) → k ≠ 0 →
    Arithmetic.divRem x y = .error (.fatal .allocation)

/-- Arithmetic in buffers has the room of the scratch area. -/
theorem hasRoom_fixed : HasRoom FixedNat scratchLimbs where
  scratch_le := le_rfl
  mul_returns hx hy hroom := (mul hx hy).returns (Nat.cast_le.mp hroom)
  mul_exhausted hx hy hroom := LawfulArithmetic.mul_exhausted hx hy (Nat.cast_lt.mp hroom)
  divRem_returns := by
    intro x y n k hx hy hn hk hne
    have hrefines : Refines _ _ _ (Exact.unlessZero k fun _ => (n / k, n % k)) := divRem hx hy
    rw [Exact.unlessZero_of_ne hne] at hrefines
    exact hrefines.returns (max_le (Nat.cast_le.mp hn) (Nat.cast_le.mp hk))
  divRem_exhausted hx hy hroom :=
    LawfulArithmetic.divRem_exhausted hx hy (hroom.imp Nat.cast_lt.mp Nat.cast_lt.mp)

/-- Exact arithmetic has room for every number. -/
theorem hasRoom_exact : HasRoom Nat ⊤ where
  scratch_le := le_top
  mul_returns := by
    rintro x y n k rfl rfl -
    exact .ok rfl
  mul_exhausted _ _ hroom := absurd hroom not_top_lt
  divRem_returns := by
    rintro x y n k rfl rfl - - hne
    exact ⟨_, Exact.unlessZero_of_ne hne _, rfl, rfl⟩
  divRem_exhausted _ _ hroom := absurd hroom (not_or.mpr ⟨not_top_lt, not_top_lt⟩)

/-- A number of at most 64 limbs is within the room. -/
theorem HasRoom.count_le {limit : ℕ∞} (h : HasRoom α limit) (hn : count n ≤ 64) :
    (count n : ℕ∞) ≤ limit :=
  (Nat.cast_le.mpr (hn.trans (by decide))).trans h.scratch_le

/-- There is room to reduce a number within it. -/
theorem HasRoom.roomToReduce {limit : ℕ∞} (h : HasRoom α limit) (hn : (count n : ℕ∞) ≤ limit) :
    RoomToReduce α n := by
  intro x y k hx hy hk hne
  exact (h.divRem_returns hx hy hn (h.count_le hk) hne).bind fun v hv => .ok hv.2

/-- The remainder is returned. -/
theorem reduce_returns (hx : Denotes x n) (hy : Denotes y k) (hn : count n ≤ 64)
    (hk : count k ≤ 64) (hne : k ≠ 0) : Returns (Arithmetic.reduce x y) (Denotes · (n % k)) :=
  roomToReduce_of_count (hn.trans (by decide)) hx hy hk hne

/-- The low bits are returned. -/
theorem maskBits_returns (hx : Denotes x n) (hn : count n ≤ 64) (bits : Nat) :
    Returns (Arithmetic.maskBits x bits) (Denotes · (n % 2 ^ bits)) := by
  have hrefines := maskBits hx bits
  rw [exact_maskBits] at hrefines
  exact hrefines.returns ((Nat.succ_le_succ hn).trans (by decide))

/-- The byte string of a sufficient width is returned. -/
theorem toBytesPadded_eq {width : Nat} (hx : Denotes x n) (h : n < 256 ^ width) :
    Arithmetic.toBytesPadded x width = .ok (Bytes.ofNatWidth width n) := by
  have hexact : Arithmetic.toBytesPadded n width = .ok (Bytes.ofNatWidth width n) :=
    if_neg (Nat.not_lt.mpr (Bytes.widthOf_le_iff.mpr h))
  have hrefines := toBytesPadded hx width
  rw [hexact] at hrefines
  obtain ⟨bytes, hbytes, rfl⟩ := hrefines.returns trivial
  exact hbytes

end LawfulArithmetic

/-- A number of at most 64 limbs in a residue class. -/
structure Residue {p : Nat} (x : α) (r : ZMod p) : Prop where
  exists_denotes : ∃ n, Denotes x n ∧ count n ≤ 64 ∧ (n : ZMod p) = r

/-- A number in a residue class, of at most 64 limbs where there is to be room. -/
structure ResidueWithin (room : Prop) {p : Nat} (x : α) (r : ZMod p) : Prop where
  exists_denotes : ∃ n, Denotes x n ∧ (room → count n ≤ 64) ∧ (n : ZMod p) = r

/-- The reduced number of a residue class. -/
structure Reduced {p : Nat} (x : α) (r : ZMod p) : Prop where
  denotes : Denotes x r.val

/-- A modulus of at most 64 limbs. -/
structure Modulus (m : α) (p : Nat) : Prop where
  denotes : Denotes m p
  count_le : count p ≤ 64

variable {p : Nat} {x y m e : α} {r s : ZMod p} {room : Prop}

namespace Residue

/-- A small number stands for its class. -/
theorem of_denotes {n : Nat} (h : Denotes x n) (hn : count n ≤ 64) : Residue x (n : ZMod p) :=
  ⟨n, h, hn, rfl⟩

/-- A word stands for its class. -/
theorem ofWord (w : Word) : Residue (Arithmetic.ofWord w : α) (w.toNat : ZMod p) := by
  refine of_denotes (LawfulArithmetic.ofWord w) (Limbs.count_le_iff.mpr ?_)
  exact (Word.toNat_lt w).trans_le (Nat.le_self_pow (by decide) _)

/-- An equal class may be put in place. -/
theorem of_eq (h : Residue x r) (hr : r = s) : Residue x s :=
  hr ▸ h

end Residue

/-- A number of at most 64 limbs is one with or without room. -/
theorem Residue.within (h : Residue x r) (room : Prop) : ResidueWithin room x r := by
  obtain ⟨n, hn, hcount, hr⟩ := h
  exact ⟨n, hn, fun _ => hcount, hr⟩

/-- A number of any length stands for its class where no room is needed. -/
theorem ResidueWithin.of_any {n : Nat} (h : Denotes x n) :
    ResidueWithin False x (n : ZMod p) :=
  ⟨n, h, False.elim, rfl⟩

/-- Where there is room, numbers have at most 64 limbs. -/
theorem ResidueWithin.residue (h : ResidueWithin room x r) (hroom : room) : Residue x r := by
  obtain ⟨n, hn, hcount, hr⟩ := h
  exact ⟨n, hn, hcount hroom, hr⟩

/-- The reduced number of a class has at most 64 limbs. -/
theorem Modulus.count_val_le [NeZero p] (hm : Modulus m p) (r : ZMod p) : count r.val ≤ 64 :=
  (count_mono (ZMod.val_lt r).le).trans hm.count_le

namespace Reduced

/-- The remainder of a number is the reduced number of its class. -/
theorem of_mod {n : Nat} (h : Denotes x (n % p)) : Reduced x (n : ZMod p) :=
  ⟨by rwa [ZMod.val_natCast]⟩

/-- A number below the modulus is the reduced number of its class. -/
theorem of_lt {n : Nat} (h : Denotes x n) (hn : n < p) : Reduced x (n : ZMod p) :=
  of_mod (by rwa [Nat.mod_eq_of_lt hn])

/-- An equal class may be put in place. -/
theorem of_eq (h : Reduced x r) (hr : r = s) : Reduced x s :=
  hr ▸ h

/-- What reducing a number of any length gives is the reduced number of its class. -/
theorem of_reduce [NeZero p] (hm : Modulus m p) {n : Nat} (hx : Denotes x n)
    (h : Arithmetic.reduce x m = .ok y) : Reduced y (n : ZMod p) := by
  have hrefines := LawfulArithmetic.reduce hx hm.denotes
  rw [LawfulArithmetic.exact_reduce, Exact.unlessZero_of_ne (NeZero.ne p), h] at hrefines
  obtain ⟨_, ⟨⟩, hy⟩ := hrefines.of_ok
  exact .of_mod hy

/-- The reduced number is zero exactly for the zero class. -/
theorem isZero_iff (h : Reduced x r) : Arithmetic.isZero x = true ↔ r = 0 := by
  rw [LawfulArithmetic.isZero h.denotes, beq_iff_eq, ZMod.val_eq_zero]

variable [NeZero p]

/-- The reduced number of a class stands for it. -/
theorem residue (hm : Modulus m p) (h : Reduced x r) : Residue x r :=
  ⟨r.val, h.denotes, hm.count_val_le r, ZMod.natCast_zmod_val r⟩

/-- Reduced numbers are equal exactly for equal classes. -/
theorem eq_iff (h : Reduced x r) (h' : Reduced y s) : Arithmetic.eq x y = true ↔ r = s := by
  rw [LawfulArithmetic.eq h.denotes h'.denotes, decide_eq_true_eq, (ZMod.val_injective p).eq_iff]

end Reduced

variable [NeZero p]

namespace ResidueWithin

/-- Reducing delivers the reduced number of a class. -/
theorem reduce (hm : Modulus m p) (hx : ResidueWithin room x r) :
    Delivers room (Reduced · r) (Arithmetic.reduce x m) := by
  obtain ⟨n, hn, hcount, rfl⟩ := hx
  have hrefines := LawfulArithmetic.reduce hn hm.denotes
  rw [LawfulArithmetic.exact_reduce, Exact.unlessZero_of_ne (NeZero.ne p)] at hrefines
  have hroom (h : room) : max (count n) (count p) ≤ scratchLimbs :=
    (max_le (hcount h) hm.count_le).trans (by decide)
  exact (hrefines.under hroom).delivers.mono fun z hz => .of_mod hz

/-- Multiplying delivers the product of two classes. -/
theorem mul (hm : Modulus m p) (hx : ResidueWithin room x r) (hy : ResidueWithin room y s) :
    Delivers room (Reduced · (r * s)) (Arithmetic.modMul x y m) := by
  obtain ⟨n, hn, hcount, rfl⟩ := hx
  obtain ⟨k, hk, hcount', rfl⟩ := hy
  have hrefines : Refines _ _ _ (Exact.unlessZero p fun _ => n * k % p) :=
    LawfulArithmetic.modMul hn hk hm.denotes
  rw [Exact.unlessZero_of_ne (NeZero.ne p)] at hrefines
  have hroom (h : room) : count n + count k ≤ scratchLimbs :=
    (Nat.add_le_add (hcount h) (hcount' h)).trans (by decide)
  refine (hrefines.under hroom).delivers.mono fun z hz => ?_
  rw [← Nat.cast_mul]
  exact .of_mod hz

/-- Adding delivers the sum of two classes. -/
theorem add (hm : Modulus m p) (hx : ResidueWithin room x r) (hy : ResidueWithin room y s) :
    Delivers room (Reduced · (r + s)) (Arithmetic.modAdd x y m) := by
  obtain ⟨n, hn, hcount, rfl⟩ := hx
  obtain ⟨k, hk, hcount', rfl⟩ := hy
  have hrefines := LawfulArithmetic.modAdd hn hk hm.denotes
  rw [LawfulArithmetic.exact_modAdd, Exact.unlessZero_of_ne (NeZero.ne p)] at hrefines
  have hroom (h : room) :
      max (count n) (count k) + 1 ≤ scratchLimbs ∧ count p ≤ scratchLimbs :=
    ⟨(Nat.succ_le_succ (max_le (hcount h) (hcount' h))).trans (by decide),
      hm.count_le.trans (by decide)⟩
  refine (hrefines.under hroom).delivers.mono fun z hz => ?_
  rw [← Nat.cast_add]
  exact .of_mod hz

/-- Subtracting delivers the difference of two classes. -/
theorem sub (hm : Modulus m p) (hx : ResidueWithin room x r) (hy : ResidueWithin room y s) :
    Delivers room (Reduced · (r - s)) (Arithmetic.modSub x y m) := by
  obtain ⟨n, hn, hcount, rfl⟩ := hx
  obtain ⟨k, hk, hcount', rfl⟩ := hy
  have hrefines := LawfulArithmetic.modSub hn hk hm.denotes
  rw [LawfulArithmetic.exact_modSub, Exact.unlessZero_of_ne (NeZero.ne p)] at hrefines
  have hroom (h : room) :
      count n ≤ scratchLimbs ∧ count k ≤ scratchLimbs ∧ count p + 1 ≤ scratchLimbs :=
    ⟨(hcount h).trans (by decide), (hcount' h).trans (by decide),
      (Nat.succ_le_succ hm.count_le).trans (by decide)⟩
  refine (hrefines.under hroom).delivers.mono fun z hz => ?_
  have hnlt := Nat.mod_lt n (NeZero.pos p)
  have hklt := Nat.mod_lt k (NeZero.pos p)
  by_cases h : n % p < k % p
  · rw [if_pos h] at hz
    refine (Reduced.of_lt hz (by omega)).of_eq ?_
    rw [Nat.cast_sub (by omega), Nat.cast_add, ZMod.natCast_mod, ZMod.natCast_mod,
      ZMod.natCast_self, add_zero]
  · rw [if_neg h] at hz
    refine (Reduced.of_lt hz (by omega)).of_eq ?_
    rw [Nat.cast_sub (Nat.le_of_not_lt h), ZMod.natCast_mod, ZMod.natCast_mod]

end ResidueWithin

namespace Residue

/-- The reduced number of a class is returned. -/
theorem reduce (hm : Modulus m p) (hx : Residue x r) :
    Returns (Arithmetic.reduce x m) (Reduced · r) :=
  ((hx.within True).reduce hm).returns trivial

/-- The product of two classes is returned. -/
theorem mul (hm : Modulus m p) (hx : Residue x r) (hy : Residue y s) :
    Returns (Arithmetic.modMul x y m) (Reduced · (r * s)) :=
  ((hx.within True).mul hm (hy.within True)).returns trivial

/-- The sum of two classes is returned. -/
theorem add (hm : Modulus m p) (hx : Residue x r) (hy : Residue y s) :
    Returns (Arithmetic.modAdd x y m) (Reduced · (r + s)) :=
  ((hx.within True).add hm (hy.within True)).returns trivial

/-- The difference of two classes is returned. -/
theorem sub (hm : Modulus m p) (hx : Residue x r) (hy : Residue y s) :
    Returns (Arithmetic.modSub x y m) (Reduced · (r - s)) :=
  ((hx.within True).sub hm (hy.within True)).returns trivial

/-- The power of a class is returned. -/
theorem pow (hm : Modulus m p) (hx : Residue x r) {k : Nat} (he : Denotes e k) :
    Returns (Arithmetic.modPow x e m) (Reduced · (r ^ k)) := by
  obtain ⟨n, hn, hcount, rfl⟩ := hx
  have hrefines : Refines _ _ _ (Exact.unlessZero p fun _ => Exact.modPow p n k) :=
    LawfulArithmetic.modPow hn he hm.denotes
  rw [Exact.unlessZero_of_ne (NeZero.ne p), Exact.modPow_eq] at hrefines
  have hscratch : scratchLimbs = 130 := rfl
  have hmodulus := hm.count_le
  exact (hrefines.returns ⟨by omega, by omega⟩).mono fun z hz => by
    rw [← Nat.cast_pow]
    exact .of_mod hz

end Residue

/-- Inverting delivers the inverse of a class other than zero, when the modulus is a prime. -/
theorem ResidueWithin.inverse {p : Nat} [Fact p.Prime] {x m : α} {r : ZMod p} (hm : Modulus m p)
    (hx : ResidueWithin room x r) (hr : r ≠ 0) :
    Delivers room (fun o => ∃ y, o = some y ∧ Reduced y r⁻¹) (Arithmetic.modInverse x m) := by
  obtain ⟨n, hn, hcount, rfl⟩ := hx
  have hcoprime : Nat.gcd n p = 1 := by
    rw [Nat.gcd_comm, ← Nat.coprime_iff_gcd_eq_one]
    refine (Nat.Prime.coprime_iff_not_dvd Fact.out).mpr fun hdvd => hr ?_
    exact (ZMod.natCast_eq_zero_iff n p).mpr hdvd
  obtain ⟨k, hk⟩ := Option.isSome_iff_exists.mp ((Exact.modInverse_isSome n p).mpr hcoprime)
  obtain ⟨hlt, hmul⟩ := Exact.modInverse_spec (NeZero.ne p) hk
  have hinverse : (k : ZMod p) = (n : ZMod p)⁻¹ := by
    have hcast := (ZMod.natCast_eq_natCast_iff _ _ _).mpr hmul
    rw [Nat.cast_mul, Nat.cast_one] at hcast
    exact eq_inv_of_mul_eq_one_right hcast
  have hrefines : Refines _ _ _ (Exact.unlessZero p fun _ => Exact.modInverse n p) :=
    LawfulArithmetic.modInverse hn hm.denotes
  rw [Exact.unlessZero_of_ne (NeZero.ne p), hk] at hrefines
  have hroom (h : room) : count n ≤ scratchLimbs ∧ count p + 1 ≤ scratchLimbs :=
    ⟨(hcount h).trans (by decide), (Nat.succ_le_succ hm.count_le).trans (by decide)⟩
  refine (hrefines.under hroom).delivers.mono fun o ho => ?_
  cases ho with
  | some hy => exact ⟨_, rfl, (Reduced.of_lt hy hlt).of_eq hinverse⟩

/-- The inverse of a class other than zero is returned, when the modulus is a prime. -/
theorem Residue.inverse {p : Nat} [Fact p.Prime] {x m : α} {r : ZMod p} (hm : Modulus m p)
    (hx : Residue x r) (hr : r ≠ 0) :
    Returns (Arithmetic.modInverse x m) fun o => ∃ y, o = some y ∧ Reduced y r⁻¹ :=
  ((hx.within True).inverse hm hr).returns trivial

/-- The zero class has no inverse modulo a prime. -/
theorem ResidueWithin.inverse_zero {p : Nat} [Fact p.Prime] {x m : α} (hm : Modulus m p)
    (hx : ResidueWithin room x (0 : ZMod p)) :
    Delivers room (· = none) (Arithmetic.modInverse x m) := by
  obtain ⟨n, hn, hcount, hzero⟩ := hx
  have hnone : Exact.modInverse n p = none := by
    rw [← Option.not_isSome_iff_eq_none, Exact.modInverse_isSome,
      Nat.gcd_eq_right ((ZMod.natCast_eq_zero_iff n p).mp hzero)]
    exact Nat.Prime.ne_one Fact.out
  have hrefines : Refines _ _ _ (Exact.unlessZero p fun _ => Exact.modInverse n p) :=
    LawfulArithmetic.modInverse hn hm.denotes
  rw [Exact.unlessZero_of_ne (NeZero.ne p), hnone] at hrefines
  have hroom (h : room) : count n ≤ scratchLimbs ∧ count p + 1 ≤ scratchLimbs :=
    ⟨(hcount h).trans (by decide), (Nat.succ_le_succ hm.count_le).trans (by decide)⟩
  refine (hrefines.under hroom).delivers.mono fun o ho => ?_
  cases ho
  rfl

/-- The zero class has no inverse modulo a prime, and this is found out. -/
theorem Residue.inverse_zero {p : Nat} [Fact p.Prime] {x m : α} (hm : Modulus m p)
    (hx : Residue x (0 : ZMod p)) : Returns (Arithmetic.modInverse x m) (· = none) :=
  ((hx.within True).inverse_zero hm).returns trivial

end TrustedPlatform
