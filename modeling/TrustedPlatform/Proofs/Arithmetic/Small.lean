import TrustedPlatform.Proofs.Arithmetic.Residue

/-!
# Numbers that never run out of room

Numbers of at most 65 limbs can be multiplied in the scratch area, and numbers of at most 64 limbs
with room to spare. Numbers within such a limit are closed under the modular operations, so that
whatever is composed of those refines exact arithmetic with no condition on the room: it gives the
same numbers, or is refused alike.
-/

namespace TrustedPlatform

open LawfulArithmetic (Denotes RoomToReduce)
open FixedNat (scratchLimbs)
open Limbs (count count_mono count_le_iff)

/-- What holds of every value of the second computation holds of the one that the first is
related to. -/
theorem Refines.and_of_ok {β γ : Type} {room : Prop} {R : β → γ → Prop} {x : Checked β}
    {y : Checked γ} {P : γ → Prop} (h : Refines room R x y) (hP : ∀ w, y = .ok w → P w) :
    Refines room (fun v w => R v w ∧ P w) x y := by
  cases h with
  | ok h => exact .ok ⟨h, hP _ rfl⟩
  | error h => exact .error h
  | exhausted h => exact .exhausted h

/-- A value of a division is one for a divisor that is not zero. -/
theorem Exact.of_unlessZero {β : Type} {d : Nat} {value : Unit → β} {w : β}
    (h : unlessZero d value = .ok w) : d ≠ 0 ∧ value () = w := by
  unfold unlessZero at h
  split at h
  · cases h
  · rename_i hd
    cases h
    exact ⟨hd, rfl⟩

/-- A number below a power of two has no more limbs than the power has begun. -/
theorem Limbs.count_le_of_lt_two_pow {n bits : Nat} (h : n < 2 ^ bits) :
    count n ≤ (bits + 63) / 64 := by
  rw [count_le_iff, size_pow_eq]
  exact h.trans_le (Nat.pow_le_pow_right (by decide) (by omega))

/-- A byte string denotes a number of no more limbs than its bytes fill. -/
theorem Limbs.count_toNat_le (bytes : Bytes) :
    count (Bytes.toNat bytes) ≤ (8 * bytes.length + 63) / 64 := by
  refine count_le_of_lt_two_pow ?_
  rw [Nat.pow_mul]
  exact Bytes.toNat_lt bytes

/-- The number of a byte string of at most 1040 bytes fits the scratch area. -/
theorem Limbs.count_toNat_le_scratch {bytes : Bytes} (h : bytes.length ≤ 1040) :
    count (Bytes.toNat bytes) ≤ scratchLimbs := by
  have hcount := count_toNat_le bytes
  have hscratch : scratchLimbs = 130 := rfl
  omega

variable {α : Type} [Arithmetic α] [LawfulArithmetic α]

/-! ### Observations -/

/-- The order of exact arithmetic. -/
theorem LawfulArithmetic.exact_lt_iff {n k : Nat} : Arithmetic.lt n k = true ↔ n < k := by
  rw [LawfulArithmetic.lt rfl rfl, decide_eq_true_eq]

/-- The equality of exact arithmetic. -/
theorem LawfulArithmetic.exact_eq_iff {n k : Nat} : Arithmetic.eq n k = true ↔ n = k := by
  rw [LawfulArithmetic.eq rfl rfl, decide_eq_true_eq]

/-- A remainder of exact arithmetic is below the divisor. -/
theorem LawfulArithmetic.lt_of_exact_reduce {n m w : Nat} (h : Arithmetic.reduce n m = .ok w) :
    w < m := by
  rw [exact_reduce] at h
  obtain ⟨hm, rfl⟩ := Exact.of_unlessZero h
  exact Nat.mod_lt _ (Nat.pos_of_ne_zero hm)

/-- The numbers of a product's limbs. -/
theorem LawfulArithmetic.count_mul_le (n k : Nat) : count (n * k) ≤ count n + count k := by
  rw [count_le_iff, Nat.pow_add]
  exact Nat.mul_lt_mul'' (Limbs.lt_size_pow_count n) (Limbs.lt_size_pow_count k)

/-- A difference of exact arithmetic and its second number add up to the first. -/
theorem LawfulArithmetic.add_of_exact_sub {n k w : Nat} (h : Arithmetic.sub n k = .ok w) :
    w + k = n := by
  have hexact : (if n < k then .error (.fatal .parameter) else .ok (n - k) : Checked Nat) = .ok w :=
    h
  split at hexact
  · cases hexact
  · cases hexact
    omega

namespace LawfulArithmetic.Denotes

variable {x y : α} {n k : Nat}

/-- Zero is recognized alike. -/
theorem isZero_eq (h : Denotes x n) : Arithmetic.isZero x = Arithmetic.isZero n :=
  LawfulArithmetic.isZero h

/-- A word is recognized alike. -/
theorem eqWord_eq (h : Denotes x n) (w : Word) : Arithmetic.eqWord x w = Arithmetic.eqWord n w :=
  LawfulArithmetic.eqWord h w

/-- A smaller number is recognized alike. -/
theorem lt_eq (hx : Denotes x n) (hy : Denotes y k) : Arithmetic.lt x y = Arithmetic.lt n k :=
  (LawfulArithmetic.lt hx hy).trans (LawfulArithmetic.lt rfl rfl).symm

/-- An equal number is recognized alike. -/
theorem eq_eq (hx : Denotes x n) (hy : Denotes y k) : Arithmetic.eq x y = Arithmetic.eq n k :=
  (LawfulArithmetic.eq hx hy).trans (LawfulArithmetic.eq rfl rfl).symm

/-- The bits are counted alike. -/
theorem bitLength_eq (h : Denotes x n) : Arithmetic.bitLength x = Arithmetic.bitLength n :=
  (LawfulArithmetic.bitLength h).trans (LawfulArithmetic.exact_bitLength n).symm

/-- The bits are read alike. -/
theorem testBit_eq (h : Denotes x n) (bit : Nat) :
    Arithmetic.testBit x bit = Arithmetic.testBit n bit :=
  LawfulArithmetic.testBit h bit

/-- The shortest byte strings are the same. -/
theorem toBytes_eq (h : Denotes x n) : Arithmetic.toBytes x = Arithmetic.toBytes n :=
  LawfulArithmetic.toBytes h

end LawfulArithmetic.Denotes

/-- The number has at most so many limbs. -/
structure Within (limit : Nat) (x : α) (n : Nat) : Prop where
  denotes : Denotes x n
  count_le : count n ≤ limit

namespace Within

variable {limit : Nat} {x y z : α} {n k m : Nat}

/-- A number below one within a limit is within the limit. -/
theorem of_le (h : Denotes x n) (hle : n ≤ m) (hz : Within limit z m) : Within limit x n :=
  ⟨h, (count_mono hle).trans hz.count_le⟩

/-- A number within half the scratch area fits it. -/
theorem count_le_scratch (hlimit : limit + limit ≤ scratchLimbs) (h : Within limit x n) :
    count n ≤ scratchLimbs := by
  have hcount := h.count_le
  omega

/-- Two numbers within half the scratch area fit it beside each other. -/
theorem count_add_count_le (hlimit : limit + limit ≤ scratchLimbs) (hx : Within limit x n)
    (hy : Within limit y k) : count n + count k ≤ scratchLimbs :=
  (Nat.add_le_add hx.count_le hy.count_le).trans hlimit

/-- Values up to a number within a limit are within the limit. -/
theorem refines_of_le {room : Prop} {u : Checked α} {v : Checked Nat} (hz : Within limit z m)
    (h : Refines room Denotes u v) (hle : ∀ w, v = .ok w → w ≤ m) :
    Refines room (Within limit) u v :=
  (h.and_of_ok hle).mono id fun _ _ h => of_le h.1 h.2 hz

/-- The remainder of a number that fits the scratch area. -/
theorem reduce_of_count (hlimit : limit + limit ≤ scratchLimbs) (hx : Denotes x n)
    (hn : count n ≤ scratchLimbs) (hz : Within limit z m) :
    Refines True (Within limit) (Arithmetic.reduce x z) (Arithmetic.reduce n m) := by
  refine hz.refines_of_le ((LawfulArithmetic.reduce hx hz.denotes).under fun _ =>
    max_le hn (hz.count_le_scratch hlimit)) fun w hw => ?_
  exact (LawfulArithmetic.lt_of_exact_reduce hw).le

/-- The product modulo a number. -/
theorem modMul (hlimit : limit + limit ≤ scratchLimbs) (hx : Within limit x n)
    (hy : Within limit y k) (hz : Within limit z m) :
    Refines True (Within limit) (Arithmetic.modMul x y z) (Arithmetic.modMul n k m) := by
  refine hz.refines_of_le ((LawfulArithmetic.modMul hx.denotes hy.denotes hz.denotes).under
    fun _ => hx.count_add_count_le hlimit hy) fun w hw => ?_
  obtain ⟨hm, rfl⟩ := Exact.of_unlessZero hw
  exact (Nat.mod_lt _ (Nat.pos_of_ne_zero hm)).le

/-- The power modulo a number. -/
theorem modPow (hlimit : limit + limit ≤ scratchLimbs) {e : α} {j : Nat} (hx : Within limit x n)
    (he : Denotes e j) (hz : Within limit z m) :
    Refines True (Within limit) (Arithmetic.modPow x e z) (Arithmetic.modPow n j m) := by
  refine hz.refines_of_le ((LawfulArithmetic.modPow hx.denotes he hz.denotes).under
    fun _ => ⟨hx.count_le_scratch hlimit, hz.count_add_count_le hlimit hz⟩) fun w hw => ?_
  obtain ⟨hm, rfl⟩ := Exact.of_unlessZero hw
  rw [Exact.modPow_eq]
  exact (Nat.mod_lt _ (Nat.pos_of_ne_zero hm)).le

/-- The difference. -/
theorem sub (hlimit : limit + limit ≤ scratchLimbs) (hx : Within limit x n) (hy : Denotes y k) :
    Refines True (Within limit) (Arithmetic.sub x y) (Arithmetic.sub n k) := by
  refine hx.refines_of_le ((LawfulArithmetic.sub hx.denotes hy).under
    fun _ => hx.count_le_scratch hlimit) fun w hw => ?_
  have hsum := LawfulArithmetic.add_of_exact_sub hw
  omega

/-- The quotient by a power of two. -/
theorem shiftRight (hlimit : limit + limit ≤ scratchLimbs) (hx : Within limit x n) (bits : Nat) :
    Refines True (Within limit) (Arithmetic.shiftRight x bits) (Arithmetic.shiftRight n bits) := by
  refine hx.refines_of_le ((LawfulArithmetic.shiftRight hx.denotes bits).under fun _ =>
    (Nat.sub_le _ _).trans (hx.count_le_scratch hlimit)) fun w hw => ?_
  have hexact : Except.ok (n >>> bits) = Except.ok w := hw
  cases hexact
  rw [Nat.shiftRight_eq_div_pow]
  exact Nat.div_le_self n _

end Within

/-- The number has at most 64 limbs. -/
structure Small (x : α) (n : Nat) : Prop where
  denotes : Denotes x n
  count_le : count n ≤ 64

namespace Small

variable {x y z : α} {n k m : Nat}

/-- A small number is within 64 limbs. -/
theorem within (h : Small x n) : Within 64 x n :=
  ⟨h.denotes, h.count_le⟩

/-- Outcomes within 64 limbs are small. -/
theorem of_within {u : Checked α} {v : Checked Nat} (h : Refines True (Within 64) u v) :
    Refines True Small u v :=
  h.mono id fun _ _ h => ⟨h.denotes, h.count_le⟩

/-- A small number fits the scratch area beside another limb. -/
theorem count_add_one_le (h : Small x n) : count n + 1 ≤ scratchLimbs :=
  (Nat.succ_le_succ h.count_le).trans (by decide)

/-- A small number fits the scratch area. -/
theorem count_le_scratch (h : Small x n) : count n ≤ scratchLimbs :=
  Nat.le_of_succ_le h.count_add_one_le

/-- Two small numbers fit the scratch area beside each other. -/
theorem count_add_count_le (hx : Small x n) (hy : Small y k) : count n + count k ≤ scratchLimbs :=
  (Nat.add_le_add hx.count_le hy.count_le).trans (by decide)

/-- A number below a small one is small. -/
theorem of_le (h : Denotes x n) (hle : n ≤ m) (hz : Small z m) : Small x n :=
  ⟨h, (count_mono hle).trans hz.count_le⟩

/-- A number of at most 4096 bits is small. -/
theorem of_lt_two_pow (bits : Nat) (h : Denotes x n) (hlt : n < 2 ^ bits) (hbits : bits ≤ 4096) :
    Small x n :=
  ⟨h, (Limbs.count_le_of_lt_two_pow hlt).trans (by omega)⟩

/-- A byte string of at most 512 bytes denotes a small number. -/
theorem ofBytes {bytes : Bytes} (h : bytes.length ≤ 512) :
    Small (Arithmetic.ofBytes bytes : α) (Arithmetic.ofBytes bytes) :=
  ⟨LawfulArithmetic.ofBytes bytes, (Limbs.count_toNat_le bytes).trans (by omega)⟩

/-- A word is small. -/
theorem ofWord (w : Word) : Small (Arithmetic.ofWord w : α) w.toNat :=
  of_lt_two_pow 64 (LawfulArithmetic.ofWord w) (Word.toNat_lt w) (by decide)

/-- Values up to a small number are small. -/
theorem refines_of_le {room : Prop} {u : Checked α} {v : Checked Nat} (hz : Small z m)
    (h : Refines room Denotes u v) (hle : ∀ w, v = .ok w → w ≤ m) : Refines room Small u v :=
  (h.and_of_ok hle).mono id fun _ _ h => of_le h.1 h.2 hz

/-! ### Operations modulo a small number -/

/-- The remainder of a number that fits the scratch area. -/
theorem reduce_of_count (hx : Denotes x n) (hn : count n ≤ scratchLimbs) (hz : Small z m) :
    Refines True Small (Arithmetic.reduce x z) (Arithmetic.reduce n m) :=
  of_within (Within.reduce_of_count (by decide) hx hn hz.within)

/-- The remainder of a number that there is room to reduce. -/
theorem reduce_of_room (hx : Denotes x n) (hroom : RoomToReduce α n) (hz : Small z m) (hm : m ≠ 0) :
    Refines True Small (Arithmetic.reduce x z) (Arithmetic.reduce n m) := by
  obtain ⟨r, hreduce, hr⟩ := hroom hx hz.denotes hz.count_le hm
  rw [hreduce, LawfulArithmetic.exact_reduce, Exact.unlessZero_of_ne hm]
  exact .ok (.of_le hr (Nat.mod_lt _ (Nat.pos_of_ne_zero hm)).le hz)

/-- The remainder. -/
theorem reduce (hx : Small x n) (hz : Small z m) :
    Refines True Small (Arithmetic.reduce x z) (Arithmetic.reduce n m) :=
  reduce_of_count hx.denotes hx.count_le_scratch hz

/-- The product modulo a number. -/
theorem modMul (hx : Small x n) (hy : Small y k) (hz : Small z m) :
    Refines True Small (Arithmetic.modMul x y z) (Arithmetic.modMul n k m) :=
  of_within (hx.within.modMul (by decide) hy.within hz.within)

/-- The sum modulo a number. -/
theorem modAdd (hx : Small x n) (hy : Small y k) (hz : Small z m) :
    Refines True Small (Arithmetic.modAdd x y z) (Arithmetic.modAdd n k m) := by
  have hn := hx.count_add_one_le
  have hk := hy.count_add_one_le
  refine hz.refines_of_le ((LawfulArithmetic.modAdd hx.denotes hy.denotes hz.denotes).under
    fun _ => ⟨by omega, hz.count_le_scratch⟩) fun w hw => ?_
  rw [LawfulArithmetic.exact_modAdd] at hw
  obtain ⟨hm, rfl⟩ := Exact.of_unlessZero hw
  exact (Nat.mod_lt _ (Nat.pos_of_ne_zero hm)).le

/-- The difference modulo a number. -/
theorem modSub (hx : Small x n) (hy : Small y k) (hz : Small z m) :
    Refines True Small (Arithmetic.modSub x y z) (Arithmetic.modSub n k m) := by
  refine hz.refines_of_le ((LawfulArithmetic.modSub hx.denotes hy.denotes hz.denotes).under
    fun _ => ⟨hx.count_le_scratch, hy.count_le_scratch, hz.count_add_one_le⟩) fun w hw => ?_
  rw [LawfulArithmetic.exact_modSub] at hw
  obtain ⟨hm, rfl⟩ := Exact.of_unlessZero hw
  have hn := Nat.mod_lt n (Nat.pos_of_ne_zero hm)
  have hk := Nat.mod_lt k (Nat.pos_of_ne_zero hm)
  split <;> omega

/-- The inverse modulo a number. -/
theorem modInverse (hx : Small x n) (hz : Small z m) :
    Refines True (Option.Rel Small) (Arithmetic.modInverse x z) (Arithmetic.modInverse n m) := by
  have hrefines := (LawfulArithmetic.modInverse hx.denotes hz.denotes).under fun _ : True =>
    ⟨hx.count_le_scratch, hz.count_add_one_le⟩
  have hlt : ∀ o, Arithmetic.modInverse n m = .ok o → ∀ w ∈ o, w < m := by
    intro o ho w hw
    obtain ⟨hm, rfl⟩ := Exact.of_unlessZero ho
    exact (Exact.modInverse_spec hm hw).1
  refine (hrefines.and_of_ok hlt).mono id fun o o' ⟨hrel, hbound⟩ => ?_
  cases hrel with
  | none => exact .none
  | some h => exact .some (of_le h (hbound _ rfl).le hz)

/-- The power modulo a number. -/
theorem modPow {e : α} {j : Nat} (hx : Small x n) (he : Denotes e j) (hz : Small z m) :
    Refines True Small (Arithmetic.modPow x e z) (Arithmetic.modPow n j m) :=
  of_within (hx.within.modPow (by decide) he hz.within)

/-! ### Operations on the numbers themselves -/

/-- The difference. -/
theorem sub (hx : Small x n) (hy : Denotes y k) :
    Refines True Small (Arithmetic.sub x y) (Arithmetic.sub n k) :=
  of_within (hx.within.sub (by decide) hy)

/-- The product, which need not be small. -/
theorem mul (hx : Small x n) (hy : Small y k) :
    Refines True (fun v w => Denotes v w ∧ count w ≤ 128) (Arithmetic.mul x y)
      (Arithmetic.mul n k) := by
  refine ((LawfulArithmetic.mul hx.denotes hy.denotes).under fun _ =>
    hx.count_add_count_le hy).and_of_ok fun w hw => ?_
  cases hw
  exact (LawfulArithmetic.count_mul_le n k).trans (Nat.add_le_add hx.count_le hy.count_le)

/-- The sum, which need not be small. -/
theorem add (hx : Small x n) (hy : Small y k) :
    Refines True Denotes (Arithmetic.add x y) (Arithmetic.add n k) := by
  have hn := hx.count_add_one_le
  have hk := hy.count_add_one_le
  exact (LawfulArithmetic.add hx.denotes hy.denotes).under fun _ => by omega

/-- A power of two. -/
theorem shiftLeft_one {bits : Nat} (h : bits < 4096) :
    Refines True Small (Arithmetic.shiftLeft (Arithmetic.ofWord 1 : α) bits)
      (Arithmetic.shiftLeft (Arithmetic.ofWord 1 : Nat) bits) := by
  have hroom : count 1 + bits / 64 + 1 ≤ scratchLimbs := by
    have hone : count 1 = 1 := by decide
    have hscratch : scratchLimbs = 130 := rfl
    omega
  refine (((LawfulArithmetic.shiftLeft (LawfulArithmetic.ofWord (α := α) 1) bits).under
    fun _ => .inr hroom).and_of_ok (P := (· < 2 ^ (bits + 1))) fun w hw => ?_).mono id
    fun _ _ hvalue => of_lt_two_pow _ hvalue.1 hvalue.2 h
  have hexact : Except.ok (1 <<< bits) = Except.ok w := hw
  cases hexact
  rw [Nat.shiftLeft_eq, Nat.one_mul]
  exact Nat.pow_lt_pow_right (by decide) (Nat.lt_succ_self bits)

/-- The low bits. -/
theorem maskBits (hx : Small x n) (bits : Nat) :
    Refines True Small (Arithmetic.maskBits x bits) (Arithmetic.maskBits n bits) := by
  refine hx.refines_of_le ((LawfulArithmetic.maskBits hx.denotes bits).under fun _ =>
    hx.count_add_one_le) fun w hw => ?_
  rw [LawfulArithmetic.exact_maskBits] at hw
  cases hw
  exact Nat.mod_le n _

end Small

end TrustedPlatform
