import TrustedPlatform.Integer.Registers
import TrustedPlatform.Proofs.Failure
import TrustedPlatform.Proofs.Integer.Refinement

/-!
# What instructions do to a register file

Whatever instructions a file has been through, each of its registers is well formed: every
operation gives a number that a buffer of the requested capacity holds, and the two operations that
change a buffer in place keep it well formed. One step changes at most the registers that its
instruction names, no capacity unless it makes a fresh number, and nothing at all when it writes
nothing, save for the quotient of a division whose remainder finds no room.
-/

namespace TrustedPlatform

namespace Limbs

/-- Masking keeps the length. -/
theorem length_mask (ws : Limbs) (bits : Nat) : (mask ws bits).length = ws.length := by
  fun_induction mask ws bits with
  | case1 => rfl
  | case2 w ws bits _ ih => rw [List.length_cons, ih, List.length_cons]
  | case3 w ws bits _ => rw [List.length_cons, List.length_map, List.length_cons]

/-- A limb after one was replaced. -/
theorem get_set {ws : Limbs} {i : Nat} (hi : i < ws.length) (w : Word) (j : Nat) :
    Limbs.get (ws.set i w) j = if j = i then w else ws.get j := by
  simp only [Limbs.get, List.getD_eq_getElem?_getD, List.getElem?_set]
  by_cases hj : i = j
  · rw [if_pos hj, if_pos (hj ▸ hi), if_pos hj.symm, Option.getD_some]
  · rw [if_neg hj, if_neg (Ne.symm hj)]

end Limbs

namespace FixedNat

open Limbs (count count_le_iff)

/-! ### Numbers held with a capacity -/

/-- A well-formed number in a buffer of the requested capacity, at least one limb. -/
structure Held (capacity : Nat) (a : FixedNat) : Prop where
  wellFormed : a.WellFormed
  capacity_eq : a.capacity = max capacity 1

/-- A well-formed number is held with its own capacity. -/
theorem WellFormed.held {a : FixedNat} (ha : a.WellFormed) : Held a.capacity a :=
  ⟨ha, (Nat.max_eq_left ha.capacity_pos).symm⟩

/-- A number that fits is held. -/
theorem held_ofNat {capacity n : Nat} (h : n < UInt64.size ^ max capacity 1) :
    Held capacity (ofNat capacity n) :=
  ⟨wellFormed_ofNat h, capacity_ofNat h⟩

/-- Zero is held. -/
theorem held_zero (capacity : Nat) : Held capacity (zero capacity) :=
  held_ofNat (Limbs.size_pow_pos _)

/-- A word is held. -/
theorem held_ofWord (w : Word) (capacity : Nat) : Held capacity (ofWord w capacity) := by
  rw [ofWord_eq]
  exact held_ofNat ((Word.toNat_lt w).trans_le (Nat.le_self_pow (by omega) _))

/-- A byte string is held with the room it needs. -/
theorem held_ofBytes (bytes : Bytes) : Held (Word.countForBytes bytes.length) (ofBytes bytes) := by
  rw [ofBytes_eq]
  exact held_ofNat (toNat_lt_size_pow bytes)

/-- A number that fits is put into its buffer. -/
theorem hold?_of_fits {capacity n : Nat} (h : Fits capacity n) :
    hold? capacity n = .ok (ofNat capacity n) :=
  if_pos h

/-- A number that does not fit is refused. -/
theorem hold?_of_not_fits {capacity n : Nat} (h : ¬Fits capacity n) :
    hold? capacity n = .error (.fatal .allocation) :=
  if_neg h

/-- The number that a computation gives, if any, is held. -/
def Holds (capacity : Nat) (x : Checked FixedNat) : Prop :=
  ∀ a, x = .ok a → Held capacity a

namespace Holds

variable {capacity : Nat}

/-- A held number. -/
theorem ok {a : FixedNat} (h : Held capacity a) : Holds capacity (.ok a) := by
  rintro _ ⟨⟩
  exact h

/-- A refused computation gives no number. -/
theorem error (e : Fault) : Holds capacity (.error e) :=
  nofun

/-- The last part of a computation gives its number. -/
theorem bind {β : Type} {x : Checked β} {f : β → Checked FixedNat}
    (h : ∀ v, Holds capacity (f v)) : Holds capacity (x >>= f) := by
  cases x with
  | ok v => exact h v
  | error e => exact error e

/-- A choice between two computations. -/
theorem ite {p : Prop} [Decidable p] {x y : Checked FixedNat} (hx : Holds capacity x)
    (hy : Holds capacity y) : Holds capacity (if p then x else y) := by
  split
  · exact hx
  · exact hy

end Holds

variable (capacity : Nat)

/-- Limbs that enter a buffer are held. -/
theorem ofLimbs?_holds (ws : Limbs) : Holds capacity (ofLimbs? capacity ws) := by
  rw [ofLimbs?_eq]
  by_cases hfits : Fits capacity ws.value
  · rw [hold?_of_fits hfits]
    exact .ok (held_ofNat hfits)
  · rw [hold?_of_not_fits hfits]
    exact .error _

/-- A result computed in scratch is held. -/
theorem withScratch_holds (n : Nat) (ws : Limbs) : Holds capacity (withScratch n ws capacity) :=
  .ite (.error _) (ofLimbs?_holds capacity ws)

/-- A difference is held. -/
theorem sub_holds (a b : FixedNat) : Holds capacity (sub capacity a b) :=
  .ite (.error _) (withScratch_holds capacity _ _)

/-- A product is held. -/
theorem mul_holds (a b : FixedNat) : Holds capacity (mul capacity a b) :=
  .ite (.error _) (ofLimbs?_holds capacity _)

/-- A product with a power of two is held. -/
theorem shiftLeft_holds (a : FixedNat) (bits : Nat) : Holds capacity (shiftLeft capacity a bits) :=
  .ite (.ok (held_zero capacity)) (.ite (.error _) (ofLimbs?_holds capacity _))

/-- A quotient by a power of two is held. -/
theorem shiftRight_holds (a : FixedNat) (bits : Nat) :
    Holds capacity (shiftRight capacity a bits) :=
  .ite (.ok (held_zero capacity)) (withScratch_holds capacity _ _)

/-- A greatest common divisor is held. -/
theorem gcd_holds (a b : FixedNat) : Holds capacity (gcd capacity a b) :=
  .bind fun _ => .bind fun _ => .bind fun _ => ofLimbs?_holds capacity _

/-- A product modulo a number is held. -/
theorem modMul_holds (a b m : FixedNat) : Holds capacity (modMul capacity a b m) :=
  .ite (.error _) (.ite (.error _) (.ite (ofLimbs?_holds capacity _) (ofLimbs?_holds capacity _)))

/-- A power modulo a number is held. -/
theorem modPow_holds (base e m : FixedNat) : Holds capacity (modPow capacity base e m) :=
  .ite (.error _) (.ite (.ok (held_zero capacity))
    (.bind fun _ => .bind fun _ => .bind fun _ => ofLimbs?_holds capacity _))

/-- An inverse modulo a number is held. -/
theorem modInverse_holds {capacity : Nat} {a m inverse : FixedNat}
    (h : modInverse capacity a m = .ok (some inverse)) : Held capacity inverse := by
  unfold modInverse at h
  split at h
  · cases h
  · obtain ⟨r0, -, h⟩ := exists_of_bind_eq_ok h
    obtain ⟨r1, -, h⟩ := exists_of_bind_eq_ok h
    obtain ⟨⟨divisor, cofactor⟩, -, h⟩ := exists_of_bind_eq_ok h
    dsimp only at h
    split at h
    · obtain ⟨reduced, -, h⟩ := exists_of_bind_eq_ok h
      split at h
      · obtain ⟨positive, -, h⟩ := exists_of_bind_eq_ok h
        obtain ⟨result, hresult, h⟩ := exists_of_bind_eq_ok h
        cases h
        exact ofLimbs?_holds capacity _ _ hresult
      · obtain ⟨result, hresult, h⟩ := exists_of_bind_eq_ok h
        cases h
        exact ofLimbs?_holds capacity _ _ hresult
    · cases h

/-! ### Changes in place -/

variable {a : FixedNat}

/-- A well-formed number has its size already. -/
theorem normalize_eq (ha : a.WellFormed) : a.normalize = a := by
  rw [normalize, Limbs.significant_eq]
  show (⟨a.limbs, count a.value⟩ : FixedNat) = a
  rw [← ha.size_eq]

/-- Masking leaves the remainder by a power of two in the same buffer. -/
theorem maskBits_eq (ha : a.WellFormed) (bits : Nat) :
    a.maskBits bits = ofNat a.capacity (a.value % 2 ^ bits) := by
  have hvalue : (a.limbs.mask bits).value = a.value % 2 ^ bits := by
    rw [Limbs.value_mask, ha.value_limbs]
  have hlen : (a.limbs.mask bits).length = a.capacity := Limbs.length_mask _ _
  have hne : a.limbs.mask bits ≠ [] := by
    rw [← List.length_pos_iff_ne_nil, hlen]
    exact ha.capacity_pos
  -- The number only shrinks, so its limbs still lie below the old size.
  have hused : Limbs.value ((a.limbs.mask bits).take a.size) = (a.limbs.mask bits).value := by
    rw [Limbs.value_take, Nat.mod_eq_of_lt]
    rw [hvalue]
    exact (Nat.mod_le _ _).trans_lt ha.value_lt
  rw [maskBits, normalize, words, Limbs.significant_eq, hused, ← Limbs.significant_eq,
    mk_significant_eq hne, hlen, hvalue]

/-- A masked number is held in the same buffer. -/
theorem maskBits_held (ha : a.WellFormed) (bits : Nat) : Held a.capacity (a.maskBits bits) := by
  rw [maskBits_eq ha]
  exact held_ofNat ((Nat.mod_le _ _).trans_lt ha.value_lt_capacity)

/-- A word with a bit set is not zero. -/
theorem or_bit_ne_zero (w : Word) {bit : Nat} (h : bit < 64) :
    w ||| (1 <<< UInt64.ofNat bit) ≠ 0 := by
  intro hzero
  have hor := congrArg UInt64.toNat hzero
  rw [UInt64.toNat_or, Word.toNat_shiftLeft 1 h, UInt64.toNat_one, Nat.one_mul,
    Nat.mod_eq_of_lt (Nat.pow_lt_pow_right (by decide) h), UInt64.toNat_zero] at hor
  have hbit := congrArg (Nat.testBit · bit) hor
  rw [Nat.testBit_or, Nat.testBit_two_pow_self, Bool.or_true, Nat.zero_testBit] at hbit
  cases hbit

/-- A number with one bit set is held in the same buffer. -/
theorem setBit_holds (ha : a.WellFormed) (bit : Nat) : Holds a.capacity (a.setBit bit) := by
  by_cases hlt : a.capacity ≤ bit / 64
  · rw [setBit, if_pos hlt]
    exact .error _
  · rw [setBit, if_neg hlt]
    have hroom : bit / 64 < a.limbs.length := Nat.lt_of_not_le hlt
    have hcapacity := ha.capacity_pos
    have hsize := ha.size_le
    refine .ok ⟨⟨?_, ?_, fun n hn => ?_, fun i hi => ?_⟩, ?_⟩
    · rwa [capacity, List.length_set]
    · rw [capacity, List.length_set]
      exact Nat.max_le.mpr ⟨hsize, hroom⟩
    · rw [Limbs.get_set hroom]
      split
      · exact or_bit_ne_zero _ (Nat.mod_lt _ (by decide))
      · exact ha.top_ne_zero n (by dsimp only at hn; omega)
    · rw [Limbs.get_set hroom, if_neg (by dsimp only at hi; omega)]
      exact ha.above_zero i ((Nat.le_max_left _ _).trans hi)
    · rw [capacity, List.length_set]
      exact ha.held.capacity_eq

end FixedNat

/-- The register that an instruction makes afresh, whatever was in it before. -/
def Instruction.fresh? : Instruction → Option Nat
  | .create r _ | .createBits r _ | .createWord r _ _ | .createBytes r _
  | .createBytesWithin r _ _ | .createResized r _ _ => some r
  | _ => none

namespace Registers

open FixedNat

/-- Every register is well formed. -/
def WellFormed (file : Registers) : Prop :=
  ∀ r, (file r).WellFormed

/-- The first file is well formed. -/
theorem wellFormed_initial : initial.WellFormed :=
  fun _ => (held_zero 1).wellFormed

/-- The file after a list of instructions, whatever they answered. -/
def run (file : Registers) (program : List Instruction) : Registers :=
  program.foldl (fun file next => (file.step next).1) file

variable {file after : Registers} {r : Nat}

/-! ### Registers and capacities -/

/-- A later file: still well formed, with no capacity changed but that of a fresh register. -/
structure Follows (file : Registers) (fresh : Option Nat) (after : Registers) : Prop where
  wellFormed : after.WellFormed
  capacity_eq : ∀ r, fresh ≠ some r → (after r).capacity = (file r).capacity

/-- A well-formed file follows itself. -/
theorem Follows.refl (hfile : file.WellFormed) (fresh : Option Nat) : Follows file fresh file :=
  ⟨hfile, fun _ _ => rfl⟩

/-- A register takes a number in its own capacity. -/
theorem Follows.set {fresh : Option Nat} {a : FixedNat} (h : Follows file fresh after)
    (ha : Held (after r).capacity a) : Follows file fresh (after.set r a) := by
  refine ⟨fun i => ?_, fun i hi => ?_⟩
  · rw [Registers.set]
    split
    · exact ha.wellFormed
    · exact h.wellFormed i
  · rw [Registers.set]
    split
    · rename_i heq
      rw [ha.capacity_eq, Nat.max_eq_left (h.wellFormed r).capacity_pos, heq, h.capacity_eq r]
      exact heq ▸ hi
    · exact h.capacity_eq i hi

/-- Writing a computed number keeps the capacity of the register. -/
theorem Follows.write {fresh : Option Nat} {x : Checked FixedNat} (h : Follows file fresh after)
    (hx : Holds (after r).capacity x) : Follows file fresh (after.write r x).1 := by
  cases x with
  | ok a => exact h.set (hx a rfl)
  | error e => exact h

/-- Writing the limbs of a part of a division keeps the capacity of the register. -/
theorem Follows.writeLimbs {fresh : Option Nat} (h : Follows file fresh after)
    (target : Option Nat) (ws : Limbs) : Follows file fresh (after.writeLimbs target ws).1 := by
  cases target with
  | none => exact h
  | some r => exact h.write (ofLimbs?_holds _ ws)

/-- A fresh register may have any capacity. -/
theorem follows_write_fresh {capacity : Nat} {x : Checked FixedNat} (hfile : file.WellFormed)
    (hx : Holds capacity x) : Follows file (some r) (file.write r x).1 := by
  cases x with
  | error e => exact .refl hfile _
  | ok a =>
      refine ⟨fun i => ?_, fun i hi => ?_⟩
      · show (if i = r then a else file i).WellFormed
        split
        · exact (hx a rfl).wellFormed
        · exact hfile i
      · show (if i = r then a else file i).capacity = _
        rw [if_neg]
        rintro rfl
        exact hi rfl

/-- Writing both parts of a division keeps all capacities. -/
theorem follows_writeDivision (hfile : file.WellFormed) (quotient remainder : Option Nat)
    (x : Checked Limbs.Division) :
    Follows file none (file.writeDivision quotient remainder x).1 := by
  cases x with
  | error e => exact .refl hfile none
  | ok result =>
      have hfirst := (Follows.refl hfile none).writeLimbs quotient result.quotient
      rw [writeDivision]
      split
      · rename_i heq
        rwa [heq] at hfirst
      · rename_i heq
        rw [heq] at hfirst
        exact hfirst.writeLimbs remainder result.remainder

/-- One step keeps the file well formed and changes no capacity but that of a fresh register. -/
theorem follows_step (hfile : file.WellFormed) (next : Instruction) :
    Follows file next.fresh? (file.step next).1 := by
  have hself : Follows file none file := .refl hfile none
  cases next with
  | create r capacity => exact follows_write_fresh hfile (.ok (held_zero capacity))
  | createBits r bits => exact follows_write_fresh hfile (.ok (held_zero _))
  | createWord r w capacity => exact follows_write_fresh hfile (.ok (held_ofWord w capacity))
  | createBytes r bytes => exact follows_write_fresh hfile (.ok (held_ofBytes bytes))
  | createBytesWithin r bytes capacity => exact follows_write_fresh hfile (ofLimbs?_holds capacity _)
  | createResized r a capacity => exact follows_write_fresh hfile (ofLimbs?_holds capacity _)
  | setBytes r bytes => exact hself.write (ofLimbs?_holds _ _)
  | setWord r w => exact hself.write (.ok (held_ofWord w _))
  | setZero r => exact hself.write (.ok (held_zero _))
  | normalize r => exact hself.write (.ok ((normalize_eq (hfile r)).symm ▸ (hfile r).held))
  | maskBits r bits => exact hself.write (.ok (maskBits_held (hfile r) bits))
  | setBit r bit => exact hself.write (setBit_holds (hfile r) bit)
  | copy r a => exact hself.write (ofLimbs?_holds _ _)
  | add r a b => exact hself.write (withScratch_holds _ _ _)
  | sub r a b => exact hself.write (sub_holds _ _ _)
  | mul r a b => exact hself.write (mul_holds _ _ _)
  | gcd r a b => exact hself.write (gcd_holds _ _ _)
  | addWord r a w => exact hself.write (withScratch_holds _ _ _)
  | subWord r a w => exact hself.write (sub_holds _ _ _)
  | shiftLeft r a bits => exact hself.write (shiftLeft_holds _ _ _)
  | shiftRight r a bits => exact hself.write (shiftRight_holds _ _ _)
  | modMul r a b m => exact hself.write (modMul_holds _ _ _ _)
  | modPow r a b m => exact hself.write (modPow_holds _ _ _ _)
  | modInverse r a m =>
      rw [step]
      split
      · rename_i inverse h
        exact hself.set (modInverse_holds h)
      · exact hself
      · exact hself
  | divRem quotient remainder a d => exact follows_writeDivision hfile quotient remainder _

/-- Every register is well formed after any instructions. -/
theorem WellFormed.run (hfile : file.WellFormed) (program : List Instruction) :
    (file.run program).WellFormed := by
  induction program generalizing file with
  | nil => exact hfile
  | cons next program ih => exact ih (follows_step hfile next).wellFormed

/-! ### Instructions that write nothing -/

/-- The outcome of a division whose remainder finds no room: its register for the quotient holds
the exact quotient, and nothing else has changed. -/
structure QuotientAlone (file : Registers) (q r a d : Nat) (outcome : Registers × Checked Bool) :
    Prop where
  quotient_eq : outcome.1 =
    file.set q (FixedNat.ofNat (file q).capacity ((file a).value / (file d).value))
  noRoom : ¬Fits (file r).capacity ((file a).value % (file d).value)
  answer_eq : outcome.2 = .error (.fatal .allocation)

/-- A write that is refused keeps the file. -/
theorem write_of_ne {x : Checked FixedNat} (h : (file.write r x).2 ≠ .ok true) :
    (file.write r x).1 = file := by
  cases x with
  | ok a => exact absurd rfl h
  | error e => rfl

/-- Limbs whose number fits are written. -/
theorem writeLimbs_of_fits {ws : Limbs} (h : Fits (file r).capacity ws.value) :
    file.writeLimbs (some r) ws =
      (file.set r (FixedNat.ofNat (file r).capacity ws.value), .ok true) := by
  show file.write r (ofLimbs? _ ws) = _
  rw [ofLimbs?_eq, hold?_of_fits h]
  rfl

/-- Limbs whose number does not fit are refused. -/
theorem writeLimbs_of_not_fits {ws : Limbs} (h : ¬Fits (file r).capacity ws.value) :
    file.writeLimbs (some r) ws = (file, .error (.fatal .allocation)) := by
  show file.write r (ofLimbs? _ ws) = _
  rw [ofLimbs?_eq, hold?_of_not_fits h]
  rfl

/-- The parts of a division are written one after the other. -/
theorem writeDivision_ok_of_ne {result : Limbs.Division} (hfile : file.WellFormed)
    {quotient remainder : Option Nat}
    (h : (file.writeDivision quotient remainder (.ok result)).2 ≠ .ok true) :
    (file.writeDivision quotient remainder (.ok result)).1 = file ∨
      ∃ q r, quotient = some q ∧ remainder = some r ∧
        ¬Fits (file r).capacity result.remainder.value ∧
        file.writeDivision quotient remainder (.ok result) =
          (file.set q (FixedNat.ofNat (file q).capacity result.quotient.value),
            .error (.fatal .allocation)) := by
  cases quotient with
  | none =>
      cases remainder with
      | none => exact absurd rfl h
      | some r => exact .inl (write_of_ne h)
  | some q =>
      by_cases hfits : Fits (file q).capacity result.quotient.value
      · have hset := (Follows.refl hfile none).set (held_ofNat hfits)
        rw [writeDivision, writeLimbs_of_fits hfits] at h ⊢
        cases remainder with
        | none => exact absurd rfl h
        | some r =>
            have hcapacity := hset.capacity_eq r nofun
            by_cases hroom : Fits (file r).capacity result.remainder.value
            · exact absurd (congrArg Prod.snd (writeLimbs_of_fits (hcapacity.symm ▸ hroom))) h
            · exact .inr ⟨q, r, rfl, rfl, hroom, writeLimbs_of_not_fits (hcapacity.symm ▸ hroom)⟩
      · rw [writeDivision, writeLimbs_of_not_fits hfits]
        exact .inl rfl

/-- A division that is not carried out keeps the file, unless it has its quotient already. -/
theorem divRem_of_ne (hfile : file.WellFormed) {quotient remainder : Option Nat} {a d : Nat}
    (h : (file.step (.divRem quotient remainder a d)).2 ≠ .ok true) :
    (file.step (.divRem quotient remainder a d)).1 = file ∨
      ∃ q r, quotient = some q ∧ remainder = some r ∧
        QuotientAlone file q r a d (file.step (.divRem quotient remainder a d)) := by
  rw [step] at h ⊢
  rcases division_spec (hfile a) (hfile d) with
    ⟨-, hx⟩ | ⟨-, -, hx⟩ | ⟨-, -, result, hx, hq, hr⟩
  · rw [hx]
    exact .inl rfl
  · rw [hx]
    exact .inl rfl
  · rw [hx] at h ⊢
    rcases writeDivision_ok_of_ne hfile h with hkept | ⟨q, r, hquotient, hremainder, hroom, heq⟩
    · exact .inl hkept
    · rw [hq] at heq
      rw [hr] at hroom
      exact .inr ⟨q, r, hquotient, hremainder, congrArg Prod.fst heq, hroom, congrArg Prod.snd heq⟩

/-- An instruction that does not answer that it wrote its target keeps the file, except for a
division that has its quotient already. -/
theorem step_of_ne (hfile : file.WellFormed) {next : Instruction}
    (h : (file.step next).2 ≠ .ok true) :
    (file.step next).1 = file ∨
      ∃ q r a d, next = .divRem (some q) (some r) a d ∧
        QuotientAlone file q r a d (file.step next) := by
  cases next with
  | divRem quotient remainder a d =>
      rcases divRem_of_ne hfile h with hkept | ⟨q, r, rfl, rfl, halone⟩
      · exact .inl hkept
      · exact .inr ⟨q, r, a, d, rfl, halone⟩
  | modInverse r a m =>
      rw [step] at h ⊢
      split
      · rename_i heq
        rw [heq] at h
        exact absurd rfl h
      · exact .inl rfl
      · exact .inl rfl
  | _ => exact .inl (write_of_ne h)

/-- After any instructions, of which any may have been refused, every register is well formed; the
next instruction keeps them so, changes no capacity but that of a register it makes afresh, and
changes nothing at all when it does not write its target, save for the quotient of a division whose
remainder finds no room. -/
theorem step_run_atomic (program : List Instruction) (next : Instruction) :
    let file := initial.run program
    file.WellFormed ∧ (file.step next).1.WellFormed ∧
      (∀ r, next.fresh? ≠ some r → ((file.step next).1 r).capacity = (file r).capacity) ∧
      ((file.step next).2 ≠ .ok true →
        (file.step next).1 = file ∨
          ∃ q r a d, next = .divRem (some q) (some r) a d ∧
            QuotientAlone file q r a d (file.step next)) := by
  have hfile := wellFormed_initial.run program
  have hstep := follows_step hfile next
  exact ⟨hfile, hstep.wellFormed, hstep.capacity_eq, step_of_ne hfile⟩

end Registers

end TrustedPlatform
