import TrustedPlatform.Proofs.Integer.Euclid
import TrustedPlatform.Proofs.Integer.Power
import TrustedPlatform.Proofs.Integer.Registers
import TrustedPlatform.Proofs.Integer.ScratchDivision

/-!
# What registers hold after divisions, powers and inverses

A computation that refines an exact number, and gives held numbers only, is `FixedNat.hold?` of it:
its register takes the number when there is room for it, and the file is kept when there is none.
The long division is carried out within its scratch area, the powers and the two Euclidean loops
need no more of it than the sizes of the operands allow for, and the loops end.
-/

namespace TrustedPlatform

namespace FixedNat

open Limbs (count)

variable {capacity n : Nat} {a : FixedNat}

/-! ### Numbers held with a capacity -/

/-- A held number fits its buffer. -/
theorem Held.fits (h : Held capacity a) : Fits capacity a.value := by
  have hlt := h.wellFormed.value_lt_capacity
  rwa [h.capacity_eq, Nat.max_eq_left (Nat.le_max_right capacity 1)] at hlt

/-- A held number is determined by its capacity. -/
theorem Held.eq_ofNat (h : Held capacity a) : a = ofNat capacity a.value := by
  have heq := h.wellFormed.eq_ofNat
  rw [h.capacity_eq] at heq
  rw [heq, value_ofNat, ofNat, ofNat, Nat.max_eq_left (Nat.le_max_right capacity 1)]

/-- A computation that refines a number, and gives held numbers only, holds it. -/
theorem eq_hold?_of_refines {room : Prop} {x : Checked FixedNat}
    (h : Refines room Denotes x (.ok n)) (hroom : Fits capacity n → room)
    (hx : Holds capacity x) : x = hold? capacity n := by
  cases h with
  | ok hdenotes =>
      have hheld := hx _ rfl
      rw [← hdenotes.value_eq, hold?_of_fits hheld.fits, ← hheld.eq_ofNat]
  | exhausted hno => rw [hold?_of_not_fits (mt hroom hno)]

/-! ### Greatest common divisors and inverses -/

/-- A greatest common divisor is held. -/
theorem gcd_eq (capacity : Nat) {x m : FixedNat} (hx : x.WellFormed) (hm : m.WellFormed)
    (hsize : x.size ≤ scratchLimbs) (hmodulus : m.size ≤ scratchLimbs) :
    gcd capacity x m = hold? capacity (Nat.gcd x.value m.value) := by
  have hrefines : Refines (Fits capacity (Nat.gcd x.value m.value)) Denotes (gcd capacity x m)
      (.ok (Nat.gcd x.value m.value)) :=
    gcd_refines (.of_wellFormed hx) (.of_wellFormed hm) fun h =>
      ⟨hx.size_eq ▸ hsize, hm.size_eq ▸ hmodulus, h⟩
  exact eq_hold?_of_refines hrefines id (gcd_holds _ _ _)

/-- The sequence of remainders that a greatest common divisor is found with ends. -/
theorem remainderLoop {x m : FixedNat} (hx : x.WellFormed) (hm : m.WellFormed)
    (hsize : x.size ≤ scratchLimbs) (hmodulus : m.size ≤ scratchLimbs) :
    let working := max (max x.size m.size) 1
    Returns (x.resized working) fun r0 => Returns (m.resized working) fun r1 =>
      ∃ g, ∀ steps, 2 * m.bitLength + 2 ≤ steps →
        remainderSequence working steps r0 r1 = .ok g := by
  intro working
  have hx' := Denotes.of_wellFormed hx
  have hm' := Denotes.of_wellFormed hm
  have hfirst : Fits working x.value := fits_of_count_le (by rw [← hx'.size_eq]; omega)
  have hsecond : Fits working m.value := fits_of_count_le (by rw [← hm'.size_eq]; omega)
  have hr0 : Refines True Denotes (x.resized working) (.ok x.value) :=
    resized_refines hx' fun _ => hfirst
  have hr1 : Refines True Denotes (m.resized working) (.ok m.value) :=
    resized_refines hm' fun _ => hsecond
  refine (hr0.returns trivial).mono fun r0 h0 => (hr1.returns trivial).mono fun r1 h1 => ?_
  have hsequence : Refines True Denotes (remainderSequence working (2 * m.bitLength + 2) r0 r1)
      (.ok (Nat.gcd x.value m.value)) :=
    remainderSequence_refines _ h0 h1 (.inl (by rw [bitLength_eq])) fun _ =>
      ⟨hx'.size_eq ▸ hsize, hm'.size_eq ▸ hmodulus, hsecond⟩
  obtain ⟨g, hg, -⟩ := hsequence.returns trivial
  exact ⟨g, fun steps hsteps => remainderSequence_of_le hg hsteps⟩

/-- An inverse that exists is held; none is answered when there is none. -/
theorem modInverse_eq (capacity : Nat) {a m : FixedNat} (ha : a.WellFormed) (hm : m.WellFormed)
    (hzero : m.value ≠ 0) (hsize : a.size ≤ scratchLimbs) (hmodulus : m.size + 1 ≤ scratchLimbs) :
    modInverse capacity a m =
      match Exact.modInverse a.value m.value with
      | none => .ok none
      | some inverse => some <$> hold? capacity inverse := by
  have hrefines : Refines (∀ inverse, Exact.modInverse a.value m.value = some inverse →
      Fits capacity inverse) (Option.Rel Denotes) (modInverse capacity a m)
        (Exact.unlessZero m.value fun _ => Exact.modInverse a.value m.value) :=
    modInverse_refines (.of_wellFormed ha) (.of_wellFormed hm)
      (fun _ => ⟨ha.size_eq ▸ hsize, hm.size_eq ▸ hmodulus⟩) fun _ inverse h hroom =>
        hroom inverse h
  rw [Exact.unlessZero_of_ne hzero] at hrefines
  cases hexact : Exact.modInverse a.value m.value with
  | none =>
      rw [hexact] at hrefines
      simp only
      obtain ⟨result, heq, hnone⟩ := hrefines.returns nofun
      cases hnone
      exact heq
  | some inverse =>
      rw [hexact] at hrefines
      simp only
      generalize hcomputed : modInverse capacity a m = computed at hrefines
      cases hrefines with
      | ok hresult =>
          cases hresult with
          | some hdenotes =>
              have hheld := modInverse_holds hcomputed
              rw [← hdenotes.value_eq, hold?_of_fits hheld.fits, ← hheld.eq_ofNat]
              rfl
      | exhausted hroom =>
          rw [hold?_of_not_fits fun hfits => hroom fun x hx => Option.some.inj hx ▸ hfits]
          rfl

/-- A search for an inverse modulo a number: its steps end, its cofactors do not exceed the modulus,
and each of its steps returns and lowers the remainder. -/
structure CofactorLoop (capacity modulus : Nat) (first : Cofactors) : Prop where
  ends : ∃ last, ∀ steps, 2 * first.r1.bitLength + 2 ≤ steps →
    cofactorSequence capacity steps first.r0 first.r1 first.t0 first.t1 = .ok last
  bounded : ∀ s, Cofactors.Reached capacity first s →
    s.t0.magnitude.value ≤ modulus ∧ s.t1.magnitude.value ≤ modulus
  returns : ∀ s, Cofactors.Reached capacity first s → s.r1.isZero = false →
    ∃ next, s.step capacity = .ok next ∧ next.r1.value < s.r1.value

/-- The search for an inverse ends, and its cofactors do not exceed the modulus. -/
theorem cofactorLoop {a m : FixedNat} (ha : a.WellFormed) (hm : m.WellFormed)
    (hzero : m.value ≠ 0) (hsize : a.size ≤ scratchLimbs) (hmodulus : m.size + 1 ≤ scratchLimbs) :
    Returns (Cofactors.start (2 * max m.size a.size + 2) a m)
      (CofactorLoop (2 * max m.size a.size + 2) m.value) := by
  generalize hlimbs : 2 * max m.size a.size + 2 = working
  have hm' := Denotes.of_wellFormed hm
  have hscratch : count m.value + 1 ≤ scratchLimbs := hm'.size_eq ▸ hmodulus
  have hfits : Fits working m.value := by
    refine fits_of_count_le ?_
    rw [← hm'.size_eq, ← hlimbs]
    omega
  have hstart : Refines True _ (Cofactors.start working a m) (.ok ()) :=
    Cofactors.start_refines (.of_wellFormed ha) hm' hzero hfits fun _ =>
      ⟨ha.size_eq ▸ hsize, Nat.le_of_succ_le hscratch⟩
  refine (hstart.returns trivial).mono fun first hfirst => ?_
  have hbalanced := Cofactors.balanced_start hzero a.value
  have hreached : ∀ s, Cofactors.Reached working first s → s.Balances m.value :=
    fun s hs => hs.balances ⟨_, _, _, _, hfirst, hbalanced⟩ hscratch hfits
  refine ⟨?_, fun s hs => ?_, fun s hs hnonzero => ?_⟩
  · have hsequence : Refines True _ _ _ := Cofactors.sequence_refines
      (2 * first.r1.bitLength + 2) hfirst (.inl (by rw [hfirst.r1.bitLength_eq])) hbalanced
      fun _ => ⟨hscratch, hfits⟩
    obtain ⟨last, hlast, -⟩ := hsequence.returns trivial
    exact ⟨last, fun steps hsteps => Cofactors.sequence_of_le hlast hsteps⟩
  · obtain ⟨_, _, _, _, hdenotes, hbalance⟩ := hreached s hs
    rw [hdenotes.t0.magnitude.value_eq, hdenotes.t1.magnitude.value_eq]
    exact ⟨hbalance.leftCofactor_le, hbalance.rightCofactor_le⟩
  · obtain ⟨next, hnext, -, hlt⟩ := (hreached s hs).step hnonzero hscratch hfits
    exact ⟨next, hnext, hlt⟩

end FixedNat

namespace Registers

open FixedNat
open Limbs (count)

variable {file : Registers} {r n : Nat}

/-- A file stays well formed with another well-formed number in one of its registers. -/
theorem WellFormed.set (hfile : file.WellFormed) {a : FixedNat} (ha : a.WellFormed) (r : Nat) :
    (file.set r a).WellFormed := by
  intro i
  rw [Registers.set]
  split
  · exact ha
  · exact hfile i

/-- The file with a number in one of its registers. -/
def put (file : Registers) (r n : Nat) : Registers :=
  file.set r (FixedNat.ofNat (file r).capacity n)

/-- The outcome of an instruction that gives a number: its register holds the number when it has room
for it; otherwise the allocation is fatal and nothing has changed. -/
structure Writes (file : Registers) (r n : Nat) (outcome : Registers × Checked Bool) : Prop where
  written : Fits (file r).capacity n → outcome = (file.put r n, .ok true)
  refused : ¬Fits (file r).capacity n → outcome = (file, .error (.fatal .allocation))

/-- A held number is written. -/
theorem writes_hold? (file : Registers) (r n : Nat) :
    file.Writes r n (file.write r (hold? (file r).capacity n)) := by
  refine ⟨fun hfits => ?_, fun hfits => ?_⟩
  · rw [hold?_of_fits hfits]
    rfl
  · rw [hold?_of_not_fits hfits]
    rfl

/-! ### Divisions -/

/-- The register named for a part of a division, if any, has room for it. -/
def HasRoom (file : Registers) (target : Option Nat) (n : Nat) : Prop :=
  ∀ r ∈ target, Fits (file r).capacity n

/-- The file with a part of a division in the register named for it. -/
def putPart (file : Registers) (target : Option Nat) (n : Nat) : Registers :=
  match target with
  | none => file
  | some r => file.put r n

/-- A part of a division that has room is written. -/
theorem writeLimbs_of_hasRoom {target : Option Nat} {ws : Limbs} (h : file.HasRoom target ws.value) :
    file.writeLimbs target ws = (file.putPart target ws.value, .ok true) := by
  cases target with
  | none => rfl
  | some r => exact writeLimbs_of_fits (h r rfl)

/-- A part of a division that has no room is refused. -/
theorem writeLimbs_of_not_hasRoom {target : Option Nat} {ws : Limbs}
    (h : ¬file.HasRoom target ws.value) :
    file.writeLimbs target ws = (file, .error (.fatal .allocation)) := by
  cases target with
  | none => exact absurd (fun _ hr => nomatch hr) h
  | some r => exact writeLimbs_of_not_fits fun hfits => h fun _ hr => Option.some.inj hr ▸ hfits

/-- Writing a part of a division leaves every register the room it had. -/
theorem hasRoom_putPart {quotient : Option Nat} {part : Nat} (hfile : file.WellFormed)
    (h : file.HasRoom quotient part) (remainder : Option Nat) (n : Nat) :
    (file.putPart quotient part).HasRoom remainder n ↔ file.HasRoom remainder n := by
  cases quotient with
  | none => rfl
  | some q =>
      have hput := (Follows.refl hfile none).set (held_ofNat (h q rfl))
      have hcapacity : ∀ r, (file.putPart (some q) part r).capacity = (file r).capacity :=
        fun r => hput.capacity_eq r nofun
      exact forall₂_congr fun r _ => by rw [hcapacity r]

/-- The parts of a division that is carried out are written when both have room; otherwise the
allocation is fatal. -/
theorem writeDivision_ok (hfile : file.WellFormed) (quotient remainder : Option Nat)
    (result : Limbs.Division) :
    (file.HasRoom quotient result.quotient.value → file.HasRoom remainder result.remainder.value →
      file.writeDivision quotient remainder (.ok result) =
        ((file.putPart quotient result.quotient.value).putPart remainder result.remainder.value,
          .ok true)) ∧
      ((file.writeDivision quotient remainder (.ok result)).2 = .error (.fatal .allocation) ↔
        ¬file.HasRoom quotient result.quotient.value ∨
          ¬file.HasRoom remainder result.remainder.value) := by
  by_cases hquotient : file.HasRoom quotient result.quotient.value
  · have hroom := hasRoom_putPart hfile hquotient remainder result.remainder.value
    rw [writeDivision, writeLimbs_of_hasRoom hquotient]
    simp only
    by_cases hremainder : file.HasRoom remainder result.remainder.value
    · rw [writeLimbs_of_hasRoom (hroom.mpr hremainder)]
      refine ⟨fun _ _ => rfl, ⟨fun h => ?_, fun h => ?_⟩⟩
      · cases h
      · exact absurd h (not_or.mpr ⟨not_not.mpr hquotient, not_not.mpr hremainder⟩)
    · rw [writeLimbs_of_not_hasRoom (mt hroom.mp hremainder)]
      exact ⟨fun _ h => absurd h hremainder, ⟨fun _ => .inr hremainder, fun _ => rfl⟩⟩
  · rw [writeDivision, writeLimbs_of_not_hasRoom hquotient]
    exact ⟨fun h => absurd h hquotient, ⟨fun _ => .inl hquotient, fun _ => rfl⟩⟩

/-- Division is exact whatever registers it names. A zero divisor is refused. Otherwise the one
quotient and remainder are written where a register is named for them, when no operand exceeds the
scratch area and both have room, and a fatal allocation is answered only when one of these fails.
Limbs with leading zeros leave the same remainder. The long division of limbs is carried out in
place: no access leaves its array, no intermediate its double word, and each estimate of a quotient
limb fits a limb and is exact or one too large. -/
theorem division_exact (hfile : file.WellFormed) (quotient remainder : Option Nat) (a d : Nat) :
    let n := (file a).value
    let k := (file d).value
    let outcome := file.step (.divRem quotient remainder a d)
    (k = 0 → outcome = (file, .error (.fatal .divideByZero)) ∧
      ∀ capacity ws, modLimbs capacity ws (file d) = .error (.fatal .divideByZero)) ∧
    (k ≠ 0 → ∃ q r, n = q * k + r ∧ r < k ∧
      ((file a).size ≤ scratchLimbs → (file d).size ≤ scratchLimbs →
        file.HasRoom quotient q → file.HasRoom remainder r →
          outcome = ((file.putPart quotient q).putPart remainder r, .ok true)) ∧
      (outcome.2 = .error (.fatal .allocation) ↔
        (scratchLimbs < (file a).size ∨ scratchLimbs < (file d).size) ∨
          ¬file.HasRoom quotient q ∨ ¬file.HasRoom remainder r)) ∧
    (k ≠ 0 → ∀ ws : Limbs, ws.length ≤ scratchLimbs →
      (∀ capacity, modLimbs capacity ws (file d) = hold? capacity (ws.value % k)) ∧
      ((file d).size ≤ ws.length → ∃ run, Limbs.Scratch.divide ws (file d).words = some run ∧
        run.division = Limbs.div ws (file d).words ∧
        (2 ≤ (file d).size →
          List.Forall₂ Limbs.Scratch.Accurate run.estimates run.division.quotient))) := by
  intro n k outcome
  have hd := hfile d
  refine ⟨fun hzero => ⟨?_, fun capacity ws => ?_⟩, fun hne => ?_, fun hne ws hws => ?_⟩
  · have hrefused : (file a).division (file d) = .error (.fatal .divideByZero) :=
      if_pos ((Denotes.of_wellFormed hd).isZero_iff.mpr hzero)
    show file.writeDivision quotient remainder ((file a).division (file d)) = _
    rw [hrefused]
    rfl
  · rw [modLimbs_eq hd, unlessZero, if_pos hzero]
  · refine ⟨n / k, n % k, (Nat.div_add_mod' n k).symm, Nat.mod_lt n (Nat.pos_of_ne_zero hne), ?_⟩
    have hstep : outcome = file.writeDivision quotient remainder ((file a).division (file d)) := rfl
    rw [hstep]
    rcases division_spec (hfile a) hd with
      ⟨hzero, -⟩ | ⟨-, hroom, hrefused⟩ | ⟨-, hroom, result, hdivision, hq, hr⟩
    · exact absurd hzero hne
    · rw [hrefused]
      refine ⟨fun ha hsize => ?_, ⟨fun _ => .inl hroom, fun _ => rfl⟩⟩
      exact absurd hroom (not_or.mpr ⟨Nat.not_lt.mpr ha, Nat.not_lt.mpr hsize⟩)
    · obtain ⟨hwritten, hallocation⟩ := writeDivision_ok hfile quotient remainder result
      rw [hq, hr] at hwritten hallocation
      rw [hdivision]
      refine ⟨fun _ _ => hwritten, hallocation.trans ?_⟩
      exact (or_iff_right hroom).symm
  · refine ⟨fun capacity => ?_, fun hlen => ?_⟩
    · rw [modLimbs_eq hd, unlessZero, if_neg hne]
    · have hwords : (file d).words ≠ [] := fun hnil => hne (congrArg Limbs.value hnil)
      rw [← hd.length_words] at hlen ⊢
      exact Limbs.Scratch.divide_eq hwords (hd.top_word_ne_zero hne) hlen hws

/-- A division whose first estimate is one too large. -/
theorem division_exact_addBack :
    let n := 0x7fffffffffffffff800000000000000000000000000000000000000000000000
    let k := 0x800000000000000000000000000000000000000000000001
    let file := (initial.set 0 (.ofNat 4 n)).set 1 (.ofNat 3 k)
    file.WellFormed ∧ file.step (.divRem (some 2) none 0 1) =
      (file.put 2 0xfffffffffffffffe, .ok true) := by
  intro n k file
  have hfile : file.WellFormed :=
    (wellFormed_initial.set (wellFormed_ofNat (by decide)) 0).set (wellFormed_ofNat (by decide)) 1
  have hn : (file 0).value = n := value_ofNat 4 n
  have hk : (file 1).value = k := value_ofNat 3 k
  have hlimbs : (file 0).size ≤ scratchLimbs ∧ (file 1).size ≤ scratchLimbs :=
    ⟨((hfile 0).size_le.trans_eq (capacity_ofNat (by decide))).trans (by decide),
      ((hfile 1).size_le.trans_eq (capacity_ofNat (by decide))).trans (by decide)⟩
  obtain ⟨-, hdivision, -⟩ := division_exact hfile (some 2) none 0 1
  obtain ⟨q, r, hsplit, hlt, hwritten, -⟩ := hdivision (by rw [hk]; decide)
  rw [hn, hk] at hsplit
  rw [hk] at hlt
  obtain rfl : q = 0xfffffffffffffffe := by omega
  refine ⟨hfile, hwritten hlimbs.1 hlimbs.2 ?_ nofun⟩
  rintro _ ⟨⟩
  exact (by decide : 0xfffffffffffffffe < UInt64.size ^ max 1 1)

/-! ### Powers -/

/-- Powers are exact. A zero modulus is refused, and modulo one the result is zero. For a modulus
of at most 65 limbs, and a base within the scratch area, the remainder of the power is written when
it fits the register; when it does not, the allocation is fatal and nothing has changed. -/
theorem power_exact (hfile : file.WellFormed) (r a b m : Nat) :
    let k := (file m).value
    let power := (file a).value ^ (file b).value % k
    let outcome := file.step (.modPow r a b m)
    (k = 0 → outcome = (file, .error (.fatal .divideByZero))) ∧
    (k = 1 → outcome = (file.put r 0, .ok true)) ∧
    (k ≠ 0 → (file m).size ≤ 65 → (file a).size ≤ scratchLimbs →
      file.Writes r power outcome) := by
  intro k power outcome
  have hm := Denotes.of_wellFormed (hfile m)
  have hstep : outcome =
      file.write r (modPow (file r).capacity (file a) (file b) (file m)) := rfl
  refine ⟨fun hzero => ?_, fun hone => ?_, fun hne hmodulus hbase => ?_⟩
  · rw [hstep, modPow, if_pos (hm.isZero_iff.mpr hzero)]
    rfl
  · rw [hstep, modPow, if_neg (mt hm.isZero_iff.mp (by omega)), if_pos ((hm.eqWord_iff 1).mpr hone),
      zero_eq]
    rfl
  · have hsize : count k + count k ≤ scratchLimbs := by
      rw [← hm.size_eq]
      exact Nat.add_le_add hmodulus hmodulus
    have hpower : Refines (Fits (file r).capacity power) Denotes
        (modPow (file r).capacity (file a) (file b) (file m))
        (Exact.unlessZero k fun _ => Exact.modPow k (file a).value (file b).value) :=
      modPow_refines _ (.of_wellFormed (hfile a)) (.of_wellFormed (hfile b)) hm
        (fun _ => ⟨(hfile a).size_eq ▸ hbase, hsize⟩) fun _ h => h
    rw [Exact.unlessZero_of_ne hne, Exact.modPow_eq] at hpower
    rw [hstep, eq_hold?_of_refines hpower id (modPow_holds _ _ _ _)]
    exact writes_hold? file r power

/-- The power of four to the thirteenth modulo 497, in a register of one limb. -/
theorem power_exact_thirteenth :
    let file := initial.run [.createWord 0 4 1, .createWord 1 13 1, .createWord 2 497 1]
    file.WellFormed ∧ (file 2).value ≠ 0 ∧ (file 2).size ≤ 65 ∧ (file 0).size ≤ scratchLimbs ∧
      file.step (.modPow 3 0 1 2) = (file.put 3 445, .ok true) := by
  intro file
  have hfile : file.WellFormed := wellFormed_initial.run _
  have hvalue : (file 2).value = 497 := by decide
  obtain ⟨-, -, hpower⟩ := power_exact hfile 3 0 1 2
  have hne : (file 2).value ≠ 0 := by rw [hvalue]; decide
  have hpow : (file 0).value ^ (file 1).value % (file 2).value = 445 := by decide
  have hwrites := hpower hne (by decide) (by decide)
  rw [hpow] at hwrites
  exact ⟨hfile, hne, by decide, by decide,
    hwrites.written (by decide : 445 < UInt64.size ^ max 1 1)⟩

/-! ### Greatest common divisors and inverses -/

/-- Nothing is written when there is no inverse. -/
theorem step_modInverse_none {a m : Nat}
    (h : modInverse (file r).capacity (file a) (file m) = .ok none) :
    file.step (.modInverse r a m) = (file, .ok false) := by
  rw [step, h]

/-- An inverse that is held is written. -/
theorem step_modInverse_some {a m : Nat}
    (h : modInverse (file r).capacity (file a) (file m) = some <$> hold? (file r).capacity n) :
    file.step (.modInverse r a m) = file.write r (hold? (file r).capacity n) := by
  rw [step, h]
  cases hold? (file r).capacity n with
  | ok a => rfl
  | error e => rfl

/-- An inverse below the modulus is the only one. -/
theorem eq_of_inverse {a k x y : Nat} (hx : x < k) (hy : y < k) (hax : a * x ≡ 1 [MOD k])
    (hay : a * y ≡ 1 [MOD k]) : y = x := by
  have hcoprime : Nat.gcd k a = 1 := by
    rw [Nat.gcd_comm]
    exact Nat.coprime_of_mul_modEq_one x hax
  exact (Nat.ModEq.cancel_left_of_coprime hcoprime (hay.trans hax.symm)).eq_of_lt_of_lt hy hx

/-- The greatest common divisor is written. -/
theorem gcd_writes (hfile : file.WellFormed) {a m : Nat} (ha : (file a).size ≤ scratchLimbs)
    (hm : (file m).size ≤ scratchLimbs) :
    file.Writes r (Nat.gcd (file a).value (file m).value) (file.step (.gcd r a m)) := by
  rw [step, gcd_eq _ (hfile a) (hfile m) ha hm]
  exact writes_hold? file r _

/-- The one inverse below the modulus is written when there is one, and otherwise nothing. -/
theorem inverse_writes (hfile : file.WellFormed) {a m : Nat} (hne : (file m).value ≠ 0)
    (ha : (file a).size ≤ scratchLimbs) (hm : (file m).size + 1 ≤ scratchLimbs) :
    let n := (file a).value
    let k := (file m).value
    let outcome := file.step (.modInverse r a m)
    (Nat.gcd n k ≠ 1 → outcome = (file, .ok false)) ∧
    (Nat.gcd n k = 1 → ∃ x, x < k ∧ n * x ≡ 1 [MOD k] ∧
      (∀ y, y < k → n * y ≡ 1 [MOD k] → y = x) ∧ file.Writes r x outcome) := by
  intro n k outcome
  have hinverse := modInverse_eq (file r).capacity (hfile a) (hfile m) hne ha hm
  have hcoprime := Exact.modInverse_isSome n k
  cases hexact : Exact.modInverse n k with
  | none =>
      rw [hexact] at hinverse hcoprime
      exact ⟨fun _ => step_modInverse_none hinverse, fun hone => nomatch hcoprime.mpr hone⟩
  | some x =>
      rw [hexact] at hinverse hcoprime
      obtain ⟨hlt, hproduct⟩ := Exact.modInverse_spec hne hexact
      refine ⟨fun hno => absurd (hcoprime.mp rfl) hno, fun _ => ⟨x, hlt, hproduct, ?_, ?_⟩⟩
      · exact fun y hy hay => eq_of_inverse hlt hy hproduct hay
      · show file.Writes r x (file.step (.modInverse r a m))
        rw [step_modInverse_some hinverse]
        exact writes_hold? file r x

/-- The two Euclidean loops are exact, for a number of at most 130 limbs and a modulus, not zero, of
at most 129. The greatest common divisor is written when it fits its register. The inverse is the
one number below the modulus whose product with the number leaves one, so zero modulo one; nothing
is written when the two have a common divisor, and no fault arises when the register has the limbs
of the modulus. Both loops end, for more steps than they allow themselves change nothing; and the
cofactors on the way do not exceed the modulus, so that each step finds room. -/
theorem euclid_exact (hfile : file.WellFormed) (r a m : Nat) (hne : (file m).value ≠ 0)
    (ha : (file a).size ≤ scratchLimbs) (hm : (file m).size ≤ 129) :
    let n := (file a).value
    let k := (file m).value
    let outcome := file.step (.modInverse r a m)
    let working := max (max (file a).size (file m).size) 1
    let cofactorWorking := 2 * max (file m).size (file a).size + 2
    file.Writes r (Nat.gcd n k) (file.step (.gcd r a m)) ∧
    (Nat.gcd n k ≠ 1 → outcome = (file, .ok false)) ∧
    (Nat.gcd n k = 1 → ∃ x, x < k ∧ n * x ≡ 1 [MOD k] ∧
      (∀ y, y < k → n * y ≡ 1 [MOD k] → y = x) ∧ file.Writes r x outcome) ∧
    ((file m).size ≤ (file r).capacity → outcome.2 = .ok (decide (Nat.gcd n k = 1))) ∧
    (Returns ((file a).resized working) fun r0 => Returns ((file m).resized working) fun r1 =>
      ∃ g, ∀ steps, 2 * (file m).bitLength + 2 ≤ steps →
        remainderSequence working steps r0 r1 = .ok g) ∧
    Returns (Cofactors.start cofactorWorking (file a) (file m))
      (CofactorLoop cofactorWorking k) := by
  intro n k outcome working cofactorWorking
  have hscratch : (file m).size + 1 ≤ scratchLimbs := Nat.succ_le_succ hm
  have hmodulus := Nat.le_of_succ_le hscratch
  obtain ⟨hnone, hsome⟩ := inverse_writes (r := r) hfile hne ha hscratch
  refine ⟨gcd_writes hfile ha hmodulus, hnone, hsome, fun hsize => ?_,
    remainderLoop (hfile a) (hfile m) ha hmodulus, cofactorLoop (hfile a) (hfile m) hne ha hscratch⟩
  by_cases hone : Nat.gcd n k = 1
  · obtain ⟨x, hlt, -, -, hwrites⟩ := hsome hone
    have hfits : Fits (file r).capacity k := by
      refine fits_of_count_le ?_
      rwa [← (Denotes.of_wellFormed (hfile m)).size_eq]
    rw [decide_eq_true hone]
    exact congrArg Prod.snd (hwrites.written (hfits.mono hlt.le))
  · rw [decide_eq_false hone]
    exact congrArg Prod.snd (hnone hone)

/-- The inverse of three modulo eleven, in a register of one limb. -/
theorem euclid_exact_eleven :
    let file := initial.run [.createWord 0 3 1, .createWord 1 11 1]
    file.WellFormed ∧ (file 1).value ≠ 0 ∧ (file 0).size ≤ scratchLimbs ∧ (file 1).size ≤ 129 ∧
      file.step (.gcd 2 0 1) = (file.put 2 1, .ok true) ∧
      file.step (.modInverse 2 0 1) = (file.put 2 4, .ok true) := by
  intro file
  have hfile : file.WellFormed := wellFormed_initial.run _
  have ha : (file 0).value = 3 := by decide
  have hm : (file 1).value = 11 := by decide
  have hne : (file 1).value ≠ 0 := by rw [hm]; decide
  obtain ⟨hgcd, -, hinverse, -⟩ := euclid_exact hfile 2 0 1 hne (by decide) (by decide)
  rw [ha, hm] at hgcd hinverse
  obtain ⟨x, hlt, hproduct, -, hwrites⟩ := hinverse (by decide)
  obtain rfl : x = 4 := by
    have hmod : 3 * x % 11 = 1 := hproduct
    omega
  exact ⟨hfile, hne, by decide, by decide, hgcd.written (by decide : 1 < UInt64.size ^ max 1 1),
    hwrites.written (by decide : 4 < UInt64.size ^ max 1 1)⟩

end Registers

end TrustedPlatform
