import TrustedPlatform.Proofs.Arithmetic.Exact
import TrustedPlatform.Proofs.Integer.Refinement

/-!
# Powers in buffers

The table holds the first sixteen powers of the base, and the accumulator before a window is the
power to the part of the exponent above it. Every number on the way is below the modulus, so that
products fit the scratch area when the square of the modulus does.
-/

namespace TrustedPlatform.FixedNat

open Limbs (count count_le_iff count_mono)

variable {room : Prop} {b e m x : FixedNat} {base exponent k n working : Nat}

/-- A remainder of the product of two numbers below the modulus. -/
theorem reduced_product_refines {y : FixedNat} {j : Nat} (hm : m.Denotes k) (hx : x.Denotes n)
    (hy : y.Denotes j) (hn : n < k) (hj : j < k)
    (hworking : Fits working k) (hroom : room → count k + count k ≤ scratchLimbs) :
    Refines room Denotes (modMul working x y m) (.ok (n * j % k)) := by
  have hpos : 0 < k := Nat.zero_lt_of_lt hn
  have h := modMul_refines hx hy hm
    (fun h => (Nat.add_le_add (count_mono hn.le) (count_mono hj.le)).trans (hroom h))
    fun _ _ => hworking.mono (Nat.mod_lt (n * j) hpos).le
  rwa [Exact.unlessZero_of_ne hpos.ne'] at h

/-- The entries of the table are the powers that follow its first one. -/
theorem geometric_refines (hm : m.Denotes k) (hb : b.Denotes base) (hbase : base < k)
    (hworking : Fits working k) (hroom : room → count k + count k ≤ scratchLimbs)
    (entries : Nat) (hx : x.Denotes n) (hn : n < k) :
    Refines room (fun table _ => ∀ i ≤ entries, ∃ entry, table[i]? = some entry ∧
        Denotes entry (n * base ^ i % k))
      (geometric working b m entries x) (.ok ()) := by
  induction entries generalizing x n with
  | zero =>
      refine .ok fun i hi => ⟨x, ?_, ?_⟩
      · rw [Nat.le_zero.mp hi, List.getElem?_cons_zero]
      · rwa [Nat.le_zero.mp hi, Nat.pow_zero, Nat.mul_one, Nat.mod_eq_of_lt hn]
  | succ entries ih =>
      have hlt := Nat.mod_lt (n * base) (Nat.zero_lt_of_lt hn)
      rw [geometric]
      refine (reduced_product_refines hm hx hb hn hbase hworking hroom).bind_ok fun next hnext => ?_
      refine (ih hnext hlt).bind_ok fun rest hrest => .ok fun i hi => ?_
      cases i with
      | zero =>
          rw [Nat.pow_zero, Nat.mul_one, Nat.mod_eq_of_lt hn]
          exact ⟨x, rfl, hx⟩
      | succ i =>
          have hpower : n * base % k * base ^ i % k = n * base ^ (i + 1) % k := by
            rw [Nat.mod_mul_mod, Nat.mul_assoc, ← Nat.pow_succ']
          rw [List.getElem?_cons_succ, ← hpower]
          exact hrest i (Nat.le_of_succ_le_succ hi)

/-! ### Selecting from the table -/

/-- An entry that is not selected leaves the limbs as they are. -/
theorem mapIdx_select_false (entry : FixedNat) (out : Limbs) :
    (out.mapIdx fun j w => Word.select w (entry.word j) false) = out := by
  simp only [Word.select_eq, Bool.false_eq_true, if_false]
  exact List.ext_getElem List.length_mapIdx fun j _ _ => List.getElem_mapIdx

/-- Entries above the index leave the limbs as they are. -/
theorem maskEntries_of_lt {index i : Nat} (h : index < i) (table : List FixedNat) (out : Limbs) :
    maskEntries index i table out = out := by
  induction table generalizing i out with
  | nil => rfl
  | cons entry table ih =>
      have hmiss : (i == index) = false := beq_eq_false_iff_ne.mpr h.ne'
      rw [maskEntries, ih (Nat.lt_succ_of_lt h), hmiss, mapIdx_select_false]

/-- Masking in all entries leaves the limbs of the one at the index. -/
theorem maskEntries_eq {table : List FixedNat} {entry : FixedNat} {offset : Nat}
    (h : table[offset]? = some entry) (i : Nat) (out : Limbs) :
    maskEntries (i + offset) i table out = out.mapIdx fun j _ => entry.word j := by
  induction table generalizing offset i out with
  | nil => cases h
  | cons first table ih =>
      rw [maskEntries]
      cases offset with
      | zero =>
          obtain rfl : first = entry := Option.some.inj h
          rw [Nat.add_zero, maskEntries_of_lt (Nat.lt_succ_self i), beq_self_eq_true]
          simp only [Word.select_eq, if_true]
      | succ offset =>
          have hmiss : (i == i + (offset + 1)) = false := beq_eq_false_iff_ne.mpr (by omega)
          rw [hmiss, mapIdx_select_false, show i + (offset + 1) = i + 1 + offset by omega]
          exact ih h (i + 1) out

/-- Limbs that are all replaced by those of a number are its words and zeros above them. -/
theorem mapIdx_word {entry : FixedNat} (he : entry.WellFormed) {out : Limbs}
    (h : entry.size ≤ out.length) :
    (out.mapIdx fun j _ => entry.word j) =
      entry.words ++ List.replicate (out.length - entry.size) 0 := by
  have hwords := he.length_words
  refine List.ext_getElem ?_ fun j h1 h2 => ?_
  · rw [List.length_mapIdx, List.length_append, hwords, List.length_replicate,
      Nat.add_sub_cancel' h]
  · rw [List.getElem_mapIdx, word]
    by_cases hj : j < entry.size
    · have hroom : j < entry.limbs.length := hj.trans_le he.size_le
      rw [if_pos hj, Limbs.get, List.getD_eq_getElem _ _ hroom,
        List.getElem_append_left (hj.trans_eq hwords.symm)]
      exact List.getElem_take.symm
    · rw [if_neg hj, List.getElem_append_right (hwords.trans_le (Nat.le_of_not_lt hj)),
        List.getElem_replicate]

/-- The selected entry. -/
theorem selectEntry_denotes {table : List FixedNat} {entry : FixedNat} {capacity index : Nat}
    (hentry : table[index]? = some entry) (he : entry.Denotes n) (hfits : Fits capacity n) :
    (selectEntry capacity table index).Denotes n := by
  have hzero : (zero capacity).limbs.length = max capacity 1 := List.length_replicate
  have hsize : entry.size ≤ max capacity 1 := he.size_eq.trans_le (count_le_iff.mpr hfits)
  have hlimbs : maskEntries index 0 table (zero capacity).limbs =
      entry.words ++ List.replicate (max capacity 1 - entry.size) 0 := by
    have hmask := maskEntries_eq hentry 0 (zero capacity).limbs
    rwa [Nat.zero_add, mapIdx_word he.wellFormed (hsize.trans_eq hzero.symm), hzero] at hmask
  have hlen : (entry.words ++ List.replicate (max capacity 1 - entry.size) 0).length =
      max capacity 1 := by
    rw [List.length_append, he.wellFormed.length_words, List.length_replicate,
      Nat.add_sub_cancel' hsize]
  have hne : entry.words ++ List.replicate (max capacity 1 - entry.size) 0 ≠ [] := by
    rw [← List.length_pos_iff_ne_nil, hlen]
    exact Nat.lt_of_lt_of_le Nat.one_pos (Nat.le_max_right _ _)
  have hvalue : Limbs.value entry.words = n := he.value_eq
  rw [selectEntry, hlimbs, mk_significant_eq hne, Limbs.value_append_replicate_zero, hvalue, hlen]
  refine denotes_ofNat ?_
  rwa [Fits, Nat.max_eq_left (Nat.le_max_right capacity 1)]

/-! ### Steps of the accumulator -/

/-- Repeated squaring raises to a power of two. -/
theorem squarings_refines (hm : m.Denotes k)
    (hworking : Fits working k) (hroom : room → count k + count k ≤ scratchLimbs)
    (times : Nat) (hx : x.Denotes n) (hn : n < k) :
    Refines room Denotes (squarings working m times x) (.ok (n ^ 2 ^ times % k)) := by
  induction times generalizing x n with
  | zero =>
      rw [Nat.pow_zero, Nat.pow_one, Nat.mod_eq_of_lt hn]
      exact .ok hx
  | succ times ih =>
      have hlt := Nat.mod_lt (n * n) (Nat.zero_lt_of_lt hn)
      have hpower : (n * n % k) ^ 2 ^ times % k = n ^ 2 ^ (times + 1) % k := by
        rw [← Nat.pow_mod, ← Nat.pow_two, ← Nat.pow_mul, ← Nat.pow_succ']
      rw [squarings, ← hpower]
      exact (reduced_product_refines hm hx hx hn hn hworking hroom).bind_ok fun y hy => ih hy hlt

/-- A window of an exponent is a digit of it to the base sixteen. -/
theorem window_eq (he : e.Denotes exponent) (w : Nat) :
    e.window w = exponent / 2 ^ (4 * w) % 16 := by
  have hbit : ∀ i, (e.testBit (4 * w + i)).toNat = exponent / 2 ^ (4 * w) / 2 ^ i % 2 := by
    intro i
    rw [testBit_eq, he.value_eq, Nat.toNat_testBit, Nat.div_div_eq_div_mul, ← Nat.pow_add]
  have hlow := hbit 0
  rw [Nat.add_zero] at hlow
  rw [window, hbit 3, hbit 2, hbit 1, hlow]
  omega

/-- The accumulator after the windows that are left is the whole power. -/
theorem windowSteps_refines {table : List FixedNat} (hm : m.Denotes k) (he : e.Denotes exponent)
    (hk : k ≠ 0)
    (htable : ∀ i < 16, ∃ entry, table[i]? = some entry ∧ Denotes entry (base ^ i % k))
    (hworking : Fits working k) (hroom : room → count k + count k ≤ scratchLimbs)
    (windows : Nat) (hx : x.Denotes (base ^ (exponent / 2 ^ (4 * windows)) % k)) :
    Refines room Denotes (windowSteps working table e m windows x) (.ok (base ^ exponent % k)) := by
  have hpos := Nat.pos_of_ne_zero hk
  induction windows generalizing x with
  | zero =>
      rw [Nat.mul_zero, Nat.pow_zero, Nat.div_one] at hx
      exact .ok hx
  | succ windows ih =>
      have hlt := Nat.mod_lt (base ^ (exponent / 2 ^ (4 * (windows + 1)))) hpos
      have hdigit : exponent / 2 ^ (4 * windows) % 16 < 16 := Nat.mod_lt _ (by decide)
      rw [windowSteps, window_eq he]
      refine (squarings_refines hm hworking hroom windowBits hx hlt).bind_ok fun acc hacc => ?_
      obtain ⟨entry, hentry, hpow⟩ := htable _ hdigit
      have hselected := selectEntry_denotes hentry hpow (hworking.mono (Nat.mod_lt _ hpos).le)
      refine (reduced_product_refines hm hacc hselected (Nat.mod_lt _ hpos)
        (Nat.mod_lt _ hpos) hworking hroom).bind_ok fun next hnext => ih ?_
      have hsplit : exponent / 2 ^ (4 * windows) =
          exponent / 2 ^ (4 * (windows + 1)) * 2 ^ windowBits +
            exponent / 2 ^ (4 * windows) % 16 := by
        rw [Nat.mul_succ, Nat.pow_add, ← Nat.div_div_eq_div_mul]
        exact (Nat.div_add_mod' _ 16).symm
      have hpower : (base ^ (exponent / 2 ^ (4 * (windows + 1))) % k) ^ 2 ^ windowBits % k *
          (base ^ (exponent / 2 ^ (4 * windows) % 16) % k) % k =
            base ^ (exponent / 2 ^ (4 * windows)) % k := by
        conv_rhs => rw [hsplit, Nat.pow_add, Nat.pow_mul, Nat.mul_mod, Nat.pow_mod]
      rwa [hpower] at hnext

/-- The power of a number modulo another. -/
theorem modPow_refines (capacity : Nat) (hb : b.Denotes base) (he : e.Denotes exponent)
    (hm : m.Denotes k)
    (hroom : room → count base ≤ scratchLimbs ∧ count k + count k ≤ scratchLimbs)
    (hfits : k ≠ 0 → room → Fits capacity (base ^ exponent % k)) :
    Refines room Denotes (modPow capacity b e m)
      (Exact.unlessZero k fun _ => Exact.modPow k base exponent) := by
  rw [modPow, Exact.unlessZero, Exact.modPow_eq, he.bitLength_eq, hm.size_eq]
  refine .ite hm.isZero_iff (fun _ => .refused _) fun hzero => ?_
  have hpos := Nat.pos_of_ne_zero hzero
  by_cases hone : k = 1
  · subst hone
    rw [if_pos ((hm.eqWord_iff 1).mpr rfl), Nat.mod_one]
    exact .ok (denotes_zero capacity)
  · have hbelow : 1 < k := by omega
    have hworking : Fits (count k) k := fits_of_count_le le_rfl
    have hmod := mod_refines (count k) hb hm
      (fun h => max_le (hroom h).1 ((Nat.le_add_left _ _).trans (hroom h).2))
      fun _ _ => hworking.mono (Nat.mod_lt base hpos).le
    rw [Exact.unlessZero_of_ne hzero] at hmod
    rw [if_neg (mt (hm.eqWord_iff 1).mp hone)]
    refine hmod.bind_ok fun b' hb' => ?_
    have hsquare : room → count k + count k ≤ scratchLimbs := fun h => (hroom h).2
    refine (geometric_refines hm hb' (Nat.mod_lt base hpos) hworking hsquare _
      (denotes_ofWord 1 (count k)) hbelow).bind_ok fun table htable => ?_
    have hentries : ∀ i < 16, ∃ entry, table[i]? = some entry ∧ Denotes entry (base ^ i % k) := by
      intro i hi
      have h := htable i (Nat.le_of_lt_succ hi)
      rwa [UInt64.toNat_one, Nat.one_mul, ← Nat.pow_mod] at h
    have hstart : (ofWord 1 (count k)).Denotes
        (base ^ (exponent / 2 ^ (4 * ((exponent.size + windowBits - 1) / windowBits))) % k) := by
      have htop : exponent < 2 ^ (4 * ((exponent.size + windowBits - 1) / windowBits)) := by
        rw [← Nat.size_le, windowBits]
        omega
      rw [Nat.div_eq_of_lt htop, Nat.pow_zero, Nat.mod_eq_of_lt hbelow]
      exact denotes_ofWord 1 (count k)
    refine (windowSteps_refines hm he hzero hentries hworking hsquare _ hstart).bind_ok
      fun result hresult => ?_
    exact resized_refines hresult (hfits hzero)

end TrustedPlatform.FixedNat
