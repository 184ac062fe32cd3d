import Mathlib.Data.Int.CardIntervalMod
import Mathlib.Data.Set.Card
import TrustedPlatform.Proofs.Curve.Recoverable
import TrustedPlatform.Proofs.Curve.Registered

/-!
# Random scalars are drawn almost evenly

A random scalar takes one draw of a fixed length, always lies in range when the draw succeeds, and
no scalar is favoured: `Curve.randomScalar_unbiased` counts the byte strings that are made into each
scalar. They fall into blocks, one for each value of the bits that are masked off, and each block
holds as many strings for one residue as for any other, or one more.
-/

namespace TrustedPlatform

open LawfulArithmetic (Denotes)

/-! ### Counting residues -/

/-- Counting repeats itself in every block when only the remainder counts. -/
theorem count_mod_mul (p : Nat → Prop) [DecidablePred p] (size blocks : Nat) :
    Nat.count (fun k => p (k % size)) (size * blocks) = blocks * Nat.count p size := by
  have hblock : ∀ start, Nat.count (fun k => p ((size * start + k) % size)) size =
      Nat.count p size := by
    intro start
    rw [Nat.count_eq_card_filter_range, Nat.count_eq_card_filter_range]
    refine congrArg Finset.card (Finset.filter_congr fun k hk => ?_)
    rw [Nat.mul_add_mod, Nat.mod_eq_of_lt (Finset.mem_range.mp hk)]
  induction blocks with
  | zero => simp
  | succ blocks ih => rw [Nat.mul_succ, Nat.count_add, ih, hblock, Nat.succ_mul]

/-- A residue occurs once in every full block, and at most once more. -/
theorem count_residue (bound : Nat) {modulus r : Nat} (hr : r < modulus) :
    bound / modulus ≤ Nat.count (· % modulus = r) bound ∧
      Nat.count (· % modulus = r) bound ≤ bound / modulus + 1 := by
  have hcount := Nat.count_modEq_card bound (Nat.zero_lt_of_lt hr) r
  simp only [Nat.ModEq, Nat.mod_eq_of_lt hr] at hcount
  rw [hcount]
  split
  · omega
  · omega

/-- The byte strings of a length correspond to the numbers that they can denote. -/
theorem ncard_bytes (width : Nat) (p : Nat → Prop) [DecidablePred p] :
    {bytes : Bytes | bytes.length = width ∧ p (Bytes.toNat bytes)}.ncard =
      Nat.count p (256 ^ width) := by
  have hinj : Set.InjOn Bytes.toNat
      {bytes : Bytes | bytes.length = width ∧ p (Bytes.toNat bytes)} :=
    fun a ha b hb h => Bytes.eq_of_toNat_eq (ha.1.trans hb.1.symm) h
  rw [Nat.count_eq_card_filter_range, ← Set.ncard_coe_finset, ← hinj.ncard_image]
  congr 1
  ext n
  simp only [Set.mem_image, Set.mem_ofPred_eq, Finset.coe_filter, Finset.mem_range]
  constructor
  · rintro ⟨bytes, ⟨rfl, hp⟩, rfl⟩
    exact ⟨Bytes.toNat_lt bytes, hp⟩
  · rintro ⟨hlt, hp⟩
    have hvalue := Bytes.toNat_ofNatWidth_of_lt hlt
    exact ⟨_, ⟨Bytes.length_ofNatWidth width n, hvalue.symm ▸ hp⟩, hvalue⟩

/-! ### Byte strings made into a scalar -/

section Draws

variable {α : Type} [Arithmetic α]

/-- A random scalar takes one draw, and goes on with what the draw gives. -/
theorem Curve.runFrom_randomScalar {σ : Type} [RandomSource σ] (c : Curve α) (s : σ) :
    c.randomScalar.runFrom s =
      match RandomSource.fill s ((c.orderBits + 64 + 7) / 8) with
      | (.ok bytes, t) => (c.scalarOfBytes bytes, t)
      | (.error e, t) => (.error e, t) := by
  unfold Curve.randomScalar
  rcases hfill : RandomSource.fill s ((c.orderBits + 64 + 7) / 8) with ⟨bytes | bytes, t⟩
  · exact Randomized.runFrom_draw_bind_error hfill _
  · exact Randomized.runFrom_draw_bind_ok hfill _

variable [LawfulArithmetic α]

/-- The byte strings of the length that is drawn which are made into a scalar. -/
def Curve.drawsOf (c : Curve α) (m : Nat) : Set Bytes :=
  {bytes | bytes.length = (c.orderBits + 64 + 7) / 8 ∧ Returns (c.scalarOfBytes bytes) (Denotes · m)}

namespace CurveParameters

variable {d : CurveParameters}

/-- Drawn bytes are made into one scalar, that of their number. -/
theorem mem_drawsOf_iff (hd : d ∈ all) {bytes : Bytes} {m : Nat} :
    bytes ∈ (Curve.ofParameters d : Curve α).drawsOf m ↔
      bytes.length = (d.n.size + 64 + 7) / 8 ∧ d.scalarNumber bytes = m := by
  unfold Curve.drawsOf
  rw [Set.mem_ofPred_eq, orderBits_eq]
  refine and_congr_right fun hlen => ?_
  obtain ⟨k, hk, hdenotes⟩ := scalarOfBytes_denotes (α := α) hd (one_lt_n d hd) hlen
  constructor
  · rintro ⟨k', hk', hdenotes'⟩
    rw [hk] at hk'
    cases hk'
    exact LawfulArithmetic.denotes_unique hdenotes hdenotes'
  · rintro rfl
    exact ⟨k, hk, hdenotes⟩

/-- The byte strings of a scalar are as many as its residue has occurrences among the bits that are
kept, times the values of the bits that are masked off. -/
theorem ncard_drawsOf (hd : d ∈ all) (r : Nat) :
    ((Curve.ofParameters d : Curve α).drawsOf (r + 1)).ncard =
      2 ^ (8 * ((d.n.size + 64 + 7) / 8) - (d.n.size + 64)) *
        Nat.count (· % (d.n - 1) = r) (2 ^ (d.n.size + 64)) := by
  have hset : (Curve.ofParameters d : Curve α).drawsOf (r + 1) =
      {bytes | bytes.length = (d.n.size + 64 + 7) / 8 ∧
        Bytes.toNat bytes % 2 ^ (d.n.size + 64) % (d.n - 1) = r} := by
    ext bytes
    rw [mem_drawsOf_iff hd, Set.mem_ofPred_eq, scalarNumber, Nat.add_right_cancel_iff]
  have hbits : 256 ^ ((d.n.size + 64 + 7) / 8) =
      2 ^ (d.n.size + 64) * 2 ^ (8 * ((d.n.size + 64 + 7) / 8) - (d.n.size + 64)) := by
    rw [← Nat.pow_add, Nat.add_sub_cancel' (by omega), Nat.pow_mul]
  rw [hset, ncard_bytes _ fun k => k % 2 ^ (d.n.size + 64) % (d.n - 1) = r, hbits]
  exact count_mod_mul (· % (d.n - 1) = r) _ _

/-- Sixty-four bits more than the order has go through its residues more than `2 ^ 64` times. -/
theorem two_pow_le_rounds (hn : 1 < d.n) : 2 ^ 64 ≤ 2 ^ (d.n.size + 64) / (d.n - 1) := by
  have hbound : d.n - 1 ≤ 2 ^ d.n.size := (Nat.sub_le _ _).trans (Nat.lt_size_self d.n).le
  rw [Nat.le_div_iff_mul_le (Nat.sub_pos_of_lt hn), Nat.pow_add, Nat.mul_comm (2 ^ d.n.size)]
  exact Nat.mul_le_mul_left _ hbound

/-- The strings of any scalar are some, and exceed those of another by at most one part in the number
of times that the residues are gone through. -/
theorem ncard_drawsOf_le (hd : d ∈ all) {r r' : Nat} (hr : r < d.n - 1) (hr' : r' < d.n - 1) :
    let q := 2 ^ (d.n.size + 64) / (d.n - 1)
    let draws := fun m => ((Curve.ofParameters d : Curve α).drawsOf m).ncard
    0 < draws (r + 1) ∧ q * draws (r + 1) ≤ (q + 1) * draws (r' + 1) := by
  intro q draws
  have hrounds : 2 ^ 64 ≤ q := two_pow_le_rounds (one_lt_n d hd)
  -- both numbers are the same multiple of a count that is `q` or `q + 1`
  have hcount := count_residue (2 ^ (d.n.size + 64)) hr
  have hcount' := count_residue (2 ^ (d.n.size + 64)) hr'
  simp only [draws, ncard_drawsOf hd]
  generalize Nat.count (· % (d.n - 1) = r) _ = k at hcount ⊢
  generalize Nat.count (· % (d.n - 1) = r') _ = k' at hcount' ⊢
  have hpos : 0 < k := (Nat.two_pow_pos 64).trans_le (hrounds.trans hcount.1)
  refine ⟨Nat.mul_pos (Nat.two_pow_pos _) hpos, ?_⟩
  calc q * (_ * k) = _ * (q * k) := Nat.mul_left_comm _ _ _
    _ ≤ _ * (k' * (q + 1)) := Nat.mul_le_mul_left _ (Nat.mul_le_mul hcount'.1 hcount.2)
    _ = (q + 1) * (_ * k') := by rw [← Nat.mul_assoc, Nat.mul_comm]

end CurveParameters

/-- Random scalars of every registered curve and every source. One draw of sixty-four bits more than
the order has, rounded up to whole bytes, decides the scalar: a failed draw is passed on, and any
other gives a scalar between one and the order less one. Every byte string of that length is made
into one such scalar, every scalar arises, and among the numbers of strings that are made into the
scalars none exceeds another by more than one part in `q`, which is at least `2 ^ 64`. -/
theorem Curve.randomScalar_unbiased {σ : Type} [RandomSource σ] {id : CurveId} {c : Curve α}
    (hc : Curve.load α id = .ok c) :
    let n := c.parameters.n
    let width := (n.size + 64 + 7) / 8
    let q := 2 ^ (n.size + 64) / (n - 1)
    (∀ (s t : σ) e, RandomSource.fill s width = (.error e, t) →
      c.randomScalar.runFrom s = (.error e, t)) ∧
    (∀ (s t : σ) bytes, RandomSource.fill s width = (.ok bytes, t) →
      ∃ k m, c.randomScalar.runFrom s = (.ok k, t) ∧ Denotes k m ∧ m ∈ Set.Icc 1 (n - 1) ∧
        bytes ∈ c.drawsOf m) ∧
    (∀ bytes : Bytes, bytes.length = width → ∃! m, m ∈ Set.Icc 1 (n - 1) ∧ bytes ∈ c.drawsOf m) ∧
    2 ^ 64 ≤ q ∧
    ∀ m ∈ Set.Icc 1 (n - 1), ∀ m' ∈ Set.Icc 1 (n - 1), 0 < (c.drawsOf m).ncard ∧
      q * (c.drawsOf m).ncard ≤ (q + 1) * (c.drawsOf m').ncard := by
  obtain ⟨d, hd, rfl⟩ := Curve.exists_of_load hc
  intro n width q
  have hn : 1 < n := CurveParameters.one_lt_n d hd
  have hrounds : 2 ^ 64 ≤ q := CurveParameters.two_pow_le_rounds hn
  have hwidth : ((Curve.ofParameters d : Curve α).orderBits + 64 + 7) / 8 = width := by
    rw [CurveParameters.orderBits_eq]
    rfl
  have hrange : ∀ bytes, d.scalarNumber bytes ∈ Set.Icc 1 (n - 1) := fun bytes =>
    ⟨Nat.succ_pos _, Nat.le_sub_one_of_lt (CurveParameters.scalarNumber_lt hn bytes)⟩
  refine ⟨fun s t e hfill => ?_, fun s t bytes hfill => ?_, fun bytes hlen => ?_, hrounds, ?_⟩
  · rw [Curve.runFrom_randomScalar, hwidth, hfill]
  · have hlen : bytes.length = width :=
      RandomSource.length_of_fill s width bytes (by rw [hfill])
    obtain ⟨k, hk, hdenotes⟩ := CurveParameters.scalarOfBytes_denotes (α := α) hd hn hlen
    refine ⟨k, d.scalarNumber bytes, ?_, hdenotes, hrange bytes, ?_⟩
    · rw [Curve.runFrom_randomScalar, hwidth, hfill]
      exact congrArg (·, t) hk
    · exact (CurveParameters.mem_drawsOf_iff hd).mpr ⟨hlen, rfl⟩
  · refine ⟨d.scalarNumber bytes, ⟨hrange bytes, ?_⟩, fun m hm => ?_⟩
    · exact (CurveParameters.mem_drawsOf_iff hd).mpr ⟨hlen, rfl⟩
    · exact ((CurveParameters.mem_drawsOf_iff hd).mp hm.2).2.symm
  · rintro m ⟨hm, hle⟩ m' ⟨hm', hle'⟩
    obtain ⟨r, rfl⟩ := Nat.exists_eq_add_of_le' hm
    obtain ⟨r', rfl⟩ := Nat.exists_eq_add_of_le' hm'
    exact CurveParameters.ncard_drawsOf_le hd hle hle'

end Draws

open CurveParameters (nistP521) in
/-- On the curve whose order has 521 bits a scalar takes 74 bytes, of which seven bits are masked
off, and the least and the greatest scalar are made from almost as many strings as each other. -/
theorem Curve.randomScalar_unbiased_nistP521 :
    let q := 2 ^ (nistP521.n.size + 64) / (nistP521.n - 1)
    ∃ c : Curve FixedNat, Curve.load FixedNat 5 = .ok c ∧ c.parameters = nistP521 ∧
      (∃ k m, c.randomScalar.runFrom (⟨fun _ => 0xff, none, 0⟩ : ByteStream) =
          (.ok k, ⟨fun _ => 0xff, none, 74⟩) ∧ Denotes k m ∧ m ∈ Set.Icc 1 (nistP521.n - 1)) ∧
      2 ^ 64 ≤ q ∧ q * (c.drawsOf 1).ncard ≤ (q + 1) * (c.drawsOf (nistP521.n - 1)).ncard := by
  intro q
  have hload : Curve.load FixedNat 5 = .ok (Curve.ofParameters nistP521) := rfl
  have hd : nistP521 ∈ CurveParameters.all :=
    CurveParameters.mem_of_lookup? (show CurveParameters.lookup? 5 = .ok nistP521 from rfl)
  have hsize : nistP521.n.size = 521 := by decide +kernel
  have hn : 1 ≤ nistP521.n - 1 := Nat.le_sub_one_of_lt (CurveParameters.one_lt_n _ hd)
  have hunbiased := Curve.randomScalar_unbiased (σ := ByteStream) hload
  rw [show (Curve.ofParameters nistP521 : Curve FixedNat).parameters = nistP521 from rfl]
    at hunbiased
  obtain ⟨-, hdraw, -, hrounds, hratio⟩ := hunbiased
  rw [hsize] at hdraw
  obtain ⟨k, m, hrun, hdenotes, hrange, -⟩ := hdraw ⟨fun _ => 0xff, none, 0⟩ _ _ rfl
  exact ⟨_, hload, rfl, ⟨k, m, hrun, hdenotes, hrange⟩, hrounds,
    (hratio 1 ⟨le_rfl, hn⟩ _ ⟨hn, le_rfl⟩).2⟩

end TrustedPlatform
