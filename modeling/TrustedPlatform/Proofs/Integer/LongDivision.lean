import TrustedPlatform.Integer.LongDivision
import TrustedPlatform.Proofs.Integer.Limbs

/-!
# Long division is division

The estimate of a quotient limb is the quotient of the three highest limbs of the window by the two
highest of the divisor, cut to one limb, and that is the true quotient limb or one more. The
multiply-subtract step shows by its borrow which of the two it is, so each step of the long
division yields a limb of the quotient and a remainder below the divisor. The main statement is
`div_spec`.
-/

namespace TrustedPlatform.Limbs

/-! ### The estimate of a quotient limb -/

/-- The corrected estimate is the largest limb no larger than the first one whose product with the
two highest limbs of the divisor does not exceed the three highest limbs of the window. -/
theorem correctEstimate_spec {top next n : Nat} (hnext : next < UInt64.size)
    (hn : n < (top + 1) * UInt64.size) (below estimate remainder : Nat)
    (hsplit : estimate * top + remainder = n) :
    let result := correctEstimate top next below estimate remainder
    result < UInt64.size ∧
      result * (top * UInt64.size + next) ≤ n * UInt64.size + below ∧
      ∀ q < UInt64.size, q ≤ estimate →
        q * (top * UInt64.size + next) ≤ n * UInt64.size + below → q ≤ result := by
  -- the loop's comparison is the one of the full products, whatever the estimate
  have hfits : ∀ e r, e * top + r = n →
      (e * next ≤ r * UInt64.size + below ↔
        e * (top * UInt64.size + next) ≤ n * UInt64.size + below) := by
    intro e r h
    have hexpand : e * (top * UInt64.size + next) = e * top * UInt64.size + e * next := by ring
    rw [← h, hexpand, Nat.add_mul]
    omega
  induction estimate generalizing remainder with
  | zero =>
      rw [correctEstimate, if_neg (fun h => absurd h.1 (Nat.lt_irrefl 0))]
      refine ⟨by decide, ?_, fun q _ hq _ => hq⟩
      rw [Nat.zero_mul]
      exact Nat.zero_le _
  | succ e ih =>
      rw [correctEstimate]
      split
      · rename_i hlower
        have hprev : e * top + (remainder + top) = n := by
          rw [← hsplit, Nat.succ_mul]
          omega
        have hbelow : ∀ q < UInt64.size, q ≤ e + 1 →
            q * (top * UInt64.size + next) ≤ n * UInt64.size + below → q ≤ e :=
          fun q hq hle hfit => by
            refine Nat.le_of_lt_succ (Nat.lt_of_le_of_ne hle fun heq => ?_)
            subst q
            rcases hlower.2 with hbig | hlt
            · omega
            · exact absurd ((hfits _ _ hsplit).mpr hfit) (Nat.not_le.mpr hlt)
        split
        · rename_i hstop
          have he : e < UInt64.size := by
            by_contra hge
            have hmul := Nat.mul_le_mul_right top (Nat.le_of_not_lt hge)
            rw [Nat.succ_mul, Nat.mul_comm top] at hn
            omega
          refine ⟨he, (hfits e _ hprev).mp ?_, hbelow⟩
          calc e * next ≤ UInt64.size * UInt64.size := Nat.mul_le_mul he.le hnext.le
            _ ≤ (remainder + top) * UInt64.size := Nat.mul_le_mul_right _ hstop
            _ ≤ (remainder + top) * UInt64.size + below := Nat.le_add_right _ _
        · obtain ⟨hlt, hfit, hmax⟩ := ih (remainder + top) hprev
          exact ⟨hlt, hfit, fun q hq hle hqfit => hmax q hq (hbelow q hq hle hqfit) hqfit⟩
      · rename_i hkeep
        have hlt : e + 1 < UInt64.size := by
          by_contra hge
          exact hkeep ⟨Nat.succ_pos e, .inl (Nat.le_of_not_lt hge)⟩
        have hfit : (e + 1) * next ≤ remainder * UInt64.size + below := by
          by_contra hgt
          exact hkeep ⟨Nat.succ_pos e, .inr (Nat.lt_of_not_le hgt)⟩
        exact ⟨hlt, (hfits _ _ hsplit).mp hfit, fun q _ hle _ => hle⟩

/-- The estimate of a quotient limb is the largest limb whose product with the two highest limbs of
the divisor does not exceed the three highest limbs of the window. -/
theorem estimate_spec (u2 u1 u0 top next : Word) (htop : top ≠ 0)
    (hn : u2.toNat * UInt64.size + u1.toNat < (top.toNat + 1) * UInt64.size) :
    let high := (u2.toNat * UInt64.size + u1.toNat) * UInt64.size + u0.toNat
    let divisor := top.toNat * UInt64.size + next.toNat
    (estimate u2 u1 u0 top next).toNat * divisor ≤ high ∧
      ∀ q < UInt64.size, q * divisor ≤ high → q ≤ (estimate u2 u1 u0 top next).toNat := by
  intro high divisor
  have hpos : 0 < top.toNat :=
    Nat.pos_of_ne_zero fun h => htop ((Word.toNat_eq_zero_iff top).mp h)
  obtain ⟨hlt, hfit, hmax⟩ := correctEstimate_spec (Word.toNat_lt next) hn u0.toNat
    ((u2.toNat * UInt64.size + u1.toNat) / top.toNat)
    ((u2.toNat * UInt64.size + u1.toNat) % top.toNat) (Nat.div_add_mod' _ _)
  rw [estimate, Word.toNat_ofNat_of_lt hlt]
  refine ⟨hfit, fun q hq hle => hmax q hq ?_ hle⟩
  -- a limb that fits the three high limbs is no larger than the quotient by the top limb alone
  rw [Nat.le_div_iff_mul_le hpos, ← Nat.lt_succ_iff]
  refine Nat.lt_of_mul_lt_mul_right (a := UInt64.size) ?_
  have hu0 := Word.toNat_lt u0
  calc q * top.toNat * UInt64.size ≤ q * divisor := by
        rw [Nat.mul_assoc]
        exact Nat.mul_le_mul_left q (Nat.le_add_right _ _)
    _ ≤ high := hle
    _ < (u2.toNat * UInt64.size + u1.toNat + 1) * UInt64.size := by
        rw [Nat.add_mul _ 1, Nat.one_mul]
        exact Nat.add_lt_add_left hu0 _

/-- An estimate from high parts is the true quotient or one more, when the divisor's high part is at
least the estimate less one. -/
theorem quotient_le_and_le {w d weight high divisor e : Nat} (hd : 0 < d)
    (hhigh : high = w / weight) (hdivisor : divisor = d / weight) (hweight : 0 < weight)
    (hfit : e * divisor ≤ high) (hbound : e ≤ divisor + 1) :
    w / d * divisor ≤ high ∧ e ≤ w / d + 1 := by
  constructor
  · rw [hhigh, Nat.le_div_iff_mul_le hweight, hdivisor, Nat.mul_assoc]
    exact (Nat.mul_le_mul_left _ (Nat.div_mul_le_self d weight)).trans (Nat.div_mul_le_self w d)
  · rcases Nat.eq_zero_or_pos e with rfl | hepos
    · exact Nat.zero_le _
    · refine Nat.le_add_of_sub_le ?_
      rw [Nat.le_div_iff_mul_le hd]
      have hdlt : d < (divisor + 1) * weight := by
        rw [hdivisor, Nat.mul_comm]
        exact Nat.lt_mul_div_succ d hweight
      have hle : (e - 1) * (divisor + 1) ≤ e * divisor := by
        obtain ⟨f, rfl⟩ : ∃ f, e = f + 1 := ⟨e - 1, by omega⟩
        rw [Nat.add_sub_cancel, Nat.mul_succ, Nat.succ_mul]
        omega
      calc (e - 1) * d ≤ (e - 1) * ((divisor + 1) * weight) := Nat.mul_le_mul_left _ hdlt.le
        _ = (e - 1) * (divisor + 1) * weight := (Nat.mul_assoc _ _ _).symm
        _ ≤ high * weight := Nat.mul_le_mul_right _ (hle.trans hfit)
        _ ≤ w := by
          rw [hhigh]
          exact Nat.div_mul_le_self w weight

/-! ### Multiply, subtract, and add back -/

/-- The difference of two words and the subtrahend make up the minuend and the borrow. -/
theorem toNat_sub_add (x y : Word) :
    (x - y).toNat + y.toNat = x.toNat + UInt64.size * (decide (x < y)).toNat := by
  have hx := UInt64.toNat_lt x
  have hy := UInt64.toNat_lt y
  rw [UInt64.toNat_sub, UInt64.size]
  by_cases h : x.toNat < y.toNat
  · rw [decide_eq_true (UInt64.lt_iff_toNat_lt.mpr h), Bool.toNat_true]
    omega
  · rw [decide_eq_false (mt UInt64.lt_iff_toNat_lt.mp h), Bool.toNat_false]
    omega

/-- The carry of a product still has room for the borrow of its low word. -/
theorem toNat_high_add_borrow (q v carry u : Word) :
    ((Word.mulAdd q v 0 carry).2 +
        (decide (u < (Word.mulAdd q v 0 carry).1)).toUInt64).toNat =
      (Word.mulAdd q v 0 carry).2.toNat +
        (decide (u < (Word.mulAdd q v 0 carry).1)).toNat := by
  have hexact := Word.mulAdd_exact q v 0 carry
  have hqv : q.toNat * v.toNat ≤ (2 ^ 64 - 1) * (2 ^ 64 - 1) :=
    Nat.mul_le_mul (Nat.le_pred_of_lt (UInt64.toNat_lt q)) (Nat.le_pred_of_lt (UInt64.toNat_lt v))
  have hcarry := UInt64.toNat_lt carry
  rw [UInt64.toNat_zero, UInt64.size] at hexact
  rw [UInt64.toNat_add, Word.toNat_toUInt64]
  by_cases h : u < (Word.mulAdd q v 0 carry).1
  · have hlow := UInt64.lt_iff_toNat_lt.mp h
    rw [decide_eq_true h, Bool.toNat_true]
    omega
  · rw [decide_eq_false h, Bool.toNat_false]
    omega

/-- The limbs of a multiply-subtract step and the product make up the window and the borrow. -/
theorem value_mulSub (q : Word) (us vs : Limbs) (carry : Word) (h : us.length = vs.length + 1) :
    value (mulSub q us vs carry).limbs + q.toNat * value vs + carry.toNat =
        value us + UInt64.size ^ us.length * (mulSub q us vs carry).borrow.toNat ∧
      (mulSub q us vs carry).limbs.length = us.length := by
  fun_induction mulSub q us vs carry with
  | case1 vs carry => cases h
  | case2 u us carry =>
      obtain rfl : us = [] := List.eq_nil_of_length_eq_zero (Nat.succ.inj h)
      have hsub := toNat_sub_add u carry
      refine ⟨?_, rfl⟩
      simp only [value_singleton, value_nil, Nat.mul_zero, Nat.add_zero, List.length_singleton,
        Nat.pow_one]
      exact hsub
  | case3 u us v vs carry low high hmul rest ih =>
      have hexact := Word.mulAdd_exact q v 0 carry
      have hcarry := toNat_high_add_borrow q v carry u
      rw [hmul] at hexact hcarry
      have hsub := toNat_sub_add u low
      obtain ⟨hvalue, hlen⟩ := ih (Nat.succ.inj h)
      refine ⟨?_, by rw [List.length_cons, hlen, List.length_cons]⟩
      rw [hcarry] at hvalue
      rw [UInt64.toNat_zero] at hexact
      have hscaled := congrArg (UInt64.size * ·) hvalue
      simp only [value_cons, List.length_cons, Nat.pow_succ] at hscaled ⊢
      linarith

/-- Adding back gives the sum cut to the length of the second list. -/
theorem value_addBack (us vs : Limbs) (carry : Bool) :
    value (addBack us vs carry) =
        (value us + value vs + carry.toNat) % UInt64.size ^ vs.length ∧
      (addBack us vs carry).length = vs.length := by
  have hcut : ∀ {s c x k : Nat} {w : Word}, w.toNat + UInt64.size * c = s →
      (s + UInt64.size * x) % UInt64.size ^ (k + 1) =
        w.toNat + UInt64.size * ((x + c) % UInt64.size ^ k) := by
    intro s c x k w h
    rw [← h, Nat.add_assoc, ← Nat.mul_add, Nat.pow_succ', Nat.mod_mul,
      Nat.add_mul_mod_self_left, Nat.mod_eq_of_lt (Word.toNat_lt w),
      Nat.add_mul_div_left _ _ (by decide), Nat.div_eq_of_lt (Word.toNat_lt w), Nat.zero_add,
      Nat.add_comm c]
  fun_induction addBack us vs carry with
  | case1 us carry => exact ⟨(Nat.mod_one _).symm, rfl⟩
  | case2 v vs carry s c hadd ih =>
      have hstep := Word.addCarry_exact 0 v carry
      rw [hadd, UInt64.toNat_zero] at hstep
      refine ⟨?_, by rw [List.length_cons, ih.2, List.length_cons]⟩
      rw [value_cons, ih.1, value_cons, List.length_cons, value_nil, Nat.zero_add, ← hcut hstep]
      congr 1
      omega
  | case3 u us v vs carry s c hadd ih =>
      have hstep := Word.addCarry_exact u v carry
      rw [hadd] at hstep
      refine ⟨?_, by rw [List.length_cons, ih.2, List.length_cons]⟩
      rw [value_cons, ih.1, value_cons, value_cons, List.length_cons, ← hcut hstep, Nat.mul_add]
      congr 1
      omega

/-! ### One limb of the quotient -/

/-- Two limbs above a position are what remains of the value above it. -/
theorem value_div_eq_get (ws : Limbs) (i : Nat) :
    value ws / UInt64.size ^ i =
      value ws / UInt64.size ^ (i + 1) * UInt64.size + (ws.get i).toNat := by
  rw [toNat_get, Nat.pow_succ, ← Nat.div_div_eq_div_mul]
  exact (Nat.div_add_mod' _ _).symm

/-- The top limb is what remains of the value above the others. -/
theorem value_div_eq_top {ws : Limbs} {n : Nat} (h : ws.length = n + 1) :
    value ws / UInt64.size ^ n = (ws.get n).toNat := by
  rw [value_div_eq_get, Nat.div_eq_of_lt (h ▸ value_lt ws), Nat.zero_mul, Nat.zero_add]

/-- A divisor has at least two limbs and its top limb is not zero. -/
structure Divisor (d : Limbs) : Prop where
  two_le : 2 ≤ d.length
  top_ne_zero : d.get (d.length - 1) ≠ 0

namespace Divisor

variable {d : Limbs}

/-- A divisor is at least the weight of its top limb. -/
theorem weight_le (hd : Divisor d) : UInt64.size ^ (d.length - 1) ≤ value d := by
  have hlen : d.length = d.length - 1 + 1 := (Nat.sub_add_cancel (by have := hd.two_le; omega)).symm
  have htop := value_div_eq_top hlen
  have hpos : 0 < (d.get (d.length - 1)).toNat :=
    Nat.pos_of_ne_zero fun h => hd.top_ne_zero ((Word.toNat_eq_zero_iff _).mp h)
  rw [← htop] at hpos
  exact ((Nat.div_pos_iff).mp hpos).2

/-- A divisor is not zero. -/
theorem value_pos (hd : Divisor d) : 0 < value d :=
  (size_pow_pos _).trans_le hd.weight_le

end Divisor

/-- A window of a long division is one limb longer than the divisor, and its quotient is a limb. -/
structure Window (window d : Limbs) : Prop where
  length_eq : window.length = d.length + 1
  value_lt : value window < UInt64.size * value d

/-- The two highest limbs of a window hold less than the divisor's top limb and one more would
allow. -/
theorem Window.high_lt {window d : Limbs} (hd : Divisor d) (hw : Window window d) :
    (window.get d.length).toNat * UInt64.size + (window.get (d.length - 1)).toNat <
      ((d.get (d.length - 1)).toNat + 1) * UInt64.size := by
  obtain ⟨n, hn⟩ : ∃ n, d.length = n + 1 := ⟨d.length - 1, by have := hd.two_le; omega⟩
  have htop : value d / UInt64.size ^ n = (d.get n).toNat := value_div_eq_top hn
  have hfirst : value window / UInt64.size ^ (n + 1) = (window.get (n + 1)).toNat :=
    value_div_eq_top (hw.length_eq.trans (by rw [hn]))
  have hhigh := value_div_eq_get window n
  rw [hfirst] at hhigh
  rw [hn, Nat.add_sub_cancel, ← hhigh, ← htop]
  refine Nat.div_lt_of_lt_mul (hw.value_lt.trans_le ?_)
  have hlt := Nat.lt_mul_div_succ (value d) (size_pow_pos n)
  calc UInt64.size * value d
      ≤ UInt64.size * (UInt64.size ^ n * (value d / UInt64.size ^ n + 1)) :=
        Nat.mul_le_mul_left _ hlt.le
    _ = _ := by ring

/-- The estimate for a window is its quotient or one more. -/
theorem estimate_window {window d : Limbs} (hd : Divisor d) (hw : Window window d) :
    let n := d.length
    let e := (estimate (window.get n) (window.get (n - 1)) (window.get (n - 2))
      (d.get (n - 1)) (d.get (n - 2))).toNat
    value window / value d ≤ e ∧ e ≤ value window / value d + 1 := by
  obtain ⟨n, hn⟩ : ∃ n, d.length = n + 2 := ⟨d.length - 2, by have := hd.two_le; omega⟩
  have hdpos := hd.value_pos
  have htop : value d / UInt64.size ^ (n + 1) = (d.get (n + 1)).toNat := value_div_eq_top hn
  have hu2 : value window / UInt64.size ^ (n + 2) = (window.get (n + 2)).toNat :=
    value_div_eq_top (hw.length_eq.trans (by rw [hn]))
  have hu1 := value_div_eq_get window (n + 1)
  have hu0 := value_div_eq_get window n
  have hnext := value_div_eq_get d n
  rw [hu2] at hu1
  rw [hu1] at hu0
  rw [htop] at hnext
  have hne : d.get (n + 1) ≠ 0 := by
    have h := hd.top_ne_zero
    rwa [hn] at h
  have hhigh := hw.high_lt hd
  rw [hn] at hhigh
  obtain ⟨hfit, hmax⟩ := estimate_spec (window.get (n + 2)) (window.get (n + 1)) (window.get n)
    (d.get (n + 1)) (d.get n) hne hhigh
  have hbound : (estimate (window.get (n + 2)) (window.get (n + 1)) (window.get n)
      (d.get (n + 1)) (d.get n)).toNat ≤
        (d.get (n + 1)).toNat * UInt64.size + (d.get n).toNat + 1 := by
    have hpos : 1 ≤ (d.get (n + 1)).toNat :=
      Nat.pos_of_ne_zero fun h => hne ((Word.toNat_eq_zero_iff _).mp h)
    have hmul := Nat.mul_le_mul_right UInt64.size hpos
    have hlt := Word.toNat_lt (estimate (window.get (n + 2)) (window.get (n + 1)) (window.get n)
      (d.get (n + 1)) (d.get n))
    omega
  obtain ⟨hlow, hupper⟩ := quotient_le_and_le hdpos hu0.symm hnext.symm (size_pow_pos n) hfit
    hbound
  have hlimb : value window / value d < UInt64.size := by
    rw [Nat.div_lt_iff_lt_mul hdpos]
    exact hw.value_lt
  simp only [hn, show n + 2 - 1 = n + 1 from rfl, show n + 2 - 2 = n from rfl]
  exact ⟨hmax _ hlimb hlow, hupper⟩

/-- One step of long division gives the quotient of the window as a limb and its remainder. -/
theorem divStep_spec {window d : Limbs} (hd : Divisor d) (hw : Window window d) :
    (divStep window d).1.toNat = value window / value d ∧
      value (divStep window d).2 = value window % value d ∧
      (divStep window d).2.length = d.length := by
  obtain ⟨hlow, hupper⟩ := estimate_window hd hw
  have hdpos := hd.value_pos
  have hdlt := value_lt d
  simp only [divStep]
  generalize estimate (window.get d.length) (window.get (d.length - 1))
    (window.get (d.length - 2)) (d.get (d.length - 1)) (d.get (d.length - 2)) = e at hlow hupper ⊢
  obtain ⟨hvalue, hlen⟩ := value_mulSub e window d 0 hw.length_eq
  have hlimbs := value_lt (mulSub e window d 0).limbs
  have hdm := Nat.div_add_mod (value window) (value d)
  have hmod := Nat.mod_lt (value window) hdpos
  rw [UInt64.toNat_zero, Nat.add_zero] at hvalue
  rw [hlen] at hlimbs
  cases hborrow : (mulSub e window d 0).borrow with
  | false =>
      rw [hborrow, Bool.toNat_false, Nat.mul_zero, Nat.add_zero] at hvalue
      have heq : e.toNat = value window / value d := by
        refine Nat.le_antisymm ?_ hlow
        rw [Nat.le_div_iff_mul_le hdpos]
        omega
      have hrest : value (mulSub e window d 0).limbs = value window % value d := by
        rw [heq, Nat.mul_comm] at hvalue
        omega
      refine ⟨heq, ?_, ?_⟩
      · simp only [Bool.false_eq_true, if_false]
        rw [value_take, hrest, Nat.mod_eq_of_lt (hmod.trans hdlt)]
      · simp only [Bool.false_eq_true, if_false]
        rw [List.length_take, hlen, hw.length_eq]
        omega
  | true =>
      rw [hborrow, Bool.toNat_true, Nat.mul_one] at hvalue
      -- a borrow means that the product exceeded the window, so the estimate was one too large
      have heq : e.toNat = value window / value d + 1 := by
        refine Nat.le_antisymm hupper (Nat.succ_le_of_lt ?_)
        rw [Nat.div_lt_iff_lt_mul hdpos]
        omega
      have hone : (1 : Word) ≤ e := by
        rw [UInt64.le_iff_toNat_le, UInt64.toNat_one, heq]
        exact Nat.succ_le_succ (Nat.zero_le _)
      obtain ⟨hback, hbacklen⟩ := value_addBack (mulSub e window d 0).limbs d false
      have hsum : value (mulSub e window d 0).limbs + value d =
          value window % value d + UInt64.size ^ window.length := by
        rw [heq, Nat.succ_mul, Nat.mul_comm] at hvalue
        omega
      refine ⟨?_, ?_, hbacklen⟩
      · simp only [if_true]
        rw [UInt64.toNat_sub_of_le _ _ hone, heq, UInt64.toNat_one, Nat.add_sub_cancel]
      · simp only [if_true]
        rw [hback, Bool.toNat_false, Nat.add_zero, hsum, hw.length_eq, Nat.pow_succ,
          Nat.add_mul_mod_self_left, Nat.mod_eq_of_lt (hmod.trans hdlt)]

/-! ### Whole divisions -/

/-- A remainder with one more limb below it is a window. -/
theorem window_cons {d rest : Limbs} (w : Word) (hlen : rest.length = d.length)
    (hlt : value rest < value d) : Window (w :: rest) d := by
  refine ⟨by rw [List.length_cons, hlen], ?_⟩
  have hw := Word.toNat_lt w
  have hmul := Nat.mul_le_mul_left UInt64.size (Nat.succ_le_of_lt hlt)
  rw [value_cons]
  rw [Nat.mul_succ] at hmul
  omega

/-- Long division of limbs that follow an initial remainder. -/
theorem divLimbs_spec {d rest : Limbs} (hd : Divisor d) (hlen : rest.length = d.length)
    (hlt : value rest < value d) (ws : Limbs) :
    value (divLimbs d ws rest).quotient = value (ws ++ rest) / value d ∧
      value (divLimbs d ws rest).remainder = value (ws ++ rest) % value d ∧
      (divLimbs d ws rest).remainder.length = d.length := by
  induction ws with
  | nil =>
      rw [divLimbs, List.nil_append, Nat.div_eq_of_lt hlt, Nat.mod_eq_of_lt hlt]
      exact ⟨rfl, rfl, hlen⟩
  | cons w ws ih =>
      obtain ⟨hquotient, hremainder, hlength⟩ := ih
      have hmod := Nat.mod_lt (value (ws ++ rest)) hd.value_pos
      obtain ⟨hq, hr, hrlen⟩ := divStep_spec hd (window_cons w hlength (hremainder ▸ hmod))
      have hsplit := Nat.div_add_mod (value (ws ++ rest)) (value d)
      have hwhole : value (w :: ws ++ rest) =
          value (w :: (divLimbs d ws rest).remainder) +
            value d * (UInt64.size * (value (ws ++ rest) / value d)) := by
        rw [List.cons_append, value_cons, value_cons, hremainder]
        conv_lhs => rw [← hsplit]
        ring
      rw [divLimbs, hwhole, Nat.add_mul_div_left _ _ hd.value_pos, Nat.add_mul_mod_self_left]
      exact ⟨by rw [value_cons, hq, hquotient], hr, hrlen⟩

/-- The quotient and the remainder of a number with one more limb below it. -/
theorem cons_div_mod {d : Nat} (hd : 0 < d) (w v : Nat) :
    (w + UInt64.size * v) / d = (v % d * UInt64.size + w) / d + UInt64.size * (v / d) ∧
      (w + UInt64.size * v) % d = (v % d * UInt64.size + w) % d := by
  have hwhole : w + UInt64.size * v =
      v % d * UInt64.size + w + d * (UInt64.size * (v / d)) := by
    conv_lhs => rw [← Nat.div_add_mod v d]
    ring
  rw [hwhole, Nat.add_mul_div_left _ _ hd, Nat.add_mul_mod_self_left]
  exact ⟨rfl, rfl⟩

/-- Division by a single limb. -/
theorem divWord_spec {d : Word} (hd : d ≠ 0) (ws : Limbs) :
    value (divWord d ws).1 = value ws / d.toNat ∧
      (divWord d ws).2.toNat = value ws % d.toNat := by
  have hpos : 0 < d.toNat := Nat.pos_of_ne_zero fun h => hd ((Word.toNat_eq_zero_iff d).mp h)
  induction ws with
  | nil => exact ⟨(Nat.zero_div _).symm, (Nat.zero_mod _).symm⟩
  | cons w ws ih =>
      obtain ⟨hquotient, hremainder⟩ := ih
      obtain ⟨hdiv, hmod⟩ := cons_div_mod hpos w.toNat (value ws)
      have hw := Word.toNat_lt w
      have hlimb : (value ws % d.toNat * UInt64.size + w.toNat) / d.toNat < UInt64.size := by
        rw [Nat.div_lt_iff_lt_mul hpos]
        have hmul := Nat.mul_le_mul_right UInt64.size
          (Nat.succ_le_of_lt (Nat.mod_lt (value ws) hpos))
        rw [Nat.succ_mul, Nat.mul_comm d.toNat] at hmul
        omega
      have hrest : (value ws % d.toNat * UInt64.size + w.toNat) % d.toNat < UInt64.size :=
        (Nat.mod_lt _ hpos).trans (Word.toNat_lt d)
      simp only [divWord, value_cons, hdiv, hmod, hquotient, hremainder]
      rw [Word.toNat_ofNat_of_lt hlimb, Word.toNat_ofNat_of_lt hrest]
      exact ⟨rfl, rfl⟩

/-- The remainder of a division by a single limb. -/
theorem toNat_modWord {d : Word} (hd : d ≠ 0) (ws : Limbs) :
    (modWord d ws).toNat = value ws % d.toNat := by
  have hpos : 0 < d.toNat := Nat.pos_of_ne_zero fun h => hd ((Word.toNat_eq_zero_iff d).mp h)
  induction ws with
  | nil => exact (Nat.zero_mod _).symm
  | cons w ws ih =>
      have hrest : (value ws % d.toNat * UInt64.size + w.toNat) % d.toNat < UInt64.size :=
        (Nat.mod_lt _ hpos).trans (Word.toNat_lt d)
      rw [modWord] at ih
      rw [modWord, List.foldr_cons, ih, Word.toNat_ofNat_of_lt hrest, value_cons,
        (cons_div_mod hpos w.toNat (value ws)).2]

/-! ### Scaling -/

/-- The shift that sets the top bit of a limb is less than a limb, and the limb has room for it. -/
theorem leadingZeros_spec {w : Word} (hw : w ≠ 0) :
    w.leadingZeros < 64 ∧ (w.toNat + 1) * 2 ^ w.leadingZeros ≤ UInt64.size := by
  have hsize : w.bitLength ≤ 64 := by
    rw [Word.bitLength_eq, Nat.size_le]
    exact UInt64.toNat_lt w
  have hpos : 0 < w.bitLength := by
    rw [Word.bitLength_eq, Nat.size_pos]
    exact Nat.pos_of_ne_zero fun h => hw ((Word.toNat_eq_zero_iff w).mp h)
  have hlt : w.toNat < 2 ^ w.bitLength := by
    rw [Word.bitLength_eq]
    exact Nat.lt_size_self _
  refine ⟨by rw [Word.leadingZeros]; omega, ?_⟩
  calc (w.toNat + 1) * 2 ^ w.leadingZeros
      ≤ 2 ^ w.bitLength * 2 ^ (64 - w.bitLength) := Nat.mul_le_mul_right _ hlt
    _ = UInt64.size := by rw [← Nat.pow_add, Nat.add_sub_cancel' hsize]

/-- The value of a scaled list. -/
theorem value_scaled {s : Nat} (hs : s < 64) (a : Limbs) :
    value (shiftLeftBits s a 0) = value a * 2 ^ s := by
  rw [value_shiftLeftBits hs a 0 (Nat.two_pow_pos s), UInt64.toNat_zero, Nat.add_zero]

/-- Scaling a divisor until its top bit is set does not make it longer. -/
theorem scaled_divisor {d : Limbs} {s : Nat} (hd : Divisor d) (hs : s < 64)
    (hroom : ((d.get (d.length - 1)).toNat + 1) * 2 ^ s ≤ UInt64.size) :
    let scaled := (shiftLeftBits s d 0).take d.length
    value scaled = value d * 2 ^ s ∧ scaled.length = d.length ∧ Divisor scaled := by
  intro scaled
  obtain ⟨n, hn⟩ : ∃ n, d.length = n + 1 := ⟨d.length - 1, by have := hd.two_le; omega⟩
  have htop := value_div_eq_top hn
  have hlen : scaled.length = d.length := by
    rw [List.length_take, length_shiftLeftBits]
    exact Nat.min_eq_left (Nat.le_succ _)
  have hlt : value d * 2 ^ s < UInt64.size ^ d.length := by
    rw [hn, Nat.add_sub_cancel] at hroom
    have hd' := Nat.lt_mul_div_succ (value d) (size_pow_pos n)
    rw [htop] at hd'
    calc value d * 2 ^ s
        < UInt64.size ^ n * ((d.get n).toNat + 1) * 2 ^ s :=
          Nat.mul_lt_mul_of_pos_right hd' (Nat.two_pow_pos s)
      _ ≤ UInt64.size ^ n * UInt64.size := by
          rw [Nat.mul_assoc]
          exact Nat.mul_le_mul_left _ hroom
      _ = UInt64.size ^ d.length := by rw [hn, Nat.pow_succ]
  have hvalue : value scaled = value d * 2 ^ s := by
    rw [value_take, value_scaled hs, Nat.mod_eq_of_lt hlt]
  refine ⟨hvalue, hlen, by rw [hlen]; exact hd.two_le, fun hzero => ?_⟩
  -- a zero top limb would put the scaled divisor below the weight of its top limb
  have hscaledTop := value_div_eq_top (hlen.trans hn)
  rw [hlen, hn, Nat.add_sub_cancel] at hzero
  rw [hzero, UInt64.toNat_zero, hvalue] at hscaledTop
  have hsmall := (Nat.div_eq_zero_iff_lt (size_pow_pos n)).mp hscaledTop
  have hweight := hd.weight_le
  rw [hn, Nat.add_sub_cancel] at hweight
  have := Nat.le_mul_of_pos_right (value d) (Nat.two_pow_pos s)
  omega

/-- The limbs of a scaled dividend that a division starts from are less than the scaled divisor: the
limb that the scaling spills is below the weight the divisor's top limb is scaled to. -/
theorem scaled_rest_lt {a d : Limbs} {s : Nat} (hd : Divisor d) (hs : s < 64)
    (hlen : d.length ≤ a.length) :
    value ((shiftLeftBits s a 0).drop (a.length + 1 - d.length)) < value d * 2 ^ s := by
  obtain ⟨k, hk⟩ : ∃ k, a.length + 1 - d.length = k := ⟨_, rfl⟩
  rw [hk, value_drop, value_scaled hs, Nat.div_lt_iff_lt_mul (size_pow_pos k)]
  have ha := value_lt a
  have hsplit : a.length = d.length - 1 + k := by
    have := hd.two_le
    omega
  rw [hsplit, Nat.pow_add] at ha
  calc value a * 2 ^ s
      < UInt64.size ^ (d.length - 1) * UInt64.size ^ k * 2 ^ s :=
        Nat.mul_lt_mul_of_pos_right ha (Nat.two_pow_pos s)
    _ = UInt64.size ^ (d.length - 1) * 2 ^ s * UInt64.size ^ k := by ring
    _ ≤ value d * 2 ^ s * UInt64.size ^ k :=
        Nat.mul_le_mul_right _ (Nat.mul_le_mul_right _ hd.weight_le)

/-- Division by a scaled divisor, and the remainder scaled back. -/
theorem scaled_division_spec {a d : Limbs} (hd : Divisor d) (hlen : d.length ≤ a.length) :
    let shift := (d.get (d.length - 1)).leadingZeros
    let divisor := (shiftLeftBits shift d 0).take d.length
    let dividend := shiftLeftBits shift a 0
    let k := a.length + 1 - d.length
    let result := divLimbs divisor (dividend.take k) (dividend.drop k)
    value result.quotient = value a / value d ∧
      value (shiftRightBits shift result.remainder) = value a % value d := by
  intro shift divisor dividend k result
  obtain ⟨hs, hroom⟩ := leadingZeros_spec hd.top_ne_zero
  obtain ⟨hdivisor, hdlen, hscaled⟩ := scaled_divisor hd hs hroom
  have hrestLen : (dividend.drop k).length = divisor.length := by
    rw [List.length_drop, length_shiftLeftBits, hdlen]
    omega
  have hrest : value (dividend.drop k) < value divisor :=
    (scaled_rest_lt hd hs hlen).trans_eq hdivisor.symm
  obtain ⟨hquotient, hremainder, -⟩ := divLimbs_spec hscaled hrestLen hrest (dividend.take k)
  rw [List.take_append_drop, value_scaled hs, hdivisor] at hquotient hremainder
  constructor
  · rw [hquotient, Nat.mul_div_mul_right _ _ (Nat.two_pow_pos shift)]
  · rw [value_shiftRightBits hs, hremainder, Nat.mul_mod_mul_right,
      Nat.mul_div_cancel _ (Nat.two_pow_pos shift)]

/-- Division of a list of limbs by one no longer than it, whose top limb is not zero. -/
theorem div_spec {a d : Limbs} (hne : d ≠ []) (htop : d.get (d.length - 1) ≠ 0)
    (hlen : d.length ≤ a.length) :
    value (div a d).quotient = value a / value d ∧
      value (div a d).remainder = value a % value d := by
  match d, hne with
  | [w], _ =>
      obtain ⟨hquotient, hremainder⟩ := divWord_spec (show w ≠ 0 from htop) a
      rw [value_singleton]
      exact ⟨hquotient, (value_singleton _).trans hremainder⟩
  | v :: w :: ws, _ => exact scaled_division_spec ⟨Nat.le_add_left 2 _, htop⟩ hlen

end TrustedPlatform.Limbs
