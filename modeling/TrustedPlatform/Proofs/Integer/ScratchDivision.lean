import TrustedPlatform.Integer.ScratchDivision
import TrustedPlatform.Proofs.Integer.LongDivision

/-!
# The scratch area suffices for a division

Each access of the division in place is within its array and no intermediate leaves its double
word, so that the division is carried out and is `Limbs.div`. The arrays are followed as a segment
between what lies below and what lies above it: the window of a step is such a segment of the
dividend. The main statement is `divide_eq`.
-/

namespace TrustedPlatform.Limbs.Scratch

open FixedNat (scratchLimbs)

/-! ### Arrays and double words -/

/-- A computation goes on from the value of its first step. -/
theorem bind_of_eq_some {α β : Type} {x : Option α} {a : α} (h : x = some a)
    (f : α → Option β) : (x >>= f) = f a := by
  rw [h]
  rfl

/-- A double word holds what two limbs do. -/
theorem size_mul_size : UInt64.size * UInt64.size = 2 ^ 128 := by
  norm_num [UInt64.size]

/-- A number below the radix of a double word does not overflow it. -/
theorem unsigned_of_lt {n : Nat} (h : n < 2 ^ 128) : unsigned n = some n :=
  if_pos (h.trans_eq size_mul_size.symm)

/-- Two limbs make up a double word. -/
theorem pair_lt {high low : Nat} (hhigh : high < UInt64.size) (hlow : low < UInt64.size) :
    high * UInt64.size + low < 2 ^ 128 :=
  calc high * UInt64.size + low < high * UInt64.size + UInt64.size := Nat.add_lt_add_left hlow _
    _ = (high + 1) * UInt64.size := (Nat.succ_mul _ _).symm
    _ ≤ UInt64.size * UInt64.size := Nat.mul_le_mul_right _ hhigh
    _ = 2 ^ 128 := size_mul_size

/-- An integer of less than two words does not overflow a signed double word. -/
theorem signed_of_lt {t : Int} (h : -2 ^ 127 ≤ t ∧ t < 2 ^ 127) : signed t = some t := by
  have hlimit : (signedLimit : Int) = 2 ^ 127 := by norm_num [signedLimit, UInt64.size]
  rw [signed, hlimit, if_pos h]

/-- A list that is not empty has a last limb. -/
theorem exists_concat_of_length {ws : Limbs} {n : Nat} (h : ws.length = n + 1) :
    ∃ lower last, ws = lower ++ [last] ∧ lower.length = n := by
  obtain ⟨lower, last, rfl⟩ :=
    (List.eq_nil_or_concat' ws).resolve_left (List.ne_nil_of_length_eq_add_one h)
  exact ⟨lower, last, rfl, by simpa using h⟩

/-- A limb between two segments is read at the length of the lower one. -/
theorem getElem?_middle (low high : Limbs) (x : Word) {i : Nat} (h : low.length = i) :
    (low ++ x :: high)[i]? = some x := by
  rw [List.getElem?_append_right h.le, h, Nat.sub_self, List.getElem?_cons_zero]

/-- A limb between two segments is replaced at the length of the lower one. -/
theorem store_middle (low high : Limbs) (x w : Word) {i : Nat} (h : low.length = i) :
    store (low ++ x :: high) i w = some (low ++ w :: high) := by
  have hlt : i < (low ++ x :: high).length := by
    rw [List.length_append, List.length_cons, h]
    omega
  rw [store, if_pos hlt, List.set_append_right _ _ h.le, h, Nat.sub_self, List.set_cons_zero]

/-- A limb of an empty array is set. -/
theorem store_replicate {n i : Nat} (h : i < n) (w : Word) :
    ∃ room, store (List.replicate n 0) i w =
      some (List.replicate i 0 ++ w :: List.replicate room 0) := by
  obtain ⟨room, rfl⟩ := Nat.exists_eq_add_of_lt h
  refine ⟨room, ?_⟩
  rw [Nat.add_assoc, List.replicate_add]
  exact store_middle _ _ _ _ List.length_replicate

/-- A limb above a segment is read. -/
theorem getElem?_above (low us high : Limbs) (x : Word) {n : Nat} (h : us.length = n) :
    (low ++ (us ++ x :: high))[low.length + n]? = some x := by
  rw [← List.append_assoc]
  exact getElem?_middle (low ++ us) high x (by rw [List.length_append, h])

/-- A limb above a segment is replaced. -/
theorem store_above (low us high : Limbs) (x w : Word) {n : Nat} (h : us.length = n) :
    store (low ++ (us ++ x :: high)) (low.length + n) w = some (low ++ (us ++ w :: high)) := by
  rw [← List.append_assoc, ← List.append_assoc]
  exact store_middle (low ++ us) high x w (by rw [List.length_append, h])

/-- A limb of a segment. -/
theorem getElem?_segment (low window high : Limbs) {i : Nat} (h : i < window.length) :
    (low ++ window ++ high)[low.length + i]? = some (window.get i) := by
  rw [List.append_assoc, List.getElem?_append_right (Nat.le_add_right _ _), Nat.add_sub_cancel_left,
    List.getElem?_append_left h, Limbs.get, List.getD_eq_getElem?_getD, List.getElem?_eq_getElem h]
  rfl

/-- A limb of a list. -/
theorem getElem?_eq_get (ws : Limbs) {i : Nat} (h : i < ws.length) :
    ws[i]? = some (ws.get i) := by
  simpa using getElem?_segment [] ws [] h

/-- An array within the scratch area. -/
theorem array_of_le {length : Nat} (h : length ≤ scratchLimbs) :
    array length = some (List.replicate length 0) :=
  if_pos h

/-- The first limbs of an array become those that are computed. -/
theorem fill_eq {limb : Nat → Option Word} (ws xs : Limbs)
    (hlimb : ∀ i < ws.length, limb i = some (ws.get i)) (hlen : ws.length ≤ xs.length) :
    fill limb ws.length xs = some (ws ++ xs.drop ws.length) := by
  induction ws using List.reverseRecOn generalizing xs with
  | nil => rfl
  | append_singleton ws w ih =>
      rw [List.length_append, List.length_singleton] at hlimb hlen ⊢
      have hlast : limb ws.length = some w := by
        rw [hlimb ws.length (Nat.lt_succ_self _), ← getElem?_eq_get _ (by simp)]
        exact getElem?_middle ws [] w rfl
      obtain ⟨x, rest, hxs⟩ : ∃ x rest, xs.drop ws.length = x :: rest :=
        List.exists_cons_of_ne_nil (by rw [Ne, List.drop_eq_nil_iff]; omega)
      have hsplit : xs = xs.take ws.length ++ x :: rest := by
        rw [← hxs, List.take_append_drop]
      have htake : (xs.take ws.length).length = ws.length := List.length_take_of_le (by omega)
      have hdrop : xs.drop (ws.length + 1) = rest := by
        rw [← List.drop_drop, hxs, List.drop_one, List.tail_cons]
      have hstore : store xs ws.length w = some (xs.take ws.length ++ w :: rest) := by
        conv_lhs => rw [hsplit]
        exact store_middle _ _ _ _ htake
      have hrest : ∀ i < ws.length, limb i = some (Limbs.get ws i) := by
        intro i hi
        rw [hlimb i (Nat.lt_succ_of_lt hi), Limbs.get, Limbs.get, List.getD_append _ _ _ _ hi]
      have hbelow : fill limb ws.length (xs.take ws.length ++ w :: rest) =
          some (ws ++ w :: rest) := by
        rw [ih _ hrest (by rw [List.length_append, htake]; exact Nat.le_add_right _ _),
          List.drop_left' htake]
      rw [fill, bind_of_eq_some hlast, bind_of_eq_some hstore, hbelow, hdrop, List.append_assoc,
        List.singleton_append]

/-! ### Division by one limb -/

/-- One limb of a division by one limb. -/
theorem divWord_cons (d w : Word) (ws : Limbs) :
    divWord d (w :: ws) =
      (UInt64.ofNat (((divWord d ws).2.toNat * UInt64.size + w.toNat) / d.toNat) ::
          (divWord d ws).1,
        UInt64.ofNat (((divWord d ws).2.toNat * UInt64.size + w.toNat) % d.toNat)) := by
  rw [divWord]

/-- The quotient limbs of a division by one limb are found one by one, the highest first. -/
theorem divideByLimb_eq {d : Word} (hd : d ≠ 0) (low high zeros : Limbs)
    (hlen : zeros.length = low.length) :
    divideByLimb d (low ++ high) low.length (zeros ++ (divWord d high).1)
        (divWord d high).2.toNat =
      some ((divWord d (low ++ high)).1, (divWord d (low ++ high)).2.toNat) := by
  induction low using List.reverseRecOn generalizing high zeros with
  | nil =>
      obtain rfl := List.eq_nil_of_length_eq_zero hlen
      rfl
  | append_singleton low w ih =>
      obtain ⟨zeros, z, rfl, hzeros⟩ := exists_concat_of_length (hlen.trans List.length_append)
      have hcurrent : (divWord d high).2.toNat * UInt64.size + w.toNat < 2 ^ 128 :=
        pair_lt (Word.toNat_lt _) (Word.toNat_lt w)
      have hrest : ((divWord d high).2.toNat * UInt64.size + w.toNat) % d.toNat =
          (divWord d (w :: high)).2.toNat := by
        have hpos : 0 < d.toNat :=
          Nat.pos_of_ne_zero fun h => hd ((Word.toNat_eq_zero_iff d).mp h)
        rw [divWord_cons, Word.toNat_ofNat_of_lt ((Nat.mod_lt _ hpos).trans (Word.toNat_lt d))]
      rw [List.append_assoc, List.append_assoc, List.singleton_append, List.singleton_append,
        List.length_append, List.length_singleton, divideByLimb, if_neg hd,
        bind_of_eq_some (getElem?_middle low high w rfl), bind_of_eq_some (unsigned_of_lt hcurrent),
        bind_of_eq_some (store_middle zeros _ z _ hzeros), hrest, ← ih (w :: high) zeros hzeros,
        divWord_cons]

/-! ### Scaling -/

/-- A limb of a list that is shifted left takes the bits that the limb below it spills. -/
theorem get_shiftLeftBits_succ (shift : Nat) (xs : Limbs) (carry : Word) {i : Nat}
    (hi : i + 1 < xs.length) :
    (shiftLeftBits shift xs carry).get (i + 1) =
      (xs.get (i + 1) <<< UInt64.ofNat shift) ||| (xs.get i).spill shift := by
  induction xs generalizing i carry with
  | nil => cases hi
  | cons w ws ih =>
      cases i with
      | zero =>
          cases ws with
          | nil => cases Nat.lt_of_succ_lt_succ hi
          | cons v ws => rfl
      | succ i => exact ih _ (Nat.lt_of_succ_lt_succ hi)

/-- The limbs of a list that is shifted left. -/
theorem scaledLimb_eq {shift : Nat} (hshift : shift < 64) (xs : Limbs) {i : Nat}
    (hi : i < xs.length) : scaledLimb shift xs i = some ((shiftLeftBits shift xs 0).get i) := by
  cases i with
  | zero =>
      cases xs with
      | nil => cases hi
      | cons w ws =>
          have hlow : (shiftLeftBits shift (w :: ws) 0).get 0 = w <<< UInt64.ofNat shift :=
            UInt64.or_zero
          rw [hlow]
          exact if_pos hshift
  | succ i =>
      rw [scaledLimb, getElem?_eq_get xs hi, getElem?_eq_get xs (Nat.lt_of_succ_lt hi),
        get_shiftLeftBits_succ shift xs 0 hi]
      simp only [Option.bind_eq_bind, Option.bind_some, Word.spill]
      by_cases hzero : shift = 0
      · subst hzero
        rw [if_pos rfl, if_pos rfl, UInt64.or_zero]
        exact congrArg some UInt64.shiftLeft_zero.symm
      · rw [if_neg hzero, if_neg hzero, shiftLeft, if_pos hshift, shiftRight, if_pos (by omega)]
        rfl

/-- A limb of a list that is shifted right takes the bits that the limb above it spills. -/
theorem get_shiftRightBits (shift : Nat) (xs : Limbs) {i : Nat} (hi : i < xs.length) :
    (shiftRightBits shift xs).get i =
      (xs.get i >>> UInt64.ofNat shift) ||| (xs.get (i + 1)).spillRight shift := by
  fun_induction shiftRightBits shift xs generalizing i with
  | case1 => cases hi
  | case2 w =>
      obtain rfl : i = 0 := by simpa using hi
      have hspill : (0 : Word).spillRight shift = 0 := by
        rw [Word.spillRight]
        split
        · rfl
        · exact UInt64.zero_shiftLeft
      show w >>> UInt64.ofNat shift =
        (w >>> UInt64.ofNat shift) ||| (0 : Word).spillRight shift
      rw [hspill, UInt64.or_zero]
  | case3 w v ws ih =>
      cases i with
      | zero => rfl
      | succ i => exact ih (Nat.lt_of_succ_lt_succ hi)

/-- The limbs of a list that is shifted right, when the limb above it is zero. -/
theorem unscaledLimb_eq {shift : Nat} (hshift : shift < 64) (xs high : Limbs) {i : Nat}
    (hi : i < xs.length) :
    unscaledLimb shift (xs ++ 0 :: high) i = some ((shiftRightBits shift xs).get i) := by
  have hlimb : (xs ++ 0 :: high)[i]? = some (xs.get i) := by
    rw [List.getElem?_append_left hi, getElem?_eq_get xs hi]
  have habove : (xs ++ 0 :: high)[i + 1]? = some (xs.get (i + 1)) := by
    rcases Nat.lt_or_eq_of_le (Nat.succ_le_of_lt hi) with h | h
    · rw [List.getElem?_append_left h, getElem?_eq_get xs h]
    · rw [getElem?_middle xs high 0 h.symm, Limbs.get, List.getD_eq_default _ _ h.ge]
  rw [unscaledLimb, hlimb, habove, get_shiftRightBits shift xs hi]
  simp only [Option.bind_eq_bind, Option.bind_some, Word.spillRight]
  by_cases hzero : shift = 0
  · subst hzero
    rw [if_pos rfl, if_pos rfl, UInt64.or_zero]
    exact congrArg some UInt64.shiftRight_zero.symm
  · rw [if_neg hzero, if_neg hzero, shiftRight, if_pos hshift, shiftLeft, if_pos (by omega)]
    rfl

/-! ### One limb of the quotient -/

/-- No double word overflows while an estimate is compared. -/
theorem isTooLarge_eq {next below remainder : Nat} (hnext : next < UInt64.size)
    (hbelow : below < UInt64.size) (hremainder : remainder < UInt64.size) (estimate : Nat) :
    isTooLarge next below estimate remainder =
      some (decide (UInt64.size ≤ estimate ∨
        remainder * UInt64.size + below < estimate * next)) := by
  rw [isTooLarge]
  by_cases hlarge : UInt64.size ≤ estimate
  · rw [if_pos hlarge, decide_eq_true (.inl hlarge)]
  · have hproduct : estimate * next < 2 ^ 128 :=
      (Nat.mul_lt_mul'' (Nat.lt_of_not_le hlarge) hnext).trans_eq size_mul_size
    rw [if_neg hlarge, unsigned_of_lt hproduct, unsigned_of_lt (pair_lt hremainder hbelow)]
    simp only [hlarge, false_or, Option.bind_eq_bind, Option.bind_some, Option.pure_def]

/-- No double word overflows while an estimate is lowered. -/
theorem lowerEstimate_eq {top next below : Nat} (htop : top < UInt64.size)
    (hnext : next < UInt64.size) (hbelow : below < UInt64.size) (estimate remainder : Nat)
    (hremainder : remainder < UInt64.size) :
    lowerEstimate top next below estimate remainder =
      some (correctEstimate top next below estimate remainder) := by
  induction estimate generalizing remainder with
  | zero =>
      have hfits : ¬(UInt64.size ≤ 0 ∨ remainder * UInt64.size + below < 0 * next) := by
        rw [UInt64.size, Nat.zero_mul]
        omega
      rw [lowerEstimate, correctEstimate, if_neg fun h => hfits h.2,
        isTooLarge_eq hnext hbelow hremainder, decide_eq_false hfits]
      rfl
  | succ estimate ih =>
      have hsum : remainder + top < 2 ^ 128 :=
        calc remainder + top < UInt64.size + UInt64.size := Nat.add_lt_add hremainder htop
          _ ≤ UInt64.size * UInt64.size := by norm_num [UInt64.size]
          _ = 2 ^ 128 := size_mul_size
      rw [lowerEstimate, correctEstimate, isTooLarge_eq hnext hbelow hremainder]
      by_cases hlarge : UInt64.size ≤ estimate + 1 ∨
          remainder * UInt64.size + below < (estimate + 1) * next
      · rw [if_pos ⟨Nat.succ_pos estimate, hlarge⟩, decide_eq_true hlarge, unsigned_of_lt hsum]
        show (if UInt64.size ≤ remainder + top then some estimate
          else lowerEstimate top next below estimate (remainder + top)) = _
        by_cases hstop : UInt64.size ≤ remainder + top
        · rw [if_pos hstop, if_pos hstop, Nat.add_sub_cancel]
        · rw [if_neg hstop, if_neg hstop, Nat.add_sub_cancel]
          exact ih _ (Nat.lt_of_not_le hstop)
      · rw [if_neg fun h => hlarge h.2, decide_eq_false hlarge]
        rfl

/-- The estimate of a quotient limb is found, and fits a limb. -/
theorem estimateLimb_eq {u2 u1 top : Word} (htop : top ≠ 0)
    (hn : u2.toNat * UInt64.size + u1.toNat < (top.toNat + 1) * UInt64.size) (u0 next : Word) :
    estimateLimb u2 u1 u0 top next = some (estimate u2 u1 u0 top next).toNat := by
  have hpos : 0 < top.toNat :=
    Nat.pos_of_ne_zero fun h => htop ((Word.toNat_eq_zero_iff top).mp h)
  obtain ⟨hlt, -, -⟩ := correctEstimate_spec (Word.toNat_lt next) hn u0.toNat
    ((u2.toNat * UInt64.size + u1.toNat) / top.toNat)
    ((u2.toNat * UInt64.size + u1.toNat) % top.toNat) (Nat.div_add_mod' _ _)
  rw [estimateLimb, if_neg htop,
    bind_of_eq_some (unsigned_of_lt (pair_lt (Word.toNat_lt u2) (Word.toNat_lt u1))),
    lowerEstimate_eq (Word.toNat_lt top) (Word.toNat_lt next) (Word.toNat_lt u0) _ _
      ((Nat.mod_lt _ hpos).trans (Word.toNat_lt top)),
    estimate, Word.toNat_ofNat_of_lt hlt]

/-! ### Multiply, subtract, and add back -/

/-- The product of two limbs fits a double word. -/
theorem mul_lt (q v : Word) : q.toNat * v.toNat < 2 ^ 128 :=
  (Nat.mul_lt_mul'' (Word.toNat_lt q) (Word.toNat_lt v)).trans_eq size_mul_size

/-- The low word of an integer. -/
theorem ofInt_of_emod_eq {t : Int} {w : Word} (h : t % 2 ^ 64 = w.toNat) :
    UInt64.ofInt t = w := by
  rw [UInt64.ofInt, h, Int.toNat_natCast, UInt64.ofNat_toNat]

/-- The low word of a difference. -/
theorem ofInt_sub (x y : Word) : UInt64.ofInt (x.toNat - y.toNat) = x - y := by
  have hsub := toNat_sub_add x y
  have hlt := UInt64.toNat_lt (x - y)
  rw [UInt64.size] at hsub
  exact ofInt_of_emod_eq (by omega)

/-- A difference in a signed double word, cut to its low word and to what it borrows, when the
product and the carry are cut to `low` and `high`, and the minuend less `low` to `d` and `b`. -/
theorem difference_cut {product carry u low high d b : Nat}
    (hexact : low + UInt64.size * high = product + carry)
    (hsub : d + low = u + UInt64.size * b) (hd : d < UInt64.size) :
    ((u : Int) - carry - (product % UInt64.size : Nat)) % 2 ^ 64 = d ∧
      ((product / UInt64.size : Nat) : Int) -
        ((u : Int) - carry - (product % UInt64.size : Nat)) / UInt64.size = (high + b : Nat) := by
  rw [UInt64.size] at *
  constructor <;> omega

/-- One limb of the multiply-subtract step: the low word of the difference in a signed double word
is the difference of the low words, and what is carried on is the high word and the borrow. -/
theorem difference_exact (q v u carry : Word) :
    let difference : Int :=
      u.toNat - carry.toNat - (q.toNat * v.toNat % UInt64.size : Nat)
    let product := Word.mulAdd q v 0 carry
    UInt64.ofInt difference = u - product.1 ∧
      ((q.toNat * v.toNat / UInt64.size : Nat) : Int) - difference / UInt64.size =
        (product.2 + (decide (u < product.1)).toUInt64).toNat := by
  intro difference product
  have hexact := Word.mulAdd_exact q v 0 carry
  rw [UInt64.toNat_zero, Nat.add_zero] at hexact
  obtain ⟨hlow, hhigh⟩ := difference_cut hexact (toNat_sub_add u product.1)
    (Word.toNat_lt (u - product.1))
  rw [toNat_high_add_borrow]
  exact ⟨ofInt_of_emod_eq hlow, hhigh⟩

/-- A limb less a carry does not overflow a signed double word. -/
theorem signed_sub (u carry : Word) :
    signed (u.toNat - carry.toNat) = some ((u.toNat : Int) - carry.toNat) := by
  have hu := UInt64.toNat_lt u
  have hcarry := UInt64.toNat_lt carry
  exact signed_of_lt (by omega)

/-- A limb less a carry and the low word of a product does not overflow a signed double word. -/
theorem signed_sub_sub (u carry : Word) (product : Nat) :
    signed (u.toNat - carry.toNat - (product % UInt64.size : Nat)) =
      some ((u.toNat : Int) - carry.toNat - (product % UInt64.size : Nat)) := by
  have hu := UInt64.toNat_lt u
  have hcarry := UInt64.toNat_lt carry
  have hcut : product % UInt64.size < UInt64.size := Nat.mod_lt _ (by decide)
  rw [UInt64.size] at *
  exact signed_of_lt (by omega)

/-- A limb does not overflow a signed double word. -/
theorem signed_toNat (w : Word) : signed w.toNat = some (w.toNat : Int) := by
  have hlt := UInt64.toNat_lt w
  exact signed_of_lt (by omega)

/-- The difference of a window's low limbs and the product is the one of `mulSub`, whatever the
window's top limb is. -/
theorem subtract_eq (q : Word) {j : Nat} (below vs above low us high : Limbs) (carry : Word)
    (hlow : low.length = below.length + j) (hlen : us.length = vs.length) :
    ∃ rest, ∃ last : Word,
      subtract q.toNat (below ++ (vs ++ above)) j vs.length below.length (low ++ (us ++ high))
          carry.toNat = some (low ++ (rest ++ high), (last.toNat : Int)) ∧
        rest.length = us.length ∧
        ∀ top, mulSub q (us ++ [top]) vs carry = ⟨rest ++ [top - last], top < last⟩ := by
  induction vs generalizing below low us carry with
  | nil =>
      obtain rfl := List.eq_nil_of_length_eq_zero hlen
      exact ⟨[], carry, rfl, rfl, fun top => rfl⟩
  | cons v vs ih =>
      obtain ⟨u, us, rfl⟩ := List.exists_cons_of_length_eq_add_one hlen
      obtain ⟨hword, hcarry⟩ := difference_exact q v u carry
      -- the word that replaces the limb, and what is carried into the next one
      obtain ⟨w, hw⟩ : ∃ w, w = u - (Word.mulAdd q v 0 carry).1 := ⟨_, rfl⟩
      obtain ⟨next, hnext⟩ : ∃ next, next = (Word.mulAdd q v 0 carry).2 +
        (decide (u < (Word.mulAdd q v 0 carry).1)).toUInt64 := ⟨_, rfl⟩
      rw [← hw] at hword
      rw [← hnext] at hcarry
      obtain ⟨rest, last, hrun, hrestlen, hmulSub⟩ := ih (below ++ [v]) (low ++ [w]) us next
        (by simp only [List.length_append, List.length_singleton, hlow]; omega)
        (Nat.succ.inj hlen)
      simp only [List.append_assoc, List.singleton_append, List.length_append,
        List.length_singleton] at hrun
      refine ⟨w :: rest, last, ?_, congrArg Nat.succ hrestlen, fun top => ?_⟩
      · rw [List.cons_append, List.cons_append, List.length_cons, subtract,
          bind_of_eq_some (getElem?_middle below _ v rfl),
          bind_of_eq_some (unsigned_of_lt (mul_lt q v)),
          bind_of_eq_some (getElem?_middle low _ u hlow), bind_of_eq_some (signed_sub u carry),
          bind_of_eq_some (signed_sub_sub u carry _),
          bind_of_eq_some (store_middle low _ u _ hlow), hword, hcarry,
          bind_of_eq_some (signed_toNat next), List.cons_append]
        exact hrun
      · simp only [List.cons_append, mulSub, ← hnext, ← hw, hmulSub top]

/-- Adding back does not look at limbs beyond the second list's. -/
theorem addBack_append (us vs rest : Limbs) (carry : Bool) (hlen : us.length = vs.length) :
    addBack (us ++ rest) vs carry = addBack us vs carry := by
  induction vs generalizing us carry with
  | nil => rw [addBack, addBack]
  | cons v vs ih =>
      obtain ⟨u, us, rfl⟩ := List.exists_cons_of_length_eq_add_one hlen
      simp only [List.cons_append, addBack, ih us _ (Nat.succ.inj hlen)]

/-- One limb of the add-back step: the sum in a double word is cut to the sum of the words and its
carry. -/
theorem sum_exact (u v : Word) (carry : Bool) :
    let sum := u.toNat + v.toNat + carry.toNat
    UInt64.ofNat sum = (Word.addCarry u v carry).1 ∧
      sum / UInt64.size = (Word.addCarry u v carry).2.toNat := by
  intro sum
  have hexact : _ = sum := Word.addCarry_exact u v carry
  have hlow := UInt64.toNat_lt (Word.addCarry u v carry).1
  constructor
  · rw [← UInt64.toNat_inj, UInt64.toNat_ofNat', ← hexact, UInt64.size, Nat.add_mul_mod_self_left,
      Nat.mod_eq_of_lt hlow]
  · rw [← hexact, UInt64.size, Nat.add_mul_div_left _ _ (by decide), Nat.div_eq_of_lt hlow,
      Nat.zero_add]

/-- The sum of a window's low limbs and the divisor is the one of `addBack`; it and the carry make
up the sum. -/
theorem addDivisor_eq {j : Nat} (below vs above low us high : Limbs) (carry : Bool)
    (hlow : low.length = below.length + j) (hlen : us.length = vs.length) :
    ∃ last : Bool,
      addDivisor (below ++ (vs ++ above)) j vs.length below.length (low ++ (us ++ high))
          carry.toNat = some (low ++ (addBack us vs carry ++ high), last.toNat) ∧
        value (addBack us vs carry) + UInt64.size ^ vs.length * last.toNat =
          value us + value vs + carry.toNat := by
  induction vs generalizing below low us carry with
  | nil =>
      obtain rfl := List.eq_nil_of_length_eq_zero hlen
      refine ⟨carry, rfl, ?_⟩
      rw [addBack, List.length_nil, Nat.pow_zero, Nat.one_mul, value_nil]
  | cons v vs ih =>
      obtain ⟨u, us, rfl⟩ := List.exists_cons_of_length_eq_add_one hlen
      obtain ⟨hword, hhigh⟩ := sum_exact u v carry
      have hexact := Word.addCarry_exact u v carry
      have hu := UInt64.toNat_lt u
      have hv := UInt64.toNat_lt v
      have hc := carry.toNat_lt
      obtain ⟨last, hrun, hvalue⟩ := ih (below ++ [v]) (low ++ [(Word.addCarry u v carry).1]) us
        (Word.addCarry u v carry).2
        (by simp only [List.length_append, List.length_singleton, hlow]; omega)
        (Nat.succ.inj hlen)
      simp only [List.append_assoc, List.singleton_append, List.length_append,
        List.length_singleton] at hrun
      refine ⟨last, ?_, ?_⟩
      · rw [List.cons_append, List.cons_append, List.length_cons, addDivisor,
          bind_of_eq_some (getElem?_middle low _ u hlow),
          bind_of_eq_some (getElem?_middle below _ v rfl),
          bind_of_eq_some (unsigned_of_lt (by omega)), bind_of_eq_some (unsigned_of_lt (by omega)),
          bind_of_eq_some (store_middle low _ u _ hlow), hword, hhigh, addBack, List.cons_append]
        exact hrun
      · rw [addBack, value_cons, value_cons, value_cons, List.length_cons, Nat.pow_succ]
        have hscaled := congrArg (UInt64.size * ·) hvalue
        linarith

/-! ### One limb of the quotient -/

/-- A list below the weight of its last limb ends in a zero. -/
theorem last_eq_zero {ws : Limbs} {w : Word} (h : value (ws ++ [w]) < UInt64.size ^ ws.length) :
    w = 0 := by
  rw [value_append, value_singleton] at h
  by_contra hne
  have hpos : 1 ≤ w.toNat := Nat.pos_of_ne_zero fun hzero => hne ((Word.toNat_eq_zero_iff w).mp hzero)
  have hmul := Nat.mul_le_mul_left (UInt64.size ^ ws.length) hpos
  omega

/-- When a list makes up, with an addend, one more than the weight beyond it, adding the addend to
its lower limbs carries its last limb round to zero. -/
theorem last_add_eq_zero {ws : Limbs} {w : Word} {sum addend : Nat} {carry : Bool}
    (hsum : sum < UInt64.size ^ ws.length)
    (hcarry : sum + UInt64.size ^ ws.length * carry.toNat = value ws + addend)
    (hle : UInt64.size ^ (ws.length + 1) ≤ value (ws ++ [w]) + addend) :
    w + UInt64.ofNat carry.toNat = 0 := by
  rw [value_append, value_singleton, Nat.pow_succ] at hle
  have hround : UInt64.size ≤ w.toNat + carry.toNat := by
    by_contra hlt
    have hmul := Nat.mul_le_mul_left (UInt64.size ^ ws.length)
      (Nat.succ_le_of_lt (Nat.lt_of_not_le hlt))
    rw [Nat.mul_succ, Nat.mul_add] at hmul
    omega
  have hw := UInt64.toNat_lt w
  have hc := carry.toNat_lt
  rw [← Word.toNat_eq_zero_iff, UInt64.toNat_add, UInt64.toNat_ofNat']
  rw [UInt64.size] at hround
  omega

/-- With the quotient limb or one more, the multiply-subtract step leaves less than the divisor when
it does not borrow, and otherwise ends no more than the divisor below zero. -/
theorem mulSub_of_estimate {window d : Limbs} {q : Word} (hd : Divisor d) (hw : Window window d)
    (hlow : value window / value d ≤ q.toNat) (hupper : q.toNat ≤ value window / value d + 1) :
    ((mulSub q window d 0).borrow = false → value (mulSub q window d 0).limbs < value d) ∧
      ((mulSub q window d 0).borrow = true →
        UInt64.size ^ (d.length + 1) ≤ value (mulSub q window d 0).limbs + value d) := by
  obtain ⟨hvalue, -⟩ := value_mulSub q window d 0 hw.length_eq
  have hdm := Nat.div_add_mod' (value window) (value d)
  have hmod := Nat.mod_lt (value window) hd.value_pos
  rw [UInt64.toNat_zero, Nat.add_zero] at hvalue
  refine ⟨fun hborrow => ?_, fun hborrow => ?_⟩
  · have hmul := Nat.mul_le_mul_right (value d) hlow
    rw [hborrow, Bool.toNat_false, Nat.mul_zero, Nat.add_zero] at hvalue
    omega
  · have hmul := Nat.mul_le_mul_right (value d) hupper
    rw [Nat.succ_mul] at hmul
    rw [hborrow, Bool.toNat_true, Nat.mul_one, hw.length_eq] at hvalue
    omega

/-- An estimate that fits a limb and is the quotient limb or one more. -/
def Accurate (estimate : Nat) (q : Word) : Prop :=
  estimate < UInt64.size ∧ q.toNat ≤ estimate ∧ estimate ≤ q.toNat + 1

/-- The estimate for a window is found. -/
theorem estimateAt_eq {window d : Limbs} (hd : Divisor d) (hw : Window window d)
    (above low high : Limbs) :
    estimateAt (d ++ above) d.length low.length (low ++ (window ++ high)) =
      some (estimate (window.get d.length) (window.get (d.length - 1))
        (window.get (d.length - 2)) (d.get (d.length - 1)) (d.get (d.length - 2))).toNat := by
  have htwo := hd.two_le
  have hread : ∀ i, i < d.length + 1 →
      (low ++ (window ++ high))[low.length + i]? = some (window.get i) := by
    intro i hi
    rw [← List.append_assoc]
    exact getElem?_segment low window high (hi.trans_eq hw.length_eq.symm)
  have hreadDivisor : ∀ i, i < d.length → (d ++ above)[i]? = some (d.get i) := by
    intro i hi
    rw [List.getElem?_append_left hi, getElem?_eq_get d hi]
  rw [estimateAt, bind_of_eq_some (hread d.length (Nat.lt_succ_self _)),
    Nat.add_sub_assoc (by omega), bind_of_eq_some (hread (d.length - 1) (by omega)),
    Nat.add_sub_assoc htwo, bind_of_eq_some (hread (d.length - 2) (by omega)),
    bind_of_eq_some (hreadDivisor (d.length - 1) (by omega)),
    bind_of_eq_some (hreadDivisor (d.length - 2) (by omega))]
  exact estimateLimb_eq hd.top_ne_zero (hw.high_lt hd) _ _

/-- A difference that went below zero by no more than the divisor is restored to a remainder below a
zero. -/
theorem restore_eq {rest d : Limbs} {w : Word} (hlen : rest.length = d.length)
    (hshort : UInt64.size ^ (d.length + 1) ≤ value (rest ++ [w]) + value d)
    (above low high : Limbs) :
    restore (d ++ above) d.length low.length (low ++ (rest ++ w :: high)) =
      some (low ++ (addBack rest d false ++ 0 :: high)) := by
  obtain ⟨carry, hadd, hcarry⟩ :=
    addDivisor_eq [] d above low rest (w :: high) false (Nat.zero_add _).symm hlen
  rw [List.nil_append, List.length_nil, Bool.toNat_false] at hadd
  obtain ⟨-, hbacklen⟩ := value_addBack rest d false
  have hsum := value_lt (addBack rest d false)
  rw [hbacklen, ← hlen] at hsum
  rw [← hlen, Bool.toNat_false, Nat.add_zero] at hcarry
  have hzero := last_add_eq_zero hsum hcarry (hlen ▸ hshort)
  rw [restore, bind_of_eq_some hadd]
  simp only
  rw [bind_of_eq_some (getElem?_above low _ high w hbacklen), store_above low _ high w _ hbacklen,
    hzero]

/-- One limb of the quotient is found in place, and the window is left with the remainder below a
zero. -/
theorem findLimb_eq {window d : Limbs} (hd : Divisor d) (hw : Window window d)
    (above low high : Limbs) {zeros : Limbs} (z : Word) (found : Limbs) (estimates : List Nat)
    (hlen : zeros.length = low.length) :
    ∃ e, Accurate e (divStep window d).1 ∧
      findLimb (d ++ above) d.length low.length
          ⟨low ++ (window ++ high), zeros ++ z :: found, estimates⟩ =
        some ⟨low ++ ((divStep window d).2 ++ 0 :: high), zeros ++ (divStep window d).1 :: found,
          e :: estimates⟩ := by
  have hestimate := estimateAt_eq hd hw above low high
  obtain ⟨hlow, hupper⟩ := estimate_window hd hw
  generalize hq : estimate (window.get d.length) (window.get (d.length - 1))
    (window.get (d.length - 2)) (d.get (d.length - 1)) (d.get (d.length - 2)) = q
    at hestimate hlow hupper
  obtain ⟨hfits, hshort⟩ := mulSub_of_estimate hd hw hlow hupper
  -- the window's top limb, and what the difference of the others borrows from it
  obtain ⟨us, top, hsplit, huslen⟩ := exists_concat_of_length hw.length_eq
  obtain ⟨rest, last, hsubtract, hrestlen, hmulSub⟩ :=
    subtract_eq q [] d above low us (top :: high) 0 (Nat.zero_add _).symm huslen
  rw [huslen] at hrestlen
  rw [List.nil_append, List.length_nil, UInt64.toNat_zero, Nat.cast_zero] at hsubtract
  rw [hsplit, hmulSub top] at hfits hshort
  have hstep : divStep window d =
      if top < last then (q - 1, addBack rest d false) else (q, rest) := by
    simp only [divStep, hq]
    rw [hsplit, hmulSub top]
    simp only [addBack_append rest d _ _ hrestlen, decide_eq_true_eq, List.take_left' hrestlen]
  rw [← (divStep_spec hd hw).1] at hlow hupper
  refine ⟨q.toNat, ⟨Word.toNat_lt q, hlow, hupper⟩, ?_⟩
  simp only [findLimb]
  rw [bind_of_eq_some hestimate, hsplit, List.append_assoc, List.singleton_append,
    bind_of_eq_some hsubtract]
  simp only
  rw [bind_of_eq_some (getElem?_above low rest high top hrestlen),
    bind_of_eq_some (signed_sub top last), ofInt_sub,
    bind_of_eq_some (store_above low rest high top (top - last) hrestlen), UInt64.ofNat_toNat,
    bind_of_eq_some (store_middle zeros found z q hlen), ← hsplit, hstep]
  by_cases hborrow : top < last
  · have hnegative : (top.toNat : Int) - last.toNat < 0 := by
      have := UInt64.lt_iff_toNat_lt.mp hborrow
      omega
    have hrestore := restore_eq hrestlen (hshort (decide_eq_true hborrow)) above low high
    rw [if_pos hnegative, bind_of_eq_some (store_middle zeros found q (q - 1) hlen),
      bind_of_eq_some hrestore, if_pos hborrow]
    rfl
  · have hnonneg : ¬(top.toNat : Int) - last.toNat < 0 := by
      have := mt UInt64.lt_iff_toNat_lt.mpr hborrow
      omega
    have hzero := last_eq_zero (hrestlen ▸ (hfits (decide_eq_false hborrow)).trans (value_lt d))
    rw [if_neg hnonneg, if_neg hborrow, hzero]
    rfl

/-! ### Whole divisions -/

/-- A long division begins with the highest of the limbs below the initial remainder. -/
theorem divLimbs_concat (d ws : Limbs) (w : Word) (rest : Limbs) :
    divLimbs d (ws ++ [w]) rest =
      let first := divStep (w :: rest) d
      let below := divLimbs d ws first.2
      ⟨below.quotient ++ [first.1], below.remainder⟩ := by
  induction ws with
  | nil => rfl
  | cons v ws ih =>
      rw [List.cons_append, divLimbs, ih]
      rfl

/-- The limbs of the quotient are found in place from the highest down, each step leaving a zero
above the remainder. -/
theorem findLimbs_eq {d : Limbs} (hd : Divisor d) (above ws : Limbs) {rest : Limbs} (high : Limbs)
    (zeros found : Limbs) (estimates : List Nat) (hlen : rest.length = d.length)
    (hlt : value rest < value d) (hzeros : zeros.length = ws.length) :
    ∃ es, List.Forall₂ Accurate es (divLimbs d ws rest).quotient ∧
      findLimbs (d ++ above) d.length ws.length
          ⟨ws ++ (rest ++ high), zeros ++ found, estimates⟩ =
        some ⟨(divLimbs d ws rest).remainder ++ (List.replicate ws.length 0 ++ high),
          (divLimbs d ws rest).quotient ++ found, es ++ estimates⟩ := by
  induction ws using List.reverseRecOn generalizing rest high zeros found estimates with
  | nil =>
      obtain rfl := List.eq_nil_of_length_eq_zero hzeros
      exact ⟨[], .nil, rfl⟩
  | append_singleton ws w ih =>
      obtain ⟨zeros, z, rfl, hlower⟩ := exists_concat_of_length (hzeros.trans List.length_append)
      have hw := window_cons w hlen hlt
      obtain ⟨-, hremainder, hremlen⟩ := divStep_spec hd hw
      obtain ⟨e, haccurate, hfind⟩ := findLimb_eq hd hw above ws high z found estimates hlower
      obtain ⟨es, hes, hrun⟩ := ih (0 :: high) zeros ((divStep (w :: rest) d).1 :: found)
        (e :: estimates) hremlen (hremainder ▸ Nat.mod_lt _ hd.value_pos) hlower
      refine ⟨es ++ [e], ?_, ?_⟩
      · rw [divLimbs_concat]
        exact List.rel_append hes (.cons haccurate .nil)
      · rw [divLimbs_concat, List.length_append, List.length_singleton, List.append_assoc,
          List.append_assoc, List.singleton_append, List.singleton_append, findLimbs]
        rw [List.cons_append] at hfind
        rw [bind_of_eq_some hfind, hrun, List.replicate_succ', List.append_assoc, List.append_assoc,
          List.append_assoc]
        rfl

/-- Above the limbs of a list that is shifted left comes what its highest limb spills. -/
theorem shiftLeftBits_concat (shift : Nat) (ws : Limbs) (w carry : Word) :
    shiftLeftBits shift (ws ++ [w]) carry =
      (shiftLeftBits shift (ws ++ [w]) carry).take (ws.length + 1) ++ [w.spill shift] := by
  induction ws generalizing carry with
  | nil => rfl
  | cons v ws ih => exact congrArg (List.cons _) (ih _)

/-- Shifting right keeps the number of limbs. -/
theorem length_shiftRightBits (count : Nat) (ws : Limbs) :
    (shiftRightBits count ws).length = ws.length := by
  fun_induction shiftRightBits count ws with
  | case1 => rfl
  | case2 w => rfl
  | case3 w v ws ih => exact congrArg Nat.succ ih

/-- The limbs of a list are scaled into an array. -/
theorem fill_scaled {shift : Nat} (hshift : shift < 64) (ws xs : Limbs)
    (hlen : ws.length ≤ xs.length) :
    fill (scaledLimb shift ws) ws.length xs =
      some ((shiftLeftBits shift ws 0).take ws.length ++ xs.drop ws.length) := by
  have htake : ((shiftLeftBits shift ws 0).take ws.length).length = ws.length := by
    rw [List.length_take, length_shiftLeftBits]
    exact Nat.min_eq_left (Nat.le_succ _)
  have hlimb : ∀ i < ((shiftLeftBits shift ws 0).take ws.length).length,
      scaledLimb shift ws i = some (Limbs.get ((shiftLeftBits shift ws 0).take ws.length) i) := by
    intro i hi
    rw [htake] at hi
    rw [scaledLimb_eq hshift ws hi, Limbs.get, Limbs.get, List.getD_eq_getElem?_getD,
      List.getD_eq_getElem?_getD, List.getElem?_take_of_lt hi]
  have hfill := fill_eq _ xs hlimb (htake.trans_le hlen)
  rwa [htake] at hfill

/-- What the highest limb spills. -/
theorem spilledLimb_eq {shift : Nat} (hshift : shift < 64) (ws : Limbs) (w : Word) :
    spilledLimb shift (ws ++ [w]) = some (w.spill shift) := by
  rw [spilledLimb, Word.spill]
  by_cases hzero : shift = 0
  · rw [if_pos hzero, if_pos hzero]
  · rw [if_neg hzero, if_neg hzero, List.length_append, List.length_singleton, Nat.add_sub_cancel,
      bind_of_eq_some (getElem?_middle ws [] w rfl), shiftRight, if_pos (by omega)]

/-- The array of the dividend holds it and what it spills. -/
theorem scaledDividend_eq {shift : Nat} (hshift : shift < 64) {a : Limbs} (hne : a ≠ [])
    (hlen : a.length ≤ scratchLimbs) :
    ∃ high, scaledDividend shift a = some (shiftLeftBits shift a 0 ++ high) := by
  obtain ⟨ws, w, rfl⟩ := (List.eq_nil_or_concat' a).resolve_left hne
  have hlast : (ws ++ [w]).length = ws.length + 1 := by simp
  rw [hlast] at hlen
  obtain ⟨room, hstore⟩ := store_replicate (Nat.lt_succ_of_le hlen) (w.spill shift)
  have hlow : (List.replicate (ws.length + 1) (0 : Word)).length = ws.length + 1 :=
    List.length_replicate
  have hfill := fill_scaled hshift (ws ++ [w])
    (List.replicate (ws.length + 1) 0 ++ w.spill shift :: List.replicate room 0)
    (by rw [hlast, List.length_append, hlow]; exact Nat.le_add_right _ _)
  rw [hlast, List.drop_left' hlow] at hfill
  refine ⟨List.replicate room 0, ?_⟩
  rw [scaledDividend, hlast, bind_of_eq_some (spilledLimb_eq hshift ws w), bind_of_eq_some hstore,
    hfill]
  conv_rhs => rw [shiftLeftBits_concat, List.append_assoc, List.singleton_append]

/-- The remainder is scaled back into its array. -/
theorem fill_remainder {shift n : Nat} (hshift : shift < 64) {ws : Limbs} (high : Limbs)
    (h : ws.length = n) :
    fill (unscaledLimb shift (ws ++ 0 :: high)) n (List.replicate n 0) =
      some (shiftRightBits shift ws) := by
  subst h
  have hlen := length_shiftRightBits shift ws
  have hfill := fill_eq (shiftRightBits shift ws) (List.replicate ws.length 0)
    (fun i hi => unscaledLimb_eq hshift ws high (hi.trans_eq hlen))
    (by rw [hlen, List.length_replicate])
  rwa [hlen, List.drop_eq_nil_of_le List.length_replicate.le, List.append_nil] at hfill

/-- The division by a single limb is carried out. -/
theorem divide_one {a : Limbs} {w : Word} (hw : w ≠ 0) (hlen : 1 ≤ a.length)
    (ha : a.length ≤ scratchLimbs) : divide a [w] = some ⟨[], div a [w]⟩ := by
  have hdivide := divideByLimb_eq hw a [] (List.replicate a.length 0) List.length_replicate
  rw [List.append_nil, divWord, List.append_nil, UInt64.toNat_zero] at hdivide
  simp only [divide, List.length_singleton]
  rw [if_neg (Nat.not_lt.mpr hlen), Nat.sub_add_cancel hlen, bind_of_eq_some (array_of_le ha),
    bind_of_eq_some (array_of_le (hlen.trans ha)), if_true,
    bind_of_eq_some (List.getElem?_cons_zero (a := w)), bind_of_eq_some hdivide]
  simp only
  rw [UInt64.ofNat_toNat]
  exact bind_of_eq_some (store_middle [] [] 0 (divWord w a).2 rfl) _

/-- Division by two or more limbs scales both operands. -/
theorem div_of_two_le {a d : Limbs} (h : 2 ≤ d.length) :
    div a d =
      let shift := (d.get (d.length - 1)).leadingZeros
      let k := a.length + 1 - d.length
      let result := divLimbs ((shiftLeftBits shift d 0).take d.length)
        ((shiftLeftBits shift a 0).take k) ((shiftLeftBits shift a 0).drop k)
      ⟨result.quotient, shiftRightBits shift result.remainder⟩ := by
  match d, h with
  | v :: w :: ws, _ => rfl

/-- The division by two or more limbs is carried out, and the loop that lowers the estimates leaves
each of them exact or one too large. -/
theorem divide_divisor {a d : Limbs} (hd : Divisor d) (hlen : d.length ≤ a.length)
    (ha : a.length ≤ scratchLimbs) :
    ∃ estimates, divide a d = some ⟨estimates, div a d⟩ ∧
      List.Forall₂ Accurate estimates (div a d).quotient := by
  have htwo := hd.two_le
  have hdlen := hlen.trans ha
  have hdiv := div_of_two_le (a := a) htwo
  dsimp only at hdiv
  obtain ⟨hs, hroom⟩ := leadingZeros_spec hd.top_ne_zero
  obtain ⟨hdivisor, hscaledLen, hscaled⟩ := scaled_divisor hd hs hroom
  have hrest := (scaled_rest_lt hd hs hlen).trans_eq hdivisor.symm
  generalize hshift : (d.get (d.length - 1)).leadingZeros = shift
    at hdiv hs hscaledLen hscaled hrest
  generalize hk : a.length + 1 - d.length = k at hdiv hrest
  have hdividendLen := length_shiftLeftBits shift a 0
  have hlow : ((shiftLeftBits shift a 0).take k).length = k := by
    rw [List.length_take, hdividendLen]
    omega
  have hrestLen : ((shiftLeftBits shift a 0).drop k).length =
      ((shiftLeftBits shift d 0).take d.length).length := by
    rw [List.length_drop, hdividendLen, hscaledLen]
    omega
  obtain ⟨high, hdividend⟩ := scaledDividend_eq hs (List.ne_nil_of_length_pos (by omega)) ha
  obtain ⟨estimates, haccurate, hfind⟩ := findLimbs_eq hscaled
    ((List.replicate scratchLimbs 0).drop d.length) ((shiftLeftBits shift a 0).take k) high
    (List.replicate k 0) [] [] hrestLen hrest (by rw [hlow, List.length_replicate])
  rw [hlow, hscaledLen, ← List.append_assoc, List.take_append_drop, List.append_nil,
    List.append_nil, List.append_nil] at hfind
  have hremainderLen := (divLimbs_spec hscaled hrestLen hrest
    ((shiftLeftBits shift a 0).take k)).2.2
  rw [hscaledLen] at hremainderLen
  generalize divLimbs ((shiftLeftBits shift d 0).take d.length) ((shiftLeftBits shift a 0).take k)
    ((shiftLeftBits shift a 0).drop k) = result at hdiv haccurate hfind hremainderLen
  refine ⟨estimates, ?_, by rw [hdiv]; exact haccurate⟩
  have hquotient : a.length - d.length + 1 = k := by omega
  simp only [divide, hquotient]
  rw [if_neg (Nat.not_lt.mpr hlen), bind_of_eq_some (array_of_le (by omega)),
    bind_of_eq_some (array_of_le hdlen), if_neg (by omega),
    bind_of_eq_some (getElem?_eq_get d (by omega)), hshift,
    bind_of_eq_some (fill_scaled hs d _ (by rwa [List.length_replicate])),
    bind_of_eq_some hdividend, bind_of_eq_some hfind]
  simp only
  -- the first of the zeros that the steps left is the limb above the remainder
  rw [show k = k - 1 + 1 by omega, List.replicate_succ, List.cons_append,
    bind_of_eq_some (fill_remainder hs _ hremainderLen), hdiv]
  rfl

/-- Within the scratch area, no access of a division is out of bounds and no intermediate overflows;
the division is `Limbs.div`, and the loop that lowers the estimates leaves each of them exact or one
too large. -/
theorem divide_eq {a d : Limbs} (hne : d ≠ []) (htop : d.get (d.length - 1) ≠ 0)
    (hlen : d.length ≤ a.length) (ha : a.length ≤ scratchLimbs) :
    ∃ run, divide a d = some run ∧ run.division = div a d ∧
      (2 ≤ d.length → List.Forall₂ Accurate run.estimates run.division.quotient) := by
  match d, hne with
  | [w], _ =>
      exact ⟨_, divide_one htop hlen ha, rfl, fun h => absurd h (by simp)⟩
  | v :: w :: ws, _ =>
      obtain ⟨estimates, hrun, haccurate⟩ :=
        divide_divisor ⟨Nat.le_add_left 2 _, htop⟩ hlen ha
      exact ⟨_, hrun, rfl, fun _ => haccurate⟩

end TrustedPlatform.Limbs.Scratch
