import TrustedPlatform.Proofs.Arithmetic.Lawful

/-!
# Arithmetic in buffers agrees with exact arithmetic

A `Request` is one call of an operation of `Arithmetic`, derived ones included, and
`Request.answer` is its outcome. The main statement, `answer_agrees`, compares the two arithmetics
on one request: values are the same, refusals other than for room are alike, and there is room
whenever the operands have at most 64 limbs and a left shift stays within the scratch area.
-/

namespace TrustedPlatform

/-- A call of an operation with its arguments. -/
inductive Request (α : Type) where
  | ofBytes (bytes : Bytes)
  | ofWord (w : Word)
  | toBytes (a : α)
  | toBytesPadded (a : α) (width : Nat)
  | isZero (a : α)
  | bitLength (a : α)
  | testBit (a : α) (bit : Nat)
  | compare (a b : α)
  | add (a b : α)
  | sub (a b : α)
  | mul (a b : α)
  | divRem (a d : α)
  | modWord (a : α) (w : Word)
  | shiftLeft (a : α) (bits : Nat)
  | shiftRight (a : α) (bits : Nat)
  | modMul (a b m : α)
  | modInverse (a m : α)
  | gcd (a b : α)
  | modPow (base e m : α)
  | reduce (a m : α)
  | modAdd (a b m : α)
  | modSub (a b m : α)
  | maskBits (a : α) (bits : Nat)
  | eqWord (a : α) (w : Word)

/-- What a call returns. -/
inductive Answer (α : Type) where
  | number (x : α)
  | inverse (x : Option α)
  | division (q r : α)
  | word (w : Word)
  | bytes (bytes : Bytes)
  | count (n : Nat)
  | flag (b : Bool)
  | order (o : Ordering)
  deriving DecidableEq

namespace Answer

variable {α β : Type}

/-- The answer with each of its numbers replaced. -/
def map (f : α → β) : Answer α → Answer β
  | number x => number (f x)
  | inverse x => inverse (x.map f)
  | division q r => division (f q) (f r)
  | word w => word w
  | bytes b => bytes b
  | count n => count n
  | flag b => flag b
  | order o => order o

/-- The numbers in an answer. -/
def numbers : Answer α → List α
  | number x => [x]
  | inverse x => x.toList
  | division q r => [q, r]
  | _ => []

end Answer

namespace Request

variable {α β : Type}

/-- The numbers among the arguments of a call. -/
def operands : Request α → List α
  | ofBytes _ | ofWord _ => []
  | toBytes a | toBytesPadded a _ | isZero a | bitLength a | testBit a _ => [a]
  | modWord a _ | shiftLeft a _ | shiftRight a _ | maskBits a _ | eqWord a _ => [a]
  | compare a b | add a b | sub a b | mul a b | gcd a b => [a, b]
  | divRem a d => [a, d]
  | modInverse a m | reduce a m => [a, m]
  | modMul a b m | modAdd a b m | modSub a b m => [a, b, m]
  | modPow base e m => [base, e, m]

/-- The call with each of its operands replaced. -/
def map (f : α → β) : Request α → Request β
  | ofBytes bytes => ofBytes bytes
  | ofWord w => ofWord w
  | toBytes a => toBytes (f a)
  | toBytesPadded a width => toBytesPadded (f a) width
  | isZero a => isZero (f a)
  | bitLength a => bitLength (f a)
  | testBit a bit => testBit (f a) bit
  | compare a b => compare (f a) (f b)
  | add a b => add (f a) (f b)
  | sub a b => sub (f a) (f b)
  | mul a b => mul (f a) (f b)
  | divRem a d => divRem (f a) (f d)
  | modWord a w => modWord (f a) w
  | shiftLeft a bits => shiftLeft (f a) bits
  | shiftRight a bits => shiftRight (f a) bits
  | modMul a b m => modMul (f a) (f b) (f m)
  | modInverse a m => modInverse (f a) (f m)
  | gcd a b => gcd (f a) (f b)
  | modPow base e m => modPow (f base) (f e) (f m)
  | reduce a m => reduce (f a) (f m)
  | modAdd a b m => modAdd (f a) (f b) (f m)
  | modSub a b m => modSub (f a) (f b) (f m)
  | maskBits a bits => maskBits (f a) bits
  | eqWord a w => eqWord (f a) w

/-- The outcome of a call. -/
def answer [Arithmetic α] : Request α → Checked (Answer α)
  | ofBytes bytes => .ok (.number (Arithmetic.ofBytes bytes))
  | ofWord w => .ok (.number (Arithmetic.ofWord w))
  | toBytes a => .ok (.bytes (Arithmetic.toBytes a))
  | toBytesPadded a width => .bytes <$> Arithmetic.toBytesPadded a width
  | isZero a => .ok (.flag (Arithmetic.isZero a))
  | bitLength a => .ok (.count (Arithmetic.bitLength a))
  | testBit a bit => .ok (.flag (Arithmetic.testBit a bit))
  | compare a b => .ok (.order (Arithmetic.compare a b))
  | add a b => .number <$> Arithmetic.add a b
  | sub a b => .number <$> Arithmetic.sub a b
  | mul a b => .number <$> Arithmetic.mul a b
  | divRem a d => (fun p => .division p.1 p.2) <$> Arithmetic.divRem a d
  | modWord a w => .word <$> Arithmetic.modWord a w
  | shiftLeft a bits => .number <$> Arithmetic.shiftLeft a bits
  | shiftRight a bits => .number <$> Arithmetic.shiftRight a bits
  | modMul a b m => .number <$> Arithmetic.modMul a b m
  | modInverse a m => .inverse <$> Arithmetic.modInverse a m
  | gcd a b => .number <$> Arithmetic.gcd a b
  | modPow base e m => .number <$> Arithmetic.modPow base e m
  | reduce a m => .number <$> Arithmetic.reduce a m
  | modAdd a b m => .number <$> Arithmetic.modAdd a b m
  | modSub a b m => .number <$> Arithmetic.modSub a b m
  | maskBits a bits => .number <$> Arithmetic.maskBits a bits
  | eqWord a w => .ok (.flag (Arithmetic.eqWord a w))

/-- A left shift keeps its result within the scratch area. -/
def ShiftFits : Request FixedNat → Prop
  | shiftLeft a bits => a.size + bits / 64 + 1 ≤ FixedNat.scratchLimbs
  | _ => True

/-- The room that suffices for a call: operands of at most 64 limbs, and a left shift that fits. -/
structure Room (r : Request FixedNat) : Prop where
  size_le : ∀ a ∈ r.operands, a.size ≤ 64
  shiftFits : r.ShiftFits

/-- An answer in buffers that gives the exact one: its buffers are well formed and hold the exact
numbers. -/
structure Gives (x : Answer FixedNat) (y : Answer Nat) : Prop where
  wellFormed : ∀ a ∈ x.numbers, a.WellFormed
  map_value : x.map FixedNat.value = y

end Request

namespace Agreement

open LawfulArithmetic
open Request (Gives)

variable {room : Prop}

/-! ### One operation at a time -/

/-- A number in a buffer gives the exact number. -/
theorem gives_number {x : FixedNat} {n : Nat} (h : x.Denotes n) :
    Gives (.number x) (.number n) :=
  ⟨fun _ ha => List.mem_singleton.mp ha ▸ h.wellFormed, congrArg Answer.number h.value_eq⟩

/-- An answer without numbers gives itself. -/
theorem gives_of_eq {x : Answer FixedNat} {y : Answer Nat} (hnumbers : x.numbers = [])
    (h : x.map FixedNat.value = y) : Gives x y :=
  ⟨fun _ ha => absurd (hnumbers ▸ ha) List.not_mem_nil, h⟩

/-- An operation that returns a number. -/
theorem number_refines {x : Checked FixedNat} {y : Checked Nat}
    (h : Refines room FixedNat.Denotes x y) :
    Refines room Gives (Answer.number <$> x) (Answer.number <$> y) :=
  h.map fun _ _ => gives_number

/-- An inverse in a buffer gives the exact one. -/
theorem gives_inverse {x : Option FixedNat} {n : Option Nat} (h : Option.Rel FixedNat.Denotes x n) :
    Gives (.inverse x) (.inverse n) := by
  cases h with
  | none => exact gives_of_eq rfl rfl
  | some h =>
      refine ⟨fun _ ha => ?_, congrArg (Answer.inverse ∘ some) h.value_eq⟩
      exact List.mem_singleton.mp ha ▸ h.wellFormed

/-- Buffers of a division give the exact quotient and remainder. -/
theorem gives_division {p : FixedNat × FixedNat} {q : Nat × Nat}
    (h : p.1.Denotes q.1 ∧ p.2.Denotes q.2) : Gives (.division p.1 p.2) (.division q.1 q.2) := by
  refine ⟨fun a ha => ?_, congrArg₂ Answer.division h.1.value_eq h.2.value_eq⟩
  rcases List.mem_pair.mp ha with rfl | rfl
  · exact h.1.wellFormed
  · exact h.2.wellFormed

/-- The call in buffers refines the exact call on the same numbers. -/
theorem answer_refines (r : Request FixedNat) (h : ∀ a ∈ r.operands, a.WellFormed) :
    Refines r.Room Gives r.answer (r.map FixedNat.value).answer := by
  have hscratch : FixedNat.scratchLimbs = 130 := rfl
  have hop : ∀ a ∈ r.operands, a.Denotes a.value ∧ (r.Room → Limbs.count a.value ≤ 64) :=
    fun a ha => ⟨.of_wellFormed (h a ha), fun hroom => (h a ha).size_eq ▸ hroom.size_le a ha⟩
  cases r with
  | ofBytes bytes =>
      have hx : (FixedNat.ofBytes bytes).Denotes (Bytes.toNat bytes) :=
        ofBytes (α := FixedNat) bytes
      exact .ok (gives_number hx)
  | ofWord w =>
      have hx : (FixedNat.ofWord w 1).Denotes w.toNat := ofWord (α := FixedNat) w
      exact .ok (gives_number hx)
  | toBytes a =>
      obtain ⟨ha, -⟩ := hop a (.head _)
      exact .ok (gives_of_eq rfl (congrArg Answer.bytes (toBytes ha)))
  | toBytesPadded a width =>
      obtain ⟨ha, -⟩ := hop a (.head _)
      refine ((toBytesPadded ha width).under fun _ => trivial).map fun v w hvw => ?_
      exact gives_of_eq rfl (congrArg Answer.bytes hvw)
  | isZero a =>
      obtain ⟨ha, -⟩ := hop a (.head _)
      exact .ok (gives_of_eq rfl (congrArg Answer.flag (isZero ha)))
  | bitLength a =>
      obtain ⟨ha, -⟩ := hop a (.head _)
      exact .ok (gives_of_eq rfl
        (congrArg Answer.count ((bitLength ha).trans (exact_bitLength _).symm)))
  | testBit a bit =>
      obtain ⟨ha, -⟩ := hop a (.head _)
      exact .ok (gives_of_eq rfl (congrArg Answer.flag (testBit ha bit)))
  | eqWord a w =>
      obtain ⟨ha, -⟩ := hop a (.head _)
      exact .ok (gives_of_eq rfl (congrArg Answer.flag (eqWord ha w)))
  | compare a b =>
      obtain ⟨ha, -⟩ := hop a (.head _)
      obtain ⟨hb, -⟩ := hop b (.tail _ (.head _))
      exact .ok (gives_of_eq rfl (congrArg Answer.order (compare ha hb)))
  | add a b =>
      obtain ⟨ha, ca⟩ := hop a (.head _)
      obtain ⟨hb, cb⟩ := hop b (.tail _ (.head _))
      exact number_refines ((add ha hb).under fun hr => by have := ca hr; have := cb hr; omega)
  | sub a b =>
      obtain ⟨ha, ca⟩ := hop a (.head _)
      obtain ⟨hb, -⟩ := hop b (.tail _ (.head _))
      exact number_refines ((sub ha hb).under fun hr => by have := ca hr; omega)
  | mul a b =>
      obtain ⟨ha, ca⟩ := hop a (.head _)
      obtain ⟨hb, cb⟩ := hop b (.tail _ (.head _))
      exact number_refines ((mul ha hb).under fun hr => by have := ca hr; have := cb hr; omega)
  | divRem a d =>
      obtain ⟨ha, ca⟩ := hop a (.head _)
      obtain ⟨hd, cd⟩ := hop d (.tail _ (.head _))
      refine ((divRem ha hd).under fun hr => ?_).map fun _ _ => gives_division
      have := ca hr
      have := cd hr
      omega
  | modWord a w =>
      obtain ⟨ha, -⟩ := hop a (.head _)
      refine ((modWord ha w).under fun _ => trivial).map fun v w hvw => ?_
      exact gives_of_eq rfl (congrArg Answer.word hvw)
  | shiftLeft a bits =>
      obtain ⟨ha, -⟩ := hop a (.head _)
      refine number_refines ((shiftLeft ha bits).under fun hr => .inr ?_)
      rw [← (h a (.head _)).size_eq]
      exact hr.shiftFits
  | shiftRight a bits =>
      obtain ⟨ha, ca⟩ := hop a (.head _)
      exact number_refines ((shiftRight ha bits).under fun hr => by have := ca hr; omega)
  | maskBits a bits =>
      obtain ⟨ha, ca⟩ := hop a (.head _)
      exact number_refines ((maskBits ha bits).under fun hr => by have := ca hr; omega)
  | modMul a b m =>
      obtain ⟨ha, ca⟩ := hop a (.head _)
      obtain ⟨hb, cb⟩ := hop b (.tail _ (.head _))
      obtain ⟨hm, -⟩ := hop m (.tail _ (.tail _ (.head _)))
      exact number_refines ((modMul ha hb hm).under fun hr => by
        have := ca hr; have := cb hr; omega)
  | modInverse a m =>
      obtain ⟨ha, ca⟩ := hop a (.head _)
      obtain ⟨hm, cm⟩ := hop m (.tail _ (.head _))
      refine ((modInverse ha hm).under fun hr => ?_).map fun _ _ => gives_inverse
      have := ca hr
      have := cm hr
      omega
  | gcd a b =>
      obtain ⟨ha, ca⟩ := hop a (.head _)
      obtain ⟨hb, cb⟩ := hop b (.tail _ (.head _))
      exact number_refines ((LawfulArithmetic.gcd ha hb).under fun hr => by
        have := ca hr; have := cb hr; omega)
  | modPow base e m =>
      obtain ⟨hbase, cb⟩ := hop base (.head _)
      obtain ⟨he, -⟩ := hop e (.tail _ (.head _))
      obtain ⟨hm, cm⟩ := hop m (.tail _ (.tail _ (.head _)))
      exact number_refines ((modPow hbase he hm).under fun hr => by
        have := cb hr; have := cm hr; omega)
  | reduce a m =>
      obtain ⟨ha, ca⟩ := hop a (.head _)
      obtain ⟨hm, cm⟩ := hop m (.tail _ (.head _))
      exact number_refines ((reduce ha hm).under fun hr => by have := ca hr; have := cm hr; omega)
  | modAdd a b m =>
      obtain ⟨ha, ca⟩ := hop a (.head _)
      obtain ⟨hb, cb⟩ := hop b (.tail _ (.head _))
      obtain ⟨hm, cm⟩ := hop m (.tail _ (.tail _ (.head _)))
      exact number_refines ((modAdd ha hb hm).under fun hr => by
        have := ca hr; have := cb hr; have := cm hr; omega)
  | modSub a b m =>
      obtain ⟨ha, ca⟩ := hop a (.head _)
      obtain ⟨hb, cb⟩ := hop b (.tail _ (.head _))
      obtain ⟨hm, cm⟩ := hop m (.tail _ (.tail _ (.head _)))
      exact number_refines ((modSub ha hb hm).under fun hr => by
        have := ca hr; have := cb hr; have := cm hr; omega)

/-! ### All operations -/

/-- A value mapped is not a refusal. -/
theorem map_unlessZero_ne {β γ : Type} (f : β → γ) (d : Nat) (value : Unit → β) :
    f <$> Exact.unlessZero d value ≠ .error (.fatal .allocation) := by
  unfold Exact.unlessZero
  split <;> exact nofun

/-- Exact arithmetic never runs out of room. -/
theorem exact_answer_ne_allocation (s : Request Nat) :
    s.answer ≠ .error (.fatal .allocation) := by
  cases s with
  | toBytesPadded a width =>
      show Answer.bytes <$> Exact.toBytesPadded a width ≠ _
      unfold Exact.toBytesPadded
      dsimp only
      split <;> exact nofun
  | sub a b =>
      show Answer.number <$> (if a < b then Except.error (.fatal .parameter)
        else Except.ok (a - b) : Checked Nat) ≠ _
      split <;> exact nofun
  | divRem a d => exact map_unlessZero_ne _ d _
  | modWord a w => exact map_unlessZero_ne _ w.toNat _
  | modMul a b m => exact map_unlessZero_ne _ m _
  | modInverse a m => exact map_unlessZero_ne _ m _
  | modPow base e m => exact map_unlessZero_ne _ m _
  | reduce a m =>
      show Answer.number <$> Arithmetic.reduce a m ≠ _
      rw [exact_reduce]
      exact map_unlessZero_ne _ m _
  | modAdd a b m =>
      show Answer.number <$> Arithmetic.modAdd a b m ≠ _
      rw [exact_modAdd]
      exact map_unlessZero_ne _ m _
  | modSub a b m =>
      show Answer.number <$> Arithmetic.modSub a b m ≠ _
      rw [exact_modSub]
      exact map_unlessZero_ne _ m _
  | maskBits a bits =>
      show Answer.number <$> Arithmetic.maskBits a bits ≠ _
      rw [exact_maskBits]
      exact nofun
  | _ => exact nofun

/-- On well-formed buffers of any size, a call that returns a value returns buffers of the exact
values, a call that is refused other than for room is refused alike, and no call is refused for room
when there is `Request.Room`. -/
theorem answer_agrees (r : Request FixedNat) (h : ∀ a ∈ r.operands, a.WellFormed) :
    (∀ x, r.answer = .ok x →
      (∀ a ∈ x.numbers, a.WellFormed) ∧
        (r.map FixedNat.value).answer = .ok (x.map FixedNat.value)) ∧
    (∀ e, r.answer = .error e → e ≠ .fatal .allocation →
      ∃ e', (r.map FixedNat.value).answer = .error e' ∧ e.kind = e'.kind ∧
        e.toCommandError.failureCode? = e'.toCommandError.failureCode?) ∧
    (r.Room → r.answer ≠ .error (.fatal .allocation)) := by
  have hrefines := answer_refines r h
  refine ⟨fun x hx => ?_, fun e he hne => ?_, fun hroom => ?_⟩
  · rw [hx] at hrefines
    obtain ⟨y, hy, hgives⟩ := hrefines.of_ok
    exact ⟨hgives.wellFormed, by rw [hy, hgives.map_value]⟩
  · rw [he] at hrefines
    obtain ⟨e', he', halike⟩ := hrefines.of_error hne
    exact ⟨e', he', halike.kind_eq, congrArg CommandError.failureCode? halike.toCommandError_eq⟩
  · exact hrefines.ne_allocation hroom (exact_answer_ne_allocation _)

/-- The agreement on the inverse of three modulo eleven. -/
theorem answer_agrees_inverse :
    let r : Request FixedNat := .modInverse (.ofWord 3 1) (.ofWord 11 1)
    (∀ a ∈ r.operands, a.WellFormed) ∧ r.Room ∧
      r.answer = .ok (.inverse (some (.ofWord 4 1))) ∧
      (r.map FixedNat.value).answer = .ok (.inverse (some 4)) := by
  intro r
  have hwf : ∀ a ∈ r.operands, a.WellFormed := by
    intro a ha
    rcases List.mem_pair.mp ha with rfl | rfl
    · exact (FixedNat.denotes_ofWord 3 1).wellFormed
    · exact (FixedNat.denotes_ofWord 11 1).wellFormed
  have hanswer : r.answer = .ok (.inverse (some (.ofWord 4 1))) := by cbv
  refine ⟨hwf, ⟨by decide, trivial⟩, hanswer, ((answer_agrees r hwf).1 _ hanswer).2⟩

end Agreement

end TrustedPlatform
