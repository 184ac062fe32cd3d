import TrustedPlatform.Proofs.Attestation.Completeness
import TrustedPlatform.Proofs.Curve.Validation

/-!
# Commitments are made whole or not at all

A commitment that is refused, for whatever reason, leaves the state as it was. One that is returned
hands out the next counter and makes no other counter outstanding, and its points are the finite
multiples of the base point and of the basename's point by the private scalar and by the secret
scalar of that counter. The main theorem is `commit_all_or_nothing`.
-/

namespace TrustedPlatform

open Bytes (toNat)
open LawfulArithmetic (Denotes)

namespace Attestation

/-! ### The state -/

namespace CommitState

/-- The state hands out the counter after its last one: this counter becomes outstanding, the others
that are still in the window stay as they were, and the secret is kept. -/
structure Advances (state state' : CommitState) (counter : UInt64) : Prop where
  toNat_counter : counter.toNat = state.counter.toNat + 1
  counter_eq : state'.counter = counter
  nonce_eq : state'.nonce = state.nonce
  fresh : state.isOutstanding counter = false
  outstanding_iff : ∀ other, state'.isOutstanding other = true ↔ other = counter ∨
    state.isOutstanding other = true ∧ counter.toNat < other.toNat + window

/-- Recording the next counter hands it out, as long as counters do not wrap. -/
theorem advances_record {state : CommitState} (h : state.counter.toNat < 2 ^ 64 - 1) :
    state.Advances (state.record (state.counter + 1)) (state.counter + 1) := by
  have hnext : (state.counter + 1).toNat = state.counter.toNat + 1 := by
    rw [UInt64.toNat_add, UInt64.toNat_one]
    exact Nat.mod_eq_of_lt (by omega)
  generalize state.counter + 1 = new at hnext
  refine ⟨hnext, rfl, rfl, ?_, fun other => ?_⟩
  · rw [← Bool.not_eq_true, isOutstanding_iff]
    omega
  · rw [isOutstanding_iff, isOutstanding_iff]
    show 0 < _ ∧ _ ≤ new.toNat ∧ new.toNat < _ ∧
      (setFlag state.outstanding (slot new) true).get (slot other) = true ↔ _
    rw [flag_set]
    by_cases heq : other = new
    · subst heq
      rw [if_pos rfl]
      exact iff_of_true ⟨by omega, le_rfl, Nat.lt_add_of_pos_right (by decide), rfl⟩ (.inl rfl)
    · -- in the window, another counter has another place
      have hne := mt UInt64.toNat_inj.mp heq
      constructor
      · rintro ⟨hpos, hle, hwindow, hflag⟩
        rw [if_neg (slot_ne (Ne.symm heq) hwindow (by omega))] at hflag
        exact .inr ⟨⟨hpos, by omega, by omega, hflag⟩, hwindow⟩
      · rintro (h | ⟨⟨hpos, hle, -, hflag⟩, hwindow⟩)
        · exact absurd h heq
        · rw [if_neg (slot_ne (Ne.symm heq) hwindow (by omega))]
          exact ⟨hpos, by omega, hwindow, hflag⟩

end CommitState

/-! ### The points -/

/-- The first coordinate that a basename determines. -/
def Basename.abscissa (b : Basename) (d : CurveParameters) : Nat :=
  toNat (b.hash.digest b.seed) % d.p

variable {α : Type} [Arithmetic α] [LawfulArithmetic α] {d : CurveParameters}

open CurveParameters

/-- The secret scalar of a counter is in range. -/
theorem CommitState.range_of_secretScalar (hd : d ∈ all) {state : CommitState} {counter : UInt64}
    {name : Bytes} {r : α}
    (h : state.secretScalar (Curve.ofParameters d) counter name = .ok r) :
    ∃ ρ, Denotes r ρ ∧ 0 < ρ ∧ ρ < d.n := by
  have : NeZero d.n := ⟨Nat.ne_zero_of_lt (one_lt_n d hd)⟩
  obtain ⟨ρ, hr⟩ := exists_reduced_secretScalar hd h
  have hne : ρ ≠ 0 := by
    rw [Ne, ← hr.isZero_iff, isZero_of_secretScalar h]
    exact Bool.false_ne_true
  exact ⟨ρ.val, hr.denotes, ZMod.val_pos.mpr hne, ZMod.val_lt ρ⟩

/-- The point of a basename has its coordinates, and is on the curve. -/
theorem Basename.point_spec (hd : d ∈ all) {b : Basename} {m : Jacobian α}
    (h : b.point (Curve.ofParameters d) = .ok m) :
    d.Contains (b.abscissa d) (toNat b.y) ∧ m.Matches ⟨b.abscissa d, toNat b.y, 1⟩ := by
  have : Fact d.p.Prime := ⟨prime_of_mem d hd⟩
  obtain ⟨x, hx, rfl, hcontains⟩ := point_eq_ok_iff.mp h
  have hreduced := Reduced.of_reduce ((regular_of_mem d hd).loaded (α := α)).modulus
    (LawfulArithmetic.ofBytes _) hx
  have habscissa : Denotes x (b.abscissa d) := by
    rw [abscissa, ← ZMod.val_natCast]
    exact hreduced.denotes
  have hordinate := LawfulArithmetic.ofBytes (α := α) b.y
  rw [contains_affine hd habscissa hordinate] at hcontains
  exact ⟨of_decide_eq_true (Except.ok.inj hcontains), habscissa, hordinate,
    LawfulArithmetic.ofWord 1⟩

section Group

variable [Fact d.p.Prime]

/-- The triple is the normal form of a finite multiple of a point. -/
structure IsMultiple (A : d.curve.Point) (k : Nat) (P : Jacobian α) : Prop where
  ne_zero : k • A ≠ 0
  matches_normalForm : P.Matches (normalForm (k • A))

/-- What is returned for a multiple and is finite is the multiple. -/
theorem isMultiple_of_mul (hd : d ∈ all) {A : d.curve.Point} {P Q : Jacobian α} {x : α} {k : Nat}
    (hP : P.StandsForWithin False (d.a : ZMod d.p) d.b (.ofPoint A)) (hx : Denotes x k)
    (hmul : (Curve.ofParameters d).mul x P = .ok Q) (hfinite : Q.isInfinity = false) :
    IsMultiple A k Q := by
  have hmatches : Q.Matches (normalForm (k • A)) :=
    (hmul ▸ ((regular_of_mem d hd).loaded (α := α)).mul_delivers hx hP).of_ok
  refine ⟨fun hzero => ?_, hmatches⟩
  rw [hmatches.isInfinity_iff.mpr hzero] at hfinite
  cases hfinite

/-- The points of a commitment in the group: the base point is a finite point of the curve, and so is
the basename's point if there is one; `E` is the multiple of the former by the secret scalar, and `K`
and `L` are the multiples of the latter by the private and by the secret scalar, all of them
finite. -/
structure Commitment.Opens (commitment : Commitment α) (d : CurveParameters) [Fact d.p.Prime]
    (P : Jacobian Nat) (m ρ : Nat) (basename : Option Basename) : Prop where
  base : d.Satisfies P
  e : IsMultiple (d.point P) ρ commitment.e
  unlinked : basename = none → commitment.k = none ∧ commitment.l = none
  linked : ∀ b ∈ basename, d.Contains (b.abscissa d) (toNat b.y) ∧
    ∃ k l, commitment.k = some k ∧ commitment.l = some l ∧
      IsMultiple (d.point ⟨b.abscissa d, toNat b.y, 1⟩) m k ∧
      IsMultiple (d.point ⟨b.abscissa d, toNat b.y, 1⟩) ρ l

/-- A commitment that is made has its points in the group. -/
theorem Made.opens (hd : d ∈ all) {state : CommitState} {x r : α} {name : Bytes}
    {base : Option (Jacobian α)} {basename : Option Basename} {cancel : CancelSignal}
    {commitment : Commitment α} {P : Jacobian Nat} {m ρ : Nat}
    (h : Made (Curve.ofParameters d) state x name base basename cancel commitment r)
    (hP : (base.getD (Curve.ofParameters d).g).Matches P) (hx : Denotes x m)
    (hr : Denotes r ρ) : commitment.Opens d P m ρ basename := by
  have hregular := regular_of_mem d hd
  have hbase := satisfies_of_contains hd hP h.base_finite h.base_contained
  have hE := isMultiple_of_mul hd (hbase.standsFor hregular hP) hr h.e h.e_finite
  obtain ⟨counter, k, l, e⟩ := commitment
  have hlinks := h.links
  cases hlinks with
  | none => exact ⟨hbase, hE, fun _ => ⟨rfl, rfl⟩, nofun⟩
  | some hm _ hk _ hl hkfinite hlfinite =>
      refine ⟨hbase, hE, nofun, ?_⟩
      rintro b ⟨⟩
      obtain ⟨hcontains, hmatches⟩ := Basename.point_spec hd hm
      have hM := hcontains.satisfies.standsFor hregular hmatches
      exact ⟨hcontains, _, _, rfl, rfl, isMultiple_of_mul hd hM hx hk hkfinite,
        isMultiple_of_mul hd hM hr hl hlfinite⟩

end Group

/-! ### Commitments -/

/-- For every state whose counter is not the last one, and all arguments: a commitment is returned
exactly when every step on the way has its result, and then hands out the next counter; any error
leaves the state as it was; and the cancel signal does not matter without a basename. On a
registered curve, the returned points are the finite multiples of the base point and of the
basename's point by the private scalar and by the secret scalar of the counter. -/
theorem commit_all_or_nothing (c : Curve α) {state : CommitState}
    (hcounter : state.counter.toNat < 2 ^ 64 - 1) (x : α) (name : Bytes)
    (base : Option (Jacobian α)) (basename : Option Basename) (cancel : CancelSignal) :
    let committed := commit c state x name base basename cancel
    (∀ e, committed.1 = .error e → committed.2 = state) ∧
    (∀ commitment, committed.1 = .ok commitment ↔
      ∃ r, Made c state x name base basename cancel commitment r) ∧
    (∀ commitment, committed.1 = .ok commitment →
      state.Advances committed.2 commitment.counter) ∧
    (basename = none → ∀ other, commit c state x name base basename other = committed) ∧
    ∀ id, Curve.load α id = .ok c → ∃ _ : Fact c.parameters.p.Prime,
      ∀ (P : Jacobian Nat) (m : Nat), (base.getD c.g).Matches P → Denotes x m →
      ∀ commitment, committed.1 = .ok commitment →
        ∃ r ρ, state.secretScalar c commitment.counter name = .ok r ∧ Denotes r ρ ∧
          0 < ρ ∧ ρ < c.parameters.n ∧ commitment.Opens c.parameters P m ρ basename := by
  intro committed
  refine ⟨fun e => state_of_commit_error, fun commitment => commit_eq_ok_iff,
    fun commitment hok => ?_, ?_, fun id hc => ?_⟩
  · obtain ⟨r, h⟩ := commit_eq_ok_iff.mp hok
    rw [state_of_commit_ok hok, h.counter]
    exact CommitState.advances_record hcounter
  · rintro rfl other
    exact commit_cancel_eq other cancel
  · obtain ⟨d, hd, rfl⟩ := Curve.exists_of_load hc
    have hprime : Fact d.p.Prime := ⟨prime_of_mem d hd⟩
    refine ⟨hprime, fun P m hP hx commitment hok => ?_⟩
    obtain ⟨r, h⟩ := commit_eq_ok_iff.mp hok
    obtain ⟨ρ, hr, hpos, hlt⟩ := CommitState.range_of_secretScalar hd h.secret
    exact ⟨r, ρ, h.secret, hr, hpos, hlt, h.opens hd hP hx hr⟩

/-- A basename whose point is on the 256-bit curve. -/
def sampleBasename : Basename where
  hash := HashAlgorithm.sha256.hash
  seed := [1]
  y := Bytes.ofNat 0x5257d8710c6611c9752036db32fd63539361c5a47868e342f9453bb7e4de387f

/-- On the 256-bit curve, a commitment with a basename is returned and opens as it should; canceled
at the second poll, it leaves the state as it was. -/
theorem commit_all_or_nothing_nistP256 :
    ∃ c : Curve Nat, Curve.load Nat 3 = .ok c ∧
      let state : CommitState := .start (List.replicate 32 0x5a)
      let commitWith := commit c state (Arithmetic.ofWord 5) [0x4b] none (some sampleBasename)
      (∃ _ : Fact nistP256.p.Prime, ∃ commitment ρ, (commitWith .never).1 = .ok commitment ∧
        state.Advances (commitWith .never).2 commitment.counter ∧
        commitment.Opens nistP256 nistP256.generator 5 ρ (some sampleBasename)) ∧
      ∃ e, (commitWith (· == 1)).1 = .error e ∧ (commitWith (· == 1)).2 = state := by
  have hload : Curve.load Nat 3 = .ok (Curve.ofParameters nistP256) := rfl
  have hd : nistP256 ∈ all := mem_of_lookup? (show lookup? 3 = .ok nistP256 from rfl)
  have hcounter : (CommitState.start (List.replicate 32 0x5a)).counter.toNat < 2 ^ 64 - 1 := by
    decide
  refine ⟨_, hload, ?_, ?_⟩
  · obtain ⟨-, -, hadvances, -, hopens⟩ := commit_all_or_nothing (.ofParameters nistP256) hcounter
      (Arithmetic.ofWord 5 : Nat) [0x4b] none (some sampleBasename) .never
    obtain ⟨commitment, hok⟩ := exists_of_isOk (x := (commit (.ofParameters nistP256)
      (.start (List.replicate 32 0x5a)) (Arithmetic.ofWord 5 : Nat) [0x4b] none
      (some sampleBasename) .never).1) (by decide +kernel)
    obtain ⟨hprime, hopens⟩ := hopens 3 hload
    obtain ⟨r, ρ, -, -, -, -, hopens⟩ := hopens nistP256.generator 5 (matches_generator _)
      (LawfulArithmetic.ofWord 5) commitment hok
    exact ⟨hprime, commitment, ρ, hok, hadvances commitment hok, hopens⟩
  · obtain ⟨hunchanged, hmade, -⟩ := commit_all_or_nothing (.ofParameters nistP256) hcounter
      (Arithmetic.ofWord 5 : Nat) [0x4b] none (some sampleBasename) (· == 1)
    cases hcanceled : (commit (.ofParameters nistP256) (.start (List.replicate 32 0x5a))
        (Arithmetic.ofWord 5 : Nat) [0x4b] none (some sampleBasename) (· == 1)).1 with
    | ok commitment =>
        obtain ⟨r, h⟩ := (hmade commitment).mp hcanceled
        exact absurd (not_canceled_of_linked h.links).2 (by decide)
    | error e => exact ⟨e, rfl, hunchanged e hcanceled⟩

end Attestation

end TrustedPlatform
