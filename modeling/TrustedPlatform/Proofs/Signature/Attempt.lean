import TrustedPlatform.Proofs.Curve.Scalar
import TrustedPlatform.Signature

/-!
# Outcomes of signing attempts

An attempt on an ephemeral scalar returns a signature, or meets a zero that must not be used. What
is shown of the one outcome passes through the steps of the attempt, and from it to what signing
yields for any source of scalars. A scheme all of whose attempts give accepted signatures has them
accepted on the wire: `Curve.SignsBy.sign_attempts`.
-/

namespace TrustedPlatform

namespace Signature

/-- The attempt meets an unusable zero, or returns a value with the property. -/
def Attempt {β : Type} (x : Checked β) (P : β → Prop) : Prop :=
  (∃ operation, x = .error (.noResult operation)) ∨ Returns x P

namespace Attempt

variable {β γ : Type} {P : β → Prop} {Q : γ → Prop}

/-- A returned value with the property. -/
theorem ok {v : β} (h : P v) : Attempt (.ok v) P :=
  .inr (.ok h)

/-- An unusable zero. -/
theorem noResult (operation : String) : Attempt (throw (.noResult operation) : Checked β) P :=
  .inl ⟨operation, rfl⟩

/-- An attempt goes on with the value that is returned. -/
theorem bind {x : Checked β} {f : β → Checked γ} (hx : Returns x P)
    (hf : ∀ v, P v → Attempt (f v) Q) : Attempt (x >>= f) Q := by
  obtain ⟨v, rfl, hv⟩ := hx
  exact hf v hv

/-- An attempt goes on unless a condition makes a value unusable. -/
theorem guarded {condition : Prop} [Decidable condition] (operation : String) {x : Checked β}
    (hx : ¬condition → Attempt x P) :
    Attempt (if condition then throw (.noResult operation) else x) P := by
  split
  · exact noResult operation
  · rename_i h
    exact hx h

/-- A value with a property has every weaker one. -/
theorem mono {P' : β → Prop} {x : Checked β} (h : Attempt x P) (hP : ∀ v, P v → P' v) :
    Attempt x P' :=
  h.imp_right (·.mono hP)

/-- What an attempt returns has the property. -/
theorem of_ok {x : Checked β} (h : Attempt x P) {v : β} (hv : x = .ok v) : P v := by
  subst hv
  rcases h with ⟨operation, ⟨⟩⟩ | ⟨w, ⟨⟩, hw⟩
  exact hw

end Attempt

end Signature

/-! ### Signing from a source -/

/-- From every state the computation gives a value with the property or meets an unusable zero,
unless a draw from the source fails. -/
def Randomized.Attempts {σ β : Type} [RandomSource σ] (x : Randomized σ β) (P : β → Prop) : Prop :=
  ∀ s, Signature.Attempt (x.runFrom s).1 P ∨
    ∃ (t : σ) (n : Nat) (e : Fault),
      (RandomSource.fill t n).1 = .error e ∧ (x.runFrom s).1 = .error e

namespace Randomized.Attempts

variable {σ β γ : Type} [RandomSource σ] {P : β → Prop} {Q : γ → Prop}

/-- A returned value. -/
theorem returns {outcome : Checked β} (h : Returns outcome P) :
    Attempts (liftM outcome : Randomized σ β) P :=
  fun _ => .inl (.inr h)

/-- A value is given at once. -/
theorem pure {v : β} (h : P v) : Attempts (Pure.pure v : Randomized σ β) P :=
  fun _ => .inl (.ok h)

/-- What a run gives has the property. -/
theorem of_ok {x : Randomized σ β} (h : Attempts x P) {s : σ} {v : β}
    (hv : (x.runFrom s).1 = .ok v) : P v := by
  rcases h s with hs | ⟨t, n, e, -, he⟩
  · exact hs.of_ok hv
  · rw [hv] at he
    cases he

/-- A draw gives as many bytes as were asked for. -/
theorem draw (n : Nat) : Attempts (TrustedPlatform.draw n : Randomized σ Bytes) (·.length = n) := by
  intro s
  cases hfill : (RandomSource.fill s n).1 with
  | ok bytes => exact .inl (.inr ⟨bytes, hfill, RandomSource.length_of_fill s n bytes hfill⟩)
  | error e => exact .inr ⟨s, n, e, hfill, hfill⟩

/-- A computation goes on with the value that is given. -/
theorem bind {x : Randomized σ β} {f : β → Randomized σ γ} (hx : Attempts x P)
    (hf : ∀ v, P v → Attempts (f v) Q) : Attempts (x >>= f) Q := by
  intro s
  have hs := hx s
  cases hrun : x.runFrom s with
  | mk outcome t =>
      rw [hrun] at hs
      cases outcome with
      | ok v =>
          rw [runFrom_bind_ok hrun]
          rcases hs with hs | ⟨_, _, _, _, ⟨⟩⟩
          exact hf v (hs.of_ok rfl) t
      | error e =>
          rw [runFrom_bind_error hrun]
          rcases hs with (⟨operation, ⟨⟩⟩ | ⟨_, ⟨⟩, _⟩) | ⟨t, n, _, hfill, ⟨⟩⟩
          · exact .inl (.noResult operation)
          · exact .inr ⟨t, n, e, hfill, rfl⟩

/-- Repeated attempts end as an attempt on one drawn value does. -/
theorem retry {value : Randomized σ β} {attempt : β → Checked γ} (hvalue : Attempts value P)
    (hattempt : ∀ drawn, P drawn → Signature.Attempt (attempt drawn) Q) (operation : String)
    (attempts : Nat) : Attempts (Signature.retry operation value attempt attempts) Q := by
  induction attempts with
  | zero => exact fun _ => .inl (.noResult operation)
  | succ attempts ih =>
      refine hvalue.bind fun drawn hdrawn => ?_
      obtain ⟨operation', hrefused⟩ | ⟨result, hresult, hQ⟩ := hattempt drawn hdrawn
      · rw [hrefused]
        exact ih
      · rw [hresult]
        exact .pure hQ

end Randomized.Attempts

namespace CurveParameters

variable {α : Type} [Arithmetic α] [LawfulArithmetic α] {d : CurveParameters}

/-- A drawn scalar lies in range, unless the draw fails. -/
theorem randomScalar_attempts {σ : Type} [RandomSource σ] (hd : d ∈ all) (hn : 1 < d.n) :
    ((Curve.ofParameters d : Curve α).randomScalar : Randomized σ α).Attempts fun k =>
      ∃ m, LawfulArithmetic.Denotes k m ∧ 0 < m ∧ m < d.n := by
  refine (Randomized.Attempts.draw _).bind fun bytes hlen => ?_
  rw [orderBits_eq] at hlen
  exact .returns (scalarOfBytes_returns hd hn hlen)

/-- Attempts on drawn scalars end as an attempt on a scalar other than zero does. -/
theorem retry_attempts {σ γ : Type} [RandomSource σ] [Fact d.n.Prime] (hd : d ∈ all)
    {attempt : α → Checked γ} {Q : γ → Prop}
    (hattempt : ∀ k (κ : ZMod d.n), Reduced k κ → κ ≠ 0 → Signature.Attempt (attempt k) Q)
    (operation : String) (attempts : Nat) :
    (Signature.retry operation (Curve.ofParameters d).randomScalar attempt attempts :
      Randomized σ γ).Attempts Q := by
  refine .retry (randomScalar_attempts hd (Nat.Prime.one_lt Fact.out)) ?_ _ _
  rintro k ⟨m, hk, hpos, hlt⟩
  exact hattempt k m (.of_lt hk hlt) (natCast_ne_zero hpos hlt)

end CurveParameters

/-! ### Signatures that are accepted -/

namespace Signature

open CurveParameters

variable {α : Type} [Arithmetic α] [LawfulArithmetic α]
variable {d : CurveParameters} [Fact d.n.Prime]

/-- The response of a Schnorr proof is returned, unless the challenge or the response is zero. -/
theorem schnorrResponse_attempt (hd : d ∈ all) {k r x : α} {κ ρ ξ : ZMod d.n} (hk : Reduced k κ)
    (hr : Reduced r ρ) (hx : Reduced x ξ) :
    Attempt (schnorrResponse k r x (Curve.ofParameters d : Curve α).n) fun s =>
      Reduced s (κ + ρ * ξ) ∧ ρ ≠ 0 ∧ κ + ρ * ξ ≠ 0 := by
  have hn := order_modulus (α := α) hd
  rw [schnorrResponse]
  refine .bind ((hr.residue hn).reduce hn) fun r hr => ?_
  refine .guarded _ fun hzero => ?_
  refine .bind ((hr.residue hn).mul hn (hx.residue hn)) fun rd hrd => ?_
  refine .bind ((hk.residue hn).add hn (hrd.residue hn)) fun s hs => ?_
  refine .guarded _ fun hzero' => ?_
  exact .ok ⟨hs, mt hr.isZero_iff.mpr hzero, mt hs.isZero_iff.mpr hzero'⟩

variable [Fact d.p.Prime] {h : d.Generated}

variable (h) in
/-- The two scalars of the signature are the reduced numbers of residues other than zero, and a
verifier accepts the reduced numbers of these residues under every triple that stands for the
public point. -/
def Accepted (ξ : ZMod d.n) (verify : Jacobian α → α → α → Checked Unit) (signature : α × α) :
    Prop :=
  ∃ ρ τ : ZMod d.n, Reduced signature.1 ρ ∧ Reduced signature.2 τ ∧ ρ ≠ 0 ∧ τ ≠ 0 ∧
    ∀ {q : Jacobian α} {r s : α}, q.Represents (d.a : ZMod d.p) d.b (h.multiple ξ) →
      Reduced r ρ → Reduced s τ → verify q r s = .ok ()

variable {ξ : ZMod d.n} {verify : Jacobian α → α → α → Checked Unit}

/-- The scalars of an accepted signature leave on the wire at the width of the order, and are
accepted when they arrive. -/
theorem Accepted.written {signature : α × α} (haccepted : Accepted h ξ verify signature) :
    ∃ r s, (Curve.ofParameters d : Curve α).scalarParameter signature.1 = .ok r ∧
      (Curve.ofParameters d : Curve α).scalarParameter signature.2 = .ok s ∧
      r.bytes.length = Bytes.widthOf d.n ∧ s.bytes.length = Bytes.widthOf d.n ∧
      ∀ {q : Jacobian α}, q.Represents (d.a : ZMod d.p) d.b (h.multiple ξ) →
        verify q (Arithmetic.ofBytes r.bytes) (Arithmetic.ofBytes s.bytes) = .ok () := by
  obtain ⟨ρ, τ, hr, hs, -, -, hverify⟩ := haccepted
  obtain ⟨r, hrun, hrlen, hr⟩ := scalarParameter_reduced h.mem hr
  obtain ⟨s, hrun', hslen, hs⟩ := scalarParameter_reduced h.mem hs
  exact ⟨r, s, hrun, hrun', hrlen, hslen, fun hq => hverify hq hr hs⟩

end Signature

namespace Curve

open CurveParameters
open Signature (Attempt Accepted maxAttempts retry)

variable {α : Type} [Arithmetic α]

/-- A scheme on the wire signs a digest by attempts on drawn scalars, and verifies the signature
with a function of the signer's point. -/
structure SignsBy (c : Curve α) (scheme : AlgorithmId) (hash : Hash) (digest : Bytes)
    (operation : String) (signWith : α → α → Checked (α × α))
    (verify : Jacobian α → α → α → Checked Unit) : Prop where
  sign_eq : ∀ (σ : Type) [RandomSource σ] (privateKey : Bytes),
    (c.sign scheme hash privateKey digest : Randomized σ Signature) = do
      Require.length "digest" digest.length hash.size
      let x ← c.privateScalar privateKey
      let (r, s) ← retry operation c.randomScalar (signWith x) maxAttempts
      let r ← c.scalarParameter r
      let s ← c.scalarParameter s
      return ⟨scheme, hash, r, s⟩
  verify_eq : ∀ (wire : Wire.Point) (r s : Wire.Parameter),
    c.verify wire ⟨scheme, hash, r, s⟩ digest = do
      let point ← c.signerPoint scheme wire
      verify point (Arithmetic.ofBytes r.bytes) (Arithmetic.ofBytes s.bytes)

variable [LawfulArithmetic α] {d : CurveParameters} [Fact d.p.Prime] {scheme : AlgorithmId}

/-- The wire form of a finite point is accepted for a signer's point, under every scheme. -/
theorem signerPoint_returns (hd : d ∈ all) {A : d.curve.Point} (hA : A ≠ 0) {q : Wire.Point}
    (hq : q.Holds (Bytes.widthOf d.p) (normalForm A)) (scheme : AlgorithmId) :
    Returns ((ofParameters d : Curve α).signerPoint scheme q) (·.Matches (normalForm A)) := by
  obtain ⟨point, hrun, hpoint⟩ := validatedPoint_returns (α := α) hd hq hA
  rw [signerPoint, hrun]
  exact .ok hpoint

variable [Fact d.n.Prime] {h : d.Generated} {ξ : ZMod d.n} {hash : Hash} {digest : Bytes}
  {operation : String} {signWith : α → α → Checked (α × α)}
  {verify : Jacobian α → α → α → Checked Unit}

/-- Where every attempt gives an accepted signature, signing on the wire does, with scalars of the
width of the order. -/
theorem SignsBy.sign_attempts
    (hby : (ofParameters d).SignsBy scheme hash digest operation signWith verify)
    (hattempt : ∀ x k (κ : ZMod d.n), Reduced x ξ → Reduced k κ → κ ≠ 0 →
      Attempt (signWith x k) (Accepted h ξ verify))
    {σ : Type} [RandomSource σ] {privateKey : Bytes}
    (hprivate : (Bytes.toNat privateKey : ZMod d.n) = ξ) (hpos : 0 < Bytes.toNat privateKey)
    (hlt : Bytes.toNat privateKey < d.n) (hlen : digest.length = hash.size) {wire : Wire.Point}
    (hwire : wire.Holds (Bytes.widthOf d.p) (normalForm (h.multiple ξ))) :
    ((ofParameters d : Curve α).sign scheme hash privateKey digest :
      Randomized σ Signature).Attempts fun signature =>
        signature.r.bytes.length = Bytes.widthOf d.n ∧
        signature.s.bytes.length = Bytes.widthOf d.n ∧
        (ofParameters d : Curve α).verify wire signature digest = .ok () := by
  have hlength : Returns (Require.length "digest" digest.length hash.size) fun _ => True :=
    ⟨(), if_pos hlen, trivial⟩
  have hfinite : h.multiple ξ ≠ 0 :=
    mt h.multiple_eq_zero_iff.mp (hprivate ▸ natCast_ne_zero hpos hlt)
  obtain ⟨q, hq, hmatches⟩ := signerPoint_returns (α := α) h.mem hfinite hwire scheme
  rw [hby.sign_eq]
  refine (Randomized.Attempts.returns hlength).bind fun _ _ => ?_
  refine (Randomized.Attempts.returns (privateScalar_returns hpos hlt)).bind fun x hx => ?_
  refine (retry_attempts h.mem (fun k κ => hattempt x k κ (hx.of_eq hprivate)) _ _).bind ?_
  rintro ⟨r, s⟩ haccepted
  obtain ⟨r', s', hr, hs, hrlen, hslen, hverify⟩ := haccepted.written
  refine (Randomized.Attempts.returns ⟨r', hr, rfl⟩).bind fun _ heq => ?_
  refine (Randomized.Attempts.returns ⟨s', hs, rfl⟩).bind fun _ heq' => ?_
  subst heq heq'
  refine .pure ⟨hrlen, hslen, ?_⟩
  rw [hby.verify_eq, hq]
  exact hverify (h.represents_multiple hmatches)

/-- Where every attempt gives an accepted signature, signing on the wire yields no other. -/
theorem SignsBy.sign_yields
    (hby : (ofParameters d).SignsBy scheme hash digest operation signWith verify)
    (hattempt : ∀ x k (κ : ZMod d.n), Reduced x ξ → Reduced k κ → κ ≠ 0 →
      Attempt (signWith x k) (Accepted h ξ verify))
    {σ : Type} [RandomSource σ] {privateKey : Bytes}
    (hprivate : (Bytes.toNat privateKey : ZMod d.n) = ξ) {wire : Wire.Point}
    (hwire : wire.Holds (Bytes.widthOf d.p) (normalForm (h.multiple ξ))) :
    ((ofParameters d : Curve α).sign scheme hash privateKey digest :
      Randomized σ Signature).Yields fun signature =>
        signature.r.bytes.length = Bytes.widthOf d.n ∧
        signature.s.bytes.length = Bytes.widthOf d.n ∧
        (ofParameters d : Curve α).verify wire signature digest = .ok () := by
  have hguards : ((ofParameters d : Curve α).sign scheme hash privateKey digest :
      Randomized σ Signature).Yields fun _ => digest.length = hash.size ∧
        0 < Bytes.toNat privateKey ∧ Bytes.toNat privateKey < d.n := by
    rw [hby.sign_eq]
    refine (Randomized.Yields.length _ _ _).bind fun _ hlen => ?_
    refine (Randomized.Yields.lift fun x hx => (privateScalar_eq_ok_iff.mp hx).2).bind ?_
    exact fun x hrange _ _ _ => ⟨hlen, hrange⟩
  intro source signature hrun
  obtain ⟨hlen, hpos, hlt⟩ := hguards source signature hrun
  exact (hby.sign_attempts hattempt hprivate hpos hlt hlen hwire).of_ok hrun

end Curve

end TrustedPlatform
