import TrustedPlatform.Attestation.Commitment
import TrustedPlatform.Proofs.Refinement

/-!
# What a returned commitment is made of

A commitment is returned exactly when every step on the way to it has its result: `Made` lists the
steps, in their order. One that is returned is recorded, and one that is not leaves the state as it
was.
-/

namespace TrustedPlatform.Attestation

/-- A computation on an optional value that is there. -/
theorem mapM_some_eq_ok_iff {β γ : Type} {f : β → Checked γ} {v : β} {o : Option γ} :
    (some v).mapM f = .ok o ↔ ∃ w, f v = .ok w ∧ o = some w := by
  show some <$> f v = .ok o ↔ _
  cases f v with
  | error e => exact iff_of_false nofun nofun
  | ok w =>
      show Except.ok (some w) = .ok o ↔ _
      simp only [Except.ok.injEq, exists_eq_left', eq_comm]

variable {α : Type} [Arithmetic α] {c : Curve α} {state : CommitState} {d r : α} {name : Bytes}
  {base : Option (Jacobian α)} {basename : Option Basename} {cancel : CancelSignal}

/-- The link points of a commitment: none without a basename, and with one the finite multiples of
its point by the private and by the secret scalar, neither of them canceled. -/
inductive Linked (c : Curve α) (d r : α) (cancel : CancelSignal) :
    Option Basename → Option (Jacobian α) → Option (Jacobian α) → Prop where
  | none : Linked c d r cancel none none none
  | some {b : Basename} {m k l : Jacobian α} (hm : b.point c = .ok m)
      (hfirst : cancel 0 = false) (hk : c.mul d m = .ok k)
      (hsecond : cancel 1 = false) (hl : c.mul r m = .ok l)
      (hkfinite : k.isInfinity = false) (hlfinite : l.isInfinity = false) :
      Linked c d r cancel (some b) (some k) (some l)

/-- Link points are made only when neither poll cancels. -/
theorem not_canceled_of_linked {b : Basename} {k l : Option (Jacobian α)}
    (h : Linked c d r cancel (some b) k l) : cancel 0 = false ∧ cancel 1 = false := by
  cases h with
  | some _ hfirst _ hsecond => exact ⟨hfirst, hsecond⟩

/-- The results of the steps that make a commitment: a finite base point of the curve, the next
counter, its secret scalar, the finite multiple of the base point by it, and the link points. -/
structure Made (c : Curve α) (state : CommitState) (d : α) (name : Bytes)
    (base : Option (Jacobian α)) (basename : Option Basename) (cancel : CancelSignal)
    (commitment : Commitment α) (r : α) : Prop where
  base_finite : (base.getD c.g).isInfinity = false
  base_contained : c.contains (base.getD c.g) = .ok true
  counter : commitment.counter = state.counter + 1
  secret : state.secretScalar c commitment.counter name = .ok r
  e : c.mul r (base.getD c.g) = .ok commitment.e
  e_finite : commitment.e.isInfinity = false
  links : Linked c d r cancel basename commitment.k commitment.l

/-- A secret scalar is not zero. -/
theorem CommitState.isZero_of_secretScalar {counter : UInt64}
    (h : state.secretScalar c counter name = .ok r) : Arithmetic.isZero r = false := by
  rw [secretScalar] at h
  obtain ⟨raw, -, h⟩ := exists_of_bind_eq_ok h
  obtain ⟨reduced, -, h⟩ := exists_of_bind_eq_ok h
  split at h
  · cases h
  · next hzero =>
      cases h
      exact eq_false_of_ne_true hzero

/-- A basename has a point exactly when its coordinates are found on the curve. -/
theorem Basename.point_eq_ok_iff {b : Basename} {m : Jacobian α} :
    b.point c = .ok m ↔
      ∃ x, Arithmetic.reduce (Arithmetic.ofBytes (b.hash.digest b.seed)) c.p = .ok x ∧
        m = .affine x (Arithmetic.ofBytes b.y) ∧ c.contains m = .ok true := by
  rw [point]
  constructor
  · intro h
    obtain ⟨x, hx, h⟩ := exists_of_bind_eq_ok h
    obtain ⟨contained, hcontains, h⟩ := exists_of_bind_eq_ok h
    cases contained with
    | false => cases h
    | true =>
        cases h
        exact ⟨x, hx, rfl, hcontains⟩
  · rintro ⟨x, hx, rfl, hcontains⟩
    rw [hx]
    show c.contains _ >>= _ = _
    rw [hcontains]
    rfl

/-- The link points are returned exactly when neither multiplication is canceled. -/
theorem linkPoints_eq_ok_iff {m k l : Jacobian α} :
    linkPoints c d r m cancel = .ok (k, l) ↔
      cancel 0 = false ∧ c.mul d m = .ok k ∧ cancel 1 = false ∧ c.mul r m = .ok l := by
  have hpoll (poll : Nat) : checkCancel cancel poll = .ok () ↔ cancel poll = false := by
    rw [checkCancel]
    cases cancel poll <;> simp
  rw [linkPoints]
  constructor
  · intro h
    obtain ⟨⟨⟩, hfirst, h⟩ := exists_of_bind_eq_ok h
    obtain ⟨k, hk, h⟩ := exists_of_bind_eq_ok h
    obtain ⟨⟨⟩, hsecond, h⟩ := exists_of_bind_eq_ok h
    obtain ⟨l, hl, h⟩ := exists_of_bind_eq_ok h
    cases h
    exact ⟨(hpoll 0).mp hfirst, hk, (hpoll 1).mp hsecond, hl⟩
  · rintro ⟨hfirst, hk, hsecond, hl⟩
    rw [(hpoll 0).mpr hfirst, (hpoll 1).mpr hsecond, hk, hl]
    rfl

/-- The steps that make link points, as the commitment takes them. -/
theorem linked_iff {k l : Option (Jacobian α)} :
    Linked c d r cancel basename k l ↔
      ∃ m links, basename.mapM (fun b => b.point c) = .ok m ∧
        m.mapM (fun m => linkPoints c d r m cancel) = .ok links ∧
        (links.any fun (k, l) => k.isInfinity || l.isInfinity) = false ∧
        k = links.map Prod.fst ∧ l = links.map Prod.snd := by
  constructor
  · rintro (_ | ⟨hm, hfirst, hk, hsecond, hl, hkfinite, hlfinite⟩)
    · exact ⟨none, none, rfl, rfl, rfl, rfl, rfl⟩
    · refine ⟨some _, some _, mapM_some_eq_ok_iff.mpr ⟨_, hm, rfl⟩, mapM_some_eq_ok_iff.mpr
        ⟨_, linkPoints_eq_ok_iff.mpr ⟨hfirst, hk, hsecond, hl⟩, rfl⟩, ?_, rfl, rfl⟩
      exact Bool.or_eq_false_iff.mpr ⟨hkfinite, hlfinite⟩
  · rintro ⟨m, links, hpoint, hlinks, hfinite, rfl, rfl⟩
    cases basename with
    | none =>
        cases hpoint
        cases hlinks
        exact .none
    | some b =>
        obtain ⟨m, hm, rfl⟩ := mapM_some_eq_ok_iff.mp hpoint
        obtain ⟨⟨k, l⟩, hkl, rfl⟩ := mapM_some_eq_ok_iff.mp hlinks
        obtain ⟨hfirst, hk, hsecond, hl⟩ := linkPoints_eq_ok_iff.mp hkl
        obtain ⟨hkfinite, hlfinite⟩ := Bool.or_eq_false_iff.mp hfinite
        exact .some hm hfirst hk hsecond hl hkfinite hlfinite

/-- A commitment is returned exactly when every step has its result. -/
theorem nextCommitment_eq_ok_iff {commitment : Commitment α} :
    nextCommitment c state d name base basename cancel = .ok commitment ↔
      ∃ r, Made c state d name base basename cancel commitment r := by
  rw [nextCommitment]
  constructor
  · intro h
    split at h
    · cases h
    next hbase =>
    obtain ⟨contained, hcontains, h⟩ := exists_of_bind_eq_ok h
    split at h
    · cases h
    next hcontained =>
    obtain ⟨m, hm, h⟩ := exists_of_bind_eq_ok h
    obtain ⟨r, hr, h⟩ := exists_of_bind_eq_ok h
    obtain ⟨e, he, h⟩ := exists_of_bind_eq_ok h
    obtain ⟨links, hlinks, h⟩ := exists_of_bind_eq_ok h
    dsimp only at h
    split at h
    · cases h
    next hinfinite =>
    cases h
    rw [Bool.not_eq_true, Bool.or_eq_false_iff] at hinfinite
    rw [Bool.not_eq_true, Bool.not_eq_false'] at hcontained
    subst hcontained
    exact ⟨r, eq_false_of_ne_true hbase, hcontains, rfl, hr, he, hinfinite.1,
      linked_iff.mpr ⟨m, links, hm, hlinks, hinfinite.2, rfl, rfl⟩⟩
  · rintro ⟨r, h⟩
    obtain ⟨counter, k, l, e⟩ := commitment
    obtain ⟨hbase, hcontains, rfl, hr, he, hfinite, hlinked⟩ := h
    obtain ⟨m, links, hm, hlinks, hlinksFinite, rfl, rfl⟩ := linked_iff.mp hlinked
    rw [hbase, hcontains, hm]
    show (state.secretScalar c (state.counter + 1) name >>= fun r => c.mul r _ >>= _) = _
    rw [hr]
    show c.mul r _ >>= _ = _
    rw [he]
    show m.mapM (fun m => linkPoints c d r m cancel) >>= _ = _
    rw [hlinks]
    show (if (e.isInfinity || links.any _) = true then _ else _) = _
    rw [hfinite, hlinksFinite]
    rfl

/-- Committing returns a commitment exactly when every step has its result. -/
theorem commit_eq_ok_iff {commitment : Commitment α} :
    (commit c state d name base basename cancel).1 = .ok commitment ↔
      ∃ r, Made c state d name base basename cancel commitment r := by
  rw [← nextCommitment_eq_ok_iff, commit]
  cases nextCommitment c state d name base basename cancel <;> rfl

/-- A commitment that is returned is recorded. -/
theorem state_of_commit_ok {commitment : Commitment α}
    (h : (commit c state d name base basename cancel).1 = .ok commitment) :
    (commit c state d name base basename cancel).2 = state.record commitment.counter := by
  rw [commit] at h ⊢
  cases hnext : nextCommitment c state d name base basename cancel with
  | error e =>
      rw [hnext] at h
      cases h
  | ok made =>
      rw [hnext] at h
      cases h
      rfl

/-- A commitment that is not returned leaves the state as it was. -/
theorem state_of_commit_error {e : Fault}
    (h : (commit c state d name base basename cancel).1 = .error e) :
    (commit c state d name base basename cancel).2 = state := by
  rw [commit] at h ⊢
  cases hnext : nextCommitment c state d name base basename cancel with
  | error e => rfl
  | ok made =>
      rw [hnext] at h
      cases h

/-- Committing records the next counter, or changes nothing. -/
theorem commit_cases (c : Curve α) (state : CommitState) (d : α) (name : Bytes)
    (base : Option (Jacobian α)) (basename : Option Basename) (cancel : CancelSignal) :
    (∃ commitment, commit c state d name base basename cancel =
      (.ok commitment, state.record (state.counter + 1)) ∧
      commitment.counter = state.counter + 1) ∨
    ∃ e, commit c state d name base basename cancel = (.error e, state) := by
  cases h : (commit c state d name base basename cancel).1 with
  | ok commitment =>
      obtain ⟨r, hmade⟩ := commit_eq_ok_iff.mp h
      have hstate := state_of_commit_ok h
      rw [hmade.counter] at hstate
      exact .inl ⟨commitment, Prod.ext h hstate, hmade.counter⟩
  | error e => exact .inr ⟨e, Prod.ext h (state_of_commit_error h)⟩

/-- The cancel signal is not asked without a basename. -/
theorem commit_cancel_eq (cancel other : CancelSignal) :
    commit c state d name base none cancel = commit c state d name base none other :=
  rfl

end TrustedPlatform.Attestation
