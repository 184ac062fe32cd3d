import TrustedPlatform.Attestation.CommitState
import TrustedPlatform.Curve.Jacobian

/-!
# Commitments

A commitment under the secret scalar `r` of a counter is the point `[r]P1`, together with `[d]M`
and `[r]M` when a basename determines a point `M`. The counter is recorded once all points have
been computed; a commitment that fails or is canceled leaves the state as it was.
-/

namespace TrustedPlatform.Attestation

open Arithmetic

/-- A basename: the digest of `seed` gives the first coordinate of a point, `y` the second. -/
structure Basename where
  hash : Hash
  seed : Bytes
  y : Bytes

/-- The points of a commitment and the counter to sign with. -/
structure Commitment (α : Type) where
  counter : UInt64
  /-- The multiple of the basename's point by the private scalar. -/
  k : Option (Jacobian α)
  /-- The multiple of the basename's point by the secret scalar. -/
  l : Option (Jacobian α)
  /-- The multiple of the base point by the secret scalar. -/
  e : Jacobian α

/-- The answers of a cancel signal, one for each time it is asked. -/
abbrev CancelSignal := Nat → Bool

/-- The signal that never asks to stop. -/
def CancelSignal.never : CancelSignal :=
  fun _ => false

variable {α : Type} [Arithmetic α]

/-- The point that a basename determines. -/
def Basename.point (base : Basename) (c : Curve α) : Checked (Jacobian α) := do
  let x ← reduce (ofBytes (base.hash.digest base.seed)) c.p
  let m : Jacobian α := .affine x (ofBytes base.y)
  let contained ← c.contains m
  if contained then return m else throw .pointNotOnCurve

/-- Stop when the cancel signal asks to. -/
def checkCancel (cancel : CancelSignal) (poll : Nat) : Checked Unit :=
  if cancel poll then .error .canceled else .ok ()

/-- The multiples of the basename's point by the private and by the secret scalar. The cancel
signal is asked before each of them. -/
def linkPoints (c : Curve α) (d r : α) (m : Jacobian α) (cancel : CancelSignal) :
    Checked (Jacobian α × Jacobian α) := do
  checkCancel cancel 0
  let k ← c.mul d m
  checkCancel cancel 1
  let l ← c.mul r m
  return (k, l)

/-- The commitment for the next counter. -/
def nextCommitment (c : Curve α) (state : CommitState) (d : α) (name : Bytes)
    (base : Option (Jacobian α)) (basename : Option Basename) (cancel : CancelSignal) :
    Checked (Commitment α) := do
  let p1 := base.getD c.g
  if p1.isInfinity then throw .pointNotOnCurve
  let contained ← c.contains p1
  if !contained then throw .pointNotOnCurve
  let m ← basename.mapM fun b => b.point c
  let counter := state.counter + 1
  let r ← state.secretScalar c counter name
  let e ← c.mul r p1
  let links ← m.mapM fun m => linkPoints c d r m cancel
  let isInfinite := e.isInfinity || links.any fun (k, l) => k.isInfinity || l.isInfinity
  if isInfinite then throw (.noResult "ECDAA commit")
  return ⟨counter, links.map Prod.fst, links.map Prod.snd, e⟩

/-- Commit with the next counter, and record it when the commitment succeeds. -/
def commit (c : Curve α) (state : CommitState) (d : α) (name : Bytes)
    (base : Option (Jacobian α)) (basename : Option Basename) (cancel : CancelSignal) :
    Checked (Commitment α) × CommitState :=
  match nextCommitment c state d name base basename cancel with
  | .ok commitment => (.ok commitment, state.record commitment.counter)
  | .error e => (.error e, state)

end TrustedPlatform.Attestation
