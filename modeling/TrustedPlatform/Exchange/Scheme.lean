import TrustedPlatform.Exchange.Basic

/-!
# Exchange schemes

Our private scalars are `ds` (static) and `de` (ephemeral), the peer's public points `qs` and `qe`.
The unified model multiplies static by static and ephemeral by ephemeral. The MQV and SM2
exchanges each join the four keys into one point, weighing one of the two keys of each party by
the associate value of that party's ephemeral point.
-/

namespace TrustedPlatform.Exchange

open Arithmetic

variable {α : Type} [Arithmetic α]

/-- The shared point of a one-pass exchange. -/
def onePass (c : Curve α) (d : α) (q : Jacobian α) : Checked (Jacobian α) :=
  cofactorMul c d q "ECDH ZGen"

/-- The two shared points of the full unified model. -/
def fullUnified (c : Curve α) (ds de : α) (qs qe : Jacobian α) :
    Checked (Jacobian α × Jacobian α) := do
  let z1 ← cofactorMul c ds qs "ECDH static"
  let z2 ← cofactorMul c de qe "ECDH ephemeral"
  return (z1, z2)

/-- The shared point of the MQV exchange. -/
def mqv (c : Curve α) (ds de : α) (qs qe : Jacobian α) : Checked (Jacobian α) := do
  let own ← ephemeralPoint c de
  let weight ← mqvValue c own
  let implicit ← modMul weight ds c.n
  let t ← modAdd de implicit c.n
  let peerWeight ← mqvValue c qe
  let shifted ← c.mul peerWeight qs
  let base ← c.addNormalized qe shifted
  if base.isInfinity then throw (.noResult "ECMQV peer point")
  cofactorMul c t base "ECMQV"

/-- The shared point of the SM2 exchange. -/
def sm2 (c : Curve α) (ds de : α) (qs qe : Jacobian α) : Checked (Jacobian α) := do
  let own ← ephemeralPoint c de
  let weight ← sm2Value c own
  let implicit ← modMul de weight c.n
  let t ← modAdd ds implicit c.n
  let ht ← modMul c.h t c.n
  let peerWeight ← sm2Value c qe
  let shifted ← c.mul peerWeight qe
  let base ← c.addNormalized qs shifted
  let z ← c.mul ht base
  if z.isInfinity then throw (.noResult "SM2 key exchange")
  return z

end TrustedPlatform.Exchange
