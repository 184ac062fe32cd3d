import TrustedPlatform.Attestation.CommitState
import TrustedPlatform.Signature.Attempt

/-!
# Anonymous signatures

A signature is a random nonce with the response to the challenge that the nonce and the digest
hash to, under the secret scalar of a commitment. Signing uses up the counter of the commitment
whether it succeeds or not. Verification checks `[s]P1 = E + [t]Q`.
-/

namespace TrustedPlatform.Attestation

open Arithmetic Signature

/-- The name of the algorithm. -/
def algorithm : String := "ECDAA"

variable {α : Type} [Arithmetic α]

/-- The challenge for a nonce and a digest. -/
def challenge (c : Curve α) (h : Hash) (nonce digest : Bytes) : Checked α := do
  let t ← c.digestToInt (h.digestParts [nonce, digest])
  reduce t c.n

/-- The response to the challenge of a given nonce. -/
def respondWith (c : Curve α) (h : Hash) (d r : α) (digest nonce : Bytes) :
    Checked (Bytes × α) := do
  let t ← challenge c h nonce digest
  let s ← schnorrResponse r t d c.n
  return (nonce, s)

section Drawing

variable {σ : Type} [RandomSource σ]

/-- A drawn nonce with its response, under the secret scalar of a counter. -/
def respond (c : Curve α) (state : CommitState) (counter : UInt64) (name : Bytes) (h : Hash) (d : α)
    (digest : Bytes) : Randomized σ (Bytes × α) := do
  let r ← state.secretScalar c counter name
  retry "ECDAA signing" (draw h.size) (respondWith c h d r digest) maxAttempts

/-- Sign with an outstanding counter, which is used up; the states of the commitments and of the
source follow the outcome. -/
def sign (c : Curve α) (state : CommitState) (counter : UInt64) (name : Bytes) (h : Hash) (d : α)
    (digest : Bytes) (source : σ) : Checked (Bytes × α) × CommitState × σ :=
  match state.consume counter with
  | (.error e, state) => (.error e, state, source)
  | (.ok _, state) =>
      let (outcome, source) := (respond c state counter name h d digest).runFrom source
      (outcome, state, source)

end Drawing

/-- Accept a nonce and a response for a commitment point, under a public point relative to the
base point. -/
def verify (c : Curve α) (h : Hash) (p1 e q : Jacobian α) (nonce digest : Bytes) (s : α) :
    Checked Unit := do
  Require.signature (c.inScalarRange s) algorithm
  let t ← challenge c h nonce digest
  let left ← c.mul s p1
  let tq ← c.mul t q
  let right ← c.addNormalized e tq
  Require.signature (left.eq right) algorithm

end TrustedPlatform.Attestation
