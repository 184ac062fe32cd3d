import TrustedPlatform.Curve.KeyPair
import TrustedPlatform.Curve.Scalar

/-!
# Signing attempts

A signature needs an ephemeral value, and a few ephemeral values lead to a zero that must not be
used. Signing therefore tries one drawn value after the other, up to `maxAttempts` of them, until
an attempt ends in something else than such a zero.
-/

namespace TrustedPlatform.Signature

open Arithmetic

/-- The number of ephemeral values drawn for one signature at most. -/
def maxAttempts : Nat := 16

/-- The outcome of the first attempt on a drawn value that does not end in an unusable zero. -/
def retry {σ β γ : Type} (operation : String) (value : Randomized σ β) (attempt : β → Checked γ) :
    Nat → Randomized σ γ
  | 0 => throw (.noResult operation)
  | attempts + 1 => do
      let drawn ← value
      match attempt drawn with
      | .ok result => return result
      | .error (.noResult _) => retry operation value attempt attempts
      | .error e => throw e

variable {α : Type} [Arithmetic α]

/-- The response `k + r * d` modulo `n` of a Schnorr proof; a zero challenge or response is
unusable. -/
def schnorrResponse (k r d n : α) : Checked α := do
  let r ← reduce r n
  if isZero r then throw (.noResult "Schnorr r")
  let rd ← modMul r d n
  let s ← modAdd k rd n
  if isZero s then throw (.noResult "Schnorr s")
  return s

end TrustedPlatform.Signature
