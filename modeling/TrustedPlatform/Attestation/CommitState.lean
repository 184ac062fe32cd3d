import TrustedPlatform.Curve.Basic
import TrustedPlatform.Derivation
import TrustedPlatform.Random.Source

/-!
# Outstanding commitments

Each commitment of an anonymous signature has a counter, from which its secret scalar can be
derived again, and may be used for one signature. The state remembers which of the last 128
counters are outstanding: a flag for each counter modulo 128.
-/

namespace TrustedPlatform.Attestation

open Arithmetic

/-- The number of counters that can be outstanding at once. -/
abbrev window : Nat := 128

/-- The number of bytes in the secret that the scalars are derived from. -/
abbrev nonceLength : Nat := 32

/-- The secret behind the commitments and the counters that are outstanding. -/
structure CommitState where
  /-- The secret that the scalars are derived from. -/
  nonce : Bytes
  /-- The counter handed out last. -/
  counter : UInt64
  /-- Whether a counter is outstanding, by the counter modulo the window. -/
  outstanding : Vector Bool window

namespace CommitState

/-- The state over a secret, before the first commitment. -/
def start (nonce : Bytes) : CommitState :=
  ⟨nonce, 0, Vector.replicate window false⟩

/-- The state over a drawn secret, before the first commitment. -/
def generate {σ : Type} [RandomSource σ] : Randomized σ CommitState := do
  let nonce ← draw nonceLength
  return start nonce

/-- The place of a counter in the window. -/
def slot (counter : UInt64) : Fin window :=
  ⟨counter.toNat % window, Nat.mod_lt _ (by decide)⟩

/-- The counter was handed out, is among the last of the window and has not been used. -/
def isOutstanding (state : CommitState) (counter : UInt64) : Bool :=
  counter != 0 && counter ≤ state.counter && state.counter - counter < 128
    && state.outstanding[slot counter]

/-- The state with a counter handed out. -/
def record (state : CommitState) (counter : UInt64) : CommitState :=
  { state with counter := counter, outstanding := state.outstanding.set (slot counter) true }

/-- Use up a counter, which has to be outstanding. -/
def consume (state : CommitState) (counter : UInt64) : Checked Unit × CommitState :=
  if state.isOutstanding counter then
    (.ok (), { state with outstanding := state.outstanding.set (slot counter) false })
  else (.error (.parameter "counter" "no outstanding commit"), state)

/-- The label under which the secret scalars are derived. -/
def label : Bytes := "ECDAA Commit".toUTF8.toList

/-- The secret scalar for a counter and the name of a key. -/
def secretScalar {α : Type} [Arithmetic α] (state : CommitState) (c : Curve α) (counter : UInt64)
    (name : Bytes) : Checked α := do
  let bits := UInt32.ofNat c.orderBits
  let raw ← HashAlgorithm.sha256.hash.deriveA state.nonce label name (Bytes.ofUInt64 counter) bits
  let r ← reduce (ofBytes raw) c.n
  if isZero r then throw (.noResult "ECDAA r")
  return r

/-- The counter, with the rest withheld. -/
def describe (state : CommitState) : String :=
  "CommitState \x7b counter: " ++ state.counter.toNat.repr ++ ", .. \x7d"

end CommitState

end TrustedPlatform.Attestation
