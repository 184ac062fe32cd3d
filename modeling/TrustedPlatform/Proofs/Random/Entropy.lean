import TrustedPlatform.Proofs.Failure
import TrustedPlatform.Random.Entropy

/-!
# Entropy sources that fail fatally

A source that reports every error as a fatal loss of entropy leaves no command with a recoverable
fault to answer. The continuous test is such a source over any raw one, since it reports the errors
of the raw source and its own repeated blocks alike.
-/

namespace TrustedPlatform

/-- Every error of the entropy source is fatal. -/
def EntropySource.FailsFatally (ε : Type) [EntropySource ε] : Prop :=
  ∀ (source : ε) (n : Nat), TrustedPlatform.FailsFatally (EntropySource.request source n).1

/-- A source whose errors are fatal does not ask for a reseeding. -/
theorem EntropySource.FailsFatally.ne_reseedRequired {ε : Type} [EntropySource ε]
    (h : FailsFatally ε) (source : ε) (n : Nat) :
    (EntropySource.request source n).1 ≠ .error .reseedRequired := by
  intro hrequest
  cases h source n _ hrequest

/-- A draw fails fatally when the filling behind it does. -/
theorem Draw.fails_fatally_toFill {σ : Type} {d : Draw σ Unit} (h : FailsFatally d.outcome) :
    FailsFatally d.toFill.1 := by
  unfold toFill
  cases houtcome : d.outcome with
  | ok u => exact .ok _
  | error e =>
      rintro _ ⟨⟩
      exact h e houtcome

namespace ContinuousEntropy

variable {ρ : Type} [RandomSource ρ]

/-- A block is refused fatally. -/
theorem fails_fatally_nextBlock (s : ContinuousEntropy ρ) : FailsFatally s.nextBlock.1 := by
  unfold nextBlock
  split
  · exact .fatal .entropy
  · split
    · exact .fatal .entropy
    · exact .ok _

/-- Blocks are refused fatally. -/
theorem fails_fatally_fillBlocks (s : ContinuousEntropy ρ) (pieces : List Bytes) :
    FailsFatally (s.fillBlocks pieces).outcome := by
  induction pieces generalizing s with
  | nil => exact .ok ()
  | cons piece pieces ih =>
      have hblock := s.fails_fatally_nextBlock
      rw [fillBlocks]
      split
      · next hrun =>
          rintro _ ⟨⟩
          exact hblock _ (congrArg Prod.fst hrun)
      · exact ih _

/-- The continuous test fails fatally. -/
theorem failsFatally : EntropySource.FailsFatally (ContinuousEntropy ρ) := by
  intro s n
  refine Draw.fails_fatally_toFill ?_
  have hblock := s.fails_fatally_nextBlock
  unfold fill
  split
  · exact .fatal .entropy
  · split
    · exact .ok ()
    · split
      · split
        · next hrun =>
            rintro _ ⟨⟩
            exact hblock _ (congrArg Prod.fst hrun)
        · exact fails_fatally_fillBlocks _ _
      · exact fails_fatally_fillBlocks _ _

end ContinuousEntropy

end TrustedPlatform
