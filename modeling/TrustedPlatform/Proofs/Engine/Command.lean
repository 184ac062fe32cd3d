import TrustedPlatform.Engine.Command
import TrustedPlatform.Proofs.Random.Instance

/-!
# What commands keep

A command changes the generator by its draws and by a reseeding, the cache by looking up a key, and
the commitments. What those keep of the generator and of the cache, every command keeps, whatever
its arguments are and wherever in its course it ends; in particular no command wipes the generator
or changes its limits.
-/

namespace TrustedPlatform

open Preserves

variable {α ε : Type} [Arithmetic α]

namespace EngineState

/-- An invariant of the generator beside one of the cache. -/
structure Satisfies (G : InstanceGenerator ε → Prop) (C : Rsa.ExponentCache → Prop)
    (s : EngineState ε) : Prop where
  generator : G s.generator
  cache : C s.cache

/-- The generator of the state is ready. -/
def Ready (s : EngineState ε) : Prop :=
  s.generator.Ready

end EngineState

variable {G : InstanceGenerator ε → Prop} {C : Rsa.ExponentCache → Prop}

namespace Operation

variable {β : Type}

/-- A computation on the generator keeps what it keeps of it. -/
theorem onGenerator_preserves {x : Randomized (InstanceGenerator ε) β} (h : Preserves G x) :
    Preserves (EngineState.Satisfies G C) (onGenerator x) := by
  intro s hs
  exact ⟨h s.generator hs.generator, hs.cache⟩

/-- A computation on the cache keeps what it keeps of it. -/
theorem onCache_preserves {f : Rsa.ExponentCache → Checked β × Rsa.ExponentCache}
    (h : ∀ cache, C cache → C (f cache).2) :
    Preserves (EngineState.Satisfies G C) (onCache f : Operation ε β) := by
  intro s hs
  exact ⟨hs.generator, h s.cache hs.cache⟩

/-- The commitments are neither generator nor cache. -/
theorem onCommits_preserves
    (f : Attestation.CommitState → Checked β × Attestation.CommitState) :
    Preserves (EngineState.Satisfies G C) (onCommits f : Operation ε β) :=
  fun _ hs => ⟨hs.generator, hs.cache⟩

end Operation

namespace Command

open Operation

variable (α) [EntropySource ε]

/-- Anonymous signatures. -/
theorem performAttest_satisfies (hdraw : DrawsPreserve G) (curve : CurveId) (counter : UInt64)
    (name : Bytes) (h : Hash) (privateKey digest : Bytes) :
    Preserves (EngineState.Satisfies G C)
      (performAttest α curve counter name h privateKey digest) := by
  refine (lift _).bind fun c => ?_
  refine (lift _).bind fun _ => ?_
  refine (lift _).bind fun d => ?_
  refine Preserves.bind ?_ fun response => ?_
  case refine_2 =>
    refine (lift _).bind fun r => ?_
    refine (lift _).bind fun s => ?_
    exact (lift _).bind fun s => pure _
  intro s hs
  -- the counter is used up before the nonce is drawn, and stays so when the draw fails
  have hrespond := hdraw.respond c
    (s.commits.consume counter).2 counter name h d digest s.generator hs.generator
  refine ⟨?_, hs.cache⟩
  show G (Attestation.sign c s.commits counter name h d digest s.generator).2.2
  unfold Attestation.sign
  cases hconsume : s.commits.consume counter with
  | mk outcome commits =>
      cases outcome with
      | error e => exact hs.generator
      | ok _ =>
          rw [hconsume] at hrespond
          exact hrespond

/-- Every command keeps what draws and reseedings keep of the generator and what a lookup keeps of
the cache. -/
theorem perform_satisfies (hdraw : DrawsPreserve G)
    (hreseed : ∀ g additional, G g → G (g.reseed additional).2)
    (hcache : ∀ key prime cache, C cache → C (Rsa.PrivateKey.ofPrime α cache key prime).2)
    (retries : Nat) (command : Command) :
    Preserves (EngineState.Satisfies G C) (command.perform α retries) := by
  cases command with
  | random length => exact (onGenerator_preserves (hdraw length)).map _
  | stir additional =>
      refine (onGenerator_preserves fun g hg => ?_).map _
      exact hreseed g additional hg
  | createKey curve =>
      refine (lift _).bind fun c => ?_
      refine (onGenerator_preserves (hdraw.keyPair c)).bind fun keyPair => ?_
      refine (lift _).bind fun d => ?_
      exact (lift _).bind fun q => pure _
  | sign curve scheme h privateKey digest =>
      refine (lift _).bind fun c => ?_
      exact (onGenerator_preserves (hdraw.sign c scheme h privateKey digest)).map _
  | verify curve q signature digest =>
      refine (lift _).bind fun c => ?_
      exact (lift _).bind fun _ => pure _
  | commit curve privateKey name base basename cancel =>
      refine (lift _).bind fun c => ?_
      refine (lift _).bind fun d => ?_
      refine (lift _).bind fun base => ?_
      refine (onCommits_preserves _).bind fun m => ?_
      refine (lift _).bind fun e => ?_
      refine (lift _).bind fun k => ?_
      exact (lift _).bind fun l => pure _
  | attest curve counter name h privateKey digest =>
      exact performAttest_satisfies α hdraw curve counter name h privateKey digest
  | verifyAttestation curve base e q signature digest =>
      exact (lift _).bind fun _ => pure _
  | exchangeOnce curve privateKey q =>
      exact (lift _).bind fun c => (lift _).map _
  | exchangeFresh curve q =>
      refine (lift _).bind fun c => ?_
      refine (lift _).bind fun q => ?_
      refine (onGenerator_preserves (hdraw.keyPair c)).bind fun keyPair => ?_
      refine (lift _).bind fun z => ?_
      refine (lift _).bind fun z => ?_
      exact (lift _).bind fun own => pure _
  | exchangeTwice curve scheme ds de qs qe =>
      exact (lift _).bind fun c => (lift _).map _
  | rsaCreate bits exponent =>
      exact (onGenerator_preserves (hdraw.generateKey α retries bits exponent)).map _
  | rsaLoad key prime => exact (onCache_preserves (hcache key prime)).map _
  | rsaEncrypt key scheme h label message =>
      exact (onGenerator_preserves (hdraw.encrypt α retries key scheme h label message)).map _
  | rsaDecrypt key scheme h label ciphertext => exact (lift _).map _
  | rsaSign key scheme h digest =>
      exact (onGenerator_preserves (hdraw.rsaSign α key scheme h digest)).map _
  | rsaVerify key scheme h digest signature => exact (lift _).bind fun _ => pure _

/-- Every command keeps the generator ready. -/
theorem perform_preserves (retries : Nat) (command : Command) :
    Preserves (EngineState.Ready (ε := ε)) (command.perform α retries) := by
  intro s hs
  have hkept := perform_satisfies (G := InstanceGenerator.Ready (ε := ε)) (C := fun _ => True) α
    InstanceGenerator.drawsPreserve_ready (fun g additional hg => hg.reseed additional)
    (fun _ _ _ _ => trivial) retries command
  exact (hkept s ⟨hs, trivial⟩).generator

end Command

end TrustedPlatform
