import TrustedPlatform.Random.Conditioning
import TrustedPlatform.Random.Source

/-!
# Counter-mode generator

The generator encrypts a 128-bit counter under a key, and after each request replaces key and
counter by further encryptions. It counts its requests and refuses them once they exceed the limit
for one seed; a block that repeats the block before it is a fatal loss of entropy.
-/

namespace TrustedPlatform

/-- The limits of a generator. -/
structure GeneratorLimits where
  /-- The number of requests allowed between two seedings. -/
  reseedInterval : Nat
  /-- The largest number of bytes that one request gives. -/
  maxBytesPerRequest : Nat
  deriving DecidableEq, Repr

namespace GeneratorLimits

/-- The largest admissible number of requests between two seedings. -/
def maxReseedInterval : Nat := 1 <<< 48

/-- The largest admissible number of bytes in one request. -/
def maxRequest : Nat := 1 <<< 16

/-- The largest admissible limits. -/
def default : GeneratorLimits :=
  ⟨maxReseedInterval, maxRequest⟩

/-- Both limits are positive and admissible. -/
def validate (limits : GeneratorLimits) : Checked Unit := do
  Require.parameter (1 ≤ limits.reseedInterval ∧ limits.reseedInterval ≤ maxReseedInterval)
    "reseed_interval" "must be between 1 and 2^48"
  Require.parameter (1 ≤ limits.maxBytesPerRequest ∧ limits.maxBytesPerRequest ≤ maxRequest)
    "max_bytes_per_request" "must be between 1 and 2^16"

/-- The limits by name and value. -/
def describe (limits : GeneratorLimits) : String :=
  "DrbgConfig \x7b reseed_interval: " ++ limits.reseedInterval.repr ++ ", max_bytes_per_request: "
    ++ limits.maxBytesPerRequest.repr ++ " \x7d"

end GeneratorLimits

/-- The state of a counter-mode generator. The request counter is one more than the number of
requests since the last seeding, and zero before the first. -/
structure CounterGenerator where
  /-- The cipher key, of thirty-two bytes. -/
  key : Bytes
  /-- The counter that was encrypted last. -/
  counter : BitVec 128
  /-- The request counter. -/
  requests : Nat
  /-- The block that was given out last. -/
  last : Option Aes.Block
  /-- The limits of the generator. -/
  limits : GeneratorLimits

namespace CounterGenerator

/-- The generator without a seed. -/
def zeroed (limits : GeneratorLimits) : CounterGenerator :=
  ⟨List.replicate 32 0, 0, 0, none, limits⟩

/-- A seed whose first bytes are combined with those of a byte string by exclusive-or. -/
def combine : Bytes → Bytes → Bytes
  | s :: seed, d :: data => (s ^^^ d) :: combine seed data
  | seed, _ => seed

/-- The encryption of a counter. -/
def encryptCounter (keys : List Aes.Block) (counter : BitVec 128) : Aes.Block :=
  Aes.encryptWith keys (Aes.Block.ofBytes (Bytes.ofNatWidth 16 counter.toNat))

/-- The generator with key and counter replaced by the encryptions of the next three counters,
combined with forty-eight bytes of input. -/
def update (g : CounterGenerator) (provided : Bytes) : CounterGenerator :=
  let keys := Aes.roundKeys g.key
  let material := (encryptCounter keys (g.counter + 1)).toBytes
    ++ (encryptCounter keys (g.counter + 2)).toBytes
    ++ (encryptCounter keys (g.counter + 3)).toBytes
  let mixed := combine material provided
  { g with
    key := mixed.take 32
    counter := BitVec.ofNat 128 (Bytes.toNat (mixed.drop 32)) }

/-- A generator started from a seed of forty-eight bytes. -/
def ofSeed (seed : Bytes) (limits : GeneratorLimits) : CounterGenerator :=
  { (zeroed limits).update seed with requests := 1 }

/-- A generator started from entropy of forty-eight bytes and a personalization string. -/
def instantiate (entropy personalization : Bytes) (limits : GeneratorLimits) : CounterGenerator :=
  ofSeed (combine entropy personalization) limits

/-- The generator after fresh entropy and additional input are mixed in. -/
def reseed (g : CounterGenerator) (entropy additional : Bytes) : CounterGenerator :=
  { g.update (combine entropy additional) with requests := 1 }

/-- Blocks given out by one request, the state they leave and whether one repeated its
predecessor. -/
structure Production where
  blocks : List Aes.Block
  counter : BitVec 128
  last : Option Aes.Block
  repeats : Bool

/-- Produce a number of blocks, up to the first that repeats its predecessor. -/
def produce (keys : List Aes.Block) : Nat → BitVec 128 → Option Aes.Block → Production
  | 0, counter, last => ⟨[], counter, last, false⟩
  | count + 1, counter, last =>
      let counter := counter + 1
      let block := encryptCounter keys counter
      if last = some block then ⟨[], counter, last, true⟩
      else
        let rest := produce keys count counter (some block)
        { rest with blocks := block :: rest.blocks }

/-- A buffer whose front is overwritten by the first `n` bytes of some blocks. -/
def overwrite (blocks : List Aes.Block) (n : Nat) (buffer : Bytes) : Bytes :=
  let written := (blocks.flatMap Aes.Block.toBytes).take n
  written ++ buffer.drop written.length

/-- Overwriting the front of a buffer by no more bytes than it has keeps its length. -/
theorem length_overwrite {blocks : List Aes.Block} {n : Nat} {buffer : Bytes}
    (h : n ≤ buffer.length) : (overwrite blocks n buffer).length = buffer.length := by
  simp only [overwrite, List.length_append, List.length_drop, List.length_take]
  omega

/-- Write up to one request's worth of bytes at the front of a buffer and tell how many. An empty
buffer asks for nothing. -/
def generate (g : CounterGenerator) (buffer : Bytes) : Draw CounterGenerator Nat :=
  if buffer.isEmpty then ⟨g, buffer, .ok 0⟩
  else
    match g.limits.validate with
    | .error e => ⟨g, buffer, .error e⟩
    | .ok _ =>
        if g.limits.reseedInterval < g.requests then ⟨g, buffer, .error .reseedRequired⟩
        else
          let n := min buffer.length g.limits.maxBytesPerRequest
          let made := produce (Aes.roundKeys g.key) ((n + 15) / 16) g.counter g.last
          let written := overwrite made.blocks n buffer
          let g := { g with counter := made.counter, last := made.last }
          -- the refused block has used up its counter, and the blocks before it stay written
          if made.repeats then ⟨g, written, .error (.fatal .entropy)⟩
          else
            let g := g.update (List.replicate seedLength 0)
            ⟨{ g with requests := g.requests + 1 }, written, .ok n⟩

/-- A request keeps the length of the buffer. -/
theorem length_generate (g : CounterGenerator) (buffer : Bytes) :
    (g.generate buffer).buffer.length = buffer.length := by
  unfold generate
  split
  · rfl
  · split
    · rfl
    · split
      · rfl
      · have h := fun blocks => @length_overwrite blocks _ buffer
          (Nat.min_le_left buffer.length g.limits.maxBytesPerRequest)
        dsimp only
        split <;> exact h _

/-- Fill a buffer by as many requests as it takes. -/
def fill (g : CounterGenerator) (buffer : Bytes) : Draw CounterGenerator Unit :=
  Draw.repeated generate buffer.length g buffer

/-- The limit of requests for the present seed is used up. -/
def needsReseed (g : CounterGenerator) : Bool :=
  g.limits.reseedInterval < g.requests

/-- The generator with its state wiped. -/
def uninstantiate (g : CounterGenerator) : CounterGenerator :=
  zeroed g.limits

/-- Every secret part of the state is zero. -/
def isZeroed (g : CounterGenerator) : Bool :=
  g.key.all (· == 0) && g.counter == 0
    && (g.last.map fun block => block.toBytes.all (· == 0)).getD true && g.requests == 0

/-- The request counter and the limits, with the secret state withheld. -/
def describe (g : CounterGenerator) : String :=
  "CtrDrbg \x7b reseed_counter: " ++ g.requests.repr ++ ", config: " ++ g.limits.describe
    ++ ", .. \x7d"

/-- A counter-mode generator is a random source. -/
instance : RandomSource CounterGenerator where
  fill g n := (g.fill (List.replicate n 0)).toFill
  length_of_fill _ _ _ ok :=
    Draw.length_of_toFill (by simp [fill, Draw.length_repeated length_generate]) ok

end CounterGenerator

end TrustedPlatform
