import TrustedPlatform.Proofs.Cipher.Permutation
import TrustedPlatform.Random.Counter

/-!
# Requests to a counter-mode generator

As encryption permutes the blocks, the blocks of one request differ from each other. Only the first
of them can repeat the block before the request, so that a request that is refused writes nothing,
and leaves the key and the request counter as they were. `CounterGenerator.Answers` lists what a
request may do; the main theorem is `CounterGenerator.blocks_distinct`.
-/

namespace TrustedPlatform

/-! ### Limits -/

namespace GeneratorLimits

variable {limits : GeneratorLimits}

/-- Limits that are not admissible are refused as a parameter. -/
theorem validate_cases (limits : GeneratorLimits) :
    (limits.validate = .ok () ∧ 1 ≤ limits.reseedInterval ∧
      limits.reseedInterval ≤ maxReseedInterval ∧ 1 ≤ limits.maxBytesPerRequest ∧
      limits.maxBytesPerRequest ≤ maxRequest) ∨
    ∃ name reason, limits.validate = .error (.parameter name reason) := by
  rw [validate, Require.parameter, Require.parameter]
  split
  case isFalse => exact .inr ⟨_, _, rfl⟩
  case isTrue hinterval =>
    by_cases hbytes : 1 ≤ limits.maxBytesPerRequest ∧ limits.maxBytesPerRequest ≤ maxRequest
    · have hinterval := of_decide_eq_true hinterval
      rw [decide_eq_true hbytes, if_pos rfl]
      exact .inl ⟨rfl, hinterval.1, hinterval.2, hbytes⟩
    · rw [decide_eq_false hbytes]
      exact .inr ⟨_, _, rfl⟩

/-- Admissible limits are positive, and the one on requests is far below the largest word. -/
theorem bounds_of_validate (h : limits.validate = .ok ()) :
    1 ≤ limits.reseedInterval ∧ limits.reseedInterval ≤ maxReseedInterval ∧
      1 ≤ limits.maxBytesPerRequest ∧ limits.maxBytesPerRequest ≤ maxRequest := by
  obtain ⟨-, hlimits⟩ | ⟨name, reason, hrefused⟩ := limits.validate_cases
  · exact hlimits
  · rw [hrefused] at h
    cases h

end GeneratorLimits

namespace CounterGenerator

/-! ### Blocks -/

/-- No two counters have one encryption. -/
theorem encryptCounter_injective (keys : List Aes.Block) :
    Function.Injective (encryptCounter keys) := by
  intro c c' h
  have hblock := Aes.encryptWith_injective keys h
  have hbytes := congrArg Aes.Block.toBytes hblock
  rw [Aes.Block.toBytes_ofBytes (Bytes.length_ofNatWidth _ _),
    Aes.Block.toBytes_ofBytes (Bytes.length_ofNatWidth _ _)] at hbytes
  have hnumber := congrArg Bytes.toNat hbytes
  have hwidth : 256 ^ 16 = 2 ^ 128 := by norm_num
  rw [Bytes.toNat_ofNatWidth_of_lt (hwidth ▸ c.isLt),
    Bytes.toNat_ofNatWidth_of_lt (hwidth ▸ c'.isLt)] at hnumber
  exact BitVec.eq_of_toNat_eq hnumber

/-- A counter is not the one after it. -/
theorem add_one_ne (c : BitVec 128) : c + 1 ≠ c := by
  intro h
  simp at h

/-- Blocks that follow another block of the same keys do not repeat their predecessors. -/
theorem repeats_produce (keys : List Aes.Block) (count : Nat) {counter : BitVec 128}
    {last : Option Aes.Block} (h : last ≠ some (encryptCounter keys (counter + 1))) :
    (produce keys count counter last).repeats = false := by
  induction count generalizing counter last with
  | zero => rfl
  | succ count ih =>
      rw [produce]
      dsimp only
      rw [if_neg h]
      refine ih fun hrepeats => ?_
      exact add_one_ne _ (encryptCounter_injective keys (Option.some.inj hrepeats)).symm

/-- The encryptions of the counters that follow one. -/
def keystream (keys : List Aes.Block) (counter : BitVec 128) (count : Nat) : List Aes.Block :=
  (List.range count).map fun i => encryptCounter keys (counter + BitVec.ofNat 128 (i + 1))

/-- There are as many of them as are asked for. -/
theorem length_keystream (keys : List Aes.Block) (counter : BitVec 128) (count : Nat) :
    (keystream keys counter count).length = count := by
  rw [keystream, List.length_map, List.length_range]

/-- The first counter that follows comes before those that follow it. -/
theorem keystream_succ (keys : List Aes.Block) (counter : BitVec 128) (count : Nat) :
    keystream keys counter (count + 1) =
      encryptCounter keys (counter + 1) :: keystream keys (counter + 1) count := by
  have hnext (i : Nat) : counter + 1 + BitVec.ofNat 128 (i + 1) =
      counter + BitVec.ofNat 128 (i + 1 + 1) := by
    rw [BitVec.ofNat_add (i + 1) 1, BitVec.add_assoc, BitVec.add_comm 1]
    rfl
  rw [keystream, List.range_succ_eq_map, List.map_cons, List.map_map]
  refine congrArg (_ :: ·) (List.map_congr_left fun i _ => ?_)
  rw [hnext]
  rfl

/-- Blocks that do not repeat what went before are the encryptions of the next counters. -/
theorem blocks_produce (keys : List Aes.Block) (count : Nat) {counter : BitVec 128}
    {last : Option Aes.Block} (h : last ≠ some (encryptCounter keys (counter + 1))) :
    (produce keys count counter last).blocks = keystream keys counter count := by
  induction count generalizing counter last with
  | zero => rfl
  | succ count ih =>
      rw [produce, keystream_succ]
      dsimp only
      rw [if_neg h]
      refine congrArg (_ :: ·) (ih fun hrepeats => ?_)
      exact add_one_ne _ (encryptCounter_injective keys (Option.some.inj hrepeats)).symm

/-- When the first block repeats what went before, none is given out, and one counter is used up. -/
theorem produce_of_repeats {keys : List Aes.Block} {count : Nat} (hcount : 0 < count)
    {counter : BitVec 128} {last : Option Aes.Block}
    (h : last = some (encryptCounter keys (counter + 1))) :
    produce keys count counter last = ⟨[], counter + 1, last, true⟩ := by
  obtain ⟨count, rfl⟩ := Nat.exists_eq_add_one_of_ne_zero hcount.ne'
  rw [produce]
  dsimp only
  rw [if_pos h]

/-! ### Bytes of blocks -/

/-- The first bytes of some blocks are those of the first blocks. -/
theorem flatMap_toBytes_take (blocks : List Aes.Block) (count : Nat) :
    (blocks.take count).flatMap Aes.Block.toBytes =
      (blocks.flatMap Aes.Block.toBytes).take (16 * count) := by
  induction blocks generalizing count with
  | nil => rw [List.take_nil, List.flatMap_nil, List.take_nil]
  | cons block blocks ih =>
      cases count with
      | zero => rfl
      | succ count =>
          rw [List.take_succ_cons, List.flatMap_cons, List.flatMap_cons, ih, Nat.mul_succ,
            Nat.add_comm, ← block.length_toBytes, List.take_length_add_append]

/-- The bytes of some blocks after the first are those of the blocks after the first. -/
theorem flatMap_toBytes_drop (blocks : List Aes.Block) (count : Nat) :
    (blocks.drop count).flatMap Aes.Block.toBytes =
      (blocks.flatMap Aes.Block.toBytes).drop (16 * count) := by
  induction blocks generalizing count with
  | nil => rw [List.drop_nil, List.flatMap_nil, List.drop_nil]
  | cons block blocks ih =>
      cases count with
      | zero => rfl
      | succ count =>
          rw [List.drop_succ_cons, List.flatMap_cons, ih, Nat.mul_succ, Nat.add_comm,
            ← block.length_toBytes, List.drop_length_add_append]

/-- Blocks hold enough bytes for a request. -/
theorem length_take_blocks {blocks : List Aes.Block} {n : Nat} (hblocks : n ≤ 16 * blocks.length) :
    ((blocks.flatMap Aes.Block.toBytes).take n).length = n := by
  rw [List.length_take, List.length_flatMap]
  simp
  omega

/-- Without blocks, nothing is overwritten. -/
theorem overwrite_nil (n : Nat) (buffer : Bytes) : overwrite [] n buffer = buffer := by
  simp [overwrite]

/-- The bytes that a request for `n` of them gives, when it is served. -/
def output (g : CounterGenerator) (n : Nat) : Bytes :=
  ((keystream (Aes.roundKeys g.key) g.counter ((n + 15) / 16)).flatMap Aes.Block.toBytes).take n

/-- There are as many of them as are asked for. -/
@[simp] theorem length_output (g : CounterGenerator) (n : Nat) : (g.output n).length = n := by
  refine length_take_blocks ?_
  rw [length_keystream]
  omega

/-- The blocks of a served request, written over the front of a buffer. -/
theorem overwrite_keystream (g : CounterGenerator) (n : Nat) (buffer : Bytes) :
    overwrite (keystream (Aes.roundKeys g.key) g.counter ((n + 15) / 16)) n buffer =
      g.output n ++ buffer.drop n := by
  rw [overwrite]
  exact congrArg (g.output n ++ List.drop · buffer) (g.length_output n)

/-- A piece of a block's length, at a multiple of it, is the encryption of one counter. -/
theorem output_block (g : CounterGenerator) {n i : Nat} (h : 16 * (i + 1) ≤ n) :
    ((g.output n).drop (16 * i)).take 16 =
      (encryptCounter (Aes.roundKeys g.key) (g.counter + BitVec.ofNat 128 (i + 1))).toBytes := by
  have hi : i < (n + 15) / 16 := by omega
  have hone : ((keystream (Aes.roundKeys g.key) g.counter ((n + 15) / 16)).drop i).take 1 =
      [encryptCounter (Aes.roundKeys g.key) (g.counter + BitVec.ofNat 128 (i + 1))] := by
    rw [List.drop_eq_getElem_cons (by rwa [length_keystream]), List.take_succ_cons, List.take_zero]
    simp [keystream]
  rw [output, List.drop_take, List.take_take, Nat.min_eq_left (by omega), ← flatMap_toBytes_drop,
    ← Nat.mul_one 16, ← flatMap_toBytes_take, hone, List.flatMap_singleton]

/-- No two pieces of a block's length are the same. -/
theorem output_blocks_ne (g : CounterGenerator) {n i j : Nat} (hij : i < j)
    (hj : 16 * (j + 1) ≤ n) (hn : n ≤ GeneratorLimits.maxRequest) :
    ((g.output n).drop (16 * i)).take 16 ≠ ((g.output n).drop (16 * j)).take 16 := by
  have hmax : GeneratorLimits.maxRequest < 2 ^ 128 := by decide
  rw [g.output_block (Nat.le_trans (by omega) hj), g.output_block hj]
  intro h
  have hcounters := encryptCounter_injective _ (Aes.Block.toBytes_injective h)
  -- the counter does not come back within a request
  have hnumbers : BitVec.ofNat 128 (i + 1) = BitVec.ofNat 128 (j + 1) := by
    simpa using hcounters
  have htoNat := congrArg BitVec.toNat hnumbers
  rw [BitVec.toNat_ofNat, BitVec.toNat_ofNat, Nat.mod_eq_of_lt (by omega),
    Nat.mod_eq_of_lt (by omega)] at htoNat
  omega

/-- What a shorter request gives is a prefix of what a longer one gives. -/
theorem output_isPrefix (g : CounterGenerator) {m n : Nat} (h : m ≤ n) :
    g.output m <+: g.output n := by
  have hkeystream : keystream (Aes.roundKeys g.key) g.counter ((m + 15) / 16) =
      (keystream (Aes.roundKeys g.key) g.counter ((n + 15) / 16)).take ((m + 15) / 16) := by
    rw [keystream, keystream, ← List.map_take, List.take_range, Nat.min_eq_left (by omega)]
  have htake : g.output m = (g.output n).take m := by
    rw [output, output, hkeystream, flatMap_toBytes_take, List.take_take, List.take_take,
      Nat.min_eq_left (by omega), Nat.min_eq_left h]
  rw [htake]
  exact List.take_prefix m _

/-! ### Requests -/

/-- The next block repeats the one that was given out last. -/
def RepeatsLast (g : CounterGenerator) : Prop :=
  g.last = some (encryptCounter (Aes.roundKeys g.key) (g.counter + 1))

/-- The generator that a served request for `n` bytes leaves. -/
def afterRequest (g : CounterGenerator) (n : Nat) : CounterGenerator :=
  let made := produce (Aes.roundKeys g.key) ((n + 15) / 16) g.counter g.last
  let used := { g with counter := made.counter, last := made.last }
  { used.update (List.replicate seedLength 0) with requests := g.requests + 1 }

/-- What a request may do: nothing, be refused for the limits, for a seed that is used up or for a
block that repeats the last one, or be served. -/
inductive Answers (g : CounterGenerator) (buffer : Bytes) : Draw CounterGenerator Nat → Prop where
  | nothing (hbuffer : buffer = []) : Answers g buffer ⟨g, buffer, .ok 0⟩
  | inadmissible {name reason : String} (hbuffer : buffer ≠ [])
      (hlimits : g.limits.validate = .error (.parameter name reason)) :
      Answers g buffer ⟨g, buffer, .error (.parameter name reason)⟩
  | exhausted (hbuffer : buffer ≠ []) (hlimits : g.limits.validate = .ok ())
      (hrequests : g.limits.reseedInterval < g.requests) :
      Answers g buffer ⟨g, buffer, .error .reseedRequired⟩
  | repeated (hbuffer : buffer ≠ []) (hlimits : g.limits.validate = .ok ())
      (hrequests : g.requests ≤ g.limits.reseedInterval) (hrepeats : g.RepeatsLast) :
      Answers g buffer ⟨{ g with counter := g.counter + 1 }, buffer, .error (.fatal .entropy)⟩
  | served {n : Nat} (hbuffer : buffer ≠ []) (hlimits : g.limits.validate = .ok ())
      (hrequests : g.requests ≤ g.limits.reseedInterval) (hnew : ¬g.RepeatsLast)
      (hn : n = min buffer.length g.limits.maxBytesPerRequest) :
      Answers g buffer ⟨g.afterRequest n, g.output n ++ buffer.drop n, .ok n⟩

variable {g : CounterGenerator} {buffer : Bytes}

/-- A request does one of these. -/
theorem answers_generate (g : CounterGenerator) (buffer : Bytes) :
    g.Answers buffer (g.generate buffer) := by
  unfold generate
  by_cases hbuffer : buffer = []
  · rw [if_pos (List.isEmpty_iff.mpr hbuffer)]
    exact .nothing hbuffer
  · rw [if_neg (mt List.isEmpty_iff.mp hbuffer)]
    obtain ⟨hlimits, -⟩ | ⟨name, reason, hlimits⟩ := g.limits.validate_cases
    case inr =>
      rw [hlimits]
      exact .inadmissible hbuffer hlimits
    rw [hlimits]
    dsimp only
    by_cases hrequests : g.limits.reseedInterval < g.requests
    · rw [if_pos hrequests]
      exact .exhausted hbuffer hlimits hrequests
    · rw [if_neg hrequests]
      have hrequests := Nat.le_of_not_lt hrequests
      by_cases hrepeats : g.RepeatsLast
      · have hcount : 0 < (min buffer.length g.limits.maxBytesPerRequest + 15) / 16 := by
          have := List.length_pos_of_ne_nil hbuffer
          have := (GeneratorLimits.bounds_of_validate hlimits).2.2.1
          omega
        rw [produce_of_repeats hcount hrepeats, overwrite_nil]
        exact .repeated hbuffer hlimits hrequests hrepeats
      · rw [repeats_produce _ _ hrepeats, if_neg Bool.false_ne_true, blocks_produce _ _ hrepeats,
          overwrite_keystream]
        exact .served hbuffer hlimits hrequests hrepeats rfl

/-- A request for some bytes is refused once the seed is used up. -/
theorem generate_of_exhausted (hlimits : g.limits.validate = .ok ())
    (hrequests : g.limits.reseedInterval < g.requests) (hbuffer : buffer ≠ []) :
    g.generate buffer = ⟨g, buffer, .error .reseedRequired⟩ := by
  have hanswers := g.answers_generate buffer
  generalize g.generate buffer = d at hanswers
  cases hanswers with
  | nothing hempty => exact absurd hempty hbuffer
  | inadmissible _ hinvalid => cases hlimits.symm.trans hinvalid
  | exhausted => rfl
  | repeated _ _ hle | served _ _ hle => exact absurd hrequests (Nat.not_lt.mpr hle)

/-- Before that, one whose first block repeats the last only uses up a counter. -/
theorem generate_of_repeats (hlimits : g.limits.validate = .ok ())
    (hrequests : g.requests ≤ g.limits.reseedInterval) (hrepeats : g.RepeatsLast)
    (hbuffer : buffer ≠ []) :
    g.generate buffer =
      ⟨{ g with counter := g.counter + 1 }, buffer, .error (.fatal .entropy)⟩ := by
  have hanswers := g.answers_generate buffer
  generalize g.generate buffer = d at hanswers
  cases hanswers with
  | nothing hempty => exact absurd hempty hbuffer
  | inadmissible _ hinvalid => cases hlimits.symm.trans hinvalid
  | exhausted _ _ hused => exact absurd hused (Nat.not_lt.mpr hrequests)
  | repeated => rfl
  | served _ _ _ hnew => exact absurd hrepeats hnew

/-- And one whose first block is new is served. -/
theorem generate_of_new (hlimits : g.limits.validate = .ok ())
    (hrequests : g.requests ≤ g.limits.reseedInterval) (hnew : ¬g.RepeatsLast)
    (hbuffer : buffer ≠ []) :
    let n := min buffer.length g.limits.maxBytesPerRequest
    g.generate buffer = ⟨g.afterRequest n, g.output n ++ buffer.drop n, .ok n⟩ := by
  intro n
  have hanswers := g.answers_generate buffer
  generalize g.generate buffer = d at hanswers
  cases hanswers with
  | nothing hempty => exact absurd hempty hbuffer
  | inadmissible _ hinvalid => cases hlimits.symm.trans hinvalid
  | exhausted _ _ hused => exact absurd hused (Nat.not_lt.mpr hrequests)
  | repeated _ _ _ hrepeats => exact absurd hrepeats hnew
  | served _ _ _ _ hn => rw [hn]

/-- Before the seed is used up, a request for some bytes writes as many as one request may, and
counts; or it is refused for a repeated block, and only uses up a counter. -/
theorem generate_of_requests_le (hlimits : g.limits.validate = .ok ())
    (hrequests : g.requests ≤ g.limits.reseedInterval) (hbuffer : buffer ≠ []) :
    g.generate buffer =
      ⟨{ g with counter := g.counter + 1 }, buffer, .error (.fatal .entropy)⟩ ∨
    ∃ g' written, g.generate buffer =
        ⟨g', written, .ok (min buffer.length g.limits.maxBytesPerRequest)⟩ ∧
      g'.limits = g.limits ∧ g'.requests = g.requests + 1 ∧
      written.drop (min buffer.length g.limits.maxBytesPerRequest)
        = buffer.drop (min buffer.length g.limits.maxBytesPerRequest) := by
  by_cases hrepeats : g.RepeatsLast
  · exact .inl (generate_of_repeats hlimits hrequests hrepeats hbuffer)
  · exact .inr ⟨_, _, generate_of_new hlimits hrequests hrepeats hbuffer, rfl, rfl,
      List.drop_left' (g.length_output _)⟩

/-- No block is repeated when there is none before the request. -/
theorem not_repeatsLast (hlast : g.last = none) : ¬g.RepeatsLast :=
  fun h => nomatch hlast.symm.trans h

/-- A production that repeats a block has given out none before it. -/
theorem blocks_of_repeats {count : Nat}
    (h : (produce (Aes.roundKeys g.key) count g.counter g.last).repeats = true) :
    (produce (Aes.roundKeys g.key) count g.counter g.last).blocks = [] := by
  by_cases hrepeats : g.RepeatsLast
  · have hcount : 0 < count := Nat.pos_of_ne_zero fun hzero => by
      rw [hzero] at h
      cases h
    rw [produce_of_repeats hcount hrepeats]
  · rw [repeats_produce _ count hrepeats] at h
    cases h

/-- The pieces of a block's length that a served request writes differ from each other. -/
theorem written_blocks_ne {n i j : Nat} (hok : (g.generate buffer).outcome = .ok n) (hij : i < j)
    (hj : 16 * (j + 1) ≤ n) :
    ((g.generate buffer).buffer.drop (16 * i)).take 16 ≠
      ((g.generate buffer).buffer.drop (16 * j)).take 16 := by
  have hanswers := g.answers_generate buffer
  generalize g.generate buffer = d at hok hanswers
  cases hanswers with
  | inadmissible | exhausted | repeated => cases hok
  | nothing =>
      cases hok
      omega
  | served _ hlimits _ _ hn =>
      cases hok
      have hmax := (GeneratorLimits.bounds_of_validate hlimits).2.2.2
      have hpiece (k : Nat) (hk : 16 * (k + 1) ≤ n) :
          ((g.output n ++ buffer.drop n).drop (16 * k)).take 16 =
            ((g.output n).drop (16 * k)).take 16 := by
        rw [List.drop_append_of_le_length (by rw [length_output]; omega),
          List.take_append_of_le_length (by rw [List.length_drop, length_output]; omega)]
      rw [hpiece i (by omega), hpiece j hj]
      exact g.output_blocks_ne hij hj (by omega)

/-- A request ends in a loss of entropy exactly when it comes within admissible limits, before the
seed is used up, and its first block repeats the one before it. -/
theorem generate_repeated_iff :
    (g.generate buffer).outcome = .error (.fatal .entropy) ↔
      buffer ≠ [] ∧ g.limits.validate = .ok () ∧ g.requests ≤ g.limits.reseedInterval ∧
        g.RepeatsLast := by
  have hanswers := g.answers_generate buffer
  generalize g.generate buffer = d at hanswers
  cases hanswers with
  | nothing hempty => exact iff_of_false nofun fun h => h.1 hempty
  | inadmissible _ hinvalid => exact iff_of_false nofun fun h => by cases h.2.1.symm.trans hinvalid
  | exhausted _ _ hused => exact iff_of_false nofun fun h => Nat.not_lt.mpr h.2.2.1 hused
  | repeated hbuffer hlimits hrequests hrepeats =>
      exact iff_of_true rfl ⟨hbuffer, hlimits, hrequests, hrepeats⟩
  | served _ _ _ hnew => exact iff_of_false nofun fun h => hnew h.2.2.2

/-- A request that is refused leaves the buffer and the key as they were. -/
theorem unchanged_of_refused {e : Fault} (h : (g.generate buffer).outcome = .error e) :
    (g.generate buffer).buffer = buffer ∧ (g.generate buffer).state.key = g.key := by
  have hanswers := g.answers_generate buffer
  generalize g.generate buffer = d at h hanswers
  cases hanswers with
  | nothing | served => cases h
  | inadmissible | exhausted | repeated => exact ⟨rfl, rfl⟩

/-- The blocks of a request that is served differ from each other, whatever the key, the counter,
the block before it and the limits. So the check for a repeated block can refuse no block but the
first of a request, and a request that is refused, for this or for any other reason, leaves the
buffer and the key as they were. -/
theorem blocks_distinct (g : CounterGenerator) (buffer : Bytes) :
    (∀ n, (g.generate buffer).outcome = .ok n → ∀ i j, i < j → 16 * (j + 1) ≤ n →
      ((g.generate buffer).buffer.drop (16 * i)).take 16 ≠
        ((g.generate buffer).buffer.drop (16 * j)).take 16) ∧
    (∀ count, (produce (Aes.roundKeys g.key) count g.counter g.last).repeats = true →
      (produce (Aes.roundKeys g.key) count g.counter g.last).blocks = []) ∧
    ((g.generate buffer).outcome = .error (.fatal .entropy) ↔
      buffer ≠ [] ∧ g.limits.validate = .ok () ∧ g.requests ≤ g.limits.reseedInterval ∧
        g.RepeatsLast) ∧
    ∀ e, (g.generate buffer).outcome = .error e →
      (g.generate buffer).buffer = buffer ∧ (g.generate buffer).state.key = g.key := by
  exact ⟨fun _ hok _ _ => written_blocks_ne hok, fun _ => blocks_of_repeats,
    generate_repeated_iff, fun _ => unchanged_of_refused⟩

end CounterGenerator

end TrustedPlatform
