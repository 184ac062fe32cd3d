import Mathlib.Data.List.DropRight
import TrustedPlatform.Random.Entropy

/-!
# What the continuous test draws and gives

The draws of a raw source are numbered from its start. A sequence of requests to the continuous
test reads them in order: a request for `n` bytes reads one draw for each eight bytes begun, after
one more that is given up when no request has been made since the last reset. What it gives are
these draws. The first draw that fails, or that repeats the one before it within the same stretch
between resets, ends the sequence for good. The main theorem is `ContinuousEntropy.continuousTest`.
-/

namespace TrustedPlatform.ContinuousEntropy

variable {ρ : Type} [RandomSource ρ]

/-! ### The draws of a raw source -/

section Draws

variable (raw : ρ)

/-- The raw source after a number of draws. -/
def rawAfter : Nat → ρ
  | 0 => raw
  | k + 1 => (RandomSource.fill (rawAfter k) blockLength).2

/-- What a draw answers. -/
def drawAt (k : Nat) : Checked Bytes :=
  (RandomSource.fill (rawAfter raw k) blockLength).1

/-- The bytes that a draw gives, none if it fails. -/
def blockAt (k : Nat) : Bytes :=
  match drawAt raw k with
  | .ok block => block
  | .error _ => []

/-- The first bytes of the draws from one on. -/
def bytesFrom (k n : Nat) : Bytes :=
  ((List.range ((n + 7) / 8)).flatMap fun i => blockAt raw (k + i)).take n

/-- A draw fails the test: it fails itself, or it repeats the draw before it. The first draw after
the last reset, before which `reset` draws were made, has none before it. -/
def Trips (reset k : Nat) : Prop :=
  (∃ e, drawAt raw k = .error e) ∨ reset < k ∧ drawAt raw k = drawAt raw (k - 1)

variable {raw}

/-- A draw is answered from where the ones before it left the raw source. -/
theorem fill_rawAfter (k : Nat) :
    RandomSource.fill (rawAfter raw k) blockLength = (drawAt raw k, rawAfter raw (k + 1)) :=
  rfl

/-- A draw that succeeds gives its bytes. -/
theorem blockAt_of_drawAt {k : Nat} {block : Bytes} (h : drawAt raw k = .ok block) :
    blockAt raw k = block := by
  rw [blockAt, h]

/-- A draw that succeeds gives a block. -/
theorem length_blockAt {k : Nat} {block : Bytes} (h : drawAt raw k = .ok block) :
    (blockAt raw k).length = blockLength := by
  rw [blockAt_of_drawAt h]
  exact RandomSource.length_of_fill _ _ _ h

/-- Some bytes begin with those of the first draw. -/
theorem bytesFrom_of_pos {k n : Nat} (hn : 0 < n) (hlength : (blockAt raw k).length = blockLength) :
    bytesFrom raw k n = (blockAt raw k).take n ++ bytesFrom raw (k + 1) (n - blockLength) := by
  have hcount : (n + 7) / 8 = (n - blockLength + 7) / 8 + 1 := by
    rw [blockLength]
    omega
  rw [bytesFrom, hcount, List.range_succ_eq_map, List.flatMap_cons, List.flatMap_map, Nat.add_zero,
    List.take_append, hlength, bytesFrom]
  simp only [Nat.succ_eq_add_one, Nat.add_assoc, Nat.add_comm 1]

end Draws

/-! ### Where the test stands -/

/-- The test stands at draw `k` of the raw source, the last reset having been at draw `reset`: no
draw so far has failed it. -/
structure Stands (raw : ρ) (reset k : Nat) (s : ContinuousEntropy ρ) : Prop where
  raw_eq : s.raw = rawAfter raw k
  failed_eq : s.failed = false
  reset_le : reset ≤ k
  /-- The draw to compare with is the last one, if there is one since the last reset. -/
  last_eq : s.last = if reset = k then none else some (blockAt raw (k - 1))
  accepted : ∀ j < k, ∃ block, drawAt raw j = .ok block
  distinct : ∀ j, reset ≤ j → j + 1 < k → drawAt raw (j + 1) ≠ drawAt raw j

/-- What comes of a request that reads `m` draws from draw `k` on: it gives some output, or it is
ended by the first draw that fails the test. -/
inductive Answers (raw : ρ) (reset k m : Nat) (output : Bytes) :
    Draw (ContinuousEntropy ρ) Unit → Prop where
  | passed {s : ContinuousEntropy ρ} (hclear : ∀ i < m, ¬Trips raw reset (k + i))
      (hstands : Stands raw reset (k + m) s) : Answers raw reset k m output ⟨s, output, .ok ()⟩
  | tripped {s : ContinuousEntropy ρ} {buffer : Bytes} {i : Nat} (hlt : i < m)
      (hclear : ∀ j < i, ¬Trips raw reset (k + j)) (htrips : Trips raw reset (k + i))
      (hfailed : s.failed = true) (hraw : s.raw = rawAfter raw (k + i + 1)) :
      Answers raw reset k m output ⟨s, buffer, .error (.fatal .entropy)⟩

section

variable {raw : ρ} {reset k m : Nat} {s : ContinuousEntropy ρ} {output : Bytes}

/-- One draw passes the test or trips it. -/
theorem Stands.nextBlock_cases (h : Stands raw reset k s) :
    (¬Trips raw reset k ∧ (∃ block, drawAt raw k = .ok block) ∧
      ∃ s', s.nextBlock = (.ok (blockAt raw k), s') ∧ Stands raw reset (k + 1) s') ∨
    (Trips raw reset k ∧ ∃ s', s.nextBlock = (.error (.fatal .entropy), s') ∧ s'.failed = true ∧
      s'.raw = rawAfter raw (k + 1)) := by
  rw [nextBlock, h.raw_eq, fill_rawAfter]
  cases hdraw : drawAt raw k with
  | error e => exact .inr ⟨.inl ⟨e, hdraw⟩, _, rfl, rfl, rfl⟩
  | ok block =>
      dsimp only
      -- the blocks compared are those of two draws, both of which succeeded
      have hrepeats : s.last = some block ↔ Trips raw reset k := by
        rw [Trips, hdraw, h.last_eq]
        by_cases hreset : reset = k
        · simp [hreset]
        · have hlt : reset < k := lt_of_le_of_ne h.reset_le hreset
          obtain ⟨before, hbefore⟩ := h.accepted (k - 1) (by omega)
          rw [if_neg hreset, hbefore, blockAt_of_drawAt hbefore]
          simp [hlt, eq_comm]
      by_cases hlast : s.last = some block
      · rw [if_pos hlast]
        exact .inr ⟨hrepeats.mp hlast, _, rfl, rfl, rfl⟩
      · have hclear : ¬Trips raw reset k := fun htrips => hlast (hrepeats.mpr htrips)
        rw [if_neg hlast, blockAt_of_drawAt hdraw]
        refine .inl ⟨hclear, ⟨block, rfl⟩, _, rfl, ?_⟩
        exact
          { raw_eq := rfl
            failed_eq := h.failed_eq
            reset_le := Nat.le_succ_of_le h.reset_le
            last_eq := by
              have hle := h.reset_le
              rw [if_neg (by omega), Nat.add_sub_cancel, blockAt_of_drawAt hdraw]
            accepted := fun j hj => by
              obtain hj | rfl := Nat.lt_succ_iff_lt_or_eq.mp hj
              · exact h.accepted j hj
              · exact ⟨block, hdraw⟩
            distinct := fun j hj hlt => by
              obtain hlt | rfl := Nat.lt_succ_iff_lt_or_eq.mp hlt
              · exact h.distinct j hj hlt
              · exact fun hsame => hclear (.inr ⟨Nat.lt_succ_of_le hj, hsame⟩) }

/-- A draw that passes comes before the answer to the rest of a request. -/
theorem Answers.cons (hclear : ¬Trips raw reset k) {d : Draw (ContinuousEntropy ρ) Unit}
    (h : Answers raw reset (k + 1) m output d) (front : Bytes) :
    Answers raw reset k (m + 1) (front ++ output) { d with buffer := front ++ d.buffer } := by
  have hnext (i : Nat) : k + 1 + i = k + (i + 1) := by omega
  have hcons {m : Nat} (h : ∀ i < m, ¬Trips raw reset (k + 1 + i)) :
      ∀ i < m + 1, ¬Trips raw reset (k + i) := by
    intro i hi
    cases i with
    | zero => exact hclear
    | succ i =>
        rw [← hnext]
        exact h i (Nat.lt_of_succ_lt_succ hi)
  cases h with
  | passed hrest hstands =>
      rw [hnext] at hstands
      exact .passed (hcons hrest) hstands
  | @tripped s buffer i hlt hrest htrips hfailed hraw =>
      rw [hnext] at htrips hraw
      exact .tripped (Nat.succ_lt_succ hlt) (hcons hrest) htrips hfailed hraw

/-- A request that is ended by its first draw. -/
theorem Answers.of_trips (htrips : Trips raw reset k) (hfailed : s.failed = true)
    (hraw : s.raw = rawAfter raw (k + 1)) (buffer : Bytes) :
    Answers raw reset k (m + 1) output ⟨s, buffer, .error (.fatal .entropy)⟩ :=
  .tripped (Nat.succ_pos m) nofun htrips hfailed hraw

/-- A request succeeds when none of its draws fails the test. -/
theorem Answers.ok_iff {d : Draw (ContinuousEntropy ρ) Unit}
    (h : Answers raw reset k m output d) :
    d.outcome = .ok () ↔ ∀ i < m, ¬Trips raw reset (k + i) := by
  cases h with
  | passed hclear => exact iff_of_true rfl hclear
  | @tripped s buffer i hlt hclear htrips => exact iff_of_false nofun fun h => h i hlt htrips

/-- A request that succeeds has read its draws and gives its output. -/
theorem Answers.of_ok {d : Draw (ContinuousEntropy ρ) Unit} (h : Answers raw reset k m output d)
    (hok : d.outcome = .ok ()) : d.state.raw = rawAfter raw (k + m) ∧ d.buffer = output := by
  cases h with
  | passed hclear hstands => exact ⟨hstands.raw_eq, rfl⟩
  | tripped => cases hok

/-- A request is ended by the first draw that fails the test. -/
theorem Answers.of_first {d : Draw (ContinuousEntropy ρ) Unit} (h : Answers raw reset k m output d)
    {i : Nat} (hi : i < m) (hfirst : ∀ j < i, ¬Trips raw reset (k + j))
    (hlast : Trips raw reset (k + i)) :
    d.outcome = .error (.fatal .entropy) ∧ d.state.raw = rawAfter raw (k + i + 1) := by
  cases h with
  | passed hclear => exact absurd hlast (hclear i hi)
  | @tripped s buffer i' hlt hclear htrips hfailed hraw =>
      -- both are the first draw that fails it
      obtain h | rfl | h := Nat.lt_trichotomy i i'
      · exact absurd hlast (hclear i h)
      · exact ⟨rfl, hraw⟩
      · exact absurd htrips (hfirst i' h)

/-- The blocks of a buffer are filled from the next draws. -/
theorem Stands.fillBlocks (h : Stands raw reset k s) (buffer : Bytes) :
    Answers raw reset k ((buffer.length + 7) / 8) (bytesFrom raw k buffer.length)
      (s.fillBlocks (buffer.chunks blockLength)) := by
  induction buffer using Bytes.chunks.induct blockLength generalizing s k with
  | case1 =>
      rw [Bytes.chunks]
      exact .passed nofun h
  | case2 b rest ih =>
      have hrest : (rest.drop (blockLength - 1)).length = (b :: rest).length - blockLength := by
        rw [List.length_drop, List.length_cons, blockLength]
        omega
      have hcount : ((b :: rest).length + 7) / 8
          = ((rest.drop (blockLength - 1)).length + 7) / 8 + 1 := by
        rw [hrest, List.length_cons, blockLength]
        omega
      rw [Bytes.chunks, ContinuousEntropy.fillBlocks, hcount]
      obtain ⟨hclear, ⟨block, hdraw⟩, s', hrun, hstands⟩ | ⟨htrips, s', hrun, hfailed, hraw⟩ :=
        h.nextBlock_cases
      · -- the last piece takes as many bytes of its block as it has
        have hpiece : (blockAt raw k).take ((b :: rest).take (max blockLength 1)).length
            = (blockAt raw k).take (b :: rest).length := by
          rw [List.length_take, List.take_eq_take_iff, length_blockAt hdraw, blockLength]
          omega
        rw [hrun, bytesFrom_of_pos (List.length_pos_of_ne_nil (List.cons_ne_nil b rest))
          (length_blockAt hdraw), ← hrest]
        dsimp only
        rw [hpiece]
        exact (ih hstands).cons hclear _
      · rw [hrun]
        exact .of_trips htrips hfailed hraw _

/-- A reset leaves nothing to compare the next draw with. -/
theorem Stands.of_reset (h : Stands raw reset k s) : Stands raw k k { s with last := none } where
  raw_eq := h.raw_eq
  failed_eq := h.failed_eq
  reset_le := le_rfl
  last_eq := (if_pos rfl).symm
  accepted := h.accepted
  distinct _ hj hlt := absurd (Nat.lt_of_succ_lt hlt) (Nat.not_lt.mpr hj)

/-- A request for some bytes reads their draws, after one more if none has been made since the last
reset. -/
theorem Stands.fill (h : Stands raw reset k s) {buffer : Bytes} (hbuffer : buffer ≠ []) :
    let priming := if reset = k then 1 else 0
    Answers raw reset k (priming + (buffer.length + 7) / 8)
      (bytesFrom raw (k + priming) buffer.length) (s.fill buffer) := by
  intro priming
  rw [ContinuousEntropy.fill, if_neg (by simp [h.failed_eq]), if_neg (by simpa using hbuffer),
    h.last_eq]
  by_cases hreset : reset = k
  · rw [show priming = 1 from if_pos hreset, if_pos hreset, Nat.add_comm 1]
    obtain ⟨hclear, -, s', hrun, hstands⟩ | ⟨htrips, s', hrun, hfailed, hraw⟩ := h.nextBlock_cases
    · rw [if_pos Option.isNone_none, hrun]
      exact (hstands.fillBlocks buffer).cons hclear []
    · rw [if_pos Option.isNone_none, hrun]
      exact .of_trips htrips hfailed hraw buffer
  · rw [show priming = 0 from if_neg hreset, if_neg hreset, Nat.zero_add]
    exact h.fillBlocks buffer

end

/-! ### Sequences of requests -/

/-- The source that a sequence of requests leaves. -/
def run (raw : ρ) (requests : List Bytes) : ContinuousEntropy ρ :=
  requests.foldl (fun s buffer => (s.fill buffer).state) (start raw)

/-- Each request succeeds when it is made to what the ones before it left. -/
def Served (raw : ρ) (requests : List Bytes) : Prop :=
  ∀ earlier buffer later, requests = earlier ++ buffer :: later →
    ((run raw earlier).fill buffer).outcome = .ok ()

/-- The requests up to the last reset. -/
def untilReset (requests : List Bytes) : List Bytes :=
  requests.rdropWhile (!·.isEmpty)

/-- The requests since the last reset, all of them for some bytes. -/
def sinceReset (requests : List Bytes) : List Bytes :=
  requests.rtakeWhile (!·.isEmpty)

/-- The draws that a request reads without using them: the first request for some bytes since the
last reset reads one. -/
def priming (earlier : List Bytes) : Nat :=
  if sinceReset earlier = [] then 1 else 0

/-- The draws that a request reads, given the requests before it. A reset reads none. -/
def cost (earlier : List Bytes) (buffer : Bytes) : Nat :=
  if buffer = [] then 0 else priming earlier + (buffer.length + 7) / 8

/-- The draws that requests read, given the requests before them. -/
def costs (earlier : List Bytes) : List Bytes → Nat
  | [] => 0
  | buffer :: later => cost earlier buffer + costs (earlier ++ [buffer]) later

/-- The draws that a sequence of requests reads from the start. -/
def drawn (requests : List Bytes) : Nat :=
  costs [] requests

/-- A further request adds its cost. -/
theorem drawn_concat (requests : List Bytes) (buffer : Bytes) :
    drawn (requests ++ [buffer]) = drawn requests + cost requests buffer := by
  have hcosts (earlier : List Bytes) : costs earlier (requests ++ [buffer]) =
      costs earlier requests + cost (earlier ++ requests) buffer := by
    induction requests generalizing earlier with
    | nil => simp [costs]
    | cons first later ih => simp [costs, ih, Nat.add_assoc]
  exact hcosts []

/-- A request for some bytes reads some draws. -/
theorem cost_pos (earlier : List Bytes) {buffer : Bytes} (hbuffer : buffer ≠ []) :
    0 < cost earlier buffer := by
  have hlength := List.length_pos_of_ne_nil hbuffer
  rw [cost, if_neg hbuffer]
  omega

/-- Draws have been made since the last reset exactly when requests have. -/
theorem drawn_untilReset (requests : List Bytes) :
    drawn (untilReset requests) ≤ drawn requests ∧
      (drawn (untilReset requests) = drawn requests ↔ sinceReset requests = []) := by
  induction requests using List.reverseRecOn with
  | nil => exact ⟨le_rfl, iff_of_true rfl rfl⟩
  | append_singleton requests buffer ih =>
      rw [untilReset, sinceReset]
      by_cases hbuffer : buffer = []
      · rw [List.rdropWhile_concat_neg _ _ _ (by simp [hbuffer]),
          List.rtakeWhile_concat_neg _ _ _ (by simp [hbuffer])]
        exact ⟨le_rfl, iff_of_true rfl rfl⟩
      · have hlt := Nat.lt_add_of_pos_right (n := drawn requests) (cost_pos requests hbuffer)
        rw [List.rdropWhile_concat_pos _ _ _ (by simpa using hbuffer),
          List.rtakeWhile_concat_pos _ _ _ (by simpa using hbuffer), drawn_concat]
        have hbefore := Nat.lt_of_le_of_lt ih.1 hlt
        exact ⟨hbefore.le, iff_of_false hbefore.ne (List.append_ne_nil_of_right_ne_nil _ nofun)⟩

section

variable {raw : ρ}

/-- A further request is made to what the ones before it left. -/
theorem run_concat (requests : List Bytes) (buffer : Bytes) :
    run raw (requests ++ [buffer]) = ((run raw requests).fill buffer).state :=
  List.foldl_concat ..

/-- All requests succeed when the last one does and the ones before it do. -/
theorem served_concat_iff {requests : List Bytes} {buffer : Bytes} :
    Served raw (requests ++ [buffer]) ↔
      Served raw requests ∧ ((run raw requests).fill buffer).outcome = .ok () := by
  constructor
  · refine fun h => ⟨fun earlier first later hrequests => ?_, h requests buffer [] rfl⟩
    exact h earlier first (later ++ [buffer]) (by rw [hrequests, List.append_assoc]; rfl)
  · rintro ⟨hserved, hlast⟩ earlier first later hrequests
    cases later using List.reverseRecOn with
    | nil =>
        obtain ⟨rfl, hfirst⟩ := List.append_inj' hrequests rfl
        cases hfirst
        exact hlast
    | append_singleton later last =>
        rw [← List.cons_append, ← List.append_assoc] at hrequests
        obtain ⟨rfl, -⟩ := List.append_inj' hrequests rfl
        exact hserved earlier first later rfl

/-- What a request is answered after requests that succeeded. -/
theorem Stands.answers {requests : List Bytes}
    (h : Stands raw (drawn (untilReset requests)) (drawn requests) (run raw requests))
    {buffer : Bytes} (hbuffer : buffer ≠ []) :
    Answers raw (drawn (untilReset requests)) (drawn requests) (cost requests buffer)
      (bytesFrom raw (drawn requests + priming requests) buffer.length)
      ((run raw requests).fill buffer) := by
  have hpriming : (if drawn (untilReset requests) = drawn requests then 1 else 0)
      = priming requests :=
    if_congr (drawn_untilReset requests).2 rfl rfl
  have hanswers := h.fill hbuffer
  rw [hpriming] at hanswers
  rw [cost, if_neg hbuffer]
  exact hanswers

/-- A reset is answered at once. -/
theorem Stands.fill_nil {reset k : Nat} {s : ContinuousEntropy ρ} (h : Stands raw reset k s) :
    s.fill [] = ⟨{ s with last := none }, [], .ok ()⟩ := by
  rw [ContinuousEntropy.fill, h.failed_eq]
  rfl

/-- After requests that succeeded, the test stands where they have read to. -/
theorem Served.stands {requests : List Bytes} (hserved : Served raw requests) :
    Stands raw (drawn (untilReset requests)) (drawn requests) (run raw requests) := by
  induction requests using List.reverseRecOn with
  | nil =>
      exact
        { raw_eq := rfl
          failed_eq := rfl
          reset_le := le_rfl
          last_eq := rfl
          accepted := nofun
          distinct := nofun }
  | append_singleton requests buffer ih =>
      obtain ⟨hearlier, hlast⟩ := served_concat_iff.mp hserved
      have hstands := ih hearlier
      rw [drawn_concat, run_concat, untilReset]
      by_cases hbuffer : buffer = []
      · subst hbuffer
        rw [List.rdropWhile_concat_neg _ _ _ (by simp), drawn_concat, cost, if_pos rfl,
          hstands.fill_nil]
        exact hstands.of_reset
      · have hanswers := hstands.answers hbuffer
        rw [List.rdropWhile_concat_pos _ _ _ (by simpa using hbuffer)]
        generalize (run raw requests).fill buffer = d at hlast hanswers
        cases hanswers with
        | passed hclear hnext => exact hnext
        | tripped => cases hlast

/-- A test that has failed answers nothing, and reads nothing. -/
theorem fill_of_failed {s : ContinuousEntropy ρ} (h : s.failed = true) (buffer : Bytes) :
    s.fill buffer = ⟨s, buffer, .error (.fatal .entropy)⟩ := by
  rw [fill, if_pos h]

/-- A request that fails after others that succeeded is a fatal loss of entropy, and leaves a test
that has failed. -/
theorem Served.refused {requests : List Bytes} (hserved : Served raw requests) {buffer : Bytes}
    (h : ((run raw requests).fill buffer).outcome ≠ .ok ()) :
    ((run raw requests).fill buffer).outcome = .error (.fatal .entropy) ∧
      ((run raw requests).fill buffer).state.failed = true := by
  by_cases hbuffer : buffer = []
  · rw [hbuffer, hserved.stands.fill_nil] at h
    exact absurd rfl h
  · have hanswers := hserved.stands.answers hbuffer
    generalize (run raw requests).fill buffer = d at h hanswers
    cases hanswers with
    | passed => exact absurd rfl h
    | tripped hlt hclear htrips hfailed hraw => exact ⟨rfl, hfailed⟩

/-- A sequence with a request that fails leaves a test that has failed. -/
theorem failed_of_not_served {requests : List Bytes} (h : ¬Served raw requests) :
    (run raw requests).failed = true := by
  induction requests using List.reverseRecOn with
  | nil => exact absurd (fun _ _ _ h => absurd h.symm (by simp)) h
  | append_singleton requests buffer ih =>
      rw [run_concat]
      by_cases hserved : Served raw requests
      · exact (hserved.refused fun hok => h (served_concat_iff.mpr ⟨hserved, hok⟩)).2
      · rw [fill_of_failed (ih hserved)]
        exact ih hserved

/-- Every request that fails does so in this way. -/
theorem refused_of_outcome_ne {requests : List Bytes} {buffer : Bytes}
    (h : ((run raw requests).fill buffer).outcome ≠ .ok ()) :
    ((run raw requests).fill buffer).outcome = .error (.fatal .entropy) ∧
      ((run raw requests).fill buffer).state.failed = true := by
  by_cases hserved : Served raw requests
  · exact hserved.refused h
  · have hrun := failed_of_not_served hserved
    rw [fill_of_failed hrun]
    exact ⟨rfl, hrun⟩

/-- A test that has failed stays as it is. -/
theorem foldl_of_failed {s : ContinuousEntropy ρ} (h : s.failed = true) (requests : List Bytes) :
    requests.foldl (fun s buffer => (s.fill buffer).state) s = s := by
  induction requests with
  | nil => rfl
  | cons buffer requests ih => rw [List.foldl_cons, fill_of_failed h, ih]

end

/-! ### The test -/

/-- What comes of a request to the continuous test over a raw source, after other requests. -/
structure ContinuousTest (raw : ρ) (earlier : List Bytes) (buffer : Bytes) : Prop where
  /-- Requests that succeeded have read their draws, and nothing else. -/
  raw_eq : Served raw earlier → (run raw earlier).raw = rawAfter raw (drawn earlier)
  /-- All these draws succeeded. -/
  accepted : Served raw earlier → ∀ k < drawn earlier, ∃ block, drawAt raw k = .ok block
  /-- No two consecutive ones since the last reset are equal. -/
  distinct : Served raw earlier → ∀ k, drawn (untilReset earlier) ≤ k → k + 1 < drawn earlier →
    drawAt raw (k + 1) ≠ drawAt raw k
  /-- The request succeeds exactly when none of the draws that it is to read fails the test. -/
  ok_iff : Served raw earlier → (((run raw earlier).fill buffer).outcome = .ok () ↔
    ∀ i < cost earlier buffer, ¬Trips raw (drawn (untilReset earlier)) (drawn earlier + i))
  /-- It then reads these draws, and gives those after the priming one, in order and cut to its
  length. -/
  served : Served raw earlier → ((run raw earlier).fill buffer).outcome = .ok () →
    ((run raw earlier).fill buffer).state.raw = rawAfter raw (drawn earlier + cost earlier buffer) ∧
    ((run raw earlier).fill buffer).buffer =
      bytesFrom raw (drawn earlier + priming earlier) buffer.length
  /-- The first of them that fails the test is the last draw that is made. -/
  tripped : Served raw earlier → ∀ i < cost earlier buffer,
    (∀ j < i, ¬Trips raw (drawn (untilReset earlier)) (drawn earlier + j)) →
    Trips raw (drawn (untilReset earlier)) (drawn earlier + i) →
      ((run raw earlier).fill buffer).outcome = .error (.fatal .entropy) ∧
      ((run raw earlier).fill buffer).state.raw = rawAfter raw (drawn earlier + i + 1)
  /-- Once a request has failed, it and every further one ends in a fatal loss of entropy, a reset
  too, and nothing moves. -/
  sticky : ((run raw earlier).fill buffer).outcome ≠ .ok () →
    ((run raw earlier).fill buffer).outcome = .error (.fatal .entropy) ∧
    ∀ later, run raw (earlier ++ buffer :: later) = ((run raw earlier).fill buffer).state ∧
      ∀ further, (run raw (earlier ++ buffer :: later)).fill further =
        ⟨run raw (earlier ++ buffer :: later), further, .error (.fatal .entropy)⟩

/-- Every request in every sequence over every raw source is answered so. -/
theorem continuousTest (raw : ρ) (earlier : List Bytes) (buffer : Bytes) :
    ContinuousTest raw earlier buffer where
  raw_eq hserved := hserved.stands.raw_eq
  accepted hserved := hserved.stands.accepted
  distinct hserved := hserved.stands.distinct
  ok_iff hserved := by
    by_cases hbuffer : buffer = []
    · rw [hbuffer, hserved.stands.fill_nil, cost, if_pos rfl]
      exact iff_of_true rfl nofun
    · exact (hserved.stands.answers hbuffer).ok_iff
  served hserved hok := by
    by_cases hbuffer : buffer = []
    · rw [hbuffer, hserved.stands.fill_nil, cost, if_pos rfl]
      exact ⟨hserved.stands.raw_eq, rfl⟩
    · exact (hserved.stands.answers hbuffer).of_ok hok
  tripped hserved i hi hfirst hlast := by
    have hbuffer : buffer ≠ [] := fun hnil => by
      rw [cost, if_pos hnil] at hi
      exact absurd hi (Nat.not_lt_zero i)
    exact (hserved.stands.answers hbuffer).of_first hi hfirst hlast
  sticky hne := by
    obtain ⟨houtcome, hfailed⟩ := refused_of_outcome_ne hne
    refine ⟨houtcome, fun later => ?_⟩
    have hlater : run raw (earlier ++ buffer :: later) = ((run raw earlier).fill buffer).state := by
      rw [run, List.foldl_append, List.foldl_cons]
      exact foldl_of_failed hfailed later
    refine ⟨hlater, fun further => ?_⟩
    rw [hlater]
    exact fill_of_failed hfailed further

/-- Three bytes and, after a reset, one byte more: each reads a draw and the one before it. -/
example : drawn [[0, 0, 0], [], [0]] = 4 := by
  decide

end TrustedPlatform.ContinuousEntropy
