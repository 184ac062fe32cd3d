import Mathlib.Algebra.Order.Floor.Div
import TrustedPlatform.Proofs.Random.Wiped

/-!
# What requests and fillings account for

A generator serves as many requests as its limits allow for one seed, and each gives as many bytes
as it may. A buffer is filled by a loop of requests of the largest size and one for the rest, which
ends when the buffer is full, when the seed is used up or when a block repeats the last one.
`Draw.Loop` is that loop with no bound on its steps and `CounterGenerator.Filling` what it leaves;
the main theorem is `CounterGenerator.request_accounting`.
-/

namespace TrustedPlatform

/-! ### The loop that fills a buffer -/

namespace Draw

variable {σ : Type} {generate : σ → Bytes → Draw σ Nat}

/-- The loop ends after a number of requests with a draw: each request writes at the front of what
is left of the buffer, until nothing is left or one is refused. -/
inductive Loop (generate : σ → Bytes → Draw σ Nat) : σ → Bytes → Nat → Draw σ Unit → Prop where
  | done (s : σ) : Loop generate s [] 0 ⟨s, [], .ok ()⟩
  | refused {s : σ} {buffer : Bytes} {e : Fault} (hbuffer : buffer ≠ [])
      (hrefused : (generate s buffer).outcome = .error e) :
      Loop generate s buffer 1 ⟨(generate s buffer).state, (generate s buffer).buffer, .error e⟩
  | served {s : σ} {buffer : Bytes} {n calls : Nat} {rest : Draw σ Unit} (hbuffer : buffer ≠ [])
      (hserved : (generate s buffer).outcome = .ok n)
      (hrest : Loop generate (generate s buffer).state ((generate s buffer).buffer.drop n) calls
        rest) :
      Loop generate s buffer (calls + 1)
        ⟨rest.state, (generate s buffer).buffer.take n ++ rest.buffer, rest.outcome⟩

/-- A request that is refused and writes nothing ends the loop. -/
theorem Loop.stop {s t : σ} {buffer : Bytes} {e : Fault} (hbuffer : buffer ≠ [])
    (h : generate s buffer = ⟨t, buffer, .error e⟩) :
    Loop generate s buffer 1 ⟨t, buffer, .error e⟩ := by
  have hrefused : (generate s buffer).outcome = .error e := by rw [h]
  have hloop := Loop.refused hbuffer hrefused
  rwa [h] at hloop

/-- The loop goes on behind the bytes that its first request wrote. -/
theorem Loop.cons {s t u : σ} {buffer full bytes : Bytes} {calls : Nat} {outcome : Checked Unit}
    (hbuffer : buffer ≠ [])
    (h : generate s buffer = ⟨t, full ++ buffer.drop full.length, .ok full.length⟩)
    (hrest : Loop generate t (buffer.drop full.length) calls
      ⟨u, bytes ++ (buffer.drop full.length).drop bytes.length, outcome⟩) :
    Loop generate s buffer (calls + 1)
      ⟨u, full ++ bytes ++ buffer.drop (full ++ bytes).length, outcome⟩ := by
  have hserved : (generate s buffer).outcome = .ok full.length := by rw [h]
  have hnext : Loop generate (generate s buffer).state
      ((generate s buffer).buffer.drop full.length) calls
        ⟨u, bytes ++ (buffer.drop full.length).drop bytes.length, outcome⟩ := by
    rw [h, List.drop_left]
    exact hrest
  have hloop := Loop.served hbuffer hserved hnext
  rwa [h, List.take_left, ← List.append_assoc, List.drop_drop, ← List.length_append] at hloop

/-- The loop ends with a request that wrote all that was left. -/
theorem Loop.last {s t : σ} {buffer full : Bytes} (hbuffer : buffer ≠ [])
    (h : generate s buffer = ⟨t, full ++ buffer.drop full.length, .ok full.length⟩)
    (hall : buffer.length ≤ full.length) :
    Loop generate s buffer 1 ⟨t, full ++ buffer.drop full.length, .ok ()⟩ := by
  have hdone : buffer.drop full.length = [] := List.drop_of_length_le hall
  have hrest : Loop generate t (buffer.drop full.length) 0
      ⟨t, [] ++ (buffer.drop full.length).drop 0, .ok ()⟩ := by
    rw [hdone]
    exact .done t
  have hloop := Loop.cons hbuffer h hrest
  rwa [List.append_nil] at hloop

/-- Repeated requests end as the loop does when they may be as many. -/
theorem Loop.repeated_eq {s : σ} {buffer : Bytes} {calls : Nat} {d : Draw σ Unit}
    (h : Loop generate s buffer calls d) {requests : Nat} (hcalls : calls ≤ requests) :
    repeated generate requests s buffer = d := by
  induction h generalizing requests with
  | done s => cases requests <;> rfl
  | refused hbuffer hrefused =>
      obtain ⟨requests, rfl⟩ := Nat.exists_eq_add_of_le' hcalls
      obtain ⟨b, buffer, rfl⟩ := List.exists_cons_of_ne_nil hbuffer
      simp only [repeated, hrefused]
  | served hbuffer hserved _ ih =>
      obtain ⟨requests, rfl⟩ := Nat.exists_eq_add_of_le' (Nat.le_trans (Nat.le_add_left 1 _) hcalls)
      obtain ⟨b, buffer, rfl⟩ := List.exists_cons_of_ne_nil hbuffer
      simp only [repeated, hserved, ih (Nat.le_of_succ_le_succ hcalls)]

end Draw

namespace CounterGenerator

/-! ### Requests that are left -/

/-- The number of requests that the seed is still good for. -/
def remaining (g : CounterGenerator) : Nat :=
  g.limits.reseedInterval + 1 - g.requests

/-- The number of requests that some bytes take. -/
def needed (g : CounterGenerator) (length : Nat) : Nat :=
  length ⌈/⌉ g.limits.maxBytesPerRequest

/-- The generator that a number of served requests of the largest size leave. -/
def afterLargest (g : CounterGenerator) : Nat → CounterGenerator
  | 0 => g
  | count + 1 => (g.afterRequest g.limits.maxBytesPerRequest).afterLargest count

/-- None of a number of requests of the largest size has to repeat a block. -/
def Fresh (g : CounterGenerator) (count : Nat) : Prop :=
  ∀ k < count, ¬(g.afterLargest k).RepeatsLast

variable {g : CounterGenerator} {length : Nat}

/-- A request takes up one of those that are left. -/
theorem remaining_afterRequest (g : CounterGenerator) (n : Nat) :
    (g.afterRequest n).remaining = g.remaining - 1 :=
  Nat.sub_succ _ _

/-- No request is needed for no bytes. -/
theorem needed_zero (g : CounterGenerator) : g.needed 0 = 0 :=
  zero_ceilDiv _

/-- Some bytes take a request. -/
theorem needed_pos (hmax : 0 < g.limits.maxBytesPerRequest) (hpos : 0 < length) :
    0 < g.needed length := by
  refine Nat.pos_of_ne_zero fun hzero => ?_
  have := (ceilDiv_le_iff_le_mul hmax).mp (Nat.le_of_eq hzero)
  omega

/-- One request is enough for as many bytes as it may give. -/
theorem needed_of_le (hpos : 0 < length) (hle : length ≤ g.limits.maxBytesPerRequest) :
    g.needed length = 1 := by
  have hmax := Nat.lt_of_lt_of_le hpos hle
  refine Nat.le_antisymm ((ceilDiv_le_iff_le_mul hmax).mpr ?_) (needed_pos hmax hpos)
  rwa [Nat.mul_one]

/-- One request more is needed for as many bytes more as it may give. -/
theorem needed_add (hmax : 0 < g.limits.maxBytesPerRequest) (length : Nat) :
    g.needed (g.limits.maxBytesPerRequest + length) = g.needed length + 1 := by
  rw [needed, needed, Nat.ceilDiv_eq_add_pred_div, Nat.ceilDiv_eq_add_pred_div, Nat.add_assoc,
    Nat.add_sub_assoc (by omega), Nat.add_div_left _ hmax]

/-- Each request that is needed gives a byte. -/
theorem needed_le (hmax : 0 < g.limits.maxBytesPerRequest) (length : Nat) :
    g.needed length ≤ length :=
  (ceilDiv_le_iff_le_mul hmax).mpr (Nat.le_mul_of_pos_left length hmax)

/-- No block is repeated when the first request repeats none and those after it repeat none. -/
theorem Fresh.succ {count : Nat} (hnew : ¬g.RepeatsLast)
    (h : (g.afterRequest g.limits.maxBytesPerRequest).Fresh count) : g.Fresh (count + 1) := by
  intro k hk
  cases k with
  | zero => exact hnew
  | succ k => exact h k (Nat.lt_of_succ_lt_succ hk)

/-! ### Fillings -/

/-- How a filling of a number of bytes ends: after how many requests, with which generator, with
which bytes written and with which answer. The count is that of the requests that were served, which
are of the largest size but for the last one of a buffer that is filled. -/
inductive Filling (g : CounterGenerator) (length : Nat) :
    Nat → CounterGenerator → Bytes → Checked Unit → Prop where
  | filled {count : Nat} {t : CounterGenerator} {bytes : Bytes} (hcount : count = g.needed length)
      (hremaining : count ≤ g.remaining) (hnew : g.Fresh count)
      (hrequests : t.requests = g.requests + count) (hbytes : bytes.length = length) :
      Filling g length count t bytes (.ok ())
  | exhausted {count : Nat} {bytes : Bytes} (hneeded : count < g.needed length)
      (hremaining : count = g.remaining) (hnew : g.Fresh count)
      (hbytes : bytes.length = count * g.limits.maxBytesPerRequest) :
      Filling g length (count + 1) (g.afterLargest count) bytes (.error .reseedRequired)
  | repeated {count : Nat} {bytes : Bytes} (hneeded : count < g.needed length)
      (hremaining : count < g.remaining) (hnew : g.Fresh count)
      (hrepeats : (g.afterLargest count).RepeatsLast)
      (hbytes : bytes.length = count * g.limits.maxBytesPerRequest) :
      Filling g length (count + 1)
        { g.afterLargest count with counter := (g.afterLargest count).counter + 1 } bytes
        (.error (.fatal .entropy))

namespace Filling

variable {calls : Nat} {t : CounterGenerator} {bytes : Bytes} {outcome : Checked Unit}

/-- No more requests are made than the bytes take. -/
theorem calls_le (h : Filling g length calls t bytes outcome) : calls ≤ g.needed length := by
  cases h with
  | filled hcount => exact Nat.le_of_eq hcount
  | exhausted hneeded => exact hneeded
  | repeated hneeded => exact hneeded

/-- A filling by one request. -/
theorem single (hpos : 0 < length) (hle : length ≤ g.limits.maxBytesPerRequest)
    (hremaining : 0 < g.remaining) (hnew : ¬g.RepeatsLast) :
    Filling g length 1 (g.afterRequest length) (g.output length) (.ok ()) :=
  .filled (needed_of_le hpos hle).symm hremaining (Fresh.succ hnew nofun) rfl (g.length_output _)

/-- A filling that goes on after a request of the largest size. -/
theorem cons {full : Bytes} (hmax : 0 < g.limits.maxBytesPerRequest) (hremaining : 0 < g.remaining)
    (hnew : ¬g.RepeatsLast) (hfull : full.length = g.limits.maxBytesPerRequest)
    (h : Filling (g.afterRequest g.limits.maxBytesPerRequest) length calls t bytes outcome) :
    Filling g (g.limits.maxBytesPerRequest + length) (calls + 1) t (full ++ bytes) outcome := by
  have hneeded : (g.afterRequest g.limits.maxBytesPerRequest).needed length + 1 =
      g.needed (g.limits.maxBytesPerRequest + length) := (g.needed_add hmax length).symm
  have hleft : (g.afterRequest g.limits.maxBytesPerRequest).remaining + 1 = g.remaining := by
    rw [remaining_afterRequest]
    omega
  have hlength {count : Nat} (hbytes : bytes.length = count * g.limits.maxBytesPerRequest) :
      (full ++ bytes).length = (count + 1) * g.limits.maxBytesPerRequest := by
    rw [List.length_append, hfull, hbytes, Nat.add_one_mul, Nat.add_comm]
  cases h with
  | filled hcount hle hfresh hrequests hbytes =>
      refine .filled (by omega) (by omega) (hfresh.succ hnew) ?_ ?_
      · rw [hrequests]
        exact Nat.succ_add_eq_add_succ _ _
      · rw [List.length_append, hfull, hbytes]
  | exhausted hlt hcount hfresh hbytes =>
      exact .exhausted (by omega) (by omega) (hfresh.succ hnew) (hlength hbytes)
  | repeated hlt hcount hfresh hrepeats hbytes =>
      exact .repeated (by omega) (by omega) (hfresh.succ hnew) hrepeats (hlength hbytes)

end Filling

/-- The loop that fills a buffer ends, and as one of these fillings. -/
theorem loop_filling (hlimits : g.limits.validate = .ok ()) (buffer : Bytes) :
    ∃ calls t bytes outcome, Filling g buffer.length calls t bytes outcome ∧
      Draw.Loop generate g buffer calls ⟨t, bytes ++ buffer.drop bytes.length, outcome⟩ := by
  -- by induction on the bytes that are left, of which each served request takes some
  generalize hlength : buffer.length = length
  induction length using Nat.strongRecOn generalizing g buffer with
  | ind length ih =>
  have hmax := (GeneratorLimits.bounds_of_validate hlimits).2.2.1
  have hanswers := g.answers_generate buffer
  generalize hd : g.generate buffer = d at hanswers
  cases hanswers with
  | nothing hbuffer =>
      subst hbuffer hlength
      exact ⟨0, g, [], .ok (), .filled g.needed_zero.symm (Nat.zero_le _) nofun rfl rfl, .done g⟩
  | inadmissible _ hinvalid => cases hlimits.symm.trans hinvalid
  | exhausted hbuffer _ hrequests =>
      have hneeded : 0 < g.needed length :=
        needed_pos hmax (hlength ▸ List.length_pos_of_ne_nil hbuffer)
      have hremaining : 0 = g.remaining := (Nat.sub_eq_zero_of_le hrequests).symm
      exact ⟨1, g, [], _, .exhausted hneeded hremaining nofun (Nat.zero_mul _).symm,
        .stop hbuffer hd⟩
  | repeated hbuffer _ hrequests hrepeats =>
      have hneeded : 0 < g.needed length :=
        needed_pos hmax (hlength ▸ List.length_pos_of_ne_nil hbuffer)
      have hremaining : 0 < g.remaining := Nat.sub_pos_of_lt (Nat.lt_succ_of_le hrequests)
      exact ⟨1, _, [], _, .repeated hneeded hremaining nofun hrepeats (Nat.zero_mul _).symm,
        .stop hbuffer hd⟩
  | @served n hbuffer _ hrequests hnew hn =>
      have hpos := List.length_pos_of_ne_nil hbuffer
      have hremaining : 0 < g.remaining := Nat.sub_pos_of_lt (Nat.lt_succ_of_le hrequests)
      have hserved : g.generate buffer = ⟨g.afterRequest n,
          g.output n ++ buffer.drop (g.output n).length, .ok (g.output n).length⟩ := by
        rw [hd, length_output]
      by_cases hlast : length ≤ g.limits.maxBytesPerRequest
      · -- the request gives all that is left
        obtain rfl : n = length := by omega
        exact ⟨1, _, _, _, .single (hlength ▸ hpos) hlast hremaining hnew,
          .last hbuffer hserved (by rw [length_output, hlength])⟩
      · -- it gives as much as it may, and the loop goes on
        have hlargest : n = g.limits.maxBytesPerRequest := by omega
        obtain ⟨calls, t, bytes, outcome, hfilling, hloop⟩ :=
          ih (length - n) (by omega) (g := g.afterRequest n) hlimits
            (buffer.drop (g.output n).length) (by rw [length_output, List.length_drop, hlength])
        refine ⟨calls + 1, t, g.output n ++ bytes, outcome, ?_, .cons hbuffer hserved hloop⟩
        have hsplit : length = g.limits.maxBytesPerRequest + (length - n) := by omega
        rw [hsplit]
        subst hlargest
        exact hfilling.cons hmax hremaining hnew (g.length_output _)

/-- A buffer is filled as the loop does it. -/
theorem fill_filling (hlimits : g.limits.validate = .ok ()) (buffer : Bytes) :
    ∃ calls t bytes outcome, Filling g buffer.length calls t bytes outcome ∧
      g.fill buffer = ⟨t, bytes ++ buffer.drop bytes.length, outcome⟩ ∧
      Draw.Loop generate g buffer calls (g.fill buffer) := by
  obtain ⟨calls, t, bytes, outcome, hfilling, hloop⟩ := loop_filling hlimits buffer
  have hmax := (GeneratorLimits.bounds_of_validate hlimits).2.2.1
  have hcalls : calls ≤ buffer.length := Nat.le_trans hfilling.calls_le (needed_le hmax _)
  have hfill : g.fill buffer = ⟨t, bytes ++ buffer.drop bytes.length, outcome⟩ :=
    hloop.repeated_eq hcalls
  exact ⟨calls, t, bytes, outcome, hfilling, hfill, hfill ▸ hloop⟩

/-! ### Reached generators -/

/-- The generator has some limits, and counts at most one request more than they allow. -/
structure Within (limits : GeneratorLimits) (g : CounterGenerator) : Prop where
  limits_eq : g.limits = limits
  requests_le : g.requests ≤ limits.reseedInterval + 1

variable {limits : GeneratorLimits}

/-- A request stays within the limits. -/
theorem Within.generate (h : Within limits g) (buffer : Bytes) :
    Within limits (g.generate buffer).state := by
  have hanswers := g.answers_generate buffer
  generalize g.generate buffer = d at hanswers
  cases hanswers with
  | nothing | inadmissible | exhausted => exact h
  | repeated => exact ⟨h.limits_eq, h.requests_le⟩
  | served _ _ hrequests => exact ⟨h.limits_eq, Nat.succ_le_succ (h.limits_eq ▸ hrequests)⟩

/-- Each call stays within the limits. -/
theorem Within.perform (h : Within limits g) (call : Call) : Within limits (g.perform call) := by
  cases call with
  | generate buffer => exact h.generate buffer
  | fill buffer =>
      exact Draw.state_repeated (I := Within limits) (fun _ buffer hs => hs.generate buffer) _ h
        buffer
  | reseed entropy additional => exact ⟨h.limits_eq, Nat.le_add_left 1 _⟩
  | uninstantiate => exact ⟨h.limits_eq, Nat.zero_le _⟩

/-- A run stays within the limits. -/
theorem Within.run (h : Within limits g) (calls : List Call) : Within limits (g.run calls) := by
  induction calls generalizing g with
  | nil => exact h
  | cons call calls ih => exact ih (h.perform call)

/-! ### Accounting -/

/-- What a generator gives for a request or a filling, and what it counts for it. -/
structure Accounts (g : CounterGenerator) : Prop where
  /-- The request counter and the requests that are left make up one more than the limit. -/
  requests_add_remaining : g.requests + g.remaining = g.limits.reseedInterval + 1
  /-- A request for nothing changes nothing. -/
  nothing : g.generate [] = ⟨g, [], .ok 0⟩
  /-- So does a request that comes too late. -/
  exhausted : ∀ buffer ≠ [], g.limits.reseedInterval < g.requests →
    g.generate buffer = ⟨g, buffer, .error .reseedRequired⟩
  /-- A block that would be repeated is refused, before anything is written. -/
  repeated : ∀ buffer ≠ [], g.requests ≤ g.limits.reseedInterval → g.RepeatsLast →
    g.generate buffer = ⟨{ g with counter := g.counter + 1 }, buffer, .error (.fatal .entropy)⟩
  /-- Any other request is served and counts as one: it gives as many bytes as it may, at the front
  of the buffer. -/
  served : ∀ buffer ≠ [], g.requests ≤ g.limits.reseedInterval → ¬g.RepeatsLast →
    ∃ t bytes, g.generate buffer = ⟨t, bytes ++ buffer.drop bytes.length, .ok bytes.length⟩ ∧
      bytes.length = min buffer.length g.limits.maxBytesPerRequest ∧ t.requests = g.requests + 1
  /-- When a request is served, so is a shorter one, with the first of its bytes. -/
  shorter : ∀ short long : Bytes, short.length ≤ long.length →
    ∀ n, (g.generate long).outcome = .ok n → ∃ m, (g.generate short).outcome = .ok m ∧
      (g.generate short).buffer.take m <+: (g.generate long).buffer.take n
  /-- The loop that fills a buffer ends, after as many requests and with as much written as a
  filling accounts for. -/
  fill : ∀ buffer, ∃ calls t bytes outcome, Filling g buffer.length calls t bytes outcome ∧
    g.fill buffer = ⟨t, bytes ++ buffer.drop bytes.length, outcome⟩ ∧
    Draw.Loop generate g buffer calls (g.fill buffer)

/-- What a served request writes begins with what a shorter one would write. -/
theorem shorter_isPrefix {short long : Bytes} (hle : short.length ≤ long.length) {n : Nat}
    (hok : (g.generate long).outcome = .ok n) :
    ∃ m, (g.generate short).outcome = .ok m ∧
      (g.generate short).buffer.take m <+: (g.generate long).buffer.take n := by
  by_cases hshort : short = []
  · subst hshort
    exact ⟨0, rfl, List.nil_prefix⟩
  have hlong : long ≠ [] := fun h => by
    rw [h] at hle
    exact hshort (List.eq_nil_of_length_eq_zero (Nat.le_zero.mp hle))
  have hanswers := g.answers_generate long
  generalize g.generate long = d at hok hanswers
  cases hanswers with
  | nothing hempty => exact absurd hempty hlong
  | inadmissible | exhausted | repeated => cases hok
  | served _ hlimits hrequests hnew hn =>
      cases hok
      rw [generate_of_new hlimits hrequests hnew hshort]
      refine ⟨_, rfl, ?_⟩
      rw [List.take_left' (g.length_output _), List.take_left' (g.length_output _), hn]
      exact g.output_isPrefix (min_le_min_right _ hle)

/-- Whatever became of a generator that was instantiated within admissible limits, its requests and
fillings give exactly what its limits allow, and count for it. -/
theorem request_accounting (hlimits : limits.validate = .ok ()) (entropy personalization : Bytes)
    (calls : List Call) : Accounts ((instantiate entropy personalization limits).run calls) := by
  have hinitial : Within limits (instantiate entropy personalization limits) :=
    ⟨rfl, Nat.le_add_left 1 _⟩
  obtain ⟨hsame, hrequests⟩ := hinitial.run calls
  generalize (instantiate entropy personalization limits).run calls = g at hsame hrequests
  subst hsame
  exact {
    requests_add_remaining := Nat.add_sub_cancel' hrequests
    nothing := rfl
    exhausted := fun buffer hbuffer hused => generate_of_exhausted hlimits hused hbuffer
    repeated := fun buffer hbuffer hleft hrepeats =>
      generate_of_repeats hlimits hleft hrepeats hbuffer
    served := fun buffer hbuffer hleft hnew =>
      ⟨_, _, by rw [generate_of_new hlimits hleft hnew hbuffer, length_output],
        g.length_output _, rfl⟩
    shorter := fun short long hle n => shorter_isPrefix hle
    fill := fill_filling hlimits }

/-- A generator that may serve one request of sixteen bytes fills sixteen bytes of forty. -/
theorem request_accounting_testEntropy :
    let limits : GeneratorLimits := ⟨1, 16⟩
    let g := instantiate testEntropy [] limits
    limits.validate = .ok () ∧ Accounts g ∧
      ∃ bytes : Bytes, bytes.length = 16 ∧
        (g.fill (List.replicate 40 0)).buffer = bytes ++ List.replicate 24 0 ∧
        (g.fill (List.replicate 40 0)).outcome = .error .reseedRequired := by
  intro limits g
  have hlimits : limits.validate = .ok () := by decide
  have haccounts : Accounts g := request_accounting hlimits testEntropy [] []
  have hremaining : g.remaining = 1 := rfl
  have hmax : g.limits.maxBytesPerRequest = 16 := rfl
  have hneeded : g.needed (List.replicate 40 (0 : UInt8)).length = 3 := by
    rw [needed, hmax]
    rfl
  obtain ⟨calls, t, bytes, outcome, hfilling, hfill, -⟩ := haccounts.fill (List.replicate 40 0)
  refine ⟨hlimits, haccounts, bytes, ?_⟩
  rw [hfill]
  cases hfilling with
  | filled hcount hle => omega
  | repeated _ hlt _ hrepeats =>
      obtain rfl := Nat.lt_one_iff.mp (hremaining ▸ hlt)
      exact absurd hrepeats (not_repeatsLast rfl)
  | exhausted _ hcount _ hbytes =>
      rw [hcount, hremaining, hmax] at hbytes
      refine ⟨hbytes, ?_, rfl⟩
      rw [hbytes]
      rfl

end CounterGenerator

end TrustedPlatform
