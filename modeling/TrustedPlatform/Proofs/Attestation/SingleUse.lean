import TrustedPlatform.Arithmetic.Exact
import TrustedPlatform.Attestation.Response
import TrustedPlatform.Proofs.Attestation.Commitment
import TrustedPlatform.Proofs.Random.Outcome

/-!
# Single use of commitments

A run of commitments and signatures over one state is recorded as the events that its calls cause.
A counter is open when it was handed out and no signature has consumed it since, and the flags of
the state, one for each counter modulo the window, tell exactly which of the last counters are open.
Hence no counter is consumed twice, and no two signatures come from one secret scalar. The main
theorem is `single_use`.
-/

namespace TrustedPlatform.Attestation

open Arithmetic Signature

/-! ### Single calls -/

namespace CommitState

/-- The flags with the one at a place replaced. -/
def setFlag (flags : Vector Bool window) (place : Fin window) (flag : Bool) : Vector Bool window :=
  flags.set place flag place.isLt

/-- The state with a counter closed. -/
def close (state : CommitState) (counter : UInt64) : CommitState :=
  { state with outstanding := setFlag state.outstanding (slot counter) false }

/-- Consuming closes an outstanding counter. -/
theorem consume_of_isOutstanding {state : CommitState} {counter : UInt64}
    (h : state.isOutstanding counter = true) :
    state.consume counter = (.ok (), state.close counter) :=
  if_pos h

/-- Consuming any other counter is refused, and changes nothing. -/
theorem consume_of_not_isOutstanding {state : CommitState} {counter : UInt64}
    (h : ¬state.isOutstanding counter = true) :
    state.consume counter = (.error (.parameter "counter" "no outstanding commit"), state) :=
  if_neg h

end CommitState

section Signing

variable {α σ : Type} [Arithmetic α] [RandomSource σ]

/-- A signature is the response to its own nonce, under the secret scalar of its counter. -/
theorem respond_yields (c : Curve α) (state : CommitState) (counter : UInt64) (name : Bytes)
    (h : Hash) (d : α) (digest : Bytes) :
    (respond c state counter name h d digest : Randomized σ (Bytes × α)).Yields fun signature =>
      ∃ r, state.secretScalar c counter name = .ok r ∧
        respondWith c h d r digest signature.1 = .ok signature := by
  refine (Randomized.Yields.lift fun r hr => hr).bind fun r hr => ?_
  refine (Randomized.Yields.retry (Randomized.Yields.draw _) ?_ _ _).mono fun _ h => ⟨r, hr, h⟩
  intro nonce _ signature hsignature
  obtain ⟨t, -, hrest⟩ := exists_of_bind_eq_ok hsignature
  obtain ⟨s, -, ⟨⟩⟩ := exists_of_bind_eq_ok hrest
  exact hsignature

/-- Signing closes an outstanding counter, whether it returns a signature or not, and changes
nothing for any other counter. -/
theorem sign_cases (c : Curve α) (state : CommitState) (counter : UInt64) (name : Bytes) (h : Hash)
    (d : α) (digest : Bytes) (source : σ) :
    (state.isOutstanding counter = true ∧ ∃ outcome source',
      sign c state counter name h d digest source = (outcome, state.close counter, source')) ∨
    (¬state.isOutstanding counter = true ∧ ∃ e,
      sign c state counter name h d digest source = (.error e, state, source)) := by
  rw [sign]
  by_cases hopen : state.isOutstanding counter = true
  · rw [CommitState.consume_of_isOutstanding hopen]
    exact .inl ⟨hopen, _, _, rfl⟩
  · rw [CommitState.consume_of_not_isOutstanding hopen]
    exact .inr ⟨hopen, _, rfl⟩

/-- A returned signature used up an outstanding counter, and was computed from its secret
scalar. -/
theorem sign_eq_ok {c : Curve α} {state : CommitState} {counter : UInt64} {name : Bytes} {h : Hash}
    {d : α} {digest : Bytes} {source : σ} {signature : Bytes × α}
    (hsign : (sign c state counter name h d digest source).1 = .ok signature) :
    state.isOutstanding counter = true ∧ ∃ r, state.secretScalar c counter name = .ok r ∧
      respondWith c h d r digest signature.1 = .ok signature := by
  rw [sign] at hsign
  by_cases hopen : state.isOutstanding counter = true
  · rw [CommitState.consume_of_isOutstanding hopen] at hsign
    exact ⟨hopen, respond_yields c (state.close counter) counter name h d digest source _ hsign⟩
  · rw [CommitState.consume_of_not_isOutstanding hopen] at hsign
    cases hsign

end Signing

/-! ### Runs -/

/-- A call on the commitments, with all its arguments. -/
inductive Call : Type 1 where
  | commit {α : Type} [Arithmetic α] (c : Curve α) (d : α) (name : Bytes)
      (base : Option (Jacobian α)) (basename : Option Basename) (cancel : CancelSignal)
  | sign {α σ : Type} [Arithmetic α] [RandomSource σ] (c : Curve α) (counter : UInt64)
      (name : Bytes) (hash : Hash) (d : α) (digest : Bytes) (source : σ)

/-- What a call does to a counter. -/
inductive Event where
  /-- A commitment was returned with the counter. -/
  | handedOut (counter : UInt64)
  /-- A signature got past the consumption of the counter. -/
  | consumed (counter : UInt64)
  /-- A signature was returned for the counter. -/
  | signed (counter : UInt64)
  deriving DecidableEq

/-- A state with the events that led to it, the latest first. -/
structure History where
  state : CommitState
  events : List Event

namespace History

/-- The history after one more call. -/
def step (history : History) : Call → History
  | @Call.commit _ _ c d name base basename cancel =>
      match Attestation.commit c history.state d name base basename cancel with
      | (.ok commitment, state) => ⟨state, .handedOut commitment.counter :: history.events⟩
      | (.error _, state) => ⟨state, history.events⟩
  | @Call.sign _ _ _ _ c counter name hash d digest source =>
      let past := (history.state.consume counter).1.isOk
      match Attestation.sign c history.state counter name hash d digest source with
      | (.ok _, state, _) => ⟨state, .signed counter :: .consumed counter :: history.events⟩
      | (.error _, state, _) =>
          ⟨state, if past then .consumed counter :: history.events else history.events⟩

/-- The history after calls, one after the other. -/
def run (history : History) (calls : List Call) : History :=
  calls.foldl step history

end History

namespace Event

/-- The counters that were handed out, the latest first. -/
def allHandedOut (events : List Event) : List UInt64 :=
  events.filterMap fun | .handedOut counter => some counter | _ => none

/-- The counters that a signature consumed, the latest first. -/
def allConsumed (events : List Event) : List UInt64 :=
  events.filterMap fun | .consumed counter => some counter | _ => none

/-- The counters that a signature was returned for, the latest first. -/
def allSigned (events : List Event) : List UInt64 :=
  events.filterMap fun | .signed counter => some counter | _ => none

/-- The counter was handed out, and no signature has consumed it since. -/
def Open (events : List Event) (counter : UInt64) : Prop :=
  ∃ later earlier, events = later ++ .handedOut counter :: earlier ∧ .consumed counter ∉ later

/-- A counter is open after an event that hands it out, and stays open unless consumed. -/
theorem open_cons_iff {event : Event} {events : List Event} {counter : UInt64} :
    Open (event :: events) counter ↔
      event = .handedOut counter ∨ Open events counter ∧ event ≠ .consumed counter := by
  constructor
  · rintro ⟨later, earlier, h, hlater⟩
    cases later with
    | nil => exact .inl (List.cons.inj h).1
    | cons first later =>
        obtain ⟨rfl, rfl⟩ := List.cons.inj h
        rw [List.mem_cons, not_or] at hlater
        exact .inr ⟨⟨later, earlier, rfl, hlater.2⟩, Ne.symm hlater.1⟩
  · rintro (rfl | ⟨⟨later, earlier, rfl, hlater⟩, hne⟩)
    · exact ⟨[], events, rfl, List.not_mem_nil⟩
    · refine ⟨event :: later, earlier, rfl, ?_⟩
      rw [List.mem_cons, not_or]
      exact ⟨Ne.symm hne, hlater⟩

/-- An open counter was handed out. -/
theorem mem_allHandedOut_of_open {events : List Event} {counter : UInt64}
    (h : Open events counter) : counter ∈ allHandedOut events := by
  obtain ⟨later, earlier, rfl, -⟩ := h
  rw [allHandedOut, List.mem_filterMap]
  exact ⟨.handedOut counter, List.mem_append_right _ List.mem_cons_self, rfl⟩

end Event

/-! ### Flags -/

namespace CommitState

/-- Two counters have one place exactly when they agree modulo the window. -/
theorem slot_eq_iff {a b : UInt64} : slot a = slot b ↔ a.toNat % window = b.toNat % window :=
  Fin.ext_iff

/-- Different counters that are less than the window apart have different places. -/
theorem slot_ne {a b : UInt64} (hne : a ≠ b) (hab : a.toNat < b.toNat + window)
    (hba : b.toNat < a.toNat + window) : slot a ≠ slot b := by
  have hne := mt UInt64.toNat_inj.mp hne
  rw [Ne, slot_eq_iff]
  show ¬_ % 128 = _ % 128
  change _ < _ + 128 at hab hba
  omega

/-- Setting the flag of a counter changes the flags at its place. -/
theorem flag_set (flags : Vector Bool window) (a b : UInt64) (flag : Bool) :
    (setFlag flags (slot a) flag).get (slot b) =
      if slot a = slot b then flag else flags.get (slot b) := by
  show (flags.set (slot a) flag)[(slot b).val] = if _ then _ else flags[(slot b).val]
  rw [Vector.getElem_set]
  simp only [Fin.ext_iff]

/-- An outstanding counter is one of the last of the window, and its flag is set. -/
theorem isOutstanding_iff {state : CommitState} {counter : UInt64} :
    state.isOutstanding counter = true ↔ 0 < counter.toNat ∧
      counter.toNat ≤ state.counter.toNat ∧ state.counter.toNat < counter.toNat + window ∧
      state.outstanding.get (slot counter) = true := by
  rw [isOutstanding]
  simp only [Bool.and_eq_true, bne_iff_ne, decide_eq_true_eq, and_assoc]
  refine and_congr ?_ (and_congr_right fun hle => and_congr_left fun _ => ?_)
  · rw [← UInt64.toNat_inj.ne, UInt64.toNat_zero, Nat.pos_iff_ne_zero]
  · rw [UInt64.lt_iff_toNat_lt, UInt64.toNat_sub_of_le _ _ hle]
    rw [UInt64.le_iff_toNat_le] at hle
    show _ < 128 ↔ _ < _ + 128
    omega

end CommitState

namespace History

open Event

/-- A call hands out the next counter, or closes an outstanding one with or without a signature, or
changes nothing. -/
theorem step_cases (history : History) (call : Call) :
    history.step call = history ∨
    history.step call = ⟨history.state.record (history.state.counter + 1),
      .handedOut (history.state.counter + 1) :: history.events⟩ ∨
    ∃ counter, history.state.isOutstanding counter = true ∧
      (history.step call = ⟨history.state.close counter, .consumed counter :: history.events⟩ ∨
        history.step call = ⟨history.state.close counter,
          .signed counter :: .consumed counter :: history.events⟩) := by
  cases call with
  | commit c d name base basename cancel =>
      rw [step]
      rcases commit_cases c history.state d name base basename cancel with
        ⟨commitment, hcommit, hcounter⟩ | ⟨e, hcommit⟩
      · rw [hcommit]
        exact .inr (.inl (hcounter ▸ rfl))
      · rw [hcommit]
        exact .inl rfl
  | sign c counter name hash d digest source =>
      rw [step]
      rcases sign_cases c history.state counter name hash d digest source with
        ⟨hopen, outcome, source', hsign⟩ | ⟨hopen, e, hsign⟩
      · refine .inr (.inr ⟨counter, hopen, ?_⟩)
        rw [hsign, CommitState.consume_of_isOutstanding hopen]
        cases outcome with
        | ok signature => exact .inr rfl
        | error e => exact .inl rfl
      · rw [hsign, CommitState.consume_of_not_isOutstanding hopen]
        exact .inl rfl

/-- What holds of the state and of the events after any number of calls. -/
structure Inv (history : History) : Prop where
  /-- The counter is the number of commitments. -/
  counter_eq : history.state.counter.toNat = (allHandedOut history.events).length
  /-- The state keeps the counter that was handed out last. -/
  last_eq : history.state.counter = (allHandedOut history.events).headD 0
  /-- Counters are handed out from one on. -/
  range : ∀ counter ∈ allHandedOut history.events,
    0 < counter.toNat ∧ counter.toNat ≤ history.state.counter.toNat
  /-- Later counters are larger. -/
  increasing : (allHandedOut history.events).Pairwise fun later earlier => earlier < later
  /-- In the window, the flags tell the open counters. -/
  flag_iff : ∀ counter : UInt64, 0 < counter.toNat →
    counter.toNat ≤ history.state.counter.toNat →
    history.state.counter.toNat < counter.toNat + window →
    (history.state.outstanding.get (CommitState.slot counter) = true ↔ Open history.events counter)
  /-- A consumed counter does not open again. -/
  closed : ∀ counter ∈ allConsumed history.events,
    counter.toNat ≤ history.state.counter.toNat ∧ ¬Open history.events counter
  /-- No counter is consumed twice. -/
  consumed_nodup : (allConsumed history.events).Nodup
  /-- A signature is returned only past a consumption. -/
  signed_sublist : (allSigned history.events).Sublist (allConsumed history.events)

/-- A state that hands out its first counter next. -/
theorem Inv.start (nonce : Bytes) : Inv ⟨.start nonce, []⟩ where
  counter_eq := rfl
  last_eq := rfl
  range := nofun
  increasing := .nil
  flag_iff _ hpos hle _ := absurd (Nat.lt_of_lt_of_le hpos hle) (Nat.lt_irrefl 0)
  closed := nofun
  consumed_nodup := .nil
  signed_sublist := .slnil

namespace Inv

variable {history : History}

/-- The outstanding counters are the open ones among the last of the window. -/
theorem isOutstanding_iff (h : history.Inv) {counter : UInt64} :
    history.state.isOutstanding counter = true ↔ Open history.events counter ∧
      history.state.counter.toNat < counter.toNat + window := by
  rw [CommitState.isOutstanding_iff]
  constructor
  · rintro ⟨hpos, hle, hwindow, hflag⟩
    exact ⟨(h.flag_iff counter hpos hle hwindow).mp hflag, hwindow⟩
  · rintro ⟨hopen, hwindow⟩
    obtain ⟨hpos, hle⟩ := h.range counter (mem_allHandedOut_of_open hopen)
    exact ⟨hpos, hle, hwindow, (h.flag_iff counter hpos hle hwindow).mpr hopen⟩

/-- Handing out the next counter. -/
theorem handOut (h : history.Inv) (hfew : (allHandedOut history.events).length + 1 < UInt64.size) :
    Inv ⟨history.state.record (history.state.counter + 1),
      .handedOut (history.state.counter + 1) :: history.events⟩ := by
  have hcounter := h.counter_eq
  have hnext : (history.state.counter + 1).toNat = history.state.counter.toNat + 1 := by
    rw [← hcounter] at hfew
    rw [UInt64.toNat_add, UInt64.toNat_one, Nat.mod_eq_of_lt hfew]
  generalize hnew : history.state.counter + 1 = new at hnext
  refine ⟨?_, rfl, ?_, ?_, ?_, ?_, h.consumed_nodup, h.signed_sublist⟩
  · exact hnext.trans (congrArg (· + 1) hcounter)
  · intro counter hmem
    show 0 < _ ∧ _ ≤ new.toNat
    rcases List.mem_cons.mp hmem with rfl | hmem
    · omega
    · have := h.range counter hmem
      omega
  · refine .cons (fun earlier hmem => ?_) h.increasing
    have := h.range earlier hmem
    rw [UInt64.lt_iff_toNat_lt]
    omega
  · intro counter hpos hle hwindow
    change counter.toNat ≤ new.toNat at hle
    change new.toNat < counter.toNat + window at hwindow
    show (CommitState.setFlag history.state.outstanding _ true).get _ = true ↔ _
    rw [CommitState.flag_set, open_cons_iff]
    by_cases heq : counter = new
    · subst heq
      rw [if_pos rfl]
      exact ⟨fun _ => .inl rfl, fun _ => rfl⟩
    · -- the other counters of the new window were in the old one, at other places
      have hne := mt UInt64.toNat_inj.mp heq
      rw [if_neg (CommitState.slot_ne (Ne.symm heq) hwindow (by omega)),
        h.flag_iff counter hpos (by omega) (by omega)]
      have hevent : Event.handedOut new ≠ .handedOut counter :=
        fun h => heq (Event.handedOut.inj h).symm
      exact ⟨fun hopen => .inr ⟨hopen, nofun⟩, fun hopen => (hopen.resolve_left hevent).1⟩
  · intro counter hmem
    obtain ⟨hle, hclosed⟩ := h.closed counter hmem
    refine ⟨by show _ ≤ new.toNat; omega, ?_⟩
    rw [open_cons_iff, not_or]
    refine ⟨fun heq => ?_, fun hopen => hclosed hopen.1⟩
    rw [Event.handedOut.inj heq] at hnext
    omega

/-- Consuming an outstanding counter. -/
theorem consume (h : history.Inv) {used : UInt64}
    (hused : history.state.isOutstanding used = true) :
    Inv ⟨history.state.close used, .consumed used :: history.events⟩ := by
  obtain ⟨hopen, husedWindow⟩ := h.isOutstanding_iff.mp hused
  obtain ⟨husedPos, husedLe⟩ := h.range used (mem_allHandedOut_of_open hopen)
  have hfresh : used ∉ allConsumed history.events := fun hmem => (h.closed used hmem).2 hopen
  have hstill {counter : UInt64} (hne : counter ≠ used) :
      Open (.consumed used :: history.events) counter ↔ Open history.events counter := by
    rw [open_cons_iff]
    refine ⟨fun hopen => (hopen.resolve_left nofun).1, fun hopen => .inr ⟨hopen, ?_⟩⟩
    exact fun heq => hne (Event.consumed.inj heq).symm
  have hclosed : ¬Open (.consumed used :: history.events) used := by
    rw [open_cons_iff]
    rintro (heq | ⟨-, hne⟩)
    · cases heq
    · exact hne rfl
  refine ⟨h.counter_eq, h.last_eq, h.range, h.increasing, ?_, ?_,
    List.nodup_cons.mpr ⟨hfresh, h.consumed_nodup⟩, ?_⟩
  · intro counter hpos hle hwindow
    change counter.toNat ≤ history.state.counter.toNat at hle
    change history.state.counter.toNat < counter.toNat + window at hwindow
    show (CommitState.setFlag history.state.outstanding _ false).get _ = true ↔ _
    rw [CommitState.flag_set]
    by_cases heq : counter = used
    · subst heq
      rw [if_pos rfl]
      exact ⟨nofun, fun hopen => absurd hopen hclosed⟩
    · rw [if_neg (CommitState.slot_ne (Ne.symm heq) (by omega) (by omega)),
        h.flag_iff counter hpos hle hwindow, hstill heq]
  · intro counter hmem
    rcases List.mem_cons.mp hmem with rfl | hmem
    · exact ⟨husedLe, hclosed⟩
    · have hne : counter ≠ used := fun heq => hfresh (heq ▸ hmem)
      rw [hstill hne]
      exact h.closed counter hmem
  · exact h.signed_sublist.cons used

/-- Returning a signature for the counter that was consumed last. -/
theorem sign {state : CommitState} {events : List Event} {used : UInt64}
    (h : Inv ⟨state, .consumed used :: events⟩)
    (hsublist : (allSigned events).Sublist (allConsumed events)) :
    Inv ⟨state, .signed used :: .consumed used :: events⟩ := by
  have hsame {counter : UInt64} : Open (.signed used :: .consumed used :: events) counter ↔
      Open (.consumed used :: events) counter := by
    rw [open_cons_iff]
    exact ⟨fun hopen => (hopen.resolve_left nofun).1, fun hopen => .inr ⟨hopen, nofun⟩⟩
  refine ⟨h.counter_eq, h.last_eq, h.range, h.increasing, ?_, ?_, h.consumed_nodup, ?_⟩
  · intro counter hpos hle hwindow
    rw [hsame]
    exact h.flag_iff counter hpos hle hwindow
  · intro counter hmem
    rw [hsame]
    exact h.closed counter hmem
  · exact hsublist.cons_cons used

/-- One more call. -/
theorem step (h : history.Inv) (call : Call)
    (hfew : (allHandedOut (history.step call).events).length < UInt64.size) :
    (history.step call).Inv := by
  rcases history.step_cases call with hstep | hstep | ⟨counter, hopen, hstep | hstep⟩
  · rwa [hstep]
  · rw [hstep] at hfew ⊢
    exact h.handOut hfew
  · rw [hstep]
    exact h.consume hopen
  · rw [hstep]
    exact (h.consume hopen).sign h.signed_sublist

end Inv

/-- A call adds at most one counter to those that were handed out. -/
theorem length_allHandedOut_step (history : History) (call : Call) :
    (allHandedOut history.events).length ≤ (allHandedOut (history.step call).events).length ∧
    (allHandedOut (history.step call).events).length ≤
      (allHandedOut history.events).length + 1 := by
  rcases history.step_cases call with hstep | hstep | ⟨counter, -, hstep | hstep⟩
  · rw [hstep]
    exact ⟨Nat.le_refl _, Nat.le_succ _⟩
  · rw [hstep]
    exact ⟨Nat.le_succ _, Nat.le_refl _⟩
  · rw [hstep]
    exact ⟨Nat.le_refl _, Nat.le_succ _⟩
  · rw [hstep]
    exact ⟨Nat.le_refl _, Nat.le_succ _⟩

/-- Calls add at most as many counters as they are. -/
theorem length_allHandedOut_run (history : History) (calls : List Call) :
    (allHandedOut history.events).length ≤ (allHandedOut (history.run calls).events).length ∧
    (allHandedOut (history.run calls).events).length ≤
      (allHandedOut history.events).length + calls.length := by
  induction calls generalizing history with
  | nil => exact ⟨Nat.le_refl _, Nat.le_refl _⟩
  | cons call calls ih =>
      obtain ⟨hlower, hupper⟩ := history.length_allHandedOut_step call
      obtain ⟨hlower', hupper'⟩ := ih (history.step call)
      refine ⟨Nat.le_trans hlower hlower', Nat.le_trans hupper' ?_⟩
      rw [List.length_cons]
      omega

/-- Any number of calls that hand out fewer counters than there are. -/
theorem Inv.run {history : History} (h : history.Inv) (calls : List Call)
    (hfew : (allHandedOut (history.run calls).events).length < UInt64.size) :
    (history.run calls).Inv := by
  induction calls generalizing history with
  | nil => exact h
  | cons call calls ih =>
      have hprefix := (length_allHandedOut_run (history.step call) calls).1
      exact ih (h.step call (Nat.lt_of_le_of_lt hprefix hfew)) hfew

/-- The commitments of a history are used once. -/
structure SingleUse (history : History) : Prop where
  /-- The outstanding counters are the open ones among the last of the window. -/
  outstanding_iff : ∀ counter, history.state.isOutstanding counter = true ↔
    Open history.events counter ∧ history.state.counter - counter < 128
  /-- Later counters are larger, and the state keeps the last of them. -/
  increasing : (allHandedOut history.events).Pairwise fun later earlier => earlier < later
  last_eq : history.state.counter = (allHandedOut history.events).headD 0
  /-- A counter that cannot be consumed leaves the state as it is. -/
  refused : ∀ counter e, (history.state.consume counter).1 = .error e →
    (history.state.consume counter).2 = history.state
  /-- No counter is consumed twice, and none has two signatures. -/
  consumed_nodup : (allConsumed history.events).Nodup
  signed_nodup : (allSigned history.events).Nodup
  /-- A signature that is returned next is the first for its counter, and is computed from the
  secret scalar of that counter. -/
  next_signature : ∀ {α σ : Type} [Arithmetic α] [RandomSource σ] (c : Curve α) (counter : UInt64)
    (name : Bytes) (hash : Hash) (d : α) (digest : Bytes) (source : σ) (signature : Bytes × α),
    (Attestation.sign c history.state counter name hash d digest source).1 = .ok signature →
    counter ∉ allConsumed history.events ∧
      ∃ r, history.state.secretScalar c counter name = .ok r ∧
        respondWith c hash d r digest signature.1 = .ok signature

/-- The invariant gives single use. -/
theorem Inv.singleUse {history : History} (h : history.Inv) : history.SingleUse where
  outstanding_iff counter := by
    rw [h.isOutstanding_iff]
    refine and_congr_right fun hopen => ?_
    have hle := (h.range counter (mem_allHandedOut_of_open hopen)).2
    rw [UInt64.lt_iff_toNat_lt, UInt64.toNat_sub_of_le _ _ (UInt64.le_iff_toNat_le.mpr hle)]
    show _ < _ + 128 ↔ _ < 128
    omega
  increasing := h.increasing
  last_eq := h.last_eq
  refused counter e he := by
    by_cases hopen : history.state.isOutstanding counter = true
    · rw [CommitState.consume_of_isOutstanding hopen] at he
      cases he
    · rw [CommitState.consume_of_not_isOutstanding hopen]
  consumed_nodup := h.consumed_nodup
  signed_nodup := h.consumed_nodup.sublist h.signed_sublist
  next_signature c counter name hash d digest source signature hsign := by
    obtain ⟨houtstanding, hcomputed⟩ := sign_eq_ok hsign
    exact ⟨fun hmem => (h.closed counter hmem).2 (h.isOutstanding_iff.mp houtstanding).1, hcomputed⟩

end History

/-- The states that commitments start from: one over a given secret, or over a drawn one. -/
inductive CommitState.Made : CommitState → Prop where
  | start (nonce : Bytes) (hlen : nonce.length = nonceLength) : Made (.start nonce)
  | generate {σ : Type} [RandomSource σ] (source : σ) {state : CommitState}
      (h : ((CommitState.generate : Randomized σ CommitState).runFrom source).1 = .ok state) :
      Made state

/-- A drawn state has the invariant. -/
theorem CommitState.generate_yields {σ : Type} [RandomSource σ] :
    (CommitState.generate : Randomized σ CommitState).Yields fun state =>
      History.Inv ⟨state, []⟩ := by
  refine (Randomized.Yields.draw _).bind fun nonce _ => ?_
  exact .pure (.start nonce)

/-- A state that is made has the invariant. -/
theorem CommitState.Made.inv {state : CommitState} (h : state.Made) :
    History.Inv ⟨state, []⟩ := by
  cases h with
  | start nonce => exact .start nonce
  | generate source h => exact CommitState.generate_yields source state h

open Event in
/-- Over every state that is made and through all calls, as long as fewer counters are handed out
than there are, the commitments are used once. -/
theorem single_use {state : CommitState} (hstate : state.Made) (calls : List Call)
    (hfew : (allHandedOut (History.run ⟨state, []⟩ calls).events).length < UInt64.size) :
    (History.run ⟨state, []⟩ calls).SingleUse :=
  (hstate.inv.run calls hfew).singleUse

/-- On the 256-bit curve, a commitment is handed out, a signature uses it up, and a second signature
for it is refused. -/
theorem single_use_nistP256 :
    ∃ history : History, history = History.run ⟨.start (List.replicate 32 0x5a), []⟩
      (.commit (.ofParameters .nistP256 : Curve Nat) 5 [0x4b] none none .never ::
        List.replicate 2 (.sign (.ofParameters .nistP256 : Curve Nat) 1 [0x4b]
          HashAlgorithm.sha256.hash 5 (List.replicate 32 0xa5)
          (⟨fun i => UInt8.ofNat (i + 1), none, 0⟩ : ByteStream))) ∧
      history.events = [.signed 1, .consumed 1, .handedOut 1] ∧ history.SingleUse := by
  refine ⟨_, rfl, by decide +kernel, single_use (.start _ rfl) _ ?_⟩
  exact Nat.lt_of_le_of_lt (History.length_allHandedOut_run _ _).2 (by decide)

end TrustedPlatform.Attestation
