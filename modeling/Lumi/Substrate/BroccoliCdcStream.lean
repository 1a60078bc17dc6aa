import Lumi.Lib.InsertionMap
import Lumi.Lib.JsValue
import Lumi.Lib.Run

/-!
# The stream of changes

`BroccoliCdcStream` numbers the changes of the tables, keeps the latest of them and calls the
subscribers whose filters match.  A subscription that asks for an earlier number is first called
with the changes that are kept; those come from `getEvents`, which returns a hundred of them unless
it is told otherwise.

A callback answers, of each event and of what it has received before, whether it throws; it does not
use the stream.  The ids of the subscriptions, which are drawn, are given.  What a subscriber has
received stands in its entry.
-/

namespace Lumi.Substrate

open Js List

variable {π : Type*}

inductive BroccoliCdcOp
  | insert
  | update
  | delete
  | txCommit
  | txRollback
  deriving DecidableEq

structure BroccoliCdcEvent (π : Type*) where
  lsn : ℕ
  timestamp : ℕ
  table : Text
  op : BroccoliCdcOp
  recordId : Text
  before : Option π
  after : Option π
  txId : Option ℕ
  deriving DecidableEq

structure BroccoliCdcFilter where
  tables : Option (List Text)
  ops : Option (List BroccoliCdcOp)
  fromLsn : Option ℤ

/-- A subscription: its filter, whether its callback throws, and what that was called with. -/
structure Subscriber (π : Type*) where
  filter : BroccoliCdcFilter
  throws : List (BroccoliCdcEvent π) → BroccoliCdcEvent π → Bool
  received : List (BroccoliCdcEvent π)

/-- `matchesFilter`. -/
def BroccoliCdcFilter.matches (filter : BroccoliCdcFilter) (event : BroccoliCdcEvent π) : Bool :=
  (filter.tables.all fun tables => tables.isEmpty || event.table ∈ tables) &&
    filter.ops.all fun ops => ops.isEmpty || event.op ∈ ops

/-- The callback is called with an event; the answer is whether it throws. -/
def Subscriber.callback (sub : Subscriber π) (event : BroccoliCdcEvent π) : Bool × Subscriber π :=
  (sub.throws sub.received event, { sub with received := sub.received ++ [event] })

/-- The replay of `subscribe`, which ends when the callback throws. -/
def Subscriber.replay (sub : Subscriber π) : List (BroccoliCdcEvent π) → Subscriber π
  | [] => sub
  | event :: rest =>
    if sub.filter.matches event then
      match sub.callback event with
      | (true, sub) => sub
      | (false, sub) => sub.replay rest
    else sub.replay rest

structure BroccoliCdcStream (π : Type*) where
  currentLsn : ℕ
  events : List (BroccoliCdcEvent π)
  maxEventHistory : ℕ
  subscribers : InsertionMap Text (Subscriber π)

/-- What `emitEvent` is called with, and the time. -/
structure Change (π : Type*) where
  table : Text
  op : BroccoliCdcOp
  recordId : Text
  before : Option π
  after : Option π
  txId : Option ℕ
  now : ℕ

namespace BroccoliCdcStream

def new (maxEventHistory : ℕ) : BroccoliCdcStream π := ⟨0, [], maxEventHistory, .empty⟩

section

variable (s : BroccoliCdcStream π)

/-- The event of a change. -/
def eventOf (change : Change π) : BroccoliCdcEvent π :=
  { lsn := s.currentLsn + 1
    timestamp := change.now
    table := change.table
    op := change.op
    recordId := change.recordId
    before := change.before
    after := change.after
    txId := change.txId }

/-- What an exception of a callback is when an event is dispatched: nothing. -/
def dispatch (event : BroccoliCdcEvent π) (sub : Subscriber π) : Subscriber π :=
  if sub.filter.matches event then (sub.callback event).2 else sub

def emitEvent (change : Change π) : BroccoliCdcStream π :=
  let event := s.eventOf change
  let events := s.events ++ [event]
  { s with
    currentLsn := event.lsn
    events := if events.length > s.maxEventHistory then events.tail else events
    subscribers := s.subscribers.map fun _ => dispatch event }

def getEvents (fromLsn : Option ℤ) (limit : Option ℕ) : List (BroccoliCdcEvent π) :=
  (s.events.filter fun e => fromLsn.getD 1 ≤ e.lsn).take (limit.getD 100)

def subscribe (subscriptionId : Text) (filter : BroccoliCdcFilter)
    (throws : List (BroccoliCdcEvent π) → BroccoliCdcEvent π → Bool) : BroccoliCdcStream π :=
  let sub : Subscriber π := ⟨filter, throws, []⟩
  { s with
    subscribers := s.subscribers.set subscriptionId <|
      match filter.fromLsn with
      | some fromLsn => sub.replay (s.getEvents (some fromLsn) none)
      | none => sub }

def unsubscribe (subscriptionId : Text) : BroccoliCdcStream π :=
  { s with subscribers := s.subscribers.delete subscriptionId }

/-- What was received under a subscription. -/
def receivedBy (subscriptionId : Text) : List (BroccoliCdcEvent π) :=
  ((s.subscribers.get? subscriptionId).map Subscriber.received).getD []

end

end BroccoliCdcStream

inductive CdcCall (π : Type*)
  | emitEvent (change : Change π)
  | subscribe (subscriptionId : Text) (filter : BroccoliCdcFilter)
      (throws : List (BroccoliCdcEvent π) → BroccoliCdcEvent π → Bool)
  | unsubscribe (subscriptionId : Text)

def BroccoliCdcStream.step (s : BroccoliCdcStream π) : CdcCall π → BroccoliCdcStream π
  | .emitEvent change => s.emitEvent change
  | .subscribe subscriptionId filter throws => s.subscribe subscriptionId filter throws
  | .unsubscribe subscriptionId => s.unsubscribe subscriptionId

/-- The events that the calls emit. -/
def BroccoliCdcStream.emitted (s : BroccoliCdcStream π) : List (CdcCall π) → List (BroccoliCdcEvent π)
  | [] => []
  | .emitEvent change :: rest => s.eventOf change :: (s.emitEvent change).emitted rest
  | call :: rest => (s.step call).emitted rest

/-- The call is not about the subscription. -/
def CdcCall.Spares (subscriptionId : Text) : CdcCall π → Prop
  | .emitEvent _ => True
  | .subscribe other _ _ | .unsubscribe other => other ≠ subscriptionId

/-! ## The replay -/

namespace Subscriber

variable {sub : Subscriber π} {events : List (BroccoliCdcEvent π)}

/-- The callback throws at none of the events but perhaps the last. -/
def Endures (sub : Subscriber π) (due : List (BroccoliCdcEvent π)) : Prop :=
  ∀ earlier event later, due = earlier ++ event :: later → later ≠ [] →
    sub.throws (sub.received ++ earlier) event = false

theorem endures_cons {event : BroccoliCdcEvent π} {due : List (BroccoliCdcEvent π)} :
    sub.Endures (event :: due) ↔
      (due ≠ [] → sub.throws sub.received event = false) ∧ (sub.callback event).2.Endures due := by
  constructor
  · intro h
    refine ⟨fun hdue => ?_, fun earlier other later heq hlater => ?_⟩
    · have hfirst := h [] event due rfl hdue
      rwa [append_nil] at hfirst
    · have hother := h (event :: earlier) other later (by rw [heq, cons_append]) hlater
      rwa [append_cons] at hother
  · rintro ⟨hfirst, hrest⟩ earlier other later heq hlater
    cases earlier with
    | nil =>
      obtain ⟨rfl, rfl⟩ := cons_eq_cons.mp heq
      rw [append_nil]
      exact hfirst hlater
    | cons e earlier =>
      obtain ⟨rfl, rfl⟩ := cons_eq_cons.mp heq
      have hother := hrest earlier other later rfl hlater
      rwa [callback, ← append_cons] at hother

/-- A replay receives a first part of what is due, the whole of it if the callback endures it. -/
theorem received_replay (sub : Subscriber π) (events : List (BroccoliCdcEvent π)) :
    ∃ part, part <+: events.filter sub.filter.matches ∧
      (sub.replay events).received = sub.received ++ part ∧
      (sub.replay events).filter = sub.filter ∧
      (part = events.filter sub.filter.matches ↔
        sub.Endures (events.filter sub.filter.matches)) := by
  induction events generalizing sub with
  | nil => exact ⟨[], prefix_refl _, (append_nil _).symm, rfl, by simp [Endures]⟩
  | cons event rest ih =>
    unfold replay
    by_cases hmatch : sub.filter.matches event = true
    · rw [if_pos hmatch, filter_cons_of_pos hmatch, endures_cons]
      cases hthrows : sub.throws sub.received event with
      | true =>
        have hcall : sub.callback event = (true, (sub.callback event).2) :=
          Prod.ext hthrows rfl
        rw [hcall]
        refine ⟨[event], ⟨_, rfl⟩, rfl, rfl, ?_⟩
        constructor
        · intro heq
          have hnil : rest.filter sub.filter.matches = [] := (List.cons.inj heq).2.symm
          rw [hnil]
          exact ⟨fun h => absurd rfl h, by simp [Endures]⟩
        · rintro ⟨hfirst, -⟩
          by_contra hne
          have hfalse := hfirst fun hnil => hne (by rw [hnil])
          exact absurd hfalse (by simp)
      | false =>
        have hcall : sub.callback event = (false, (sub.callback event).2) :=
          Prod.ext hthrows rfl
        obtain ⟨part, hprefix, hreceived, hfilter, hall⟩ := ih (sub.callback event).2
        have hsame : (sub.callback event).2.filter = sub.filter := rfl
        rw [hsame] at hprefix hall hfilter
        rw [hcall]
        refine ⟨event :: part, cons_prefix_cons.mpr ⟨rfl, hprefix⟩, ?_, hfilter, ?_⟩
        · dsimp only
          rw [hreceived]
          exact (append_cons ..).symm
        · rw [cons_inj_right, hall]
          exact (and_iff_right fun _ => rfl).symm
    · rw [if_neg hmatch, filter_cons_of_neg hmatch]
      exact ih sub

end Subscriber

/-! ## The numbers of the events -/

namespace BroccoliCdcStream

variable {s : BroccoliCdcStream π}

/-- The events that are kept are in the order of their numbers, which have all been given. -/
structure Numbered (s : BroccoliCdcStream π) : Prop where
  sorted : s.events.Pairwise fun e later => e.lsn < later.lsn
  given : ∀ e ∈ s.events, e.lsn ≤ s.currentLsn

theorem numbered_new (maxEventHistory : ℕ) : (new maxEventHistory : BroccoliCdcStream π).Numbered :=
  ⟨List.Pairwise.nil, fun _ h => absurd h not_mem_nil⟩

theorem Numbered.emitEvent (h : s.Numbered) (change : Change π) : (s.emitEvent change).Numbered := by
  have hsorted : (s.events ++ [s.eventOf change]).Pairwise fun e later => e.lsn < later.lsn := by
    refine pairwise_append.mpr ⟨h.sorted, pairwise_singleton _ _, fun e he later hlater => ?_⟩
    rw [mem_singleton.mp hlater]
    exact Nat.lt_succ_of_le (h.given e he)
  have hgiven : ∀ e ∈ s.events ++ [s.eventOf change], e.lsn ≤ (s.emitEvent change).currentLsn := by
    intro e he
    rcases mem_append.mp he with he | he
    · exact Nat.le_succ_of_le (h.given e he)
    · rw [mem_singleton.mp he]
      exact Nat.le_refl _
  constructor
  · unfold BroccoliCdcStream.emitEvent
    dsimp only
    split
    · exact hsorted.tail
    · exact hsorted
  · intro e he
    apply hgiven
    unfold BroccoliCdcStream.emitEvent at he
    dsimp only at he
    split at he
    · exact mem_of_mem_tail he
    · exact he

theorem Numbered.step (h : s.Numbered) (call : CdcCall π) : (s.step call).Numbered := by
  cases call with
  | emitEvent change => exact h.emitEvent change
  | subscribe subscriptionId filter throws => exact ⟨h.sorted, h.given⟩
  | unsubscribe subscriptionId => exact ⟨h.sorted, h.given⟩

theorem currentLsn_le_step (s : BroccoliCdcStream π) (call : CdcCall π) :
    s.currentLsn ≤ (s.step call).currentLsn := by
  cases call with
  | emitEvent change => exact Nat.le_succ _
  | subscribe subscriptionId filter throws => exact Nat.le_refl _
  | unsubscribe subscriptionId => exact Nat.le_refl _

/-- What is emitted is numbered on from the last number. -/
theorem emitted_sorted (s : BroccoliCdcStream π) (calls : List (CdcCall π)) :
    (s.emitted calls).Pairwise (fun e later => e.lsn < later.lsn) ∧
      ∀ e ∈ s.emitted calls, s.currentLsn < e.lsn := by
  induction calls generalizing s with
  | nil => exact ⟨List.Pairwise.nil, fun _ h => absurd h not_mem_nil⟩
  | cons call rest ih =>
    obtain ⟨hsorted, habove⟩ := ih (s.step call)
    have habove' := fun e he => (s.currentLsn_le_step call).trans_lt (habove e he)
    cases call with
    | emitEvent change =>
      refine ⟨pairwise_cons.mpr ⟨habove, hsorted⟩, fun e he => ?_⟩
      rcases mem_cons.mp he with rfl | he
      · exact Nat.lt_succ_self _
      · exact habove' e he
    | subscribe subscriptionId filter throws => exact ⟨hsorted, habove'⟩
    | unsubscribe subscriptionId => exact ⟨hsorted, habove'⟩

/-! ## What a subscription receives -/

/-- A subscription that is left alone receives every event that is emitted and matches. -/
theorem subscriber_run {id : Text} {calls : List (CdcCall π)}
    (hspares : ∀ call ∈ calls, call.Spares id) {sub : Subscriber π}
    (hsub : s.subscribers.get? id = some sub) :
    (Run.run step s calls).receivedBy id =
      sub.received ++ (s.emitted calls).filter sub.filter.matches := by
  induction calls generalizing s sub with
  | nil =>
    rw [Run.run_nil, receivedBy, hsub]
    exact (append_nil _).symm
  | cons call rest ih =>
    obtain ⟨hcall, hrest⟩ := forall_mem_cons.mp hspares
    rw [Run.run_cons]
    cases call with
    | emitEvent change =>
      have hstep : (s.emitEvent change).subscribers.get? id =
          some (dispatch (s.eventOf change) sub) := by
        rw [emitEvent, InsertionMap.get?_map, hsub]
        rfl
      have hfilter : (dispatch (s.eventOf change) sub).filter = sub.filter := by
        unfold dispatch
        split <;> rfl
      rw [step, ih hrest hstep, hfilter, emitted]
      by_cases hmatch : sub.filter.matches (s.eventOf change) = true
      · rw [filter_cons_of_pos hmatch, dispatch, if_pos hmatch]
        exact (append_cons ..).symm
      · rw [filter_cons_of_neg hmatch, dispatch, if_neg hmatch]
    | subscribe other filter throws =>
      refine ih hrest ?_
      rw [step, subscribe, InsertionMap.get?_set_of_ne _ _ (Ne.symm hcall)]
      exact hsub
    | unsubscribe other =>
      refine ih hrest ?_
      rw [step, unsubscribe, InsertionMap.get?_delete_of_ne _ (Ne.symm hcall)]
      exact hsub

/-- The callback has received, of the events from the number on, exactly those of the history that
match the filter, each once and in the order of their numbers. -/
structure GapFree (received history : List (BroccoliCdcEvent π)) (filter : BroccoliCdcFilter)
    (fromLsn : ℤ) : Prop where
  exactly : received.filter (fromLsn ≤ ·.lsn) =
    history.filter fun e => fromLsn ≤ e.lsn && filter.matches e
  increasing : (received.filter (fromLsn ≤ ·.lsn)).Pairwise fun e later => e.lsn < later.lsn

/-- The first hundred of the events that are kept from the number on hold all that match, and the
callback does not throw before the last of these. -/
structure ReplaysAll (s : BroccoliCdcStream π) (filter : BroccoliCdcFilter)
    (throws : List (BroccoliCdcEvent π) → BroccoliCdcEvent π → Bool) (fromLsn : ℤ) : Prop where
  limit : ∀ e ∈ (s.events.filter fun e => fromLsn ≤ e.lsn).drop 100, filter.matches e = false
  endures : (⟨filter, throws, []⟩ : Subscriber π).Endures
    ((s.events.filter fun e => fromLsn ≤ e.lsn).filter filter.matches)

theorem gapFree_iff_replaysAll (h : s.Numbered) {id : Text} {filter : BroccoliCdcFilter}
    {throws : List (BroccoliCdcEvent π) → BroccoliCdcEvent π → Bool} {fromLsn : ℤ}
    (hfrom : filter.fromLsn = some fromLsn) {later : List (CdcCall π)}
    (hspares : ∀ call ∈ later, call.Spares id) :
    GapFree ((Run.run step (s.subscribe id filter throws) later).receivedBy id)
        (s.events ++ (s.subscribe id filter throws).emitted later) filter fromLsn ↔
      s.ReplaysAll filter throws fromLsn := by
  set historical := s.events.filter fun e => decide (fromLsn ≤ e.lsn) with hhistorical
  set live := (s.subscribe id filter throws).emitted later with hlive
  obtain ⟨part, hprefix, hreceived, hfilter, hall⟩ :=
    Subscriber.received_replay (⟨filter, throws, []⟩ : Subscriber π) (historical.take 100)
  change part <+: (historical.take 100).filter filter.matches at hprefix
  have hsub : (s.subscribe id filter throws).subscribers.get? id =
      some ((⟨filter, throws, []⟩ : Subscriber π).replay (historical.take 100)) := by
    rw [subscribe, InsertionMap.get?_set_self, hfrom]
    rfl
  have hwhole : (Run.run step (s.subscribe id filter throws) later).receivedBy id =
      part ++ live.filter filter.matches := by
    rw [subscriber_run hspares hsub, hreceived, hfilter]
    rfl
  have hdue : historical.filter filter.matches =
      (historical.take 100).filter filter.matches ++ (historical.drop 100).filter filter.matches := by
    rw [← filter_append, take_append_drop]
  have hpart : part.filter (fromLsn ≤ ·.lsn) = part := by
    refine filter_eq_self.mpr fun e he => ?_
    have hmem := (mem_filter.mp (List.IsPrefix.subset hprefix he)).1
    exact (mem_filter.mp (mem_of_mem_take hmem)).2
  have hhistory : (s.events ++ live).filter (fun e => fromLsn ≤ e.lsn && filter.matches e) =
      historical.filter filter.matches ++ (live.filter filter.matches).filter (fromLsn ≤ ·.lsn) := by
    rw [filter_append, hhistorical, filter_filter, filter_filter]
    simp only [Bool.and_comm]
  have hexactly : (part ++ live.filter filter.matches).filter (fromLsn ≤ ·.lsn) =
        (s.events ++ live).filter (fun e => fromLsn ≤ e.lsn && filter.matches e) ↔
      part = historical.filter filter.matches := by
    rw [hhistory, filter_append, hpart, append_left_inj]
  have hlimit : part = historical.filter filter.matches ↔ s.ReplaysAll filter throws fromLsn := by
    constructor
    · intro heq
      have hlength := hprefix.length_le
      rw [heq, hdue, length_append] at hlength
      have hnone : (historical.drop 100).filter filter.matches = [] :=
        eq_nil_of_length_eq_zero (by omega)
      rw [hnone, append_nil] at hdue
      refine ⟨fun e he => ?_, ?_⟩
      · simpa using filter_eq_nil_iff.mp hnone e he
      · rw [← hhistorical, hdue]
        exact hall.mp (heq.trans hdue)
    · rintro ⟨hlimit, hendures⟩
      have hnone : (historical.drop 100).filter filter.matches = [] :=
        filter_eq_nil_iff.mpr fun e he => by simp [hlimit e he]
      rw [hnone, append_nil] at hdue
      rw [← hhistorical, hdue] at hendures
      rw [hdue]
      exact hall.mpr hendures
  have hincreasing : ((s.events ++ live).filter
      fun e => fromLsn ≤ e.lsn && filter.matches e).Pairwise fun e later => e.lsn < later.lsn := by
    obtain ⟨hsorted, habove⟩ := emitted_sorted (s.subscribe id filter throws) later
    refine (pairwise_append.mpr ⟨h.sorted, hsorted, fun e he later hlater => ?_⟩).filter _
    exact (h.given e he).trans_lt (habove later hlater)
  rw [hwhole, ← hlimit, ← hexactly]
  exact ⟨fun hgap => hgap.exactly, fun heq => ⟨heq, heq ▸ hincreasing⟩⟩

end BroccoliCdcStream

open BroccoliCdcStream

/-- **Replay is gap-free** from the events that are kept on, if and only if the first hundred of them
hold all that match and the callback endures these. -/
theorem replay_gap_free_iff (maxEventHistory : ℕ) (earlier : List (CdcCall π)) {id : Text}
    {filter : BroccoliCdcFilter} (throws : List (BroccoliCdcEvent π) → BroccoliCdcEvent π → Bool)
    {fromLsn : ℤ} (hfrom : filter.fromLsn = some fromLsn) {later : List (CdcCall π)}
    (hspares : ∀ call ∈ later, call.Spares id) :
    let s := Run.run step (new maxEventHistory) earlier
    let subscribed := s.subscribe id filter throws
    GapFree ((Run.run step subscribed later).receivedBy id) (s.events ++ subscribed.emitted later)
        filter fromLsn ↔
      s.ReplaysAll filter throws fromLsn :=
  gapFree_iff_replaysAll
    (Run.run_invariant (fun _ call hnumbered => hnumbered.step call) (numbered_new maxEventHistory)
      earlier) hfrom hspares

section

/-- A change of one table. -/
def sampleChange : CdcCall Unit :=
  .emitEvent ⟨text "users", .insert, text "u1", none, none, none, 0⟩

/-- All events from the first on. -/
def fromStart : BroccoliCdcFilter := ⟨none, none, some 1⟩

/-- Two events are replayed and a third one follows. -/
theorem replay_of_two :
    let s := Run.run step (new 10 : BroccoliCdcStream Unit) [sampleChange, sampleChange]
    let subscribed := s.subscribe (text "s") fromStart fun _ _ => false
    GapFree ((Run.run step subscribed [sampleChange]).receivedBy (text "s"))
      (s.events ++ subscribed.emitted [sampleChange]) fromStart 1 := by
  have hspares : ∀ call ∈ [sampleChange], call.Spares (text "s") :=
    forall_mem_singleton.mpr trivial
  exact (replay_gap_free_iff 10 [sampleChange, sampleChange] (fun _ _ => false) rfl hspares).mpr
    ⟨by decide +kernel, fun _ _ _ _ _ => rfl⟩

/-- Of a hundred and one events the last is not replayed. -/
theorem replay_stops_at_hundred :
    let s := Run.run step (new 10000 : BroccoliCdcStream Unit) (List.replicate 101 sampleChange)
    let subscribed := s.subscribe (text "s") fromStart fun _ _ => false
    ¬ GapFree ((Run.run step subscribed []).receivedBy (text "s")) (s.events ++ []) fromStart 1 := by
  intro s subscribed h
  have hlength := congrArg List.length h.exactly
  exact absurd hlength (by decide +kernel)

end

end Lumi.Substrate
