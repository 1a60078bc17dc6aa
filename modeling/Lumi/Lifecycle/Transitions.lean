import Lumi.Lifecycle.TaskLifecycleFunnel

/-!
# What a commit does

`Accepted` says once what an accepted intent makes of the record it has read, and `Committed`
what a commit makes of the store.  A step of the funnel changes the store by a commit or not at
all: an intent that is about to commit has read the record that is still there, since the
intents of one task take turns.
-/

namespace Lumi.Lifecycle

open Js Run InsertionMap Option

/-! ## Accepted intents -/

theorem given?_eq_some_iff {value : Option Text} {given : Text} :
    given? value = some given ↔ value = some given ∧ given ≠ [] := by
  simp [given?, filter_eq_some_iff]

/-- What an accepted intent makes of the record of its task. -/
inductive Accepted (intent : TaskLifecycleIntent) (now : ℚ) :
    Option TaskLifecycleRecord → Change → Prop
  | register (parent : Option TaskParentLink) (htype : intent.type = .registerGeneration parent) :
      Accepted intent now none
        { unchanged none intent with state := .registered, parent := parent }
  | activate (record : TaskLifecycleRecord) (htype : intent.type = .activateGeneration)
      (hcurrent : record.generationId = intent.generationId) (hstate : record.state = .registered) :
      Accepted intent now (some record) { unchanged (some record) intent with state := .active }
  | revive (record : TaskLifecycleRecord)
      (htype : (∃ revision attempt decision,
          intent.type = .reactivateAfterCompletionRejection revision attempt decision) ∨
        ∃ newGenerationId, intent.type = .resumeWithGeneration newGenerationId)
      (hcurrent : record.generationId = intent.generationId) (hstate : record.state = .suspended)
      (hunfenced : record.cancellation.isRequested = false) :
      Accepted intent now (some record) { unchanged (some record) intent with state := .active }
  | suspend (record : TaskLifecycleRecord) (htype : intent.type = .suspendGeneration)
      (hcurrent : record.generationId = intent.generationId) (hstate : record.state = .active)
      (hunfenced : record.cancellation.isRequested = false) :
      Accepted intent now (some record) { unchanged (some record) intent with state := .suspended }
  | replace (record : TaskLifecycleRecord) (newGenerationId : Text)
      (htype : intent.type = .resumeWithGeneration (some newGenerationId))
      (hcurrent : record.generationId = intent.generationId)
      (hstate : record.state = .suspended ∨ record.state = .terminal)
      (hgiven : newGenerationId ≠ []) (hdistinct : newGenerationId ≠ record.generationId) :
      Accepted intent now (some record) { unchanged (some record) intent with
        generationId := newGenerationId
        state := .active
        terminalOutcome := none
        cancellation := .none
        replacingGeneration := true }
  | requestCancellation (record : TaskLifecycleRecord) (htype : intent.type = .requestCancellation)
      (hcurrent : record.generationId = intent.generationId) (hstate : record.state ≠ .terminal)
      (hunfenced : record.cancellation.isRequested = false) :
      Accepted intent now (some record) { unchanged (some record) intent with
        cancellation := .requested now (text "pending") intent.intentId }
  | settle (record : TaskLifecycleRecord) (outcome : TaskTerminalOutcome)
      (metadata : Option Metadata) (houtcome : terminalOutcomeForIntent intent = some outcome)
      (hcurrent : record.generationId = intent.generationId) (hstate : record.state ≠ .terminal)
      (hfence : record.cancellation.isRequested = true →
        (∃ metadata, intent.type = .settleCancellation metadata) ∨
        (∃ parentEventId parentOutcome,
          intent.type = .propagateParentTermination parentEventId parentOutcome) ∨
        (intent.type = .settleCompletion ∧
          (intent.cause.source = .completionFunnel ∨ intent.cause.source = .test) ∧
          fencesCompletion record.cancellation intent.cause.authoritativeAt = false)) :
      Accepted intent now (some record) { unchanged (some record) intent with
        state := .terminal, terminalOutcome := some outcome, metadata := metadata }

section

variable {record : TaskLifecycleRecord} {intent : TaskLifecycleIntent} {now : ℚ} {c : Change}

/-- Every intent but a registration needs the current generation, and a generation that has
ended is only resumed. -/
theorem of_admission?_eq_none (h : admission? (some record) intent = none) :
    record.generationId = intent.generationId ∧
      (record.state = .terminal →
        ∃ newGenerationId, intent.type = .resumeWithGeneration newGenerationId) := by
  cases htype : intent.type with
  | registerGeneration parent => simp [admission?, htype] at h
  | resumeWithGeneration newGenerationId =>
    simp only [admission?, htype, ite_not] at h
    exact ⟨by grind, fun _ => ⟨newGenerationId, rfl⟩⟩
  | _ =>
    simp only [admission?, htype] at h
    exact ⟨by grind, fun hterminal => by grind⟩

theorem admission?_none_eq_none (h : admission? none intent = none) :
    ∃ parent, intent.type = .registerGeneration parent := by
  cases htype : intent.type with
  | registerGeneration parent => exact ⟨parent, rfl⟩
  | _ => simp [admission?, htype] at h

theorem replaceGeneration_eq_ok {newGenerationId : Option Text}
    (h : replaceGeneration (some record) intent newGenerationId = .ok c) :
    ∃ generationId, newGenerationId = some generationId ∧ generationId ≠ [] ∧
      generationId ≠ record.generationId ∧ (record.state = .suspended ∨ record.state = .terminal) ∧
      c = { unchanged (some record) intent with
        generationId := generationId
        state := .active
        terminalOutcome := none
        cancellation := .none
        replacingGeneration := true } := by
  unfold replaceGeneration at h
  split at h
  · cases h
  · rename_i hstate
    split at h
    · cases h
    · rename_i generationId hgiven
      obtain ⟨hgiven, hdistinct⟩ := filter_eq_some_iff.mp hgiven
      obtain ⟨hnew, hnonempty⟩ := given?_eq_some_iff.mp hgiven
      refine ⟨generationId, hnew, hnonempty, by simpa using hdistinct, ?_,
        (Except.ok.inj h).symm⟩
      simp only [stateOf, map_some, ne_eq, Option.some.injEq, not_and, not_not] at hstate
      by_cases hsuspended : record.state = .suspended
      · exact .inl hsuspended
      · exact .inr (hstate hsuspended)

variable [Host]

/-- **What an accepted intent does.** -/
theorem accepted_of_change {current : Option TaskLifecycleRecord}
    (hadmitted : admission? current intent = none) (hchange : change current intent now = .ok c) :
    Accepted intent now current c := by
  cases current with
  | none =>
    obtain ⟨parent, htype⟩ := admission?_none_eq_none hadmitted
    simp only [change, htype, Except.ok.injEq] at hchange
    subst hchange
    exact .register parent htype
  | some record =>
    obtain ⟨hcurrent, hended⟩ := of_admission?_eq_none hadmitted
    have hopen : (∀ newGenerationId, intent.type ≠ .resumeWithGeneration newGenerationId) →
        record.state ≠ .terminal := fun hno hterminal =>
      (hended hterminal).elim fun newGenerationId htype => hno newGenerationId htype
    cases htype : intent.type with
    | registerGeneration parent => simp [admission?, htype] at hadmitted
    | activateGeneration =>
      simp only [change, htype, activateGeneration] at hchange
      split_ifs at hchange with hstate
      · cases hchange
        exact .activate record htype hcurrent (by simpa [stateOf] using hstate)
    | suspendGeneration =>
      simp only [change, htype, suspendGeneration] at hchange
      split_ifs at hchange with hstate
      · cases hchange
        simp only [stateOf, cancellationPending, map_some, any_some, not_or,
          not_not, Option.some.injEq, Bool.not_eq_true] at hstate
        exact .suspend record htype hcurrent hstate.1 hstate.2
    | reactivateAfterCompletionRejection revision attempt decision =>
      simp only [change, htype, reactivateAfterCompletionRejection] at hchange
      split at hchange
      · cases hchange
      · rename_i read hread
        obtain ⟨heq, hstate⟩ := filter_eq_some_iff.mp hread
        obtain rfl := Option.some.inj heq
        split_ifs at hchange
        cases hchange
        exact .revive record (.inl ⟨_, _, _, htype⟩) hcurrent (by simpa using hstate)
          (by simpa using ‹¬record.cancellation.isRequested = true›)
    | resumeWithGeneration newGenerationId =>
      simp only [change, htype, resumeWithGeneration] at hchange
      split_ifs at hchange with hstate hpending
      · cases hchange
        exact .revive record (.inr ⟨_, htype⟩) hcurrent (by simpa [stateOf] using hstate.1)
          (by simpa [cancellationPending] using hpending)
      · obtain ⟨generationId, rfl, hgiven, hdistinct, hstate, rfl⟩ :=
          replaceGeneration_eq_ok hchange
        exact .replace record generationId htype hcurrent hstate hgiven hdistinct
    | requestCancellation =>
      simp only [change, htype, requestCancellation] at hchange
      split_ifs at hchange with hpending
      cases hchange
      exact .requestCancellation record htype hcurrent (hopen (by simp [htype]))
        (by simpa [cancellationPending] using hpending)
    | settleCancellation metadata =>
      simp only [change, htype, settleCancellation] at hchange
      split_ifs at hchange
      cases hchange
      exact .settle record .cancelled metadata (by simp [terminalOutcomeForIntent, htype])
        hcurrent (hopen (by simp [htype])) fun _ => .inl ⟨_, htype⟩
    | settleCompletion =>
      simp only [change, htype, settleCompletion] at hchange
      split_ifs at hchange with hsource hfence
      cases hchange
      exact .settle record .completed none (by simp [terminalOutcomeForIntent, htype])
        hcurrent (hopen (by simp [htype])) fun _ =>
          Or.inr (.inr ⟨htype, by tauto, by simpa using hfence⟩)
    | settleFailure metadata =>
      simp only [change, htype, settleFailure, settleUnfenced] at hchange
      split_ifs at hchange with hpending
      cases hchange
      exact .settle record .failed metadata (by simp [terminalOutcomeForIntent, htype])
        hcurrent (hopen (by simp [htype])) fun h =>
          absurd h hpending
    | settleTimeout metadata =>
      simp only [change, htype, settleTimeout, settleUnfenced] at hchange
      split_ifs at hchange with hpending
      cases hchange
      exact .settle record .timedOut metadata (by simp [terminalOutcomeForIntent, htype])
        hcurrent (hopen (by simp [htype])) fun h =>
          absurd h hpending
    | propagateParentTermination parentEventId parentOutcome =>
      simp only [change, htype, propagateParentTermination] at hchange
      split at hchange
      · cases hchange
      · split_ifs at hchange
        cases hchange
        exact .settle record _ _ (by simp [terminalOutcomeForIntent, htype]) hcurrent
          (hopen (by simp [htype])) fun _ => .inr (.inl ⟨_, _, htype⟩)

end

/-! ## Commits -/

namespace Store

/-- The event stands in the journal of committed events. -/
def Recorded (s : Store) (event : TaskLifecycleEvent) : Prop :=
  ∃ intentId, s.eventsByIntent.get? intentId = some event

/-- The record that a commit stores. -/
def committedRecord (s : Store) (intent : TaskLifecycleIntent) (now : ℚ) (eventId : Text)
    (c : Change) : TaskLifecycleRecord :=
  { recordOf (s.load intent.taskId) intent now eventId c with monotonicSequence := s.sequence + 1 }

/-- The event that a commit stores. -/
def committedEvent (s : Store) (intent : TaskLifecycleIntent) (now : ℚ) (eventId : Text)
    (c : Change) : TaskLifecycleEvent :=
  { eventOf (s.load intent.taskId) intent now eventId c with
    committed := snapshot (s.committedRecord intent now eventId c)
    monotonicSequence := s.sequence + 1 }

/-- What the intent has committed in this step. -/
structure Commits (s : Store) (intent : TaskLifecycleIntent) (now : ℚ) (eventId : Text)
    (c : Change) (s' : Store) : Prop where
  accepted : Accepted intent now (s.load intent.taskId) c
  unused : s.eventsByIntent.get? intent.intentId = none
  allowed : s.constraint? (recordOf (s.load intent.taskId) intent now eventId c)
    (eventOf (s.load intent.taskId) intent now eventId c) = none
  records : s'.records =
    s.records.set intent.taskId (s.committedRecord intent now eventId c)
  events : s'.eventsByIntent =
    s.eventsByIntent.set intent.intentId (s.committedEvent intent now eventId c)

namespace Commits

variable {s s' : Store} {intent : TaskLifecycleIntent} {now : ℚ} {eventId : Text} {c : Change}

section

variable (h : Commits s intent now eventId c s')
include h

theorem load_self : s'.load intent.taskId = some (s.committedRecord intent now eventId c) := by
  rw [load, h.records, get?_set_self]

theorem load_of_ne {taskId : Text} (hne : taskId ≠ intent.taskId) :
    s'.load taskId = s.load taskId := by
  rw [load, h.records, get?_set_of_ne _ _ hne, load]

theorem recorded_self : s'.Recorded (s.committedEvent intent now eventId c) :=
  ⟨intent.intentId, by rw [h.events, get?_set_self]⟩

theorem recorded_iff {event : TaskLifecycleEvent} :
    s'.Recorded event ↔ event = s.committedEvent intent now eventId c ∨ s.Recorded event := by
  constructor
  · rintro ⟨intentId, hget⟩
    rw [h.events, get?_set] at hget
    split_ifs at hget with heq
    · exact .inl (Option.some.inj hget).symm
    · exact .inr ⟨intentId, hget⟩
  · rintro (rfl | ⟨intentId, hget⟩)
    · exact h.recorded_self
    · refine ⟨intentId, ?_⟩
      have hne : intentId ≠ intent.intentId := by
        rintro rfl
        rw [h.unused] at hget
        cases hget
      rw [h.events, get?_set_of_ne _ _ hne, hget]

theorem recorded {event : TaskLifecycleEvent} (hevent : s.Recorded event) :
    s'.Recorded event := h.recorded_iff.mpr (.inr hevent)

end

end Commits

theorem commit_eq_ok {s s' : Store} {expected : LifecycleCommitExpectation}
    {record : TaskLifecycleRecord} {event : TaskLifecycleEvent}
    {committed : TaskLifecycleRecord × TaskLifecycleEvent}
    (h : s.commit expected record event = (.ok committed, s')) :
    s.eventsByIntent.get? event.intentId = none ∧ s.constraint? record event = none ∧
      (committed, s') = s.write record event := by
  unfold commit at h
  split at h
  · split at h <;> cases h
  · rename_i hunused
    dsimp only at h
    split_ifs at h
    · split at h
      · cases h
      · rename_i hallowed
        exact ⟨hunused, hallowed, by simpa [Prod.ext_iff] using h.symm⟩
    · cases h

theorem commit_eq_error {s s' : Store} {expected : LifecycleCommitExpectation}
    {record : TaskLifecycleRecord} {event : TaskLifecycleEvent} {refusal : CommitRefusal}
    (h : s.commit expected record event = (.error refusal, s')) : s' = s := by
  unfold commit at h
  split at h
  · split at h <;> cases h <;> rfl
  · dsimp only at h
    split_ifs at h
    · split at h
      · cases h
        rfl
      · cases h
    · cases h
      rfl

end Store

/-! ## Submissions -/

namespace TaskLifecycleFunnel

/-- An intent that is about to commit has read the record that is still there. -/
structure Coherent (s : TaskLifecycleFunnel) : Prop where
  loaded : ∀ taskId intent current, s.loaded? taskId = some (intent, current) →
    intent.taskId = taskId ∧ current = s.persistence.load taskId
  keyed : ∀ taskId record, s.persistence.load taskId = some record → record.taskId = taskId

theorem coherent_new : Coherent new where
  loaded taskId intent current h := by cases h
  keyed taskId record h := by cases h

theorem loaded?_eq_some {s : TaskLifecycleFunnel} {taskId : Text}
    {read : TaskLifecycleIntent × Option TaskLifecycleRecord} :
    s.loaded? taskId = some read ↔ s.taskTails.get? taskId = some (.loaded read.1 read.2) := by
  unfold loaded?
  split
  · rename_i intent current heq
    rw [heq]
    simp [Prod.ext_iff]
  · rename_i hno
    simp only [reduceCtorEq, false_iff]
    exact fun heq => hno _ _ heq

/-- What is read stays current as long as it is not this task's record that changes. -/
theorem Coherent.of_tails {s s' : TaskLifecycleFunnel} (h : Coherent s) (taskId : Text)
    (hkeyed : ∀ taskId record, s'.persistence.load taskId = some record → record.taskId = taskId)
    (hrecords : ∀ other, other ≠ taskId → s'.persistence.load other = s.persistence.load other)
    (htails : ∀ other, other ≠ taskId → s'.taskTails.get? other = s.taskTails.get? other)
    (hself : s'.loaded? taskId = none) : Coherent s' where
  keyed := hkeyed
  loaded other intent current hloaded := by
    rcases eq_or_ne other taskId with rfl | hne
    · rw [hself] at hloaded
      cases hloaded
    · have hold : s.loaded? other = some (intent, current) := by
        rw [loaded?_eq_some, htails other hne] at hloaded
        exact loaded?_eq_some.mpr hloaded
      obtain ⟨hid, hcurrent⟩ := h.loaded _ _ _ hold
      exact ⟨hid, by rw [hcurrent, hrecords other hne]⟩

end TaskLifecycleFunnel

variable [Host]

/-- An intent that is rejected leaves the store as it is. -/
theorem submitSerialized_error {s s' : Store} {current : Option TaskLifecycleRecord}
    {intent : TaskLifecycleIntent} {now : ℚ} {eventId : Text} {rejection : Rejection}
    (h : submitSerialized s current intent now eventId = (.error rejection, s')) : s' = s := by
  unfold submitSerialized at h
  split at h
  · cases h
    rfl
  · split at h
    · cases h
      rfl
    · split at h
      rename_i committed s'' hcommit
      obtain ⟨herror, rfl⟩ := Prod.mk.inj h
      cases committed with
      | error refusal => exact Store.commit_eq_error hcommit
      | ok committed => cases herror

/-- An intent that is not rejected has passed every check and is written. -/
theorem submitSerialized_ok {s s' : Store} {intent : TaskLifecycleIntent} {now : ℚ}
    {eventId : Text} {committed : TaskLifecycleRecord × TaskLifecycleEvent}
    (h : submitSerialized s (s.load intent.taskId) intent now eventId = (.ok committed, s')) :
    ∃ c, s.Commits intent now eventId c s' ∧
      committed =
        (s.committedRecord intent now eventId c, s.committedEvent intent now eventId c) := by
  unfold submitSerialized at h
  split at h
  · cases h
  · rename_i hadmitted
    split at h
    · cases h
    · rename_i record event hevaluate
      obtain ⟨c, hchange, heq⟩ : ∃ c, change (s.load intent.taskId) intent now = .ok c ∧
          (recordOf (s.load intent.taskId) intent now eventId c,
            eventOf (s.load intent.taskId) intent now eventId c) = (record, event) := by
        unfold evaluate at hevaluate
        cases hchange : change (s.load intent.taskId) intent now with
        | error rejection => rw [hchange] at hevaluate; cases hevaluate
        | ok c =>
          rw [hchange] at hevaluate
          exact ⟨c, rfl, Except.ok.inj hevaluate⟩
      obtain ⟨rfl, rfl⟩ := Prod.mk.inj heq
      split at h
      rename_i result s'' hcommit
      obtain ⟨hok, rfl⟩ := Prod.mk.inj h
      cases result with
      | error refusal => cases hok
      | ok result =>
        obtain ⟨hunused, hallowed, hwrite⟩ := Store.commit_eq_ok hcommit
        obtain ⟨rfl, rfl⟩ := Prod.mk.inj hwrite
        exact ⟨c, ⟨accepted_of_change hadmitted hchange, hunused, hallowed, rfl, rfl⟩,
          (Except.ok.inj hok).symm⟩

/-! ## Steps -/

namespace TaskLifecycleFunnel

/-- The intent that this step commits, and how. -/
structure Commits (s : TaskLifecycleFunnel) (a : Action) (intent : TaskLifecycleIntent) (now : ℚ)
    (eventId : Text) (c : Change) : Prop where
  action : a = .commit intent.taskId now eventId
  loaded : s.loaded? intent.taskId = some (intent, s.persistence.load intent.taskId)
  stored : s.persistence.Commits intent now eventId c (s.step a).persistence
  answered : s.answer a = some (.ok (s.persistence.committedRecord intent now eventId c,
    s.persistence.committedEvent intent now eventId c))

/-- **What a step does to the store.**  It commits the intent whose turn it is, or nothing. -/
theorem step_cases {s : TaskLifecycleFunnel} (h : Coherent s) (a : Action) :
    (s.step a).persistence = s.persistence ∨
      ∃ intent now eventId c, s.Commits a intent now eventId c := by
  cases a with
  | load intent =>
    left
    simp only [step]
    split_ifs <;> rfl
  | leave taskId =>
    left
    simp only [step]
    split_ifs <;> rfl
  | commit taskId now eventId =>
    cases hloaded : s.loaded? taskId with
    | none => exact .inl (by simp only [step, hloaded])
    | some read =>
      obtain ⟨intent, current⟩ := read
      obtain ⟨rfl, rfl⟩ := h.loaded _ _ _ hloaded
      cases hsubmit : submitSerialized s.persistence (s.persistence.load intent.taskId) intent
        now eventId with
      | mk result s' =>
        cases result with
        | error rejection =>
          left
          simp only [step, hloaded, hsubmit]
          exact submitSerialized_error hsubmit
        | ok committed =>
          obtain ⟨c, hcommits, rfl⟩ := submitSerialized_ok hsubmit
          refine .inr ⟨intent, now, eventId, c, rfl, hloaded, ?_, ?_⟩
          · simpa only [step, hloaded, hsubmit] using hcommits
          · simp only [answer, hloaded, map_some, hsubmit]

theorem coherent_step {s : TaskLifecycleFunnel} (h : Coherent s) (a : Action) :
    Coherent (s.step a) := by
  cases a with
  | load intent =>
    simp only [step]
    split_ifs with hwait
    · exact h
    · refine ⟨fun taskId other current hloaded => ?_, h.keyed⟩
      rw [loaded?_eq_some] at hloaded
      dsimp only at hloaded
      rw [get?_set] at hloaded
      split_ifs at hloaded with heq
      · cases hloaded
        exact ⟨heq.symm, by rw [heq]⟩
      · exact h.loaded taskId other current (loaded?_eq_some.mpr hloaded)
  | leave taskId =>
    simp only [step]
    split_ifs with hleave
    · refine h.of_tails taskId h.keyed (fun _ _ => rfl) (fun other hne => ?_) ?_
      · exact get?_delete_of_ne _ hne
      · simp [loaded?]
    · exact h
  | commit taskId now eventId =>
    cases hloaded : s.loaded? taskId with
    | none => simpa only [step, hloaded] using h
    | some read =>
      obtain ⟨intent, current⟩ := read
      obtain ⟨rfl, rfl⟩ := h.loaded _ _ _ hloaded
      simp only [step, hloaded]
      split
      · rename_i rejection s' hsubmit
        obtain rfl := submitSerialized_error hsubmit
        refine h.of_tails intent.taskId h.keyed (fun _ _ => rfl) (fun other hne => ?_) ?_
        · exact get?_delete_of_ne _ hne
        · simp [loaded?]
      · rename_i committed s' hsubmit
        obtain ⟨c, hcommits, -⟩ := submitSerialized_ok hsubmit
        refine h.of_tails intent.taskId (fun taskId record hload => ?_)
          (fun other hne => hcommits.load_of_ne hne) (fun other hne => ?_) ?_
        · rcases eq_or_ne taskId intent.taskId with rfl | hne
          · rw [hcommits.load_self] at hload
            cases hload
            rfl
          · exact h.keyed taskId record (by rw [← hcommits.load_of_ne hne, hload])
        · exact get?_set_of_ne _ _ hne
        · simp [loaded?]

theorem coherent_run (inputs : List Action) : Coherent (run step new inputs) :=
  run_invariant (P := Coherent) (fun _ a h => coherent_step h a) coherent_new inputs

end TaskLifecycleFunnel

end Lumi.Lifecycle
