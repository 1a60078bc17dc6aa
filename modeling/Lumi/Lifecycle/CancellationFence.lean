import Lumi.Lifecycle.Journal

/-!
# The fence of a cancellation

A requested cancellation is to keep its generation from running on: the generation may only end,
and only by the cancellation, by its parent or by a completion that came before the request.
Three branches do not look at the request, or not closely enough: a registered generation is
activated, a suspended one is replaced, and a completion without a comparable time is taken.
The fence holds in a run exactly as long as no such intent gets through.
-/

namespace Lumi.Lifecycle

open Js Run Option

/-- The cancellation of the generation was requested, and the generation has not ended. -/
def Store.Pending (s : Store) (taskId generationId : Text) (request : TaskLifecycleEvent) : Prop :=
  s.Recorded request ∧ request.Requests taskId generationId ∧
    ∀ event, s.Recorded event → ¬event.Ends taskId generationId

/-- The time of the completion precedes that of the request. -/
def Precedes (authoritativeAt : Option Number) (cancellation : TaskCancellationState) : Prop :=
  ∃ moment requestedAt requestEventId requestIntentId, authoritativeAt = some moment ∧
    cancellation = .requested requestedAt requestEventId requestIntentId ∧
    moment.less? (.finite requestedAt) = some true

/-- The intents that may end a generation whose cancellation is pending. -/
def EndsPending (intent : TaskLifecycleIntent) (request : TaskLifecycleEvent) : Prop :=
  (∃ metadata, intent.type = .settleCancellation metadata) ∨
  (∃ parentEventId parentOutcome,
    intent.type = .propagateParentTermination parentEventId parentOutcome) ∨
  (intent.type = .settleCompletion ∧
    Precedes intent.cause.authoritativeAt request.committed.cancellation)

/-- The intent names the current generation of its task, or registers its first one. -/
def NamesCurrent (s : Store) (intent : TaskLifecycleIntent) : Prop :=
  match s.load intent.taskId with
  | some record => record.generationId = intent.generationId
  | none => ∃ parent, intent.type = .registerGeneration parent

theorem precedes_of_fencesCompletion {cancellation : TaskCancellationState}
    {authoritativeAt : Option Number} (hpending : cancellation.isRequested = true)
    (hfences : fencesCompletion cancellation authoritativeAt = false)
    (hnumber : authoritativeAt ≠ some .nan) : Precedes authoritativeAt cancellation := by
  cases cancellation with
  | none => cases hpending
  | requested requestedAt requestEventId requestIntentId =>
    cases authoritativeAt with
    | none => cases hfences
    | some moment =>
      refine ⟨moment, requestedAt, requestEventId, requestIntentId, rfl, rfl, ?_⟩
      cases moment with
      | nan => exact absurd rfl hnumber
      | posInfinity => simp [fencesCompletion, Number.less?] at hfences
      | negInfinity => simp [Number.less?]
      | finite moment => simpa [fencesCompletion, Number.less?] using hfences

namespace TaskLifecycleFunnel

/-- What fresh steps that do not pass the fence keep: a requested cancellation stays with its
generation until it has ended. -/
structure FencedState (s : TaskLifecycleFunnel) : Prop where
  coherent : Coherent s
  journal : Journal s.persistence
  fence : ∀ request taskId generationId, s.persistence.Recorded request →
    request.Requests taskId generationId →
    (∃ event, s.persistence.Recorded event ∧ event.Ends taskId generationId) ∨
    ∃ record, s.persistence.load taskId = some record ∧ record.generationId = generationId ∧
      record.cancellation = request.committed.cancellation ∧
      record.cancellation.isRequested = true ∧ record.state ≠ .terminal

theorem fencedState_new : FencedState new where
  coherent := coherent_new
  journal := journal_new
  fence request taskId generationId h := by obtain ⟨_, h⟩ := h; cases h

variable [Host]

/-- The intent is committed in this step, as this record and this event. -/
def Submits (s : TaskLifecycleFunnel) (a : Action) (intent : TaskLifecycleIntent)
    (record : TaskLifecycleRecord) (event : TaskLifecycleEvent) : Prop :=
  (∃ now eventId current, a = .commit intent.taskId now eventId ∧
    s.loaded? intent.taskId = some (intent, current)) ∧
  s.answer a = some (.ok (record, event))

/-- **What a step keeps.**  The fence of a pending cancellation; one end for each generation; an
ended record changes only when a new generation takes its place; intents for a generation that
is not current are rejected. -/
structure KeepsLifecycle (s : TaskLifecycleFunnel) (a : Action) : Prop where
  fence : ∀ intent record event, s.Submits a intent record event →
    ∀ request generationId, s.persistence.Pending intent.taskId generationId request →
      record.generationId = generationId ∧ record.state ≠ .active ∧
      (record.state = .terminal → EndsPending intent request)
  once : ∀ first second taskId generationId, (s.step a).persistence.Recorded first →
    (s.step a).persistence.Recorded second → first.Ends taskId generationId →
    second.Ends taskId generationId → first = second
  frozen : ∀ taskId record, s.persistence.load taskId = some record → record.state = .terminal →
    (s.step a).persistence.load taskId ≠ some record →
    ∃ intent committed event newGenerationId, s.Submits a intent committed event ∧
      intent.taskId = taskId ∧ intent.type = .resumeWithGeneration (some newGenerationId) ∧
      newGenerationId ≠ record.generationId
  stale : ∀ intent now eventId current, a = .commit intent.taskId now eventId →
    s.loaded? intent.taskId = some (intent, current) → ¬NamesCurrent s.persistence intent →
    (∃ rejection, s.answer a = some (.error rejection)) ∧
      (s.step a).persistence = s.persistence

/-- The branch of the intent does not stop it at the pending cancellation of the record: an
activation, a replacement, or a completion at a time that is no number. -/
def Overlooks (s : Store) (intent : TaskLifecycleIntent) (record : TaskLifecycleRecord) : Prop :=
  (intent.type = .activateGeneration ∧ record.state = .registered) ∨
  s.ChildrenEnded intent.taskId record.generationId ∧
    ((record.state = .suspended ∧
      (given? intent.newGenerationId?).any (· ≠ record.generationId) = true) ∨
    (intent.type = .settleCompletion ∧ record.state ≠ .terminal ∧
      (intent.cause.source = .completionFunnel ∨ intent.cause.source = .test) ∧
      intent.cause.authoritativeAt = some .nan))

instance (s : Store) (intent : TaskLifecycleIntent) (record : TaskLifecycleRecord) :
    Decidable (Overlooks s intent record) := inferInstanceAs (Decidable (_ ∨ _))

/-- An intent that gets past the fence: it is new to the journal, the cancellation of the
generation it names is pending, and neither its branch stops it nor the parent and, where they
are asked, the children. -/
def PassesFence (s : TaskLifecycleFunnel) : Action → Prop
  | .commit taskId _ _ =>
    ∃ intent record, s.loaded? taskId = some (intent, some record) ∧
      s.persistence.eventsByIntent.get? intent.intentId = none ∧
      record.generationId = intent.generationId ∧ record.cancellation.isRequested = true ∧
      s.persistence.ParentOpen record.parent intent.cause ∧
      Overlooks s.persistence intent record
  | _ => False

instance (s : TaskLifecycleFunnel) : (a : Action) → Decidable (s.PassesFence a)
  | .load _ => isFalse id
  | .leave _ => isFalse id
  | .commit taskId _ _ =>
    match h : s.loaded? taskId with
    | none | some (_, none) => isFalse (by simp [PassesFence, h])
    | some (intent, some record) =>
      decidable_of_iff
        (s.persistence.eventsByIntent.get? intent.intentId = none ∧
          record.generationId = intent.generationId ∧
          record.cancellation.isRequested = true ∧
          s.persistence.ParentOpen record.parent intent.cause ∧
          Overlooks s.persistence intent record) <| by
        constructor
        · exact fun hpasses => ⟨intent, record, h, hpasses⟩
        · rintro ⟨intent', record', h', hpasses⟩
          rw [h] at h'
          cases h'
          exact hpasses

/-! ## What every step keeps -/

variable {s : TaskLifecycleFunnel} {intent : TaskLifecycleIntent} {record : TaskLifecycleRecord}
variable {a : Action}

theorem Submits.commits (hcoherent : Coherent s) {event : TaskLifecycleEvent}
    (h : s.Submits a intent record event) :
    ∃ now eventId c, s.Commits a intent now eventId c ∧
      record = s.persistence.committedRecord intent now eventId c := by
  obtain ⟨⟨now, eventId, current, rfl, hloaded⟩, hanswer⟩ := h
  obtain ⟨-, rfl⟩ := hcoherent.loaded _ _ _ hloaded
  simp only [answer, hloaded, map_some, Option.some.injEq] at hanswer
  cases hsubmit : submitSerialized s.persistence (s.persistence.load intent.taskId) intent now
    eventId with
  | mk result s' =>
    rw [hsubmit] at hanswer
    dsimp only at hanswer
    subst hanswer
    obtain ⟨c, hcommits, heq⟩ := submitSerialized_ok hsubmit
    obtain ⟨rfl, rfl⟩ := Prod.mk.inj heq
    refine ⟨now, eventId, c, ⟨rfl, hloaded, ?_, ?_⟩, rfl⟩
    · simpa only [step, hloaded, hsubmit] using hcommits
    · simp only [answer, hloaded, map_some, hsubmit]

theorem Commits.submits {now : ℚ} {eventId : Text} {c : Change}
    (h : s.Commits a intent now eventId c) :
    s.Submits a intent (s.persistence.committedRecord intent now eventId c)
      (s.persistence.committedEvent intent now eventId c) :=
  ⟨⟨now, eventId, _, h.action, h.loaded⟩, h.answered⟩

/-- A record that has ended changes only when another generation takes its place. -/
theorem terminal_frozen (hcoherent : Coherent s) {taskId : Text}
    (hload : s.persistence.load taskId = some record) (hterminal : record.state = .terminal)
    (hchanged : (s.step a).persistence.load taskId ≠ some record) :
    ∃ intent committed event newGenerationId, s.Submits a intent committed event ∧
      intent.taskId = taskId ∧ intent.type = .resumeWithGeneration (some newGenerationId) ∧
      newGenerationId ≠ record.generationId := by
  rcases step_cases hcoherent a with hsame | ⟨intent, now, eventId, c, hcommits⟩
  · rw [hsame] at hchanged
    exact absurd hload hchanged
  · obtain rfl : taskId = intent.taskId := by
      by_contra hne
      exact hchanged (by rw [hcommits.stored.load_of_ne hne, hload])
    have haccepted := hcommits.stored.accepted
    rw [hload] at haccepted
    cases haccepted with
    | replace _ newGenerationId htype hsame hstate hgiven hdistinct =>
      exact ⟨intent, _, _, newGenerationId, hcommits.submits, rfl, htype, hdistinct⟩
    | activate _ htype hsame hstate => rw [hterminal] at hstate; cases hstate
    | revive _ htype hsame hstate => rw [hterminal] at hstate; cases hstate
    | suspend _ htype hsame hstate => rw [hterminal] at hstate; cases hstate
    | requestCancellation _ htype hsame hstate => exact absurd hterminal hstate
    | settle _ outcome metadata houtcome hsame hstate => exact absurd hterminal hstate

/-- An intent for a generation that is not the current one changes nothing. -/
theorem stale_rejected (hcoherent : Coherent s) {now : ℚ} {eventId : Text}
    {current : Option TaskLifecycleRecord}
    (hloaded : s.loaded? intent.taskId = some (intent, current))
    (hstale : ¬NamesCurrent s.persistence intent) :
    (∃ rejection, s.answer (.commit intent.taskId now eventId) = some (.error rejection)) ∧
      (s.step (.commit intent.taskId now eventId)).persistence = s.persistence := by
  obtain ⟨-, rfl⟩ := hcoherent.loaded _ _ _ hloaded
  obtain ⟨rejection, hrejection⟩ :
      ∃ rejection, admission? (s.persistence.load intent.taskId) intent = some rejection := by
    rw [← ne_none_iff_exists']
    intro hnone
    refine hstale ?_
    unfold NamesCurrent
    cases hcurrent : s.persistence.load intent.taskId with
    | none => exact admission?_none_eq_none (hcurrent ▸ hnone)
    | some record => exact (of_admission?_eq_none (hcurrent ▸ hnone)).1
  have hsubmit : submitSerialized s.persistence (s.persistence.load intent.taskId) intent now
      eventId = (.error rejection, s.persistence) := by
    simp only [submitSerialized, hrejection]
  refine ⟨⟨rejection, ?_⟩, ?_⟩
  · simp only [answer, hloaded, map_some, hsubmit]
  · simp only [step, hloaded, hsubmit]

/-! ## The fence -/

/-- **What may be committed while a cancellation is pending.**  The generation ends, by an
intent that may end it. -/
theorem Commits.ends_pending {now : ℚ} {eventId : Text} {c : Change}
    (h : s.Commits a intent now eventId c) (hguard : ¬s.PassesFence a)
    (hload : s.persistence.load intent.taskId = some record)
    (hpending : record.cancellation.isRequested = true) (hopen : record.state ≠ .terminal) :
    c.state = .terminal ∧ c.generationId = record.generationId ∧
      ((∃ metadata, intent.type = .settleCancellation metadata) ∨
      (∃ parentEventId parentOutcome,
        intent.type = .propagateParentTermination parentEventId parentOutcome) ∨
      (intent.type = .settleCompletion ∧
        Precedes intent.cause.authoritativeAt record.cancellation)) := by
  have hunused := h.stored.unused
  have hallowed := h.stored.allowed
  have haccepted := h.stored.accepted
  have hloaded := h.loaded
  rw [h.action] at hguard
  rw [hload] at hallowed haccepted hloaded
  cases haccepted with
  | activate _ htype hsame hstate =>
    -- a registered generation is activated without a look at the request
    have htransition : transitionName intent false = .activateGeneration := by
      simp [transitionName, htype]
    refine absurd ⟨intent, record, hloaded, hunused, hsame, hpending, ?_,
      Or.inl ⟨htype, hstate⟩⟩ hguard
    exact ((Store.constraint?_ordinary_iff intent.generationId
      (by simp [eventOf, unchanged, htransition])
      (by simp [eventOf, recordOf, unchanged, htransition])).mp hallowed).1
  | replace _ newGenerationId htype hsame hstate hgiven hdistinct =>
    -- a suspended one is replaced without a look at it
    have htransition : transitionName intent true = .replaceGeneration := by
      simp [transitionName, htype]
    have hchecks := (Store.constraint?_ordinary_iff record.generationId
      (by simp [eventOf, htransition])
      (by simp [eventOf, snapshot, htransition])).mp hallowed
    refine absurd ⟨intent, record, hloaded, hunused, hsame, hpending, hchecks.1,
      Or.inr ⟨hchecks.2 (.inr htransition), .inl ⟨hstate.resolve_right hopen, ?_⟩⟩⟩ hguard
    simp [TaskLifecycleIntent.newGenerationId?, htype, given?, hgiven, hdistinct]
  | settle _ outcome metadata houtcome hsame hstate hfence =>
    refine ⟨rfl, hsame.symm, ?_⟩
    rcases hfence hpending with hcancel | hpropagate | ⟨htype, hsource, hfences⟩
    · exact .inl hcancel
    · exact .inr (.inl hpropagate)
    · refine .inr (.inr ⟨htype, precedes_of_fencesCompletion hpending hfences ?_⟩)
      -- a completion at no time at all compares with nothing
      intro hnan
      have htransition : transitionName intent false = .settleCompletion := by
        simp [transitionName, htype]
      have hchecks := (Store.constraint?_ordinary_iff record.generationId
        (by simp [eventOf, unchanged, htransition])
        (by simp [eventOf, recordOf, unchanged, htransition, hsame])).mp hallowed
      exact hguard ⟨intent, record, hloaded, hunused, hsame, hpending, hchecks.1,
        Or.inr ⟨hchecks.2 (.inl htransition), .inr ⟨htype, hopen, hsource, hnan⟩⟩⟩
  | revive _ htype hsame hstate hunfenced => rw [hpending] at hunfenced; cases hunfenced
  | suspend _ htype hsame hstate hunfenced => rw [hpending] at hunfenced; cases hunfenced
  | requestCancellation _ htype hsame hstate hunfenced =>
    rw [hpending] at hunfenced
    cases hunfenced

/-- A request for a cancellation leaves its generation pending. -/
theorem Commits.requests {now : ℚ} {eventId : Text} {c : Change}
    (h : s.Commits a intent now eventId c)
    (htransition : (s.persistence.committedEvent intent now eventId c).transition =
      .requestCancellation) :
    (s.persistence.committedRecord intent now eventId c).cancellation.isRequested = true ∧
      c.state ≠ .terminal := by
  have htype : intent.type = .requestCancellation := by
    simp only [Store.committedEvent_transition] at htransition
    unfold transitionName at htransition
    grind
  have haccepted := h.stored.accepted
  unfold Store.committedRecord recordOf
  generalize s.persistence.load intent.taskId = current at haccepted
  cases haccepted with
  | requestCancellation record _ hsame hstate =>
    simp only [htype, if_true, TaskCancellationState.setRequestEventId]
    exact ⟨rfl, hstate⟩
  | settle record outcome metadata houtcome =>
    simp [terminalOutcomeForIntent, htype] at houtcome
  | revive record htype' => simp [htype] at htype'
  | _ => simp_all

theorem fencedState_step (h : FencedState s) (hfresh : s.Fresh a) (hguard : ¬s.PassesFence a) :
    FencedState (s.step a) where
  coherent := coherent_step h.coherent a
  journal := journal_step h.coherent h.journal hfresh
  fence request taskId generationId hrequest hrequests := by
    rcases step_cases h.coherent a with hsame | ⟨intent, now, eventId, c, hcommits⟩
    · rw [hsame] at hrequest ⊢
      exact h.fence request taskId generationId hrequest hrequests
    · have hstored := hcommits.stored
      rcases hstored.recorded_iff.mp hrequest with rfl | hrequest
      · obtain ⟨rfl, rfl, htransition⟩ := hrequests
        obtain ⟨hpending, hopen⟩ := hcommits.requests htransition
        exact .inr ⟨_, hstored.load_self, rfl, rfl, hpending, hopen⟩
      · rcases h.fence request taskId generationId hrequest hrequests with
          ⟨event, hevent, hends⟩ | ⟨record, hload, hsame, hcancellation, hpending, hopen⟩
        · exact .inl ⟨event, hstored.recorded hevent, hends⟩
        · rcases eq_or_ne taskId intent.taskId with rfl | hne
          · obtain ⟨hends, hkept, -⟩ := hcommits.ends_pending hguard hload hpending hopen
            exact .inl ⟨_, hstored.recorded_self, rfl, hkept.trans hsame, hends⟩
          · exact .inr ⟨record, by rw [hstored.load_of_ne hne, hload], hsame, hcancellation,
              hpending, hopen⟩

/-- A step that does not pass the fence keeps all that a step is to keep. -/
theorem keepsLifecycle_of_not_passesFence (h : FencedState s) (hfresh : s.Fresh a)
    (hguard : ¬s.PassesFence a) : s.KeepsLifecycle a where
  fence intent record event hsubmits request generationId hpending := by
    obtain ⟨now, eventId, c, hcommits, rfl⟩ := hsubmits.commits h.coherent
    obtain ⟨hrequest, hrequests, hnot⟩ := hpending
    rcases h.fence request _ _ hrequest hrequests with
      ⟨event', hevent', hends⟩ | ⟨old, hload, rfl, hcancellation, hrequested, hopen⟩
    · exact absurd hends (hnot event' hevent')
    · obtain ⟨hends, hkept, hby⟩ := hcommits.ends_pending hguard hload hrequested hopen
      rw [hcancellation] at hby
      refine ⟨hkept, ?_, fun _ => hby⟩
      rw [Store.committedRecord_state, hends]
      simp
  once := (journal_step h.coherent h.journal hfresh).once
  frozen taskId record hload hterminal hchanged :=
    terminal_frozen h.coherent hload hterminal hchanged
  stale intent now eventId current ha hloaded hstale := by
    subst ha
    exact stale_rejected h.coherent hloaded hstale

/-! ## Beyond the fence -/

/-- An intent that passes every check is committed. -/
theorem submits_of_checks {now : ℚ} {eventId : Text} {c : Change}
    (hload : s.persistence.load intent.taskId = some record)
    (hloaded : s.loaded? intent.taskId = some (intent, some record))
    (hadmitted : admission? (some record) intent = none)
    (hchange : change (some record) intent now = .ok c)
    (hunused : s.persistence.eventsByIntent.get? intent.intentId = none)
    (hallowed : s.persistence.constraint? (recordOf (some record) intent now eventId c)
      (eventOf (some record) intent now eventId c) = none) :
    s.Submits (.commit intent.taskId now eventId) intent
      (s.persistence.committedRecord intent now eventId c)
      (s.persistence.committedEvent intent now eventId c) := by
  have hexpected : Store.matchesExpectation
      (s.persistence.records.get? (recordOf (some record) intent now eventId c).taskId)
      (expectation (some record)) = true := by
    change Store.matchesExpectation (s.persistence.load intent.taskId) _ = true
    rw [hload]
    simp [Store.matchesExpectation, expectation]
  have hevaluate : evaluate (some record) intent now eventId =
      .ok (recordOf (some record) intent now eventId c,
        eventOf (some record) intent now eventId c) := by
    simp [evaluate, hchange, Except.map]
  have hunused' : s.persistence.eventsByIntent.get?
      (eventOf (some record) intent now eventId c).intentId = none := hunused
  refine ⟨⟨now, eventId, _, rfl, hloaded⟩, ?_⟩
  simp only [answer, hloaded, map_some, submitSerialized, hadmitted, hevaluate,
    Store.commit, hunused', hexpected, not_true_eq_false, if_false, hallowed]
  simp only [Store.committedRecord, Store.committedEvent, hload]
  rfl

/-- **A step that passes the fence breaks it.** -/
theorem fence_broken_of_passesFence (hcoherent : Coherent s) (hjournal : Journal s.persistence)
    (h : s.PassesFence a) :
    ∃ intent record event request generationId, s.Submits a intent record event ∧
      s.persistence.Pending intent.taskId generationId request ∧
      ¬(record.generationId = generationId ∧ record.state ≠ .active ∧
        (record.state = .terminal → EndsPending intent request)) := by
  obtain ⟨taskId, now, eventId, rfl⟩ :
      ∃ taskId now eventId, a = .commit taskId now eventId := by
    cases a with
    | commit taskId now eventId => exact ⟨taskId, now, eventId, rfl⟩
    | _ => exact h.elim
  obtain ⟨intent, record, hloaded, hunused, hsame, hpending, hparent, hkind⟩ := h
  obtain ⟨rfl, hcurrent⟩ := hcoherent.loaded _ _ _ hloaded
  have hload := hcurrent.symm
  obtain ⟨request, hrequest, hrequests, hcancellation⟩ :=
    hjournal.requested _ record hload hpending
  have hpendingIn : record.state ≠ .terminal →
      s.persistence.Pending intent.taskId record.generationId request := fun hopen =>
    ⟨hrequest, hrequests, fun event hevent hends =>
      hopen (hjournal.ended event _ record hevent hends hload)⟩
  rcases hkind with ⟨htype, hstate⟩ | ⟨hchildren, ⟨hstate, hgiven⟩ |
      ⟨htype, hopen, hsource, hnan⟩⟩
  · have htransition : transitionName intent false = .activateGeneration := by
      simp [transitionName, htype]
    have hadmitted : admission? (some record) intent = none := by
      simp [admission?, htype, hsame, hstate]
    have hchange : change (some record) intent now =
        .ok { unchanged (some record) intent with state := .active } := by
      simp [change, htype, activateGeneration, stateOf, hstate]
    refine ⟨intent, _, _, request, _, submits_of_checks hload hloaded hadmitted hchange hunused
      ((Store.constraint?_ordinary_iff intent.generationId ?_ ?_).mpr
        ⟨hparent, ?_⟩), hpendingIn (by rw [hstate]; simp), fun hkept => hkept.2.1 rfl⟩
    · simp [eventOf, unchanged, htransition]
    · simp [eventOf, recordOf, unchanged, htransition]
    · simp [eventOf, unchanged, htransition]
  · obtain ⟨newGenerationId, hnew, hdistinct⟩ := any_eq_true _ _ |>.mp hgiven
    replace hdistinct : newGenerationId ≠ record.generationId := by simpa using hdistinct
    obtain ⟨hnew, hgiven⟩ := given?_eq_some_iff.mp hnew
    obtain ⟨hresume, htransition⟩ : intent.type = .resumeWithGeneration (some newGenerationId) ∧
        transitionName intent true = .replaceGeneration := by
      unfold TaskLifecycleIntent.newGenerationId? at hnew
      unfold transitionName
      grind
    have hadmitted : admission? (some record) intent = none := by
      simp [admission?, hresume, hsame]
    have hchange : change (some record) intent now = .ok { unchanged (some record) intent with
        generationId := newGenerationId
        state := .active
        terminalOutcome := none
        cancellation := .none
        replacingGeneration := true } := by
      have hchosen : (given? (some newGenerationId)).filter
          (some · ≠ (some record).map (·.generationId)) = some newGenerationId := by
        simp [given?, hgiven, hdistinct]
      have hreplace : given? (some newGenerationId) ≠ none := by simp [given?, hgiven]
      simp only [change, hresume, resumeWithGeneration, hreplace, and_false, if_false,
        replaceGeneration, hchosen]
      simp [stateOf, hstate]
    refine ⟨intent, _, _, request, _, submits_of_checks hload hloaded hadmitted hchange hunused
      ((Store.constraint?_ordinary_iff record.generationId ?_ ?_).mpr
        ⟨hparent, fun _ => hchildren⟩), hpendingIn (by rw [hstate]; simp),
      fun hkept => hkept.2.1 rfl⟩
    · simp [eventOf, htransition]
    · simp [eventOf, snapshot, htransition]
  · have htransition : transitionName intent false = .settleCompletion := by
      simp [transitionName, htype]
    have hadmitted : admission? (some record) intent = none := by
      simp [admission?, htype, hsame, hopen]
    have hunfenced : fencesCompletion record.cancellation intent.cause.authoritativeAt = false := by
      rw [hnan]
      cases record.cancellation <;> rfl
    have hchange : change (some record) intent now = .ok { unchanged (some record) intent with
        state := .terminal, terminalOutcome := some .completed } := by
      rcases hsource with hsource | hsource <;>
        simp [change, htype, settleCompletion, hsource, hunfenced]
    refine ⟨intent, _, _, request, _, submits_of_checks hload hloaded hadmitted hchange hunused
      ((Store.constraint?_ordinary_iff record.generationId ?_ ?_).mpr
        ⟨hparent, fun _ => hchildren⟩), hpendingIn hopen, fun hkept => ?_⟩
    · simp [eventOf, unchanged, htransition]
    · simp [eventOf, recordOf, unchanged, htransition, hsame]
    · -- no time precedes the request that is not a number
      rcases hkept.2.2 rfl with ⟨_, hother⟩ | ⟨_, _, hother⟩ |
        ⟨-, moment, _, _, _, hmoment, -, hless⟩
      · rw [htype] at hother
        cases hother
      · rw [htype] at hother
        cases hother
      · rw [hnan] at hmoment
        cases hmoment
        cases hless

/-- **The fence holds exactly as long as no step passes it.**  Whether a run of fresh generations
keeps all that its steps are to keep is decided by the three branches alone. -/
theorem keepsLifecycle_iff {inputs : List Action} (hfresh : Guarded step Fresh new inputs) :
    Guarded step KeepsLifecycle new inputs ↔
      Guarded step (fun s a => ¬s.PassesFence a) new inputs := by
  refine @guarded_iff_of_assumed _ _ _ _ _ Fresh FencedState _ (fun s a h hfresh => ?_)
    (fun s a h hfresh hguard => fencedState_step h hfresh hguard) _ fencedState_new hfresh
  constructor
  · intro hkeeps hpasses
    obtain ⟨intent, record, event, request, generationId, hsubmits, hpending, hbroken⟩ :=
      fence_broken_of_passesFence h.coherent h.journal hpasses
    exact hbroken (hkeeps.fence intent record event hsubmits request generationId hpending)
  · exact keepsLifecycle_of_not_passesFence h hfresh

/-- **A generation ends once.**  What is recorded stays recorded, no two recorded events end the same
generation, and the current generation of a task is terminal exactly if a recorded event ends it. -/
theorem generation_ends_once {inputs later : List Action}
    (hfresh : Guarded step Fresh new (inputs ++ later)) :
    let journal := (run step new (inputs ++ later)).persistence
    (∀ event, (run step new inputs).persistence.Recorded event → journal.Recorded event) ∧
    (∀ first second taskId generationId, journal.Recorded first → journal.Recorded second →
      first.Ends taskId generationId → second.Ends taskId generationId → first = second) ∧
    ∀ taskId record, journal.load taskId = some record → (record.state = .terminal ↔
      ∃ event, journal.Recorded event ∧ event.Ends taskId record.generationId) := by
  intro journal
  have hjournal : Journal journal := journal_run hfresh
  refine ⟨fun event hevent => ?_, hjournal.once, fun taskId record hload =>
    ⟨hjournal.ending taskId record hload, fun ⟨event, hevent, hends⟩ =>
      hjournal.ended event taskId record hevent hends hload⟩⟩
  have hkept : Coherent (run step new (inputs ++ later)) ∧ journal.Recorded event := by
    rw [show journal = (run step new (inputs ++ later)).persistence from rfl, run_append]
    refine run_invariant (P := fun s => Coherent s ∧ s.persistence.Recorded event)
      (fun s a h => ⟨coherent_step h.1 a, ?_⟩) ⟨coherent_run inputs, hevent⟩ later
    exact step_keeps (P := (·.Recorded event)) h.1 a h.2 fun _ _ _ _ hcommits =>
      hcommits.stored.recorded h.2
  exact hkept.2

end TaskLifecycleFunnel

end Lumi.Lifecycle

namespace Lumi.Lifecycle.TaskLifecycleFunnel

open Js Run
open scoped Js.Ascii

/-- A registered task whose cancellation is requested. -/
def cancelledRegistration : List Action :=
  submission (.registerGeneration none) (text "1") (text "T") (text "g") .task 1 ++
  submission .requestCancellation (text "2") (text "T") (text "g") .task 2

/-- The fence holds where the cancellation is settled. -/
theorem settled_cancellation_keeps :
    Guarded step KeepsLifecycle new (cancelledRegistration ++
      submission (.settleCancellation none) (text "3") (text "T") (text "g") .task 3) :=
  (keepsLifecycle_iff (by decide +kernel)).mpr (by decide +kernel)

/-- The activation of the registered task is committed after its cancellation was requested. -/
theorem cancelled_registration_activates :
    Guarded step Fresh new (cancelledRegistration ++
      submission .activateGeneration (text "3") (text "T") (text "g") .task 3) ∧
    ¬Guarded step KeepsLifecycle new (cancelledRegistration ++
      submission .activateGeneration (text "3") (text "T") (text "g") .task 3) := by
  refine ⟨by decide +kernel, fun hkeeps => ?_⟩
  have hkeeps := (guarded_append.mp hkeeps).2.2.1
  have hfresh : Guarded step Fresh new (cancelledRegistration ++
      [.load ⟨.activateGeneration, text "3", text "T", text "g",
        ⟨.task, text "run", none, none, none⟩⟩]) := by decide +kernel
  obtain ⟨intent, record, event, request, generationId, hsubmits, hpending, hbroken⟩ :=
    fence_broken_of_passesFence (coherent_run _) (journal_run hfresh)
      (a := .commit (text "T") 3 (text "event3")) (by decide +kernel)
  rw [run_append] at hsubmits hpending
  exact hbroken (hkeeps.fence intent record event hsubmits request generationId hpending)

theorem cancelled_generation_ends_once :
    let journal := (run step new (cancelledRegistration ++
      submission (.settleCancellation none) (text "3") (text "T") (text "g") .task 3)).persistence
    ∀ first second taskId generationId, journal.Recorded first → journal.Recorded second →
      first.Ends taskId generationId → second.Ends taskId generationId → first = second :=
  (@generation_ends_once _ cancelledRegistration (submission (.settleCancellation none)
    (text "3") (text "T") (text "g") .task 3) (by decide +kernel)).2.1

end Lumi.Lifecycle.TaskLifecycleFunnel
