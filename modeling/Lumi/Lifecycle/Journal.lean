import Lumi.Lifecycle.Transitions

/-!
# Committed events and their records

What the journal knows, and what the checks on parents and children amount to.
-/

namespace Lumi.Lifecycle

open Js

/-! ## The journal of committed events

The journal knows every generation a task has had.  Where a generation that replaces another
one is new to it, the journal holds at most one end of each generation, and the current record
of a task shows whether its generation has ended and whether its cancellation was requested.
-/

/-- The generation with which the intent wants to replace the current one was never one of
this task. -/
def FreshGeneration (s : Store) (intent : TaskLifecycleIntent) : Prop :=
  ∀ newGenerationId, intent.newGenerationId? = some newGenerationId →
    newGenerationId ≠ intent.generationId →
    ∀ event, s.Recorded event → event.taskId = intent.taskId → event.generationId ≠ newGenerationId

instance (s : Store) (intent : TaskLifecycleIntent) : Decidable (FreshGeneration s intent) :=
  decidable_of_iff
    (∀ newGenerationId ∈ intent.newGenerationId?, newGenerationId ≠ intent.generationId →
      ∀ entry ∈ s.eventsByIntent.entries, entry.2.taskId = intent.taskId →
        entry.2.generationId ≠ newGenerationId) <| by
    constructor
    · rintro h newGenerationId hnew hdistinct event ⟨intentId, hget⟩ htask
      exact h newGenerationId hnew hdistinct _ (InsertionMap.mem_entries_iff.mpr hget) htask
    · rintro h newGenerationId hnew hdistinct ⟨intentId, event⟩ hentry htask
      exact h newGenerationId hnew hdistinct event
        ⟨intentId, InsertionMap.mem_entries_iff.mp hentry⟩ htask

/-- The event ends its generation. -/
def TaskLifecycleEvent.Ends (event : TaskLifecycleEvent) (taskId generationId : Text) : Prop :=
  event.taskId = taskId ∧ event.generationId = generationId ∧ event.committed.state = .terminal

/-- The event requests the cancellation of its generation. -/
def TaskLifecycleEvent.Requests (event : TaskLifecycleEvent) (taskId generationId : Text) : Prop :=
  event.taskId = taskId ∧ event.generationId = generationId ∧
    event.transition = .requestCancellation

structure Journal (s : Store) : Prop where
  present : ∀ event, s.Recorded event → ∃ record, s.load event.taskId = some record
  known : ∀ taskId record, s.load taskId = some record →
    ∃ event, s.Recorded event ∧ event.taskId = taskId ∧ event.generationId = record.generationId
  ended : ∀ event taskId record, s.Recorded event → event.Ends taskId record.generationId →
    s.load taskId = some record → record.state = .terminal
  ending : ∀ taskId record, s.load taskId = some record → record.state = .terminal →
    ∃ event, s.Recorded event ∧ event.Ends taskId record.generationId
  once : ∀ first second taskId generationId, s.Recorded first → s.Recorded second →
    first.Ends taskId generationId → second.Ends taskId generationId → first = second
  requested : ∀ taskId record, s.load taskId = some record → record.cancellation.isRequested →
    ∃ event, s.Recorded event ∧ event.Requests taskId record.generationId ∧
      event.committed.cancellation = record.cancellation

theorem journal_new : Journal Store.new where
  present event h := by obtain ⟨_, h⟩ := h; cases h
  known taskId record h := by cases h
  ended event taskId record h := by obtain ⟨_, h⟩ := h; cases h
  ending taskId record h := by cases h
  once first second taskId generationId h := by obtain ⟨_, h⟩ := h; cases h
  requested taskId record h := by cases h

namespace Store

variable (s : Store) (intent : TaskLifecycleIntent) (now : ℚ) (eventId : Text) (c : Change)

@[simp] theorem committedRecord_state :
    (s.committedRecord intent now eventId c).state = c.state := rfl

@[simp] theorem committedEvent_taskId :
    (s.committedEvent intent now eventId c).taskId = intent.taskId := rfl

@[simp] theorem committedEvent_transition :
    (s.committedEvent intent now eventId c).transition =
      transitionName intent c.replacingGeneration := rfl

variable {s intent now eventId c}

theorem committedRecord_cancellation (h : intent.type ≠ .requestCancellation) :
    (s.committedRecord intent now eventId c).cancellation = c.cancellation := by
  simp [committedRecord, recordOf, h]

end Store

namespace Store.Commits

variable {s s' : Store} {intent : TaskLifecycleIntent} {now : ℚ} {eventId : Text} {c : Change}

section

variable (h : s.Commits intent now eventId c s')
include h

/-- A generation that the journal knows goes on only while it has not ended. -/
theorem continued (hjournal : Journal s) (hfresh : FreshGeneration s intent)
    {event : TaskLifecycleEvent} (hevent : s.Recorded event) (htask : event.taskId = intent.taskId)
    (hgeneration : event.generationId = c.generationId) :
    ∃ record, s.load intent.taskId = some record ∧ record.generationId = c.generationId ∧
      record.state ≠ .terminal := by
  obtain ⟨old, hold⟩ := hjournal.present event hevent
  rw [htask] at hold
  have haccepted := h.accepted
  generalize hcurrent : s.load intent.taskId = current at haccepted
  cases haccepted with
  | register parent htype =>
    rw [hcurrent] at hold
    cases hold
  | replace record newGenerationId htype hsame hstate hgiven hdistinct =>
    exact absurd hgeneration
      (hfresh newGenerationId (by simp [TaskLifecycleIntent.newGenerationId?, htype])
        (hsame ▸ hdistinct) event hevent htask)
  | activate record htype hsame hstate | revive record htype hsame hstate
  | suspend record htype hsame hstate =>
    exact ⟨record, rfl, hsame, by rw [hstate]; simp⟩
  | requestCancellation record htype hsame hstate
  | settle record outcome metadata houtcome hsame hstate =>
    exact ⟨record, rfl, hsame, hstate⟩

/-- A cancellation that is pending after a commit is requested by it, or was pending before. -/
theorem pending
    (hpending : (s.committedRecord intent now eventId c).cancellation.isRequested = true) :
    (s.committedEvent intent now eventId c).transition = .requestCancellation ∨
      ∃ record, s.load intent.taskId = some record ∧ record.generationId = c.generationId ∧
        record.cancellation = (s.committedRecord intent now eventId c).cancellation := by
  have haccepted := h.accepted
  generalize hcurrent : s.load intent.taskId = current at haccepted
  by_cases hrequest : intent.type = .requestCancellation
  · left
    simp [transitionName, hrequest]
  · right
    rw [Store.committedRecord_cancellation hrequest] at hpending ⊢
    cases haccepted with
    | register parent htype => cases hpending
    | replace record newGenerationId htype hsame hstate hgiven hdistinct => cases hpending
    | activate record htype hsame hstate | revive record htype hsame hstate
    | suspend record htype hsame hstate
    | settle record outcome metadata houtcome hsame hstate => exact ⟨record, rfl, hsame, rfl⟩
    | requestCancellation record htype hsame hstate => exact absurd htype hrequest

theorem journal (hjournal : Journal s) (hfresh : FreshGeneration s intent) : Journal s' where
  present event hevent := by
    rcases eq_or_ne event.taskId intent.taskId with heq | hne
    · exact ⟨_, by rw [heq]; exact h.load_self⟩
    · rcases h.recorded_iff.mp hevent with rfl | hevent
      · exact absurd rfl hne
      · rw [h.load_of_ne hne]
        exact hjournal.present event hevent
  known taskId record hload := by
    rcases eq_or_ne taskId intent.taskId with rfl | hne
    · rw [h.load_self] at hload
      cases hload
      exact ⟨_, h.recorded_self, rfl, rfl⟩
    · rw [h.load_of_ne hne] at hload
      obtain ⟨event, hevent, hknown⟩ := hjournal.known taskId record hload
      exact ⟨event, h.recorded hevent, hknown⟩
  ended event taskId record hevent hends hload := by
    rcases eq_or_ne taskId intent.taskId with rfl | hne
    · rw [h.load_self] at hload
      cases hload
      rcases h.recorded_iff.mp hevent with rfl | hevent
      · exact hends.2.2
      · -- an older end of the same generation stands against every further commit
        obtain ⟨old, hold, hsame, hopen⟩ := h.continued hjournal hfresh hevent hends.1 hends.2.1
        exact absurd
          (hjournal.ended event _ old hevent ⟨hends.1, hends.2.1.trans hsame.symm, hends.2.2⟩ hold)
          hopen
    · rw [h.load_of_ne hne] at hload
      rcases h.recorded_iff.mp hevent with rfl | hevent
      · exact absurd hends.1 (Ne.symm hne)
      · exact hjournal.ended event taskId record hevent hends hload
  ending taskId record hload hterminal := by
    rcases eq_or_ne taskId intent.taskId with rfl | hne
    · rw [h.load_self] at hload
      cases hload
      exact ⟨_, h.recorded_self, rfl, rfl, hterminal⟩
    · rw [h.load_of_ne hne] at hload
      obtain ⟨event, hevent, hends⟩ := hjournal.ending taskId record hload hterminal
      exact ⟨event, h.recorded hevent, hends⟩
  once first second taskId generationId hfirst hsecond hends hends' := by
    -- no recorded event ends the generation that this commit ends
    have hnew : ∀ event, s.Recorded event →
        (s.committedEvent intent now eventId c).Ends taskId generationId →
        event.Ends taskId generationId → False := by
      intro event hevent hself hother
      obtain ⟨old, hold, hsame, hopen⟩ := h.continued hjournal hfresh hevent
        (hother.1.trans hself.1.symm) (hother.2.1.trans hself.2.1.symm)
      refine hopen (hjournal.ended event intent.taskId old hevent ⟨?_, ?_, hother.2.2⟩ hold)
      · exact hother.1.trans hself.1.symm
      · exact (hother.2.1.trans hself.2.1.symm).trans hsame.symm
    rcases h.recorded_iff.mp hfirst with rfl | hfirst
    · rcases h.recorded_iff.mp hsecond with rfl | hsecond
      · rfl
      · exact (hnew second hsecond hends hends').elim
    · rcases h.recorded_iff.mp hsecond with rfl | hsecond
      · exact (hnew first hfirst hends' hends).elim
      · exact hjournal.once first second taskId generationId hfirst hsecond hends hends'
  requested taskId record hload hpending := by
    rcases eq_or_ne taskId intent.taskId with rfl | hne
    · rw [h.load_self] at hload
      cases hload
      rcases h.pending hpending with htransition | ⟨old, hold, hsame, hcancellation⟩
      · exact ⟨_, h.recorded_self, ⟨rfl, rfl, htransition⟩, rfl⟩
      · obtain ⟨event, hevent, hrequests, hstored⟩ :=
          hjournal.requested _ old hold (by rw [hcancellation]; exact hpending)
        refine ⟨event, h.recorded hevent, ?_, hstored.trans hcancellation⟩
        exact ⟨hrequests.1, hrequests.2.1.trans hsame, hrequests.2.2⟩
    · rw [h.load_of_ne hne] at hload
      obtain ⟨event, hevent, hrequests⟩ := hjournal.requested taskId record hload hpending
      exact ⟨event, h.recorded hevent, hrequests⟩

end

end Store.Commits

namespace TaskLifecycleFunnel

open Run

/-- The identifier of a new generation is fresh when its intent is committed. -/
def Fresh (s : TaskLifecycleFunnel) : Action → Prop
  | .commit taskId _ _ =>
    ∀ intent current, s.loaded? taskId = some (intent, current) →
      FreshGeneration s.persistence intent
  | _ => True

instance (s : TaskLifecycleFunnel) : (a : Action) → Decidable (s.Fresh a)
  | .load _ => isTrue trivial
  | .leave _ => isTrue trivial
  | .commit taskId _ _ =>
    decidable_of_iff (∀ read ∈ s.loaded? taskId, FreshGeneration s.persistence read.1)
      ⟨fun h intent current hread => h (intent, current) hread,
        fun h read hread => h read.1 read.2 hread⟩

variable [Host]

variable {s : TaskLifecycleFunnel}

theorem Commits.fresh {a : Action} {intent : TaskLifecycleIntent} {now : ℚ} {eventId : Text}
    {c : Change} (h : s.Commits a intent now eventId c) (hfresh : s.Fresh a) :
    FreshGeneration s.persistence intent := by
  rw [h.action] at hfresh
  exact hfresh intent _ h.loaded

/-- What the commits of fresh generations keep, the steps of the funnel keep. -/
theorem step_keeps {P : Store → Prop} (hcoherent : Coherent s) (a : Action) (hP : P s.persistence)
    (hcommit : ∀ intent now eventId c, s.Commits a intent now eventId c → P (s.step a).persistence) :
    P (s.step a).persistence := by
  rcases step_cases hcoherent a with hsame | ⟨intent, now, eventId, c, hcommits⟩
  · rwa [hsame]
  · exact hcommit intent now eventId c hcommits

theorem journal_step (hcoherent : Coherent s) (hjournal : Journal s.persistence) {a : Action}
    (hfresh : s.Fresh a) : Journal (s.step a).persistence :=
  step_keeps hcoherent a hjournal fun _ _ _ _ hcommits =>
    hcommits.stored.journal hjournal (hcommits.fresh hfresh)

theorem journal_run {inputs : List Action} (hfresh : Guarded step Fresh new inputs) :
    Journal (run step new inputs).persistence :=
  (run_preserves (P := fun s => Coherent s ∧ Journal s.persistence)
    (fun _ a h hfresh => ⟨coherent_step h.1 a, journal_step h.1 h.2 hfresh⟩)
    ⟨coherent_new, journal_new⟩ hfresh).2

end TaskLifecycleFunnel

/-! ## Parents and children in a commit

What the checks on the records of the parent and of the children amount to, as statements about
the records that are stored.
-/

variable {record : TaskLifecycleRecord}

theorem attachment?_eq_some_iff {link : TaskParentLink} :
    record.attachment? = some link ↔ record.parent = some link ∧ link.governance = .attached := by
  simp [TaskLifecycleRecord.attachment?, Option.filter_eq_some_iff]

theorem attachedTo_iff {taskId generationId : Text} :
    record.AttachedTo taskId generationId ↔
      ∃ link, record.attachment? = some link ∧ link.taskId = taskId ∧
        link.generationId = generationId := by
  constructor
  · intro h
    exact ⟨_, attachment?_eq_some_iff.mpr ⟨h, rfl⟩, rfl, rfl⟩
  · rintro ⟨link, hlink, rfl, rfl⟩
    obtain ⟨hparent, hgovernance⟩ := attachment?_eq_some_iff.mp hlink
    rw [TaskLifecycleRecord.AttachedTo, hparent, ← hgovernance]

namespace Store

/-- The children attached to a generation have ended. -/
def ChildrenEnded (s : Store) (taskId generationId : Text) : Prop :=
  ∀ childId child, s.load childId = some child → child.AttachedTo taskId generationId →
    child.state = .terminal

/-- The parent that governs the record lets a transition of its own pass: its generation is the
current one, has not ended and is not being cancelled. -/
def ParentOpen (s : Store) (parent : Option TaskParentLink) (cause : TaskLifecycleCause) : Prop :=
  ∀ link, parent = some link → link.governance = .attached →
    cause.source ≠ .parentLifecycle ∧
      ∃ record, s.load link.taskId = some record ∧ record.generationId = link.generationId ∧
        record.state ≠ .terminal ∧ record.cancellation.isRequested = false

instance (s : Store) (taskId generationId : Text) : Decidable (s.ChildrenEnded taskId generationId) :=
  decidable_of_iff
    (∀ entry ∈ s.records.entries, entry.2.AttachedTo taskId generationId →
      entry.2.state = .terminal)
    ⟨fun h childId child hload => h (childId, child) (InsertionMap.mem_entries_iff.mpr hload),
      fun h entry hentry => h entry.1 entry.2 (InsertionMap.mem_entries_iff.mp hentry)⟩

instance (s : Store) (parent : Option TaskParentLink) (cause : TaskLifecycleCause) :
    Decidable (s.ParentOpen parent cause) :=
  decidable_of_iff
    (∀ link ∈ parent, link.governance = .attached → cause.source ≠ .parentLifecycle ∧
      (s.load link.taskId).any (fun record => record.generationId = link.generationId ∧
        record.state ≠ .terminal ∧ record.cancellation.isRequested = false) = true) <| by
    simp [ParentOpen, Option.any_eq_true]

theorem activeChild?_eq_none_iff {s : Store} {taskId generationId : Text} :
    s.activeChild? taskId (some generationId) = none ↔ s.ChildrenEnded taskId generationId := by
  unfold activeChild?
  rw [List.find?_eq_none]
  constructor
  · intro h childId child hload hattached
    obtain ⟨link, hlink, rfl, rfl⟩ := attachedTo_iff.mp hattached
    have hmem : child ∈ s.records.values :=
      List.mem_map.mpr ⟨(childId, child), InsertionMap.mem_entries_iff.mpr hload, rfl⟩
    simpa [hlink] using h child hmem
  · intro h child hmem hactive
    obtain ⟨⟨childId, child⟩, hentry, rfl⟩ := List.mem_map.mp hmem
    simp only [Bool.and_eq_true, Option.any_eq_true, decide_eq_true_eq,
      Option.some.injEq] at hactive
    obtain ⟨⟨link, hlink, htask, hgeneration⟩, hstate⟩ := hactive
    exact hstate (h childId child (InsertionMap.mem_entries_iff.mp hentry)
      (attachedTo_iff.mpr ⟨link, hlink, htask, hgeneration⟩))

end Store

/-- What the parent has to be for a transition of an attached child other than its
registration. -/
structure ParentAdmits (record : TaskLifecycleRecord) (event : TaskLifecycleEvent)
    (parent : TaskLifecycleRecord) : Prop where
  propagation : event.cause.source = .parentLifecycle →
    propagationConstraint record event parent = none
  propagated : event.transition = .propagateParentTermination →
    event.cause.source = .parentLifecycle
  unended : parent.state = .terminal → event.cause.source = .parentLifecycle ∧
    (event.transition = .propagateParentTermination ∨ event.transition = .settleCancellation)
  unfenced : parent.cancellation.isRequested = true →
    event.transition = .requestCancellation ∨ event.transition = .settleCancellation

theorem attachedParentConstraint_eq_none_iff {event : TaskLifecycleEvent}
    {parent : Option TaskLifecycleRecord} {link : TaskParentLink}
    (hlink : record.attachment? = some link) (htransition : event.transition ≠ .registerGeneration) :
    attachedParentConstraint record event parent = none ↔
      ∃ found, parent = some found ∧ found.generationId = link.generationId ∧
        ParentAdmits record event found := by
  unfold attachedParentConstraint
  simp only [hlink, htransition, if_false]
  cases hparent : parent.filter (·.generationId = link.generationId) with
  | none =>
    simp only [reduceCtorEq, false_iff, not_exists, not_and]
    rintro found rfl hgeneration
    simp [hgeneration] at hparent
  | some found =>
    obtain ⟨rfl, hgeneration⟩ := Option.filter_eq_some_iff.mp hparent
    replace hgeneration : found.generationId = link.generationId := by simpa using hgeneration
    constructor
    · intro h
      refine ⟨found, rfl, hgeneration, ?_⟩
      constructor <;> grind
    · rintro ⟨other, hother, -, hadmits⟩
      cases hother
      obtain ⟨hpropagation, hpropagated, hunended, hunfenced⟩ := hadmits
      grind

namespace Store

variable {s : Store} {record : TaskLifecycleRecord} {event : TaskLifecycleEvent}

theorem constraint?_eq_none_iff :
    s.constraint? record event = none ↔
      (event.transition = .registerGeneration → s.registrationConstraint record = none) ∧
      attachedParentConstraint record event (record.parent.bind fun link => s.load link.taskId) =
        none ∧
      (event.transition = .settleCompletion → s.completionConstraint record = none) ∧
      (event.transition = .settleCompletion ∨ event.transition = .replaceGeneration →
        s.childrenConstraint record event = none) := by
  simp [constraint?, load]

theorem registrationConstraint_eq_none_iff :
    s.registrationConstraint record = none ↔
      ∀ link, record.attachment? = some link → ∃ parent, s.load link.taskId = some parent ∧
        parent.generationId = link.generationId ∧ parent.state = .active ∧
        parent.cancellation.isRequested = false := by
  unfold registrationConstraint load
  cases record.attachment? with
  | none => simp
  | some link => simp [Option.any_eq_true]

theorem completionConstraint_eq_none_iff :
    s.completionConstraint record = none ↔
      ∀ link, record.attachment? = some link → ∃ parent, s.load link.taskId = some parent ∧
        parent.generationId = link.generationId ∧ parent.state ≠ .terminal ∧
        parent.cancellation.isRequested = false := by
  unfold completionConstraint load
  cases record.attachment? with
  | none => simp
  | some link => simp [Option.any_eq_true]

/-- An attached child that is not being registered has a parent that admits the transition. -/
theorem parentAdmits_of_constraint? (h : s.constraint? record event = none)
    (htransition : event.transition ≠ .registerGeneration) {link : TaskParentLink}
    (hlink : record.attachment? = some link) :
    ∃ parent, s.load link.taskId = some parent ∧ parent.generationId = link.generationId ∧
      ParentAdmits record event parent := by
  have hparent := (constraint?_eq_none_iff.mp h).2.1
  rw [(attachment?_eq_some_iff.mp hlink).1] at hparent
  exact (attachedParentConstraint_eq_none_iff hlink htransition).mp hparent

/-- For a transition that no parent propagates, the parent has to be open. -/
theorem attachedParentConstraint_ordinary_iff
    (hordinary : event.transition ≠ .registerGeneration ∧ event.transition ≠ .requestCancellation ∧
      event.transition ≠ .settleCancellation ∧ event.transition ≠ .propagateParentTermination) :
    attachedParentConstraint record event (record.parent.bind fun link => s.load link.taskId) =
        none ↔ s.ParentOpen record.parent event.cause := by
  obtain ⟨hregister, hrequest, hsettle, hpropagate⟩ := hordinary
  cases hlink : record.attachment? with
  | none =>
    have hopen : s.ParentOpen record.parent event.cause := fun link hparent hattached => by
      rw [attachment?_eq_some_iff.mpr ⟨hparent, hattached⟩] at hlink
      cases hlink
    simp [attachedParentConstraint, hlink, hopen]
  | some link =>
    obtain ⟨hparent, hattached⟩ := attachment?_eq_some_iff.mp hlink
    rw [attachedParentConstraint_eq_none_iff hlink hregister, hparent]
    constructor
    · rintro ⟨found, hfound, hgeneration, hadmits⟩ other hother -
      obtain rfl := Option.some.inj hother
      refine ⟨fun hsource => ?_, found, hfound, hgeneration, fun hterminal => ?_, ?_⟩
      · have := hadmits.propagation hsource
        unfold propagationConstraint at this
        grind
      · rcases (hadmits.unended hterminal).2 with h | h
        · exact hpropagate h
        · exact hsettle h
      · by_contra hpending
        rcases hadmits.unfenced (by simpa using hpending) with h | h
        · exact hrequest h
        · exact hsettle h
    · intro hopen
      obtain ⟨hsource, found, hfound, hgeneration, hstate, hunfenced⟩ := hopen link rfl hattached
      refine ⟨found, hfound, hgeneration, fun h => absurd h hsource, fun h => absurd h hpropagate,
        fun h => absurd h hstate, fun h => ?_⟩
      rw [hunfenced] at h
      cases h

theorem childrenConstraint_eq_none_iff {generationId : Text}
    (hgoverned : (if event.transition = .replaceGeneration then event.previous.map (·.generationId)
      else some record.generationId) = some generationId) :
    s.childrenConstraint record event = none ↔ s.ChildrenEnded record.taskId generationId := by
  unfold childrenConstraint
  rw [hgoverned, Option.map_eq_none_iff, activeChild?_eq_none_iff]

/-- What an ordinary transition of an existing record has to pass. -/
theorem constraint?_ordinary_iff (generationId : Text)
    (hordinary : event.transition ≠ .registerGeneration ∧ event.transition ≠ .requestCancellation ∧
      event.transition ≠ .settleCancellation ∧ event.transition ≠ .propagateParentTermination)
    (hgoverned : (if event.transition = .replaceGeneration then event.previous.map (·.generationId)
      else some record.generationId) = some generationId) :
    s.constraint? record event = none ↔
      s.ParentOpen record.parent event.cause ∧
      (event.transition = .settleCompletion ∨ event.transition = .replaceGeneration →
        s.ChildrenEnded record.taskId generationId) := by
  rw [constraint?_eq_none_iff, attachedParentConstraint_ordinary_iff hordinary,
    childrenConstraint_eq_none_iff hgoverned]
  constructor
  · exact fun h => ⟨h.2.1, h.2.2.2⟩
  · refine fun h => ⟨fun hregister => absurd hregister hordinary.1, h.1, fun _ => ?_, h.2⟩
    rw [completionConstraint_eq_none_iff]
    intro link hlink
    obtain ⟨hparent, hattached⟩ := attachment?_eq_some_iff.mp hlink
    exact (h.1 link hparent hattached).2

end Store

end Lumi.Lifecycle
