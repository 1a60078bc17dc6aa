import Lumi.Lifecycle.Journal

/-!
# No completed parent has a running child

A child that has not ended has a parent whose current generation is the one the child is
attached to, and that generation has not completed.  A generation that was completed or replaced
therefore has no running child, and since no generation comes back, it never has one again.
-/

namespace Lumi.Lifecycle

open Js Run

/-- The generation of the task was settled as completed, or replaced by another one. -/
def Store.CompletedOrReplaced (s : Store) (taskId generationId : Text) : Prop :=
  ∃ event, s.Recorded event ∧ event.taskId = taskId ∧
    ((event.transition = .settleCompletion ∧ event.generationId = generationId) ∨
      (event.transition = .replaceGeneration ∧
        event.previous.map (·.generationId) = some generationId))

instance (s : Store) (taskId generationId : Text) :
    Decidable (s.CompletedOrReplaced taskId generationId) :=
  decidable_of_iff
    (∃ entry ∈ s.eventsByIntent.entries, entry.2.taskId = taskId ∧
      ((entry.2.transition = .settleCompletion ∧ entry.2.generationId = generationId) ∨
        (entry.2.transition = .replaceGeneration ∧
          entry.2.previous.map (·.generationId) = some generationId))) <| by
    constructor
    · rintro ⟨⟨intentId, event⟩, hentry, hends⟩
      exact ⟨event, ⟨intentId, InsertionMap.mem_entries_iff.mp hentry⟩, hends⟩
    · rintro ⟨event, ⟨intentId, hget⟩, hends⟩
      exact ⟨(intentId, event), InsertionMap.mem_entries_iff.mpr hget, hends⟩

/-- The generation is settled, and settled as completed. -/
def TaskLifecycleRecord.Completed (record : TaskLifecycleRecord) : Prop :=
  record.state = .terminal ∧ record.terminalOutcome = some .completed

structure Governed (s : Store) : Prop where
  elsewhere : ∀ taskId record parentId generationId, s.load taskId = some record →
    record.AttachedTo parentId generationId → parentId ≠ taskId
  governed : ∀ taskId record parentId generationId, s.load taskId = some record →
    record.AttachedTo parentId generationId → record.state ≠ .terminal →
    ∃ parent, s.load parentId = some parent ∧ parent.generationId = generationId ∧ ¬parent.Completed
  completed : ∀ event record, s.Recorded event → event.transition = .settleCompletion →
    s.load event.taskId = some record → record.generationId = event.generationId → record.Completed
  replaced : ∀ event record generationId, s.Recorded event →
    event.transition = .replaceGeneration →
    event.previous.map (·.generationId) = some generationId →
    s.load event.taskId = some record → record.generationId ≠ generationId
  previous : ∀ event generationId, s.Recorded event →
    event.previous.map (·.generationId) = some generationId →
    ∃ earlier, s.Recorded earlier ∧ earlier.taskId = event.taskId ∧
      earlier.generationId = generationId

theorem governed_new : Governed Store.new where
  elsewhere taskId record parentId generationId h := by cases h
  governed taskId record parentId generationId h := by cases h
  completed event record h := by obtain ⟨_, h⟩ := h; cases h
  replaced event record generationId h := by obtain ⟨_, h⟩ := h; cases h
  previous event generationId h := by obtain ⟨_, h⟩ := h; cases h

/-- The children of a generation that was completed or replaced have ended. -/
theorem Governed.children_ended {s : Store} (h : Governed s) {taskId parentId generationId : Text}
    {record : TaskLifecycleRecord} (hended : s.CompletedOrReplaced parentId generationId)
    (hload : s.load taskId = some record) (hattached : record.AttachedTo parentId generationId) :
    record.state = .terminal := by
  by_contra hrunning
  obtain ⟨parent, hparent, hsame, hopen⟩ := h.governed _ _ _ _ hload hattached hrunning
  obtain ⟨event, hevent, rfl, ⟨htransition, rfl⟩ | ⟨htransition, hprevious⟩⟩ := hended
  · exact hopen (h.completed event parent hevent htransition hparent hsame)
  · exact h.replaced event parent generationId hevent htransition hprevious hparent hsame

namespace Store.Commits

variable {s s' : Store} {intent : TaskLifecycleIntent} {now : ℚ} {eventId : Text} {c : Change}

section

variable (h : s.Commits intent now eventId c s')
include h

theorem completed_of_transition
    (htransition : transitionName intent c.replacingGeneration = .settleCompletion) :
    c.state = .terminal ∧ c.terminalOutcome = some .completed := by
  have htype : intent.type = .settleCompletion := by
    unfold transitionName at htransition
    grind
  have haccepted := h.accepted
  generalize s.load intent.taskId = current at haccepted
  cases haccepted with
  | settle record outcome metadata houtcome =>
    simp only [terminalOutcomeForIntent, htype, Option.some.injEq] at houtcome
    subst houtcome
    exact ⟨rfl, rfl⟩
  | _ => simp_all

/-- A generation is replaced by a different one. -/
theorem replaced_of_transition
    (htransition : transitionName intent c.replacingGeneration = .replaceGeneration) :
    ∃ record, s.load intent.taskId = some record ∧ c.generationId ≠ record.generationId := by
  have hreplacing : c.replacingGeneration = true := by
    unfold transitionName at htransition
    grind
  have haccepted := h.accepted
  generalize s.load intent.taskId = current at haccepted
  cases haccepted with
  | replace record newGenerationId htype hsame hstate hgiven hdistinct =>
    exact ⟨record, rfl, hdistinct⟩
  | _ => cases hreplacing

/-- The parent of a record is the one it was registered with. -/
theorem parent_eq :
    (∃ parent, intent.type = .registerGeneration parent ∧ s.load intent.taskId = none) ∨
      ∃ record, s.load intent.taskId = some record ∧ c.parent = record.parent ∧
        transitionName intent c.replacingGeneration ≠ .registerGeneration := by
  have haccepted := h.accepted
  generalize hcurrent : s.load intent.taskId = current at haccepted
  cases haccepted with
  | register parent htype => exact .inl ⟨parent, htype, rfl⟩
  | settle record outcome metadata houtcome =>
    refine .inr ⟨record, rfl, rfl, ?_⟩
    unfold transitionName
    unfold terminalOutcomeForIntent at houtcome
    grind
  | revive record htype =>
    refine .inr ⟨record, rfl, rfl, ?_⟩
    rcases htype with ⟨_, _, _, htype⟩ | ⟨_, htype⟩ <;> simp [transitionName, htype, unchanged]
  | activate record htype | suspend record htype | replace record newGenerationId htype
  | requestCancellation record htype =>
    exact .inr ⟨record, rfl, rfl, by simp [transitionName, htype]⟩

/-- What an attached child that goes on finds when it commits. -/
theorem parent_open {parentId generationId : Text}
    (hparent : c.parent = some ⟨parentId, generationId, .attached⟩) (hrunning : c.state ≠ .terminal) :
    ∃ parent, s.load parentId = some parent ∧ parent.generationId = generationId ∧
      parent.state ≠ .terminal := by
  have hlink : (recordOf (s.load intent.taskId) intent now eventId c).attachment? =
      some ⟨parentId, generationId, .attached⟩ := attachment?_eq_some_iff.mpr ⟨hparent, rfl⟩
  by_cases hregister : transitionName intent c.replacingGeneration = .registerGeneration
  · have hcheck := (constraint?_eq_none_iff.mp h.allowed).1 hregister
    obtain ⟨parent, hload, hsame, hactive, -⟩ :=
      registrationConstraint_eq_none_iff.mp hcheck _ hlink
    exact ⟨parent, hload, hsame, by rw [hactive]; simp⟩
  · obtain ⟨parent, hload, hsame, hadmits⟩ :=
      parentAdmits_of_constraint? h.allowed hregister hlink
    refine ⟨parent, hload, hsame, fun hterminal => hrunning ?_⟩
    -- only a transition that ends the child passes a parent that has ended
    have hsettles : terminalOutcomeForIntent intent ≠ none := by
      rcases (hadmits.unended hterminal).2 with htransition | htransition <;>
        change transitionName intent c.replacingGeneration = _ at htransition <;>
        unfold transitionName at htransition <;> unfold terminalOutcomeForIntent <;> grind
    have haccepted := h.accepted
    generalize s.load intent.taskId = current at haccepted
    cases haccepted with
    | settle record outcome metadata houtcome => rfl
    | revive record htype =>
      rcases htype with ⟨_, _, _, htype⟩ | ⟨_, htype⟩ <;>
        simp [terminalOutcomeForIntent, htype] at hsettles
    | register parent htype | activate record htype | suspend record htype
    | replace record newGenerationId htype | requestCancellation record htype =>
      simp [terminalOutcomeForIntent, htype] at hsettles

/-- A generation with a running child is neither completed nor replaced. -/
theorem keeps_generation {record : TaskLifecycleRecord} (hload : s.load intent.taskId = some record)
    (hchild : ¬s.ChildrenEnded intent.taskId record.generationId) :
    c.generationId = record.generationId ∧
      ¬(c.state = .terminal ∧ c.terminalOutcome = some .completed) := by
  have hallowed := (constraint?_eq_none_iff.mp h.allowed).2.2.2
  have haccepted := h.accepted
  rw [hload] at haccepted hallowed
  cases haccepted with
  | replace _ newGenerationId htype =>
    refine absurd ?_ hchild
    have htransition : transitionName intent true = .replaceGeneration := by
      simp [transitionName, htype]
    refine (childrenConstraint_eq_none_iff ?_).mp (hallowed (.inr htransition))
    simp [eventOf, htransition, snapshot]
  | settle _ outcome metadata houtcome hsame =>
    refine ⟨hsame.symm, fun hcompleted => hchild ?_⟩
    obtain rfl := Option.some.inj hcompleted.2
    have htransition : transitionName intent false = .settleCompletion := by
      unfold terminalOutcomeForIntent at houtcome
      unfold transitionName
      unfold ParentOutcome.toTerminalOutcome at houtcome
      grind
    refine (childrenConstraint_eq_none_iff ?_).mp (hallowed (.inl htransition))
    simp [eventOf, recordOf, unchanged, htransition, hsame]
  | activate _ htype hsame hstate => exact ⟨hsame.symm, fun h => by cases h.1⟩
  | revive _ htype hsame hstate => exact ⟨hsame.symm, fun h => by cases h.1⟩
  | suspend _ htype hsame hstate => exact ⟨hsame.symm, fun h => by cases h.1⟩
  | requestCancellation _ htype hsame hstate => exact ⟨hsame.symm, fun h => hstate h.1⟩

theorem attached_elsewhere (hgoverned : Governed s) {parentId generationId : Text}
    (hparent : c.parent = some ⟨parentId, generationId, .attached⟩) : parentId ≠ intent.taskId := by
  rintro rfl
  rcases h.parent_eq with ⟨parent, htype, hnone⟩ | ⟨record, hload, hsame, -⟩
  · -- a task that is being registered is not there to be its own parent
    have htransition : transitionName intent c.replacingGeneration = .registerGeneration := by
      simp [transitionName, htype]
    have hcheck := (constraint?_eq_none_iff.mp h.allowed).1 htransition
    obtain ⟨found, hload, -⟩ := registrationConstraint_eq_none_iff.mp hcheck _
      (attachment?_eq_some_iff.mpr ⟨hparent, rfl⟩)
    rw [hnone] at hload
    cases hload
  · exact hgoverned.elsewhere _ _ _ _ hload (hsame.symm.trans hparent) rfl

theorem governed (hgoverned : Governed s) (hjournal : Journal s) (hfresh : FreshGeneration s intent) :
    Governed s' where
  elsewhere taskId record parentId generationId hload hattached := by
    rcases eq_or_ne taskId intent.taskId with rfl | hne
    · rw [h.load_self] at hload
      cases hload
      exact h.attached_elsewhere hgoverned hattached
    · rw [h.load_of_ne hne] at hload
      exact hgoverned.elsewhere _ _ _ _ hload hattached
  governed taskId record parentId generationId hload hattached hrunning := by
    rcases eq_or_ne taskId intent.taskId with rfl | hne
    · -- the child commits: its parent is open and is not the task itself
      rw [h.load_self] at hload
      cases hload
      obtain ⟨parent, hparent, hsame, hopen⟩ := h.parent_open hattached hrunning
      refine ⟨parent, ?_, hsame, fun hcompleted => hopen hcompleted.1⟩
      rw [h.load_of_ne (h.attached_elsewhere hgoverned hattached), hparent]
    · rw [h.load_of_ne hne] at hload
      obtain ⟨parent, hparent, rfl, hopen⟩ :=
        hgoverned.governed _ _ _ _ hload hattached hrunning
      rcases eq_or_ne parentId intent.taskId with rfl | hparentNe
      · -- the parent commits: its running child keeps it from completing
        have hchild : ¬s.ChildrenEnded intent.taskId parent.generationId := fun hended =>
          hrunning (hended _ _ hload hattached)
        obtain ⟨hsame, hnot⟩ := h.keeps_generation hparent hchild
        exact ⟨_, h.load_self, hsame, hnot⟩
      · exact ⟨parent, by rw [h.load_of_ne hparentNe, hparent], rfl, hopen⟩
  completed event record hevent htransition hload hsame := by
    rcases h.recorded_iff.mp hevent with rfl | hevent
    · rw [committedEvent_taskId, h.load_self] at hload
      cases hload
      exact h.completed_of_transition htransition
    · rcases eq_or_ne event.taskId intent.taskId with heq | hne
      · rw [heq, h.load_self] at hload
        cases hload
        obtain ⟨old, hold, hgeneration, hopen⟩ :=
          h.continued hjournal hfresh hevent heq hsame.symm
        rw [← heq] at hold
        exact absurd
          (hgoverned.completed event old hevent htransition hold (hgeneration.trans hsame)).1 hopen
      · rw [h.load_of_ne hne] at hload
        exact hgoverned.completed event record hevent htransition hload hsame
  replaced event record generationId hevent htransition hprevious hload := by
    rcases h.recorded_iff.mp hevent with rfl | hevent
    · rw [committedEvent_taskId, h.load_self] at hload
      cases hload
      obtain ⟨old, hold, hdistinct⟩ := h.replaced_of_transition htransition
      change (s.load intent.taskId |>.map snapshot).map (·.generationId) = _ at hprevious
      rw [hold] at hprevious
      obtain rfl := Option.some.inj hprevious
      exact hdistinct
    · rcases eq_or_ne event.taskId intent.taskId with heq | hne
      · rw [heq, h.load_self] at hload
        cases hload
        rintro hsame
        -- a generation that was left behind is known, so that a commit could only go on with it
        obtain ⟨earlier, hearlier, htask, hknown⟩ := hgoverned.previous event _ hevent hprevious
        obtain ⟨old, hold, hgeneration, -⟩ := h.continued hjournal hfresh hearlier
          (htask.trans heq) (hknown.trans hsame.symm)
        rw [← heq] at hold
        exact hgoverned.replaced event old generationId hevent htransition hprevious hold
          (hgeneration.trans hsame)
      · rw [h.load_of_ne hne] at hload
        exact hgoverned.replaced event record generationId hevent htransition hprevious hload
  previous event generationId hevent hprevious := by
    rcases h.recorded_iff.mp hevent with rfl | hevent
    · change (s.load intent.taskId |>.map snapshot).map (·.generationId) = _ at hprevious
      obtain ⟨old, hold, hgeneration⟩ : ∃ old, s.load intent.taskId = some old ∧
          old.generationId = generationId := by
        simpa [snapshot] using hprevious
      obtain ⟨earlier, hearlier, htask, hknown⟩ := hjournal.known _ old hold
      exact ⟨earlier, h.recorded hearlier, htask, hknown.trans hgeneration⟩
    · obtain ⟨earlier, hearlier, hknown⟩ := hgoverned.previous event generationId hevent hprevious
      exact ⟨earlier, h.recorded hearlier, hknown⟩

/-- A child stays attached to the generation it was registered with. -/
theorem keeps_attached {taskId parentId generationId : Text} {record : TaskLifecycleRecord}
    (hload : s.load taskId = some record) (hattached : record.AttachedTo parentId generationId) :
    ∃ record', s'.load taskId = some record' ∧ record'.AttachedTo parentId generationId := by
  rcases eq_or_ne taskId intent.taskId with rfl | hne
  · refine ⟨_, h.load_self, ?_⟩
    rcases h.parent_eq with ⟨parent, htype, hnone⟩ | ⟨old, hold, hsame, -⟩
    · rw [hnone] at hload
      cases hload
    · rw [hload] at hold
      cases hold
      exact hsame.trans hattached
  · exact ⟨record, by rw [h.load_of_ne hne, hload], hattached⟩

end

end Store.Commits

namespace TaskLifecycleFunnel

variable [Host]

/-- What holds in every state that fresh steps reach. -/
structure GovernedState (s : TaskLifecycleFunnel) : Prop where
  coherent : Coherent s
  journal : Journal s.persistence
  governed : Governed s.persistence

theorem governedState_step {s : TaskLifecycleFunnel} (h : GovernedState s) (a : Action)
    (hfresh : s.Fresh a) : GovernedState (s.step a) where
  coherent := coherent_step h.coherent a
  journal := journal_step h.coherent h.journal hfresh
  governed := step_keeps h.coherent a h.governed fun _ _ _ _ hcommits =>
    hcommits.stored.governed h.governed h.journal (hcommits.fresh hfresh)

theorem governedState_run {inputs : List Action} (hfresh : Guarded step Fresh new inputs) :
    GovernedState (run step new inputs) :=
  run_preserves (P := GovernedState) (fun _ a h hfresh => governedState_step h a hfresh)
    ⟨coherent_new, journal_new, governed_new⟩ hfresh

/-- What was completed or replaced, and who is attached to it, does not change any more. -/
structure EndedChild (parentId generationId taskId : Text) (s : TaskLifecycleFunnel) : Prop where
  coherent : Coherent s
  ended : s.persistence.CompletedOrReplaced parentId generationId
  attached : ∃ record, s.persistence.load taskId = some record ∧
    record.AttachedTo parentId generationId

theorem endedChild_step {parentId generationId taskId : Text} (s : TaskLifecycleFunnel) (a : Action)
    (h : EndedChild parentId generationId taskId s) :
    EndedChild parentId generationId taskId (s.step a) where
  coherent := coherent_step h.coherent a
  ended := by
    refine step_keeps (P := fun store => store.CompletedOrReplaced parentId generationId)
      h.coherent a h.ended fun _ _ _ _ hcommits => ?_
    obtain ⟨event, hevent, hends⟩ := h.ended
    exact ⟨event, hcommits.stored.recorded hevent, hends⟩
  attached := by
    refine step_keeps (P := fun store => ∃ record, store.load taskId = some record ∧
      record.AttachedTo parentId generationId) h.coherent a h.attached
      fun _ _ _ _ hcommits => ?_
    obtain ⟨record, hload, hattached⟩ := h.attached
    exact hcommits.stored.keeps_attached hload hattached

/-- **No completed parent has a running child.**  Whatever is attached to a generation that was
completed or replaced has ended, and stays so in every state the run goes on to. -/
theorem attached_children_stay_ended {inputs later : List Action}
    (hfresh : Guarded step Fresh new (inputs ++ later)) {parentId generationId taskId : Text}
    {record : TaskLifecycleRecord}
    (hended : (run step new inputs).persistence.CompletedOrReplaced parentId generationId)
    (hload : (run step new inputs).persistence.load taskId = some record)
    (hattached : record.AttachedTo parentId generationId) :
    record.state = .terminal ∧
      ∃ record', (run step new (inputs ++ later)).persistence.load taskId = some record' ∧
        record'.AttachedTo parentId generationId ∧ record'.state = .terminal := by
  have hnow := governedState_run (guarded_append.mp hfresh).1
  have hlater := governedState_run hfresh
  have hkept : EndedChild parentId generationId taskId (run step new (inputs ++ later)) := by
    rw [run_append]
    exact run_invariant endedChild_step ⟨hnow.coherent, hended, record, hload, hattached⟩ later
  obtain ⟨record', hload', hattached'⟩ := hkept.attached
  exact ⟨hnow.governed.children_ended hended hload hattached, record', hload', hattached',
    hlater.governed.children_ended hkept.ended hload' hattached'⟩

end TaskLifecycleFunnel

namespace TaskLifecycleFunnel

open scoped Js.Ascii

/-- A parent completes after its child has, and then both are resumed. -/
def familyRun : List Action :=
  submission (.registerGeneration none) (text "1") (text "P") (text "g") .task 1 ++
  submission .activateGeneration (text "2") (text "P") (text "g") .task 2 ++
  submission (.registerGeneration (some ⟨text "P", text "g", .attached⟩))
    (text "3") (text "C") (text "h") .task 3 ++
  submission .settleCompletion (text "4") (text "C") (text "h") .test 4 ++
  submission .settleCompletion (text "5") (text "P") (text "g") .test 5

def resumptions : List Action :=
  submission (.resumeWithGeneration (some (text "i"))) (text "6") (text "C") (text "h") .task 6 ++
  submission (.resumeWithGeneration (some (text "k"))) (text "7") (text "P") (text "g") .task 7

/-- The child cannot be resumed; the parent can. -/
theorem resumed_parent_has_ended_child :
    (run step new familyRun).persistence.CompletedOrReplaced (text "P") (text "g") ∧
    ((run step new (familyRun ++ resumptions)).persistence.load (text "P")).any
      (·.state = .active) = true ∧
    ∃ record, (run step new (familyRun ++ resumptions)).persistence.load (text "C") = some record ∧
      record.AttachedTo (text "P") (text "g") ∧ record.state = .terminal := by
  have hended : (run step new familyRun).persistence.CompletedOrReplaced (text "P") (text "g") := by
    decide +kernel
  have hchild : ((run step new familyRun).persistence.load (text "C")).any
      (·.AttachedTo (text "P") (text "g")) = true := by decide +kernel
  obtain ⟨record, hload, hattached⟩ := Option.any_eq_true _ _ |>.mp hchild
  exact ⟨hended, by decide +kernel,
    (attached_children_stay_ended 
      (by decide +kernel) hended hload (by simpa using hattached)).2⟩

end TaskLifecycleFunnel

end Lumi.Lifecycle
