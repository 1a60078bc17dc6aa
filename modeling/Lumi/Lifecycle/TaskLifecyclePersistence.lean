import Lumi.Lib.InsertionMap
import Lumi.Lifecycle.TaskLifecycleEvent

/-!
# Records and events in memory

A commit brings the revision it expects to find, the new record and the event that led to it.
It is refused if the intent was committed before, if the record is not the expected one, or if
the record of the parent or that of a child stands against it.
-/

namespace Lumi.Lifecycle

open Js

inductive LifecycleCommitExpectation
  | absent
  | revision (generationId : Text) (lifecycleRevision : ℕ)
  deriving DecidableEq

inductive CommitRefusal
  | duplicateIntent (record : TaskLifecycleRecord) (event : TaskLifecycleEvent)
  | compareAndSwapFailed (current : Option TaskLifecycleRecord)
  | constraintFailed (reason : Text) (current : Option TaskLifecycleRecord)
  deriving DecidableEq

section

variable (record : TaskLifecycleRecord)

section

variable (event : TaskLifecycleEvent)

def withSequence (sequence : ℕ) : TaskLifecycleRecord × TaskLifecycleEvent :=
  ({ record with monotonicSequence := sequence },
    { event with
      committed := { event.committed with monotonicSequence := sequence }
      monotonicSequence := sequence })

/-- The link of a child that its parent governs. -/
def TaskLifecycleRecord.attachment? : Option TaskParentLink :=
  record.parent.filter (·.governance = .attached)

/-- `record.parent?.governance === "attached"`, to this generation of this task. -/
def TaskLifecycleRecord.AttachedTo (taskId generationId : Text) : Prop :=
  record.parent = some ⟨taskId, generationId, .attached⟩

instance (record : TaskLifecycleRecord) (taskId generationId : Text) :
    Decidable (record.AttachedTo taskId generationId) :=
  inferInstanceAs (Decidable (_ = _))

/-- What a transition caused by the parent has to agree with. -/
def propagationConstraint (parent : TaskLifecycleRecord) : Option Text :=
  if event.cause.originatingEventId ≠ some parent.lastEventId then
    some (text "Parent propagation must name the current committed parent lifecycle event.")
  else match event.transition with
  | .requestCancellation =>
    if parent.cancellation.isRequested then none
    else some
      (text "Parent cancellation propagation requires a committed parent cancellation request.")
  | .settleCancellation =>
    if parent.state ≠ .terminal ∨ parent.terminalOutcome ≠ some .cancelled then
      some (text "Parent cancellation settlement requires terminal parent cancellation.")
    else none
  | .propagateParentTermination =>
    if parent.state ≠ .terminal ∨
        (parent.terminalOutcome ≠ some .failed ∧ parent.terminalOutcome ≠ some .timedOut) ∨
        record.terminalOutcome ≠ parent.terminalOutcome then
      some (text
        "Parent termination propagation must match the committed parent failure or timeout.")
    else none
  | _ =>
    some (text
      "The parent_lifecycle causal source is valid only for a typed propagation transition.")

def attachedParentConstraint (parent : Option TaskLifecycleRecord) : Option Text :=
  match record.attachment? with
  | none => none
  | some link =>
    if event.transition = .registerGeneration then none
    else match parent.filter (·.generationId = link.generationId) with
    | none => some (text "The attached child targets a stale or unknown parent generation.")
    | some parent =>
      let propagates := event.cause.source = .parentLifecycle
      match if propagates then propagationConstraint record event parent else none with
      | some reason => some reason
      | none =>
        if event.transition = .propagateParentTermination ∧ ¬propagates then
          some (text
            "Parent termination propagation requires the parent_lifecycle causal source.")
        else if parent.state = .terminal ∧ ¬(propagates ∧
            (event.transition = .propagateParentTermination ∨
              event.transition = .settleCancellation)) then
          some (text
            "The attached child cannot transition after its parent generation terminalized.")
        else if parent.cancellation.isRequested ∧
            event.transition ≠ .requestCancellation ∧
            event.transition ≠ .settleCancellation then
          some (text "The attached child transition is fenced by parent cancellation.")
        else none

end

end

/-- `InMemoryTaskLifecyclePersistence`. -/
structure Store where
  records : InsertionMap Text TaskLifecycleRecord
  eventsByIntent : InsertionMap Text TaskLifecycleEvent
  sequence : ℕ

namespace Store

def new : Store := ⟨.empty, .empty, 0⟩

section

variable (s : Store)

def load (taskId : Text) : Option TaskLifecycleRecord := s.records.get? taskId

/-- Whether the stored record is the one that the commit expects. -/
def matchesExpectation (current : Option TaskLifecycleRecord) :
    LifecycleCommitExpectation → Bool
  | .absent => current.isNone
  | .revision generationId lifecycleRevision =>
    current.any fun current =>
      current.generationId = generationId ∧ current.lifecycleRevision = lifecycleRevision

section

variable (record : TaskLifecycleRecord)

/-- The check of a registration: the parent generation is the current one, active and not
being cancelled. -/
def registrationConstraint : Option Text :=
  match record.attachment? with
  | none => none
  | some link =>
    if (s.records.get? link.taskId).any fun parent =>
        parent.generationId = link.generationId ∧ parent.state = .active ∧
          ¬parent.cancellation.isRequested then none
    else some (text "An attached child requires the exact active, unfenced parent generation.")

/-- The check of a completed child. -/
def completionConstraint : Option Text :=
  match record.attachment? with
  | none => none
  | some link =>
    if (s.records.get? link.taskId).any fun parent =>
        parent.generationId = link.generationId ∧ parent.state ≠ .terminal ∧
          ¬parent.cancellation.isRequested then none
    else some (text "Attached child completion is fenced by its parent lifecycle.")

/-- The first child of a generation that has not ended. -/
def activeChild? (taskId : Text) (generationId : Option Text) : Option TaskLifecycleRecord :=
  s.records.values.find? fun candidate =>
    candidate.attachment?.any (fun link =>
        link.taskId = taskId ∧ some link.generationId = generationId)
      && candidate.state ≠ .terminal

section

variable (event : TaskLifecycleEvent)

/-- The check of a generation that is completed or replaced. -/
def childrenConstraint : Option Text :=
  let governedGeneration :=
    if event.transition = .replaceGeneration then event.previous.map (·.generationId)
    else some record.generationId
  (s.activeChild? record.taskId governedGeneration).map fun child =>
    text "Attached child '" ++ child.taskId ++
      text "' must terminalize before parent completion or generation replacement."

/-- The checks on the records of the parent and the children, in their order. -/
def constraint? : Option Text :=
  (if event.transition = .registerGeneration then s.registrationConstraint record else none)
    <|> attachedParentConstraint record event
      (record.parent.bind fun link => s.records.get? link.taskId)
    <|> (if event.transition = .settleCompletion then s.completionConstraint record else none)
    <|> (if event.transition = .settleCompletion ∨ event.transition = .replaceGeneration then
      s.childrenConstraint record event else none)

/-- Stores the record and the event under the next sequence number. -/
def write : (TaskLifecycleRecord × TaskLifecycleEvent) × Store :=
  let committed := withSequence record event (s.sequence + 1)
  (committed, {
    records := s.records.set record.taskId committed.1
    eventsByIntent := s.eventsByIntent.set event.intentId committed.2
    sequence := s.sequence + 1 })

end

end

def commit (expectation : LifecycleCommitExpectation) (record : TaskLifecycleRecord)
    (event : TaskLifecycleEvent) :
    Except CommitRefusal (TaskLifecycleRecord × TaskLifecycleEvent) × Store :=
  match s.eventsByIntent.get? event.intentId with
  | some duplicate =>
    match s.records.get? duplicate.taskId with
    | none => (.error (.compareAndSwapFailed none), s)
    | some existingRecord => (.error (.duplicateIntent existingRecord duplicate), s)
  | none =>
    let current := s.records.get? record.taskId
    if ¬matchesExpectation current expectation then
      (.error (.compareAndSwapFailed current), s)
    else match s.constraint? record event with
    | some reason => (.error (.constraintFailed reason current), s)
    | none => let (committed, s) := s.write record event; (.ok committed, s)

end

end Store

end Lumi.Lifecycle
