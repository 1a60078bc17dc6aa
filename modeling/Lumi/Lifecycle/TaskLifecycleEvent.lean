import Lumi.Lib.JsValue

/-!
# Records, events and intents of a task's lifecycle

A task has one record at a time.  The record names the current generation of the task; every
transition that is committed leaves an event behind, with the record before and after it in
short.
-/

namespace Lumi.Lifecycle

open Js

inductive TaskLifecycleState
  | registered
  | active
  | suspended
  | terminal
  deriving DecidableEq

namespace TaskLifecycleState

def name : TaskLifecycleState → Text
  | registered => text "registered"
  | active => text "active"
  | suspended => text "suspended"
  | terminal => text "terminal"

end TaskLifecycleState

inductive TaskTerminalOutcome
  | completed
  | cancelled
  | failed
  | timedOut
  deriving DecidableEq

namespace TaskTerminalOutcome

def name : TaskTerminalOutcome → Text
  | completed => text "completed"
  | cancelled => text "cancelled"
  | failed => text "failed"
  | timedOut => text "timed_out"

end TaskTerminalOutcome

inductive TaskCancellationState
  | none
  | requested (requestedAt : ℚ) (requestEventId requestIntentId : Text)
  deriving DecidableEq

namespace TaskCancellationState

/-- `cancellation.status === "requested"`. -/
def isRequested : TaskCancellationState → Bool
  | none => false
  | requested .. => true

end TaskCancellationState

inductive TaskLifecycleTransition
  | registerGeneration
  | activateGeneration
  | suspendGeneration
  | resumeGeneration
  | replaceGeneration
  | requestCancellation
  | settleCancellation
  | settleCompletion
  | settleFailure
  | settleTimeout
  | propagateParentTermination
  | reactivateAfterCompletionRejection
  deriving DecidableEq

inductive TaskLifecycleCausalSource
  | task
  | controller
  | executionFunnel
  | completionFunnel
  | subagent
  | parentLifecycle
  | recovery
  | storageRestore
  | test
  deriving DecidableEq

structure TaskLifecycleCause where
  source : TaskLifecycleCausalSource
  reason : Text
  originatingOperationId : Option Text
  originatingEventId : Option Text
  authoritativeAt : Option Number
  deriving DecidableEq

/-- What a cause is after it was written as JSON and read back.  A number that is not finite is
written as `null`, and nobody reads the stored number. -/
def TaskLifecycleCause.clone (cause : TaskLifecycleCause) : TaskLifecycleCause :=
  { cause with
    authoritativeAt :=
      match cause.authoritativeAt with
      | some (.finite moment) => some (.finite moment)
      | _ => none }

inductive Governance
  | attached
  | detached
  deriving DecidableEq

structure TaskParentLink where
  taskId : Text
  generationId : Text
  governance : Governance
  deriving DecidableEq

structure TaskLifecycleRecord where
  taskId : Text
  generationId : Text
  lifecycleRevision : ℕ
  state : TaskLifecycleState
  terminalOutcome : Option TaskTerminalOutcome
  cancellation : TaskCancellationState
  cause : TaskLifecycleCause
  parent : Option TaskParentLink
  lastEventId : Text
  committedAt : ℚ
  monotonicSequence : ℕ
  deriving DecidableEq

structure TaskLifecycleSnapshot where
  generationId : Text
  lifecycleRevision : ℕ
  state : TaskLifecycleState
  terminalOutcome : Option TaskTerminalOutcome
  cancellation : TaskCancellationState
  lastEventId : Text
  committedAt : ℚ
  monotonicSequence : ℕ
  deriving DecidableEq

/-- What a transition may say about itself. -/
inductive MetadataValue
  | string (s : Text)
  | number (n : Number)
  | boolean (b : Bool)
  deriving DecidableEq

abbrev Metadata := List (Text × MetadataValue)

structure TaskLifecycleEvent where
  eventId : Text
  intentId : Text
  taskId : Text
  generationId : Text
  lifecycleRevision : ℕ
  transition : TaskLifecycleTransition
  previous : Option TaskLifecycleSnapshot
  committed : TaskLifecycleSnapshot
  terminalOutcome : Option TaskTerminalOutcome
  cause : TaskLifecycleCause
  parent : Option TaskParentLink
  originatingOperationId : Option Text
  originatingEventId : Option Text
  committedAt : ℚ
  monotonicSequence : ℕ
  metadata : Option Metadata
  deriving DecidableEq

/-- How a parent that did not complete has ended: `Exclude<TaskTerminalOutcome, "completed">`. -/
inductive ParentOutcome
  | cancelled
  | failed
  | timedOut
  deriving DecidableEq

def ParentOutcome.toTerminalOutcome : ParentOutcome → TaskTerminalOutcome
  | cancelled => .cancelled
  | failed => .failed
  | timedOut => .timedOut

/-- The `type` of an intent, with the fields that only this type has. -/
inductive TaskLifecycleIntentType
  | registerGeneration (parent : Option TaskParentLink)
  | activateGeneration
  | suspendGeneration
  | reactivateAfterCompletionRejection (expectedRevision : Number)
      (completionAttemptId decisionId : Text)
  | resumeWithGeneration (newGenerationId : Option Text)
  | requestCancellation
  | settleCancellation (metadata : Option Metadata)
  | settleCompletion
  | settleFailure (metadata : Option Metadata)
  | settleTimeout (metadata : Option Metadata)
  | propagateParentTermination (parentEventId : Text) (parentOutcome : ParentOutcome)
  deriving DecidableEq

structure TaskLifecycleIntent where
  type : TaskLifecycleIntentType
  intentId : Text
  taskId : Text
  generationId : Text
  cause : TaskLifecycleCause
  deriving DecidableEq

/-- The generation that is to replace the current one. -/
def TaskLifecycleIntent.newGenerationId? (intent : TaskLifecycleIntent) : Option Text :=
  match intent.type with
  | .resumeWithGeneration newGenerationId => newGenerationId
  | _ => none

inductive TaskLifecycleRejectionCode
  | unknownGeneration
  | staleGeneration
  | staleRevision
  | invalidTransition
  | terminalGeneration
  | duplicateIntent
  | cancellationFenced
  | cancellationNotRequested
  | parentConstraint
  | compareAndSwapFailed
  | malformedIntent
  deriving DecidableEq

structure Rejection where
  code : TaskLifecycleRejectionCode
  reason : Text
  current : Option TaskLifecycleRecord
  deriving DecidableEq

abbrev TaskLifecycleTransitionResult :=
  Except Rejection (TaskLifecycleRecord × TaskLifecycleEvent)

end Lumi.Lifecycle
