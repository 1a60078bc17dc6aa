import Lumi.Lib.Decimal
import Lumi.Lib.Run
import Lumi.Lifecycle.TaskLifecyclePersistence

/-!
# The funnel of a task's lifecycle

The intents of one task are taken one after the other: the next one reads the record when its
predecessor has left the queue.  Between an intent's reading of its record and its commit, and
between its commit and its leaving the queue, intents of other tasks may go on.  What a parent
propagates to its children are intents like all others.
-/

namespace Lumi.Lifecycle

open Js

variable [Host]

def snapshot (record : TaskLifecycleRecord) : TaskLifecycleSnapshot where
  generationId := record.generationId
  lifecycleRevision := record.lifecycleRevision
  state := record.state
  terminalOutcome := record.terminalOutcome
  cancellation := record.cancellation
  lastEventId := record.lastEventId
  committedAt := record.committedAt
  monotonicSequence := record.monotonicSequence

def validIdentity (value : Text) : Bool := trim value ≠ []

def terminalOutcomeForIntent (intent : TaskLifecycleIntent) : Option TaskTerminalOutcome :=
  match intent.type with
  | .settleCompletion => some .completed
  | .settleCancellation _ => some .cancelled
  | .settleFailure _ => some .failed
  | .settleTimeout _ => some .timedOut
  | .propagateParentTermination _ parentOutcome => some parentOutcome.toTerminalOutcome
  | _ => none

def transitionName (intent : TaskLifecycleIntent) (replacingGeneration : Bool) :
    TaskLifecycleTransition :=
  match intent.type with
  | .registerGeneration _ => .registerGeneration
  | .activateGeneration => .activateGeneration
  | .suspendGeneration => .suspendGeneration
  | .reactivateAfterCompletionRejection .. => .reactivateAfterCompletionRejection
  | .resumeWithGeneration _ => if replacingGeneration then .replaceGeneration else .resumeGeneration
  | .requestCancellation => .requestCancellation
  | .settleCancellation _ => .settleCancellation
  | .settleCompletion => .settleCompletion
  | .settleFailure _ => .settleFailure
  | .settleTimeout _ => .settleTimeout
  | .propagateParentTermination .. => .propagateParentTermination

/-! ## What an intent asks for -/

/-- A value that may be missing, in a template. -/
def optionText {α : Type*} (toText : α → Text) : Option α → Text
  | none => text "undefined"
  | some a => toText a

section

variable (current : Option TaskLifecycleRecord)

/-- The state of the current record, where there is one. -/
def stateText : Text :=
  optionText (·.state.name) current

/-- What the branch of an intent decides. -/
structure Change where
  generationId : Text
  state : TaskLifecycleState
  terminalOutcome : Option TaskTerminalOutcome
  cancellation : TaskCancellationState
  parent : Option TaskParentLink
  replacingGeneration : Bool
  metadata : Option Metadata
  deriving DecidableEq

/-- What stays as it is before the branch of the intent decides. -/
def unchanged (intent : TaskLifecycleIntent) : Change where
  generationId := intent.generationId
  state := (current.map (·.state)).getD .registered
  terminalOutcome := current.bind (·.terminalOutcome)
  cancellation := (current.map (·.cancellation)).getD .none
  parent := current.bind (·.parent)
  replacingGeneration := false
  metadata := none

/-- `current?.cancellation.status === "requested"`. -/
def cancellationPending : Bool :=
  current.any (·.cancellation.isRequested)

/-- `current?.state`. -/
def stateOf : Option TaskLifecycleState :=
  current.map (·.state)

end

/-- A value that counts as given: an empty identifier does not. -/
def given? (value : Option Text) : Option Text := value.filter (· ≠ [])

/-- A completion fact does not precede the request of the cancellation. -/
def fencesCompletion (cancellation : TaskCancellationState) (authoritativeAt : Option Number) :
    Bool :=
  match cancellation, authoritativeAt with
  | .none, _ => false
  | .requested .., none => true
  | .requested requestedAt _ _, some moment => moment.less? (.finite requestedAt) = some false

section

variable (current : Option TaskLifecycleRecord) (intent : TaskLifecycleIntent)

def activateGeneration : Except Rejection Change :=
  if stateOf current ≠ some .registered then
    .error ⟨.invalidTransition,
      text "Only a registered generation may activate; current state is '" ++
        stateText current ++ text "'.", current⟩
  else .ok { unchanged current intent with state := .active }

def reactivateAfterCompletionRejection (expectedRevision : Number)
    (completionAttemptId decisionId : Text) : Except Rejection Change :=
  match current.filter (·.state = .suspended) with
  | none =>
    .error ⟨.invalidTransition,
      text "Only a suspended generation may reactivate after rejection; current state is '" ++
        stateText current ++ text "'.", current⟩
  | some record =>
    if Number.finite record.lifecycleRevision ≠ expectedRevision then
      .error ⟨.staleRevision, text "Expected revision " ++ numberText expectedRevision ++
        text " but found current revision " ++ decimal record.lifecycleRevision ++ text ".",
        current⟩
    else if record.cancellation.isRequested then
      .error ⟨.cancellationFenced, text "A cancellation-fenced generation cannot reactivate.",
        current⟩
    else if record.cause.reason ≠ text "awaiting_completion_decision:" ++ completionAttemptId then
      .error ⟨.invalidTransition,
        text "Suspension reason mismatch. Expected completionAttemptId " ++ completionAttemptId ++
          text " but found cause reason '" ++ record.cause.reason ++ text "'.", current⟩
    else if record.cause.originatingOperationId ≠ some decisionId then
      .error ⟨.invalidTransition,
        text "Suspension decisionId mismatch. Expected " ++ decisionId ++
          text " but found originatingOperationId '" ++
          optionText id record.cause.originatingOperationId ++ text "'.", current⟩
    else .ok { unchanged current intent with state := .active }

def suspendGeneration : Except Rejection Change :=
  if stateOf current ≠ some .active ∨ cancellationPending current then
    .error ⟨.invalidTransition,
      text "Only an active generation without a cancellation fence may suspend.", current⟩
  else .ok { unchanged current intent with state := .suspended }

/-- The branch of `ResumeWithGeneration` that goes on with another generation. -/
def replaceGeneration (newGenerationId : Option Text) : Except Rejection Change :=
  if stateOf current ≠ some .suspended ∧ stateOf current ≠ some .terminal then
    .error ⟨.invalidTransition,
      text "Generation replacement requires a suspended or terminal generation, not '" ++
        stateText current ++ text "'.", current⟩
  else match (given? newGenerationId).filter (some · ≠ current.map (·.generationId)) with
  | none =>
    .error ⟨if stateOf current = some .terminal then .terminalGeneration else .invalidTransition,
      text "A terminal or replaced lifecycle requires a distinct new generation identifier.",
      current⟩
  | some newGenerationId =>
    .ok { unchanged current intent with
      generationId := newGenerationId
      state := .active
      terminalOutcome := none
      cancellation := .none
      replacingGeneration := true }

def resumeWithGeneration (newGenerationId : Option Text) : Except Rejection Change :=
  if stateOf current = some .suspended ∧ given? newGenerationId = none then
    if cancellationPending current then
      .error ⟨.cancellationFenced, text "A cancellation-fenced generation cannot resume.", current⟩
    else .ok { unchanged current intent with state := .active }
  else replaceGeneration current intent newGenerationId

def requestCancellation (now : ℚ) : Except Rejection Change :=
  if cancellationPending current then
    .error ⟨.duplicateIntent, text "Cancellation is already pending for this generation.", current⟩
  else if stateOf current ≠ some .active ∧ stateOf current ≠ some .suspended ∧
      stateOf current ≠ some .registered then
    .error ⟨.invalidTransition,
      text "Cancellation cannot be requested from '" ++ stateText current ++ text "'.", current⟩
  else .ok { unchanged current intent with
    cancellation := .requested now (text "pending") intent.intentId }

section

variable (metadata : Option Metadata)

def settleCancellation : Except Rejection Change :=
  if ¬cancellationPending current then
    .error ⟨.cancellationNotRequested,
      text "Cancellation cannot settle before its request is committed.", current⟩
  else .ok { unchanged current intent with
    state := .terminal, terminalOutcome := some .cancelled, metadata := metadata }

def settleCompletion : Except Rejection Change :=
  if intent.cause.source ≠ .completionFunnel ∧ intent.cause.source ≠ .test then
    .error ⟨.invalidTransition,
      text "Only an authoritative CompletionFunnel fact may settle successful completion.", current⟩
  else if current.any (fencesCompletion ·.cancellation intent.cause.authoritativeAt) then
    .error ⟨.cancellationFenced,
      text "The committed cancellation request predates and fences this completion fact.", current⟩
  else .ok { unchanged current intent with
    state := .terminal, terminalOutcome := some .completed }

/-- The branches of `SettleFailure` and `SettleTimeout`. -/
def settleUnfenced (outcome : TaskTerminalOutcome) (fenced : Text) (metadata : Option Metadata) :
    Except Rejection Change :=
  if cancellationPending current then .error ⟨.cancellationFenced, fenced, current⟩
  else .ok { unchanged current intent with
    state := .terminal, terminalOutcome := some outcome, metadata := metadata }

def settleFailure : Except Rejection Change :=
  settleUnfenced current intent .failed
    (text "Pending cancellation deterministically wins over failure settlement.") metadata

def settleTimeout : Except Rejection Change :=
  settleUnfenced current intent .timedOut
    (text "Pending cancellation deterministically wins over timeout settlement.") metadata

end

def propagateParentTermination (parentEventId : Text) (parentOutcome : ParentOutcome) :
    Except Rejection Change :=
  match current.bind (·.attachment?) with
  | none =>
    .error ⟨.parentConstraint,
      text "Detached or unparented generations do not accept parent termination propagation.",
      current⟩
  | some link =>
    if link.taskId = intent.taskId ∨ parentEventId.length = 0 then
      .error ⟨.parentConstraint,
        text "Parent termination propagation lacks a valid external parent event.", current⟩
    else .ok { unchanged current intent with
      state := .terminal
      terminalOutcome := some parentOutcome.toTerminalOutcome
      metadata := some [(text "parentEventId", .string parentEventId)] }

def change (now : ℚ) : Except Rejection Change :=
  match intent.type with
  | .registerGeneration parent =>
    .ok { unchanged current intent with state := .registered, parent := parent }
  | .activateGeneration => activateGeneration current intent
  | .reactivateAfterCompletionRejection expectedRevision completionAttemptId decisionId =>
    reactivateAfterCompletionRejection current intent expectedRevision completionAttemptId
      decisionId
  | .suspendGeneration => suspendGeneration current intent
  | .resumeWithGeneration newGenerationId => resumeWithGeneration current intent newGenerationId
  | .requestCancellation => requestCancellation current intent now
  | .settleCancellation metadata => settleCancellation current intent metadata
  | .settleCompletion => settleCompletion current intent
  | .settleFailure metadata => settleFailure current intent metadata
  | .settleTimeout metadata => settleTimeout current intent metadata
  | .propagateParentTermination parentEventId parentOutcome =>
    propagateParentTermination current intent parentEventId parentOutcome

end

/-- The identifier of the event takes the place of the one that was pending. -/
def TaskCancellationState.setRequestEventId (eventId : Text) :
    TaskCancellationState → TaskCancellationState
  | .none => .none
  | .requested requestedAt _ requestIntentId => .requested requestedAt eventId requestIntentId

section

variable (current : Option TaskLifecycleRecord)

section

variable (intent : TaskLifecycleIntent)

def recordOf (now : ℚ) (eventId : Text) (change : Change) : TaskLifecycleRecord where
  taskId := intent.taskId
  generationId := change.generationId
  lifecycleRevision := (current.map (·.lifecycleRevision)).getD 0 + 1
  state := change.state
  terminalOutcome := change.terminalOutcome
  cancellation :=
    if intent.type = .requestCancellation then change.cancellation.setRequestEventId eventId
    else change.cancellation
  cause := intent.cause.clone
  parent := change.parent
  lastEventId := eventId
  committedAt := now
  monotonicSequence := 0

def eventOf (now : ℚ) (eventId : Text) (change : Change) : TaskLifecycleEvent where
  eventId := eventId
  intentId := intent.intentId
  taskId := intent.taskId
  generationId := change.generationId
  lifecycleRevision := (current.map (·.lifecycleRevision)).getD 0 + 1
  transition := transitionName intent change.replacingGeneration
  previous := current.map snapshot
  committed := snapshot (recordOf current intent now eventId change)
  terminalOutcome := terminalOutcomeForIntent intent
  cause := intent.cause.clone
  parent := change.parent
  originatingOperationId := intent.cause.originatingOperationId
  originatingEventId := intent.cause.originatingEventId
  committedAt := now
  monotonicSequence := 0
  metadata := change.metadata

def evaluate (now : ℚ) (eventId : Text) : TaskLifecycleTransitionResult :=
  (change current intent now).map fun change =>
    (recordOf current intent now eventId change, eventOf current intent now eventId change)

/-- The checks before the branch of the intent: a first registration, or the current generation
that has not ended. -/
def admission? : Option Rejection :=
  match intent.type, current with
  | .registerGeneration _, none => none
  | .registerGeneration _, some record =>
    some ⟨if record.generationId = intent.generationId then .invalidTransition
        else .staleGeneration,
      text "Task '" ++ intent.taskId ++ text "' already has generation '" ++
        record.generationId ++ text "'.", record⟩
  | _, none =>
    some ⟨.unknownGeneration, text "Task '" ++ intent.taskId ++ text "' is not registered.", none⟩
  | type, some record =>
    if record.generationId ≠ intent.generationId then
      some ⟨.staleGeneration, text "Generation '" ++ intent.generationId ++
        text "' is stale; current generation is '" ++ record.generationId ++ text "'.", record⟩
    else if record.state = .terminal ∧ ¬(type matches .resumeWithGeneration _) then
      some ⟨.terminalGeneration, text "Generation '" ++ intent.generationId ++
        text "' is terminal with outcome '" ++
        optionText TaskTerminalOutcome.name record.terminalOutcome ++ text "'.", record⟩
    else none

end

end

def expectation : Option TaskLifecycleRecord → LifecycleCommitExpectation
  | none => .absent
  | some current => .revision current.generationId current.lifecycleRevision

def rejectionOf (intent : TaskLifecycleIntent) : CommitRefusal → Rejection
  | .duplicateIntent record event =>
    ⟨.duplicateIntent, text "Lifecycle intent '" ++ intent.intentId ++
      text "' was already committed as '" ++ event.eventId ++ text "'.", some record⟩
  | .compareAndSwapFailed current =>
    ⟨.compareAndSwapFailed,
      text "The authoritative lifecycle revision changed before this transition could commit.",
      current⟩
  | .constraintFailed reason current => ⟨.parentConstraint, reason, current⟩

/-- `submitSerialized` from the record it has read. -/
def submitSerialized (s : Store) (current : Option TaskLifecycleRecord)
    (intent : TaskLifecycleIntent) (now : ℚ) (eventId : Text) :
    TaskLifecycleTransitionResult × Store :=
  match admission? current intent with
  | some rejection => (.error rejection, s)
  | none =>
    match evaluate current intent now eventId with
    | .error rejection => (.error rejection, s)
    | .ok (record, event) =>
      let (committed, s) := s.commit (expectation current) record event
      (committed.mapError (rejectionOf intent), s)

/-! ## Interleaved submissions -/

/-- How far the intent whose turn it is in a task's queue has come. -/
inductive Turn
  | loaded (intent : TaskLifecycleIntent) (current : Option TaskLifecycleRecord)
  | publishing
  deriving DecidableEq

structure TaskLifecycleFunnel where
  persistence : Store
  taskTails : InsertionMap Text Turn

/-- One step of one submission.  The clock and the identifier of the event come with the step
in which the intent is evaluated and committed. -/
inductive Action
  | load (intent : TaskLifecycleIntent)
  | commit (taskId : Text) (now : ℚ) (eventId : Text)
  | leave (taskId : Text)
  deriving DecidableEq

namespace TaskLifecycleFunnel

def new : TaskLifecycleFunnel := ⟨.new, .empty⟩

/-- The intents that `submit` does not even put into the queue. -/
def malformed (intent : TaskLifecycleIntent) : Bool :=
  !validIdentity intent.intentId || !validIdentity intent.taskId
    || !validIdentity intent.generationId

section

variable (s : TaskLifecycleFunnel)

/-- The intent of a task that has read its record and is about to commit. -/
def loaded? (taskId : Text) :
    Option (TaskLifecycleIntent × Option TaskLifecycleRecord) :=
  match s.taskTails.get? taskId with
  | some (.loaded intent current) => some (intent, current)
  | _ => none

/-- What `submit` returns, in the step that decides it. -/
def answer : Action → Option TaskLifecycleTransitionResult
  | .load intent =>
    if malformed intent then
      some (.error ⟨.malformedIntent,
        text "Lifecycle intents require non-empty intent, task, and generation identifiers.",
        none⟩)
    else none
  | .commit taskId now eventId =>
    (s.loaded? taskId).map fun (intent, current) =>
      (submitSerialized s.persistence current intent now eventId).1
  | .leave _ => none

def step : Action → TaskLifecycleFunnel
  | .load intent =>
    if malformed intent ∨ (s.taskTails.get? intent.taskId).isSome then s
    else { s with
      taskTails := s.taskTails.set intent.taskId
        (.loaded intent (s.persistence.load intent.taskId)) }
  | .commit taskId now eventId =>
    match s.loaded? taskId with
    | none => s
    | some (intent, current) =>
      match submitSerialized s.persistence current intent now eventId with
      | (.error _, persistence) =>
        { persistence := persistence, taskTails := s.taskTails.delete taskId }
      | (.ok _, persistence) =>
        { persistence := persistence, taskTails := s.taskTails.set taskId .publishing }
  | .leave taskId =>
    if s.taskTails.get? taskId = some .publishing then
      { s with taskTails := s.taskTails.delete taskId }
    else s

end

/-- One intent from its turn in the queue to its leaving it. -/
def submission (type : TaskLifecycleIntentType) (intentId taskId generationId : Text)
    (source : TaskLifecycleCausalSource) (now : ℚ) : List Action :=
  [.load ⟨type, intentId, taskId, generationId, ⟨source, text "run", none, none, none⟩⟩,
    .commit taskId now (text "event" ++ intentId), .leave taskId]

end TaskLifecycleFunnel

end Lumi.Lifecycle
