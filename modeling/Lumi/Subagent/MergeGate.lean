import Lumi.Lib.Decimal
import Lumi.Lib.Holding
import Lumi.Lib.InsertionMap
import Lumi.Lib.JsText
import Lumi.Lib.Reach

/-!
# The merge gate of a swarm

The gate runs its audits one after the other; each adds what it finds to one verdict, and the
gate passes if nothing blocking was found.  The audits that are kept in other places of the
program are an `OtherAudits`: the gate only adds what they report.

A lane's index is a number of the lane plan.  The searches through the plan end because the plan
has no cycle: they are given as many rounds as the plan has nodes.
-/

namespace Lumi.Subagent

open Js

/-! ## Inputs -/

inductive LaneExecutionMode
  | readOnly
  | auditOnly
  | planningOnly
  | documentationOnly
  | diagnosticOnly
  | mutation
  deriving DecidableEq

namespace LaneExecutionMode

def name : LaneExecutionMode → Text
  | readOnly => text "read_only"
  | auditOnly => text "audit_only"
  | planningOnly => text "planning_only"
  | documentationOnly => text "documentation_only"
  | diagnosticOnly => text "diagnostic_only"
  | mutation => text "mutation"

end LaneExecutionMode

inductive LaneDAGState
  | ready
  | blocked
  | running
  | sealed
  | failed
  deriving DecidableEq

structure LaneDAGNode where
  index : ℕ
  laneId : Text
  dependsOn : List ℕ
  state : LaneDAGState

inductive LaneExecutionStatus
  | completed
  | failed
  | skipped
  | collisionRejected
  | blocked
  | running
  deriving DecidableEq

inductive ExecutionValidity
  | valid
  | invalid
  deriving DecidableEq

def ExecutionValidity.name : ExecutionValidity → Text
  | valid => text "valid"
  | invalid => text "invalid"

structure LaneExecutionReceipt where
  laneId : Text
  agentId : Text
  index : ℕ
  status : LaneExecutionStatus
  executionValidity : Option ExecutionValidity
  claimId : Option Text
  claimReleased : Bool
  evidenceCount : ℕ
  touchedFiles : List Text
  transcriptArtifactPath : Option Text
  toolStepCount : Option ℕ
  executionMode : LaneExecutionMode
  lockRequired : Bool
  writeSet : Option (List Text)
  roadmapMutationLockRequired : Option Bool
  roadmapMutationClaimReleased : Option Bool

inductive SubagentExecutionStatus
  | pending
  | running
  | completed
  | failed
  deriving DecidableEq

def SubagentExecutionStatus.name : SubagentExecutionStatus → Text
  | pending => text "pending"
  | running => text "running"
  | completed => text "completed"
  | failed => text "failed"

structure SubagentExecutionEnvelope where
  agentId : Text
  status : SubagentExecutionStatus
  executionValidity : Option ExecutionValidity
  verbatimOutput : Option Text
  evidenceRefs : Option (List Text)
  touchedFiles : Option (List Text)
  toolSteps : Option (List Text)

inductive ClaimHistoryEvent
  | acquired
  | released
  | rejected
  | staleDetected
  | recovered
  deriving DecidableEq

inductive FencingToken
  | string (s : Text)
  | number (n : Number)
  deriving DecidableEq

structure LockBackends where
  inProcess : Bool
  swarmMutex : Bool
  roadmapLease : Bool
  fileLock : Bool
  broccoliFence : Bool
  deriving DecidableEq

structure ClaimHistoryEntry where
  claimId : Option Text
  laneId : Text
  resourceKey : Text
  ownerId : Text
  fencingToken : FencingToken
  event : ClaimHistoryEvent
  lockBackends : Option LockBackends
  deriving DecidableEq

structure PriorSealedReceipt where
  sealed : Bool
  passed : Bool
  attemptId : Text

/-- The inputs of the gate.  `context` is what only the audits in other places read. -/
structure MergeGateInput (χ : Type) where
  agents : List SubagentExecutionEnvelope
  laneReceipts : List LaneExecutionReceipt
  claimHistory : List ClaimHistoryEntry
  laneDag : List LaneDAGNode
  priorSealedReceipt : Option PriorSealedReceipt
  attemptId : Option Text
  parentAttemptId : Option Text
  storedReplayChecksum : Option Text
  sealed : Option Bool
  context : χ

/-! ## Outputs -/

structure MergePathOverlap where
  path : Text
  agents : List Text

structure MergeSafetyAudit where
  safe : Bool
  violations : List Text
  overlappingPaths : List MergePathOverlap
  missingEvidence : List Text
  placeholderWarnings : List Text

inductive MergeGateFindingSeverity
  | blocking
  | advisory
  deriving DecidableEq

structure MergeGateFinding where
  code : Text
  severity : MergeGateFindingSeverity
  message : Text
  retryable : Bool
  remediation : Text

/-- What is reported by a check of the replay artifact, or by one of the roadmap. -/
structure IntegrityReport where
  valid : Bool
  violations : List Text

inductive HardFailureReason
  | invalidGovernedReceipt
  | receiptIntegrityViolation
  | mutationAuthorityViolation
  | unreconciledMutationConflict
  | executionProvenanceCorrupt
  | everyLaneFailed
  | unsafeUnderAllInterpretations
  | requiredInvariantViolated
  deriving DecidableEq

inductive ConvergenceDecision
  | converge
  | convergeWithUncertainty
  | targetedProbe
  | restartInvalidLane
  | blockHardFailure
  deriving DecidableEq

/-- The decision of the convergence, and the reason where its gate decision is a hard failure. -/
structure ConvergenceResult where
  decision : ConvergenceDecision
  hardFailure : Option HardFailureReason

inductive MergeGateRetryDisposition
  | notNeeded
  | targetedProbe
  | targetedRepair
  | retryAfterRecovery
  | doNotRetry
  deriving DecidableEq

inductive ResourceOwnerStatus
  | active
  | released
  | stale
  deriving DecidableEq

structure GovernedResourceOwner where
  resourceKey : Text
  ownerId : Text
  laneId : Text
  claimId : Option Text
  fencingToken : FencingToken
  lockBackends : Option LockBackends
  status : ResourceOwnerStatus

structure MergeGateEvaluation where
  passed : Bool
  mergeAudit : MergeSafetyAudit
  roadmapAudit : IntegrityReport
  replayIntegrity : IntegrityReport
  violations : List Text
  failedLaneCount : ℕ
  orphanedClaimCount : ℕ
  staleLeaseCount : ℕ
  splitBrainDetected : Bool
  sealedSupersessionBlocked : Bool
  findings : List MergeGateFinding
  advisoryWarnings : List Text
  retryDisposition : MergeGateRetryDisposition
  confidenceAwareConvergence : ConvergenceResult
  normalizedResourceOwners : List GovernedResourceOwner

/-- The audits of other places. -/
structure OtherAudits (χ : Type) where
  verifyReplayArtifact : χ → IntegrityReport
  validateDeterministicReplay :
    MergeGateInput χ → Bool → MergeSafetyAudit → IntegrityReport → IntegrityReport
  explainReplayMismatch : List Text → List Text
  runRoadmapMergeAudit : MergeGateInput χ → Bool → Bool → IntegrityReport
  evaluateConfidenceAwareConvergence :
    MergeGateInput χ → List MergeGateFinding → ConvergenceResult

/-! ## Overlapping writes -/

/-- The dependencies of the node with this index. -/
def dependencies (dag : List LaneDAGNode) (index : ℕ) : List ℕ :=
  ((dag.find? (·.index = index)).map (·.dependsOn)).getD []

def laneDependsOn (ancestor descendant : ℕ) (dag : List LaneDAGNode) : Bool :=
  Reach.reaches (dependencies dag) (dag.length + 1) ancestor descendant

def isOverlapAllowedByDag (indexA indexB : ℕ) (laneDag : List LaneDAGNode) : Bool :=
  indexA = indexB || laneDependsOn indexA indexB laneDag || laneDependsOn indexB indexA laneDag

/-- The paths a lane writes. -/
def LaneExecutionReceipt.writePaths (lane : LaneExecutionReceipt) : List Text :=
  match lane.writeSet.filter (· ≠ []) with
  | some writeSet => writeSet
  | none => if lane.lockRequired then lane.touchedFiles else []

structure PathHolder where
  agentId : Text
  index : ℕ

section

variable (laneReceipts : List LaneExecutionReceipt)

/-- The lanes that write each path. -/
def pathToLanes : InsertionMap Text (List PathHolder) :=
  laneReceipts.foldl (fun paths lane =>
    lane.writePaths.foldl (fun paths filePath =>
      paths.set filePath ((paths.get? filePath).getD [] ++ [⟨lane.agentId, lane.index⟩])) paths)
    .empty

/-- Every two of the lanes are allowed to write the same path. -/
def overlapAllowed (laneDag : List LaneDAGNode) : List PathHolder → Bool
  | [] => true
  | holder :: rest =>
    rest.all (isOverlapAllowedByDag holder.index ·.index laneDag) && overlapAllowed laneDag rest

def auditMutationWriteOverlaps (laneDag : List LaneDAGNode) : MergeSafetyAudit :=
  let shared := (pathToLanes laneReceipts).entries.filter fun entry => 2 ≤ entry.2.length
  let uniqueAgents (holders : List PathHolder) := (holders.map (·.agentId)).eraseDups
  let violations := (shared.filter fun entry => !overlapAllowed laneDag entry.2).map fun entry =>
    text "unsafe mutation overlap on '" ++ entry.1 ++ text "': " ++
      joinWith (text ", ") (uniqueAgents entry.2)
  { safe := violations = []
    violations
    overlappingPaths := shared.map fun entry => ⟨entry.1, uniqueAgents entry.2⟩
    missingEvidence := []
    placeholderWarnings := [] }

/-! ## Claims -/

/-- `if (value)` for a text that may be missing. -/
def isGiven (value : Option Text) : Bool := (value.filter (· ≠ [])).isSome

section

variable [Host]

/-- The token in a template. -/
def FencingToken.toText : FencingToken → Text
  | string s => s
  | number n => numberText n

section

variable (entry : ClaimHistoryEntry)

def claimIdentity : Text :=
  (entry.claimId.filter (· ≠ [])).getD
    (entry.resourceKey ++ text ":" ++ entry.ownerId ++ text ":" ++ entry.fencingToken.toText)

/-- `event === "acquired" || event === "recovered"`, `event === "released"`. -/
def ClaimHistoryEntry.kind : Holding.Kind :=
  match entry.event with
  | .acquired | .recovered => .takes
  | .released => .frees
  | .rejected | .staleDetected => .neither

structure ClaimLifecycleState where
  active : InsertionMap Text ClaimHistoryEntry
  unresolvedStale : InsertionMap Text ClaimHistoryEntry
  resourceOwners : InsertionMap Text GovernedResourceOwner

def resourceOwner (status : ResourceOwnerStatus) : GovernedResourceOwner :=
  ⟨entry.resourceKey, entry.ownerId, entry.laneId, entry.claimId, entry.fencingToken,
    entry.lockBackends, status⟩

end

def reconcileEntry (s : ClaimLifecycleState) (entry : ClaimHistoryEntry) : ClaimLifecycleState :=
  let key := claimIdentity entry
  match entry.event with
  | .acquired | .recovered => {
      active := s.active.set key entry
      unresolvedStale := s.unresolvedStale.delete key
      resourceOwners := s.resourceOwners.set entry.resourceKey (resourceOwner entry .active) }
  | .staleDetected => {
      s with
      unresolvedStale := s.unresolvedStale.set key entry
      resourceOwners :=
        match s.resourceOwners.get? entry.resourceKey with
        | none => s.resourceOwners
        | some owner => s.resourceOwners.set entry.resourceKey { owner with status := .stale } }
  | .released => {
      active := s.active.delete key
      unresolvedStale := s.unresolvedStale.delete key
      resourceOwners := s.resourceOwners.set entry.resourceKey (resourceOwner entry .released) }
  | .rejected => s

section

variable (claimHistory : List ClaimHistoryEntry)

def reconcileClaimLifecycle : ClaimLifecycleState :=
  claimHistory.foldl reconcileEntry ⟨.empty, .empty, .empty⟩

/-- The lane needs a lock, on files or on the roadmap. -/
def LaneExecutionReceipt.requiresLock (lane : LaneExecutionReceipt) : Bool :=
  lane.lockRequired || lane.roadmapMutationLockRequired.getD false

def auditOrphanedClaims (lifecycle : ClaimLifecycleState)
    (laneReceipts : List LaneExecutionReceipt) : ℕ :=
  (lifecycle.active.values.filter fun entry =>
    (laneReceipts.find? (·.laneId = entry.laneId)).all (·.requiresLock)).length

def auditStaleLeases (lifecycle : ClaimLifecycleState)
    (laneReceipts : List LaneExecutionReceipt) : ℕ :=
  let lockSkipped := (laneReceipts.filter (!·.requiresLock)).map (·.laneId)
  (lifecycle.unresolvedStale.values.filter (!lockSkipped.contains ·.laneId)).length

/-- The holders of each resource, by the identities of their claims. -/
abbrev ResourceHolders := InsertionMap Text (InsertionMap Text ClaimHistoryEntry)

section

variable (holders : ResourceHolders)

/-- The holders after an entry that is released. -/
def ResourceHolders.release (entry : ClaimHistoryEntry) :
    ResourceHolders :=
  match holders.get? entry.resourceKey with
  | none => holders
  | some owners =>
    let owners := owners.delete (claimIdentity entry)
    if owners.size = 0 then holders.delete entry.resourceKey
    else holders.set entry.resourceKey owners

/-- The holders of a resource. -/
def ResourceHolders.of (resourceKey : Text) :
    InsertionMap Text ClaimHistoryEntry :=
  (holders.get? resourceKey).getD .empty

/-- The holders after an entry that is acquired or recovered. -/
def ResourceHolders.take (entry : ClaimHistoryEntry) :
    ResourceHolders :=
  holders.set entry.resourceKey ((holders.of entry.resourceKey).set (claimIdentity entry) entry)

/-- The loop of `auditDuplicateClaims`: the holders and the violations so far. -/
def auditDuplicateClaim (s : ResourceHolders × List Text) (entry : ClaimHistoryEntry) :
    ResourceHolders × List Text :=
  match entry.kind with
  | .takes =>
    let existing := (s.1.of entry.resourceKey).values.find? (·.ownerId ≠ entry.ownerId)
    (s.1.take entry, s.2 ++ (existing.map fun existing =>
      text "duplicate claim on '" ++ entry.resourceKey ++ text "': " ++ existing.ownerId ++
        text ", " ++ entry.ownerId).toList)
  | .frees => (s.1.release entry, s.2)
  | .neither => s

def auditDuplicateClaims : List Text :=
  (claimHistory.foldl auditDuplicateClaim (.empty, [])).2

/-- The loop of `auditSplitBrain`. -/
def splitBrainHolders (entry : ClaimHistoryEntry) : ResourceHolders :=
  match entry.kind with
  | .takes => holders.take entry
  | .frees => holders.release entry
  | .neither => holders

end

def auditSplitBrain : Bool :=
  (claimHistory.foldl splitBrainHolders .empty).values.any fun owners =>
    1 < ((owners.values.map fun entry =>
      entry.ownerId ++ text ":" ++ entry.fencingToken.toText).eraseDups).length

/-- The loop of `auditDuplicateClaimIds`. -/
def auditDuplicateClaimId (s : InsertionMap Text Text × List Text) (entry : ClaimHistoryEntry) :
    InsertionMap Text Text × List Text :=
  match entry.claimId.filter (· ≠ []) with
  | none => s
  | some claimId =>
    match entry.kind with
    | .frees => (s.1.delete claimId, s.2)
    | .takes =>
      (s.1.set claimId entry.resourceKey, s.2 ++ ((s.1.get? claimId).map fun resource =>
        text "duplicate claimId '" ++ claimId ++ text "' on resources '" ++ resource ++
          text "' and '" ++ entry.resourceKey ++ text "'").toList)
    | .neither => s

def auditDuplicateClaimIds : List Text :=
  (claimHistory.foldl auditDuplicateClaimId (.empty, [])).2

end

end

/-! ## Lanes and agents -/

section

variable (agents : List SubagentExecutionEnvelope)

def auditMissingEvidence : List Text :=
  (agents.filter fun agent => ((agent.evidenceRefs.map List.length).getD 0) = 0).map (·.agentId)

/-- A character of `\w`. -/
def isWordChar (c : UInt16) : Bool :=
  (0x61 ≤ c && c ≤ 0x7A) || (0x41 ≤ c && c ≤ 0x5A) || (0x30 ≤ c && c ≤ 0x39) || c = 0x5F

def upperAscii (c : UInt16) : UInt16 := if 0x61 ≤ c && c ≤ 0x7A then c - 0x20 else c

def placeholderWords : List Text :=
  [text "TODO", text "FIXME", text "PLACEHOLDER", text "TBD"]

/-- `/\b(TODO|FIXME|PLACEHOLDER|TBD)\b/i.test(s)`, behind a character of a word or another one. -/
def hasPlaceholder (behindWord : Bool) : Text → Bool
  | [] => false
  | c :: rest =>
    (!behindWord && placeholderWords.any fun word =>
      word.isPrefixOf ((c :: rest).map upperAscii) &&
        !((c :: rest).drop word.length).head?.any isWordChar)
    || hasPlaceholder (isWordChar c) rest

def auditPlaceholders : List Text :=
  (agents.filter fun agent => agent.verbatimOutput.any (hasPlaceholder false)).map (·.agentId)

def auditMissingTranscripts : List Text :=
  (laneReceipts.filter fun lane =>
    lane.status = .completed && !isGiven lane.transcriptArtifactPath).map (·.laneId)

def auditMissingToolEvidence : List Text :=
  (laneReceipts.filter fun lane =>
    lane.status = .completed && lane.toolStepCount.getD 0 = 0 && lane.evidenceCount = 0).map
      (·.laneId)

/-- The first envelope of the lane's agent. -/
def agentOf (lane : LaneExecutionReceipt) : Option SubagentExecutionEnvelope :=
  agents.find? (·.agentId = lane.agentId)

def laneStatusMismatch (lane : LaneExecutionReceipt) (agent : SubagentExecutionEnvelope) :
    List Text :=
  let agentValidity := agent.executionValidity.getD
    (if agent.status = .completed then .valid else .invalid)
  let laneValidity := lane.executionValidity.getD agentValidity
  (if lane.status = .completed ∧ agent.status = .failed then
    [text "lane " ++ lane.laneId ++ text " marked completed but agent status is " ++
      agent.status.name] else []) ++
  (if lane.status = .failed ∧ agent.status = .completed then
    [text "failed lane marked successful in envelope: " ++ lane.laneId] else []) ++
  (if laneValidity ≠ agentValidity then
    [text "lane " ++ lane.laneId ++ text " execution validity " ++ laneValidity.name ++
      text " disagrees with agent validity " ++ agentValidity.name] else []) ++
  (if (lane.status = .completed ∨ agent.status = .completed) ∧ agentValidity = .invalid then
    [text "completed lane has structurally invalid execution: " ++ lane.laneId] else [])

def auditLaneStatusMismatch (laneReceipts : List LaneExecutionReceipt) : List Text :=
  laneReceipts.flatMap fun lane =>
    match agentOf agents lane with
    | none => []
    | some agent => laneStatusMismatch lane agent

def writeToolNames : List Text :=
  [text "write_to_file", text "edit_file", text "apply_patch", text "search_and_replace",
    text "insert_content", text "mem_claim"]

def envelopeIndicatesWrites (toolSteps touchedFiles : Option (List Text)) : Bool :=
  let writes := toolSteps.any (·.any writeToolNames.contains)
  writes || (touchedFiles.any (· ≠ []) && writes)

def SubagentExecutionEnvelope.indicatesWrites (agent : SubagentExecutionEnvelope) : Bool :=
  envelopeIndicatesWrites agent.toolSteps agent.touchedFiles

def auditMutationWithoutLock : List Text :=
  (laneReceipts.filter (·.executionMode = .mutation)).flatMap fun lane =>
    (if !lane.lockRequired || !isGiven lane.claimId then
      [text "mutation lane " ++ lane.laneId ++ text " missing governed lock"] else []) ++
    (if lane.lockRequired && !isGiven lane.claimId &&
        (agentOf agents lane).any (·.indicatesWrites) then
      [text "mutation lane " ++ lane.laneId ++ text " performed writes without lock"] else [])

def auditNonMutatingWithWrites : List Text :=
  (laneReceipts.filter fun lane =>
    !(lane.lockRequired || lane.executionMode = .mutation)).flatMap fun lane =>
    let hasWrites := lane.writeSet.any (· ≠ []) || (agentOf agents lane).any (·.indicatesWrites)
    if hasWrites && !isGiven lane.claimId then
      [text "non-mutating lane " ++ lane.laneId ++ text " (" ++ lane.executionMode.name ++
        text ") performed writes without lock"]
    else []

end

end

/-- The node is neither sealed nor failed. -/
def LaneDAGNode.isUnsealed (node : LaneDAGNode) : Bool :=
  node.state ≠ .sealed && node.state ≠ .failed

def auditSealedSupersession (priorSealedReceipt : Option PriorSealedReceipt)
    (attemptId parentAttemptId : Option Text) (laneDag : List LaneDAGNode) : Bool :=
  priorSealedReceipt.any fun prior =>
    prior.sealed && prior.passed &&
      !(isGiven parentAttemptId && parentAttemptId = some prior.attemptId) &&
      !(attemptId = some prior.attemptId) && laneDag.any (·.isUnsealed)

/-! ## The gate -/

/-- What the gate has found so far. -/
structure GateFindings where
  violations : List Text
  advisoryWarnings : List Text
  findings : List MergeGateFinding

namespace GateFindings

def empty : GateFindings := ⟨[], [], []⟩

section

variable (s : GateFindings)

def addBlocking (code : String) (messages : List Text) (remediation : String)
    (retryable : Bool) : GateFindings :=
  { s with
    violations := s.violations ++ messages
    findings := s.findings ++ messages.map fun message =>
      ⟨text code, .blocking, message, retryable, text remediation⟩ }

def addAdvisory (code : String) (messages : List Text) (remediation : String) : GateFindings :=
  { s with
    advisoryWarnings := s.advisoryWarnings ++ messages
    findings := s.findings ++ messages.map fun message =>
      ⟨text code, .advisory, message, false, text remediation⟩ }

@[simp] theorem violations_addBlocking (code : String) (messages : List Text)
    (remediation : String) (retryable : Bool) :
    (s.addBlocking code messages remediation retryable).violations = s.violations ++ messages := rfl

@[simp] theorem violations_addAdvisory (code : String) (messages : List Text)
    (remediation : String) : (s.addAdvisory code messages remediation).violations = s.violations :=
  rfl

/-- The codes of the blocking findings. -/
def blockingCodes : List Text :=
  ((s.findings.filter (·.severity = .blocking)).map (·.code)).eraseDups

end

end GateFindings

/-- One message with the listed names, where there are any. -/
def listed (label : String) (names : List Text) : List Text :=
  if names = [] then [] else [text label ++ joinWith (text ", ") names]

/-- One message with the number, where it is not zero. -/
def counted (label : String) (count : ℕ) : List Text :=
  if count = 0 then [] else [text label ++ decimal count]

/-- One message, where the flag is set. -/
def flagged (flag : Bool) (message : String) : List Text := if flag then [text message] else []

/-- The violations of a report that is not valid. -/
def IntegrityReport.blocking (report : IntegrityReport) : List Text :=
  if report.valid then [] else report.violations

section

variable {χ : Type} [Host]

/-- The audits of lanes, agents and claims, up to the replay artifact. -/
def auditSwarm (input : MergeGateInput χ) : GateFindings :=
  let lifecycle := reconcileClaimLifecycle input.claimHistory
  GateFindings.empty
    |>.addBlocking "mutation_write_overlap"
      (auditMutationWriteOverlaps input.laneReceipts input.laneDag).violations
      "Serialize only the conflicting lanes with a DAG dependency or split their write sets." true
    |>.addBlocking "mutation_without_lock"
      (auditMutationWithoutLock input.laneReceipts input.agents)
      "Re-run the affected mutation lane under a governed claim." true
    |>.addBlocking "undeclared_mutation"
      (auditNonMutatingWithWrites input.laneReceipts input.agents)
      "Escalate the affected lane to mutation mode and re-run that lane." true
    |>.addAdvisory "evidence_reference_missing"
      (listed "missing evidence: " (auditMissingEvidence input.agents))
      "Attach evidence references during follow-up; do not re-run completed work solely for this warning."
    |>.addAdvisory "placeholder_detected"
      (listed "unresolved placeholders: " (auditPlaceholders input.agents))
      "Review the referenced output and resolve placeholders only when they affect the requested deliverable."
    |>.addAdvisory "transcript_pointer_missing"
      (listed "missing transcript pointer: " (auditMissingTranscripts input.laneReceipts))
      "Repair transcript persistence asynchronously; the sealed swarm envelope remains the replay source."
    |>.addAdvisory "tool_evidence_missing"
      (listed "missing tool evidence: " (auditMissingToolEvidence input.laneReceipts))
      "Request targeted evidence enrichment instead of retrying the whole swarm."
    |>.addBlocking "lane_status_mismatch"
      (auditLaneStatusMismatch input.agents input.laneReceipts)
      "Reconcile the affected lane receipt with its execution envelope before seal." true
    |>.addBlocking "failed_lanes"
      (listed "failed lanes: "
        ((input.laneReceipts.filter (·.status = .failed)).map (·.laneId)))
      "Resume or repair only failed lanes and their dependent descendants." true
    |>.addBlocking "incomplete_lane_dag"
      (listed "unsealed DAG nodes: " ((input.laneDag.filter (·.isUnsealed)).map (·.laneId)))
      "Wait for running lanes or resume only incomplete DAG nodes." true
    |>.addBlocking "duplicate_claim" (auditDuplicateClaims input.claimHistory)
      "Recover conflicting ownership before any retry." false
    |>.addBlocking "duplicate_claim_id" (auditDuplicateClaimIds input.claimHistory)
      "Repair claim identity generation and inspect concurrent ownership before retry." false
    |>.addBlocking "split_brain"
      (flagged (auditSplitBrain input.claimHistory) "split-brain lock authority detected")
      "Reconcile lock backends and fencing tokens before retry." false
    |>.addBlocking "orphaned_claim"
      (counted "orphaned claims: " (auditOrphanedClaims lifecycle input.laneReceipts))
      "Release or recover active mutation claims before retry." false
    |>.addBlocking "stale_lease"
      (counted "stale leases: " (auditStaleLeases lifecycle input.laneReceipts))
      "Recover unresolved stale leases, then retry only incomplete lanes." false

/-- A lane whose claim was not released. -/
def LaneExecutionReceipt.isUnreleased (lane : LaneExecutionReceipt) : Bool :=
  lane.status ≠ .collisionRejected &&
    ((lane.lockRequired && !lane.claimReleased) ||
      (lane.roadmapMutationLockRequired.getD false &&
        lane.roadmapMutationClaimReleased = some false))

def retryDisposition (findings : GateFindings) (decision : ConvergenceDecision)
    (sealedSupersessionBlocked : Bool) : MergeGateRetryDisposition :=
  if decision = .targetedProbe then .targetedProbe
  else if sealedSupersessionBlocked then .doNotRetry
  else if findings.blockingCodes.any
      [text "duplicate_claim", text "duplicate_claim_id", text "split_brain", text "orphaned_claim",
        text "stale_lease", text "unreleased_claim"].contains then .retryAfterRecovery
  else if findings.violations ≠ [] then .targetedRepair
  else .notNeeded

def runMergeGate (audits : OtherAudits χ) (input : MergeGateInput χ) : MergeGateEvaluation :=
  let overlapAudit := auditMutationWriteOverlaps input.laneReceipts input.laneDag
  let lifecycle := reconcileClaimLifecycle input.claimHistory
  let replayIntegrity := audits.verifyReplayArtifact input.context
  let sealedSupersessionBlocked := auditSealedSupersession input.priorSealedReceipt input.attemptId
    input.parentAttemptId input.laneDag
  let found := (auditSwarm input)
    |>.addBlocking "replay_integrity" replayIntegrity.blocking
      "Repair or regenerate the replay artifact before merge." false
    |>.addBlocking "sealed_supersession"
      (flagged sealedSupersessionBlocked "unsealed retry cannot supersede prior sealed receipt")
      "Use the authoritative sealed result or link a deliberate child attempt via parentAttemptId."
      false
  let replayProbe :=
    if isGiven input.storedReplayChecksum then
      audits.validateDeterministicReplay input (found.violations = []) overlapAudit replayIntegrity
    else ⟨true, []⟩
  let found := found
    |>.addBlocking "replay_checksum_mismatch"
      (if replayProbe.valid then [] else audits.explainReplayMismatch replayProbe.violations)
      "Restore the authoritative artifact or start a linked targeted attempt." false
    |>.addBlocking "unreleased_claim"
      (listed "unreleased claims: "
        ((input.laneReceipts.filter (·.isUnreleased)).map (·.laneId)))
      "Release active claims before retrying incomplete lanes." false
  let mergePassedProbe : Bool := found.violations = []
  let roadmapAudit := audits.runRoadmapMergeAudit input mergePassedProbe
    (input.sealed.getD mergePassedProbe)
  let found := found.addBlocking "roadmap_merge_safety" roadmapAudit.violations
    "Repair only conflicting or unauthorized roadmap mutations before commit." true
  let convergence := audits.evaluateConfidenceAwareConvergence input found.findings
  let found := found
    |>.addAdvisory "bounded_uncertainty"
      (flagged (convergence.decision = .convergeWithUncertainty)
        "valid execution converged with bounded finding uncertainty")
      "Preserve the uncertainty summary and gather only the listed resolution evidence when needed."
    |>.addBlocking "critical_mutation_uncertainty"
      (flagged (convergence.decision = .blockHardFailure &&
        convergence.hardFailure = some .unsafeUnderAllInterpretations)
        "critical mutation is unsafe under every surviving interpretation")
      "Omit or reverse the unsafe mutation, or attach direct evidence resolving its critical assumption."
      false
  { passed := found.violations = []
    mergeAudit := {
      safe := found.violations = []
      violations := found.violations
      overlappingPaths := overlapAudit.overlappingPaths
      missingEvidence := auditMissingEvidence input.agents
      placeholderWarnings := auditPlaceholders input.agents }
    roadmapAudit
    replayIntegrity
    violations := found.violations
    failedLaneCount := (input.laneReceipts.filter (·.status = .failed)).length
    orphanedClaimCount := auditOrphanedClaims lifecycle input.laneReceipts
    staleLeaseCount := auditStaleLeases lifecycle input.laneReceipts
    splitBrainDetected := auditSplitBrain input.claimHistory
    sealedSupersessionBlocked
    findings := found.findings
    advisoryWarnings := found.advisoryWarnings
    retryDisposition := retryDisposition found convergence.decision sealedSupersessionBlocked
    confidenceAwareConvergence := convergence
    normalizedResourceOwners := lifecycle.resourceOwners.values }

/-- **No finding is dropped on the way to the verdict.** -/
theorem auditSwarm_violations_of_passed {audits : OtherAudits χ} {input : MergeGateInput χ}
    (h : (runMergeGate audits input).passed = true) : (auditSwarm input).violations = [] := by
  simp only [runMergeGate, decide_eq_true_eq, GateFindings.violations_addBlocking,
    GateFindings.violations_addAdvisory, List.append_eq_nil_iff] at h
  exact h.1.1.1.1.1.1

end

end Lumi.Subagent
