import Mathlib.Data.List.Nodup
import Lumi.Lib.Run
import Lumi.Siblings.Validation

/-!
# The scheduler of sibling tools

`SiblingToolScheduler.execute` goes in turns over the nodes that are pending.  In a turn it starts
those whose dependencies have results, as far as the capacity allows, and completes without a run
those that are cancelled, that the guard refuses with an error and whose prerequisites did not
succeed.  After a turn that did nothing it waits to be woken; where no node is running, only until
the stall timeout.

A turn runs to its end before anything else happens.  The callbacks are asked in it; each of them
may cancel the scheduler.  Between the turns runs settle and are taken out of the running ones, in
two steps of their promise, and the scheduler is cancelled or woken from outside.
-/

namespace Lumi.Siblings

open Js

inductive SiblingExecutionStatus
  | succeeded
  | failed
  | cancelled
  | skipped
  deriving DecidableEq

/-- The result of a node, without its times. -/
structure SiblingExecutionEnvelope (τ : Type*) where
  id : Text
  sequence : ℕ
  status : SiblingExecutionStatus
  value : Option τ
  error : Option Text

inductive SiblingSchedulerEvent
  | queued (sequence : ℕ)
  | started (sequence : ℕ)
  | completed (sequence : ℕ) (status : SiblingExecutionStatus)
  deriving DecidableEq

/-- Where the loop is: in a turn or about to take one, waiting for a run, waiting for a guard,
past the stall timeout, or at its end. -/
inductive Phase
  | awake
  | waiting
  | stalled
  | timedOut
  | done
  deriving DecidableEq

structure SiblingRun (τ : Type*) where
  pending : List ℕ
  running : List ℕ
  /-- the nodes that were started when the scheduler had been cancelled: they do not run -/
  refused : List ℕ
  results : ℕ → Option (SiblingExecutionEnvelope τ)
  aborted : Bool
  phase : Phase
  trace : List SiblingSchedulerEvent

/-- What `canStart` answers. -/
inductive Admission
  | admits (answer : Bool)
  | throws (message : Text)

inductive Callback
  | canStart
  | onEvent
  | run

/-- What the callbacks answer in the turns, and whether they cancel the scheduler. -/
structure Callbacks where
  isCancelled : ℕ → Bool
  canStart : ℕ → ℕ → Admission
  cancels : ℕ → ℕ → Callback → Bool

/-- How a run settles: with a value, classified, or with an error. -/
inductive Outcome (τ : Type*)
  | fulfilled (value : τ) (succeeded : Bool) (error : Option Text)
  | rejected (error : Text)

inductive SiblingEvent (τ : Type*)
  /-- the loop goes on, turn by turn, until it has to wait -/
  | resume (callbacks : Callbacks)
  | settle (sequence : ℕ) (outcome : Outcome τ)
  /-- the settled run is taken out of the running ones -/
  | drop (sequence : ℕ)
  | timeout
  | cancel
  | signalReady

namespace SiblingRun

variable {τ : Type*}

/-- The start of the loop; the listener of the queued nodes may have cancelled the scheduler. -/
def new (nodes : List SiblingToolDependencyNode) (aborted : Bool) : SiblingRun τ where
  pending := nodes.map SiblingToolDependencyNode.sequence
  running := []
  refused := []
  results := fun _ => none
  aborted := aborted
  phase := .awake
  trace := nodes.map fun node => .queued node.sequence

def wake (s : SiblingRun τ) : SiblingRun τ :=
  if s.phase = .waiting ∨ s.phase = .stalled then { s with phase := .awake } else s

section

variable (callbacks : Callbacks) (turn : ℕ)

section

variable (node : SiblingToolDependencyNode)

def completeWithoutRun (status : SiblingExecutionStatus)
    (error : Text) (s : SiblingRun τ) : SiblingRun τ :=
  { s with
    pending := s.pending.erase node.sequence
    results := Function.update s.results node.sequence
      (some ⟨node.id, node.sequence, status, none, some error⟩)
    aborted := s.aborted || callbacks.cancels turn node.sequence .onEvent
    trace := s.trace ++ [.completed node.sequence status] }

/-- Whether some prerequisite has a result and did not succeed. -/
def prerequisiteFailed (s : SiblingRun τ) : Bool :=
  node.dependencyEdges.any fun edge => edge.kind ≠ .conflict
    && (s.results edge.sequence).any fun result => result.status ≠ .succeeded

/-- A node is started; it runs if the scheduler is not cancelled by then. -/
def start (s : SiblingRun τ) : SiblingRun τ :=
  let aborted := s.aborted || callbacks.cancels turn node.sequence .onEvent
  { s with
    pending := s.pending.erase node.sequence
    running := s.running ++ [node.sequence]
    refused := if aborted then s.refused ++ [node.sequence] else s.refused
    aborted := aborted || callbacks.cancels turn node.sequence .run
    trace := s.trace ++ [.started node.sequence] }

end

variable (nodes : List SiblingToolDependencyNode) (capacity : ℕ)

/-- One pending node in a turn, and whether the turn has made progress. -/
def admitNode (acc : SiblingRun τ × Bool) (sequence : ℕ) : SiblingRun τ × Bool :=
  match nodeAt nodes sequence with
  | none => acc
  | some node =>
    if acc.1.aborted then
      (acc.1.completeWithoutRun callbacks turn node .cancelled
        (text "Task cancelled before sibling dispatch"), true)
    else
      let s := { acc.1 with aborted := callbacks.cancels turn sequence .canStart }
      match callbacks.canStart turn sequence with
      | .throws message =>
        (s.completeWithoutRun callbacks turn node .skipped
          (text "Sibling admission failed: " ++ message), true)
      | .admits false => (s, acc.2)
      | .admits true =>
        if s.prerequisiteFailed node then
          (s.completeWithoutRun callbacks turn node .skipped
            (text "Prerequisite sibling did not succeed"), true)
        else if (node.dependencyEdges.all fun edge => (s.results edge.sequence).isSome)
            ∧ s.running.length < capacity then (s.start callbacks turn node, true)
        else (s, acc.2)

/-- All pending nodes, in their order. -/
def scan (s : SiblingRun τ) : SiblingRun τ × Bool :=
  s.pending.foldl (admitNode callbacks turn nodes capacity) (s, false)

end

section

variable (callbacks : Callbacks) (nodes : List SiblingToolDependencyNode) (capacity : ℕ)

/-- Turns, until there is nothing to do or the loop has to wait. -/
def advance : ℕ → ℕ → SiblingRun τ → SiblingRun τ
  | 0, _, s => s
  | fuel + 1, turn, s =>
    if s.pending = [] ∧ s.running = [] then { s with phase := .done }
    else
      let next := scan callbacks turn nodes capacity
        { s with aborted := s.aborted || callbacks.isCancelled turn }
      if ¬ next.2 ∧ (next.1.pending ≠ [] ∨ next.1.running ≠ []) then
        { next.1 with phase := if next.1.running ≠ [] then .waiting else .stalled }
      else advance fuel (turn + 1) next.1

def skip (error : Text) (s : SiblingRun τ) (sequence : ℕ) : SiblingRun τ :=
  match nodeAt nodes sequence with
  | none => s
  | some node => s.completeWithoutRun callbacks 0 node .skipped error

/-- The stall timeout completes what is pending. -/
def skipStalled (stallTimeout : Text) (s : SiblingRun τ) : SiblingRun τ :=
  let error := text "Sibling scheduling stalled for " ++ stallTimeout ++ text ("ms; "
    ++ "no runnable sibling became available. "
    ++ "Check dependency edges or release the admission guard.")
  s.pending.foldl (skip callbacks nodes error) s

end

/-- The envelope of a run. -/
def settled (s : SiblingRun τ) (node : SiblingToolDependencyNode) (outcome : Outcome τ) :
    SiblingExecutionEnvelope τ :=
  let outcome := if node.sequence ∈ s.refused
    then .rejected (text "Task cancelled before sibling execution") else outcome
  match outcome with
  | .fulfilled value succeeded error =>
    ⟨node.id, node.sequence, if succeeded then .succeeded else .failed, some value, error⟩
  | .rejected error =>
    ⟨node.id, node.sequence, if s.aborted then .cancelled else .failed, none, some error⟩

section

variable (nodes : List SiblingToolDependencyNode) (capacity : ℕ) (stallTimeout : Text)

def step (s : SiblingRun τ) : SiblingEvent τ → SiblingRun τ
  | .resume callbacks =>
    match s.phase with
    | .awake => advance callbacks nodes capacity (s.pending.length + 1) 0 s
    | .timedOut =>
      let s := s.skipStalled callbacks nodes stallTimeout
      advance callbacks nodes capacity (s.pending.length + 1) 1 s
    | _ => s
  | .settle sequence outcome =>
    match nodeAt nodes sequence with
    | none => s
    | some node =>
      if sequence ∈ s.running ∧ (s.results sequence).isNone then
        let envelope := s.settled node outcome
        { s with
          results := Function.update s.results sequence (some envelope)
          trace := s.trace ++ [.completed sequence envelope.status] }
      else s
  | .drop sequence =>
    if sequence ∈ s.running ∧ (s.results sequence).isSome then
      wake { s with running := s.running.erase sequence }
    else s
  | .timeout => if s.phase = .stalled then { s with phase := .timedOut } else s
  | .cancel => wake { s with aborted := true }
  | .signalReady => wake s

end

/-- Can the event happen in this state? -/
def Enabled (s : SiblingRun τ) : SiblingEvent τ → Prop
  | .resume _ => s.phase = .awake ∨ s.phase = .timedOut
  | .settle sequence _ => sequence ∈ s.running ∧ (s.results sequence).isNone
  | .drop sequence => sequence ∈ s.running ∧ (s.results sequence).isSome
  | .timeout => s.phase = .stalled
  | .cancel => True
  | .signalReady => True

instance (s : SiblingRun τ) : (event : SiblingEvent τ) → Decidable (s.Enabled event)
  | .resume _ => inferInstanceAs (Decidable (_ ∨ _))
  | .settle _ _ => inferInstanceAs (Decidable (_ ∧ _))
  | .drop _ => inferInstanceAs (Decidable (_ ∧ _))
  | .timeout => inferInstanceAs (Decidable (_ = _))
  | .cancel => isTrue trivial
  | .signalReady => isTrue trivial

/-- What `execute` returns. -/
def envelopes (nodes : List SiblingToolDependencyNode) (s : SiblingRun τ) :
    List (SiblingExecutionEnvelope τ) :=
  nodes.filterMap fun node => s.results node.sequence

end SiblingRun

/-! ## The start of an execution -/

structure SiblingToolSchedulerOptions where
  concurrency : Option Number
  stallTimeoutMs : Option Number

namespace SiblingToolSchedulerOptions

def defaultSiblingToolConcurrency : Number := .finite 4

def defaultSiblingToolStallTimeoutMs : Number := .finite 15000

def capacity (options : SiblingToolSchedulerOptions) : Number :=
  options.concurrency.getD defaultSiblingToolConcurrency

def stallTimeout (options : SiblingToolSchedulerOptions) : Number :=
  options.stallTimeoutMs.getD defaultSiblingToolStallTimeoutMs

end SiblingToolSchedulerOptions

/-- The capacity as a natural number, where it is a positive integer. -/
def positiveInteger? : Number → Option ℕ
  | .finite q => if q.den = 1 ∧ 1 ≤ q.num then some q.num.toNat else none
  | _ => none

def isStallTimeout : Number → Bool
  | .finite q => 0 ≤ q
  | _ => false

/-- What `execute` checks before its loop; it gives the capacity.  `numberText` is `String(n)`. -/
def checkExecution (numberText : Number → Text) (options : SiblingToolSchedulerOptions)
    (nodes : List SiblingToolDependencyNode) : ExceptT Text Option ℕ := do
  validateDependencyGraph nodes
  match positiveInteger? options.capacity with
  | none => throw (text "Sibling concurrency must be a positive integer (received "
      ++ numberText options.capacity ++ text ").")
  | some capacity =>
    if isStallTimeout options.stallTimeout then pure capacity
    else throw (text "Sibling stall timeout must be a non-negative finite number (received "
      ++ numberText options.stallTimeout ++ text ").")

end Lumi.Siblings
