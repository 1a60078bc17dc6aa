import Lumi.Lib.Decimal
import Lumi.Lib.InsertionMap
import Lumi.Lib.Tarjan
import Mathlib.Algebra.Order.Ring.Unbundled.Rat

/-!
# Deadlocks of swarm lanes

`detectDeadlocks` builds the wait-for graph of the lanes of a snapshot and reports its strongly
connected components that have a cycle, except those with an escape: a timer, a lease that expires,
a slot of the pool held outside, or a resource that a member waits for and that a running lane
outside owns which does not itself wait for the component.

The nodes of the graph are the names of lanes, resources and pools, as in the source.
-/

namespace Lumi.Subagent

open Js

inductive WaitEdge
  | laneDependency (source target : Text)
  | resourceOwnership (source target : Text)
  | ownedBy (source target : Text)
  | timer (source : Text) (deadline : ℚ)
  | capacity (source poolId : Text)
  deriving DecidableEq

structure LaneNode where
  state : Text
  dependsOn : List ℕ

structure SchedulerSnapshot where
  pendingLanes : List ℕ
  runningLaneIndices : List ℕ
  timersActive : List ℕ
  activeLaneExecutions : ℕ
  maxInFlightLanes : ℕ
  dag : List (ℕ × LaneNode)
  stateVersion : ℕ
  laneStateVersion : Option ℕ
  observedAt : ℚ
  resourceOwnership : Text → Option ℕ
  laneWaitingForResource : ℕ → Option Text
  timerDeadlines : ℕ → Option ℚ
  leaseExpirations : Text → Option ℚ

structure DeadlockDetectionResult where
  hasDeadlock : Bool
  cycles : List (List Text)
  explanation : Text
  schedulerStateVersion : ℕ
  laneStateVersion : Option ℕ
  edges : List WaitEdge

/-- A map of sets. -/
abbrev Graph := InsertionMap Text (List Text)

/-- `set.add(x)`. -/
def setAdd {α : Type*} [BEq α] (xs : List α) (x : α) : List α :=
  if xs.contains x then xs else xs ++ [x]

section

variable (graph : Graph)

def successors (node : Text) : List Text := (graph.get? node).getD []

def addNode (node : Text) : Graph :=
  if (graph.get? node).isNone then graph.set node [] else graph

def addEdge (source target : Text) : Graph :=
  let graph := addNode (addNode graph source) target
  graph.set source (setAdd (successors graph source) target)

def laneId (index : ℕ) : Text := text "lane:" ++ decimal index

def resourceNode (resourceId : Text) : Text := text "resource:" ++ resourceId

def capacityNode (poolId : Text) : Text := text "capacity:" ++ poolId

/-- The edge of the graph that a recorded edge stands for. -/
def WaitEdge.arc : WaitEdge → Option (Text × Text)
  | laneDependency source target => some (source, target)
  | resourceOwnership source target => some (source, target)
  | ownedBy source target => some (source, target)
  | timer _ _ => none
  | capacity source poolId => some (source, capacityNode poolId)

def addArc (edge : WaitEdge) : Graph :=
  match edge.arc with
  | some (source, target) => addEdge graph source target
  | none => graph

namespace SchedulerSnapshot

variable (snapshot : SchedulerSnapshot)

def getNode (index : ℕ) : Option LaneNode := snapshot.dag.lookup index

def dependsOn (index : ℕ) : List ℕ := ((snapshot.getNode index).map LaneNode.dependsOn).getD []

def isSealed (index : ℕ) : Bool :=
  (snapshot.getNode index).any fun node => node.state = text "sealed"

/-- A dependency joins the lanes and the queue, if it is new. -/
def enqueue (acc : List ℕ × List ℕ) (dependency : ℕ) : List ℕ × List ℕ :=
  if acc.1.contains dependency then acc else (acc.1 ++ [dependency], dependency :: acc.2)

/-- The loop over the queue, whose last lane stands first. -/
def closeLanes : ℕ → List ℕ → List ℕ → List ℕ
  | 0, lanes, _ => lanes
  | _ + 1, lanes, [] => lanes
  | fuel + 1, lanes, index :: queue =>
    let next := (snapshot.dependsOn index).foldl enqueue (lanes, queue)
    closeLanes fuel next.1 next.2

/-- The lanes of the graph.  Each lane is taken from the queue once. -/
def laneIndices : List ℕ :=
  let lanes := (snapshot.pendingLanes ++ snapshot.runningLaneIndices).foldl setAdd []
  let dependencies := snapshot.dag.flatMap fun entry => entry.2.dependsOn
  snapshot.closeLanes (lanes.length + dependencies.length + 1) lanes lanes.reverse

/-- What the graph gets for a lane. -/
def laneEdges (index : ℕ) : List WaitEdge :=
  (((snapshot.dependsOn index).filter fun dependency => !snapshot.isSealed dependency).map
    fun dependency => .laneDependency (laneId index) (laneId dependency))
  ++ match snapshot.laneWaitingForResource index with
    | none => []
    | some resourceId =>
      if resourceId = [] then []
      else .resourceOwnership (laneId index) (resourceNode resourceId)
        :: (snapshot.resourceOwnership resourceId).toList.map fun owner =>
          .ownedBy (resourceNode resourceId) (laneId owner)

def capacityEdges : List WaitEdge :=
  if snapshot.maxInFlightLanes ≤ snapshot.activeLaneExecutions ∧ snapshot.pendingLanes ≠ [] then
    (snapshot.pendingLanes.map fun index => .capacity (laneId index) (text "default"))
    ++ snapshot.runningLaneIndices.map fun index =>
      .ownedBy (capacityNode (text "default")) (laneId index)
  else []

def timerEdges : List WaitEdge :=
  snapshot.timersActive.filterMap fun index =>
    (snapshot.timerDeadlines index).map fun deadline => .timer (laneId index) deadline

def addLane (graph : Graph) (index : ℕ) : Graph :=
  (snapshot.laneEdges index).foldl addArc (addNode graph (laneId index))

/-- The graph and the recorded edges. -/
def buildWaitForGraph : Graph × List WaitEdge :=
  (snapshot.capacityEdges.foldl addArc (snapshot.laneIndices.foldl snapshot.addLane .empty),
    snapshot.laneIndices.flatMap snapshot.laneEdges ++ snapshot.capacityEdges
      ++ snapshot.timerEdges)

def ownerWaitsOnComponent (ownerIndex : ℕ) (component : List Text) : Bool :=
  ((snapshot.dependsOn ownerIndex).any fun dependency => component.contains (laneId dependency))
  || match snapshot.laneWaitingForResource ownerIndex with
    | none => false
    | some waitingResource => waitingResource ≠ [] &&
        (snapshot.resourceOwnership waitingResource).any fun blockingOwner =>
          component.contains (laneId blockingOwner)

/-- Whether an edge of the component may be resolved from outside. -/
def isEscape (component : List Text) : WaitEdge → Bool
  | .timer source deadline => component.contains source && snapshot.observedAt < deadline
  | .resourceOwnership source target =>
    let resourceId := target.drop (text "resource:").length
    component.contains source
      && ((snapshot.leaseExpirations resourceId).any (snapshot.observedAt < ·)
        || (snapshot.resourceOwnership resourceId).any fun ownerIndex =>
          snapshot.runningLaneIndices.contains ownerIndex
            && !component.contains (laneId ownerIndex)
            && !snapshot.ownerWaitsOnComponent ownerIndex component)
  | .capacity source poolId =>
    component.contains source && component.contains (capacityNode poolId)
      && snapshot.runningLaneIndices.any fun runningIndex =>
        !component.contains (laneId runningIndex)
  | _ => false

def hasEscapeTransition (component : List Text) (edges : List WaitEdge) : Bool :=
  edges.any (snapshot.isEscape component)

end SchedulerSnapshot

/-- Whether a component has a cycle. -/
def isCyclic (component : List Text) : Bool :=
  1 < component.length || component.head?.any fun node => (successors graph node).contains node

end

def explain (cycles : List (List Text)) : Text :=
  if cycles ≠ [] then text "Deadlock cycles detected: "
    ++ joinWith (text ", ") (cycles.map (joinWith (text " -> ")))
  else text "No deadlock detected; every cycle has an edge-resolving escape or no cycle exists."

def detectDeadlocks (snapshot : SchedulerSnapshot) : DeadlockDetectionResult :=
  let built := snapshot.buildWaitForGraph
  let cycles := (Tarjan.components (successors built.1) built.1.keys).filter fun component =>
    isCyclic built.1 component && !snapshot.hasEscapeTransition component built.2
  { hasDeadlock := cycles ≠ []
    cycles
    explanation := explain cycles
    schedulerStateVersion := snapshot.stateVersion
    laneStateVersion := snapshot.laneStateVersion
    edges := built.2 }

end Lumi.Subagent
