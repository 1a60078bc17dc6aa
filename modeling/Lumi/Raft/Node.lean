import Lumi.Lib.Run

/-!
# A Raft node

`BroccoliRaftConsensusEngine` is one node of a cluster: it answers vote requests
and append-entries requests, proposes commands while it leads, and starts
elections.  Every method is a function on the state of the node; the wall clock
is an argument.

Log positions count from `1`, and `entryAt` is the `this.log[index - 1]` of the
source, which is undefined for index `0`.
-/

namespace Lumi.Raft

inductive NodeRole
  | follower
  | candidate
  | leader
  deriving DecidableEq, Repr

structure LogEntry (π : Type*) where
  index : ℕ
  term : ℕ
  command : String
  payload : Option π
  timestamp : ℕ
  deriving DecidableEq, Repr

structure VoteRequest where
  term : ℕ
  candidateId : String
  lastLogIndex : ℕ
  lastLogTerm : ℕ
  deriving DecidableEq, Repr

structure VoteResponse where
  term : ℕ
  voteGranted : Bool
  deriving DecidableEq, Repr

structure AppendEntriesRequest (π : Type*) where
  term : ℕ
  leaderId : String
  prevLogIndex : ℕ
  prevLogTerm : ℕ
  entries : List (LogEntry π)
  leaderCommit : ℕ
  deriving DecidableEq, Repr

structure AppendEntriesResponse where
  term : ℕ
  success : Bool
  matchIndex : ℕ
  deriving DecidableEq, Repr

/-- `BroccoliRaftConsensusEngine`. -/
structure RaftNode (π : Type*) where
  nodeId : String
  role : NodeRole
  currentTerm : ℕ
  votedFor : Option String
  leaderId : Option String
  commitIndex : ℕ
  log : List (LogEntry π)
  clusterNodes : List String
  deriving DecidableEq, Repr

variable {π : Type*}

/-- The entry at a position of the log, counted from `1`. -/
def entryAt (log : List (LogEntry π)) (index : ℕ) : Option (LogEntry π) :=
  if index = 0 then none else log[index - 1]?

namespace RaftNode

/-- A new node; without a cluster it is its own. -/
def init (nodeId : String) (clusterNodes : List String) : RaftNode π :=
  ⟨nodeId, .follower, 0, none, none, 0, [],
    if clusterNodes.length > 0 then clusterNodes else [nodeId]⟩

section

variable (n : RaftNode π)

def requestVote (request : VoteRequest) : VoteResponse × RaftNode π :=
  if request.term < n.currentTerm then (⟨n.currentTerm, false⟩, n)
  else
    let n := if request.term > n.currentTerm then
        { n with
          currentTerm := request.term, role := .follower, votedFor := none, leaderId := none }
      else n
    let canVote := n.votedFor = none ∨ n.votedFor = some request.candidateId
    let lastLog := n.log.getLast?
    let myLastTerm := (lastLog.map (·.term)).getD 0
    let myLastIndex := (lastLog.map (·.index)).getD 0
    let isLogOk := request.lastLogTerm > myLastTerm ∨
      (request.lastLogTerm = myLastTerm ∧ request.lastLogIndex ≥ myLastIndex)
    if canVote ∧ isLogOk then
      (⟨n.currentTerm, true⟩, { n with votedFor := some request.candidateId })
    else (⟨n.currentTerm, false⟩, n)

/-- One round of the loop over the entries of a request: an entry of another term
makes way, with all that follows it; an entry of the same term stays. -/
def appendEntry (log : List (LogEntry π)) (entry : LogEntry π) : List (LogEntry π) :=
  match entryAt log entry.index with
  | some existing =>
    if existing.term ≠ entry.term then log.take (entry.index - 1) ++ [entry] else log
  | none => log ++ [entry]

/-- The log holds the entry the request builds on. -/
def prevMatches (request : AppendEntriesRequest π) : Bool :=
  request.prevLogIndex = 0 ||
    match entryAt n.log request.prevLogIndex with
    | none => false
    | some prevEntry => prevEntry.term = request.prevLogTerm

def appendEntries (request : AppendEntriesRequest π) : AppendEntriesResponse × RaftNode π :=
  if request.term < n.currentTerm then (⟨n.currentTerm, false, 0⟩, n)
  else
    let n := { n with
      currentTerm := request.term, role := .follower, leaderId := some request.leaderId }
    if n.prevMatches request then
      let log := request.entries.foldl appendEntry n.log
      let commitIndex := if request.leaderCommit > n.commitIndex then
          min request.leaderCommit log.length
        else n.commitIndex
      (⟨n.currentTerm, true, log.length⟩, { n with log, commitIndex })
    else (⟨n.currentTerm, false, n.log.length⟩, n)

def proposeCommand (command : String) (payload : Option π) (now : ℕ) :
    Except String (LogEntry π × RaftNode π) :=
  if n.role ≠ .leader then
    let currentLeader := n.leaderId.getD "none"
    .error s!"Node '{n.nodeId}' is not the leader (current leader: '{currentLeader}')"
  else
    let index := n.log.length + 1
    let entry : LogEntry π := ⟨index, n.currentTerm, command, payload, now⟩
    .ok (entry, { n with
      log := n.log ++ [entry]
      -- In single-node / leader-only configuration, commit immediately
      commitIndex := if n.clusterNodes.length ≤ 1 then index else n.commitIndex })

def startElection : Bool × RaftNode π :=
  let n := { n with
    role := .candidate, currentTerm := n.currentTerm + 1, votedFor := some n.nodeId,
    leaderId := none }
  let votes := 1 -- Self-vote
  let majority := n.clusterNodes.length / 2 + 1
  if votes ≥ majority then (true, { n with role := .leader, leaderId := some n.nodeId })
  else (false, n)

end

end RaftNode

end Lumi.Raft
