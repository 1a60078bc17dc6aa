import Lumi.ApplyPatch.Placement
import Lumi.BTree.Refinement
import Lumi.Cas.Bisect
import Lumi.Cas.Bundle
import Lumi.Cas.Delta
import Lumi.Cas.Head
import Lumi.Cas.Rebase
import Lumi.Cas.TreeHash
import Lumi.Context.Truncation
import Lumi.Credential.CircuitBreaker
import Lumi.Db.CascadingDelete
import Lumi.Db.Expiry
import Lumi.Db.Pruning
import Lumi.Db.ReferentialDelete
import Lumi.Db.UndoRedo
import Lumi.Io.Overtaking
import Lumi.Kernel.Rollback
import Lumi.Lifecycle.AttachedChildren
import Lumi.Lifecycle.CancellationFence
import Lumi.Locks.BatchRollback
import Lumi.Locks.DeadlockDetection
import Lumi.Locks.MutualExclusion
import Lumi.Locks.QueueDiscipline
import Lumi.Locks.Reconciliation
import Lumi.Lsm.Collation
import Lumi.Mutation.OptimisticConcurrency
import Lumi.Mvcc.Rollback
import Lumi.Mvcc.Snapshot
import Lumi.Mvcc.Vacuum
import Lumi.Permissions.CommandPermissionController
import Lumi.Pool.Consistency
import Lumi.Raft.Election
import Lumi.Raft.Replication
import Lumi.Scrubber.HiddenText
import Lumi.SearchReplace.Necessity
import Lumi.SearchReplace.Streaming
import Lumi.Siblings.Conflicts
import Lumi.Siblings.Serialisable
import Lumi.Storage.WriteCoalescer
import Lumi.Subagent.Deadlocks
import Lumi.Subagent.RetrySafety
import Lumi.Substrate.BroccoliCdcStream
import Lumi.Substrate.BroccoliSagaOrchestrator
import Lumi.Substrate.HashRingHistory
import Lumi.Substrate.PhraseSearch
import Lumi.Substrate.PostingLists
import Lumi.Substrate.SnowflakeIdGenerator
import Lumi.Substrate.TieredCacheCoherence
import Lumi.Substrate.ViewMaintenance
import Lumi.Sync.Reentrancy
import Lumi.Sync.Waiters
import Lumi.Tools.Batch
import Lumi.Tools.InferredDependencies
import Lumi.TwoPhase.Coordinator
import Lumi.Undo.Checkpoints
import Lumi.Unified.Contiguous
import Lumi.V4a.Agreement
import Lumi.V4a.Application
import Lumi.Subagent.RoadmapPatchReconciler
import Lumi.Sessions.SubagentVfsBrancher
