import Lumi.Lib.ParentChain
import Lumi.Cas.Store

/-!
# History: ancestors, merges, picks, rebases, bundles and collection

The loops that follow parents run until they meet an id that is missing, empty or the one
they look for.  They need not end, as a parent is whatever id `createCommit` was given or
a bundle has.  A loop has no result then; the number of commits bounds the steps of one
that ends.
-/

namespace Lumi.Cas

open Js

/-- `diffCommits`, without its patch text. -/
structure DiffResult where
  added : List Text
  modified : List Text
  deleted : List Text

structure ConflictMarker where
  path : Text
  baseHash : Option Text
  oursHash : Text
  theirsHash : Text
  deriving DecidableEq

/-- `CheckpointMergeResult`, without the duration. -/
structure MergeResult where
  success : Bool
  mergedCommitId : Option Text
  conflicts : List Text
  conflictManifest : Option (List ConflictMarker)
  ancestorCommitId : Option Text
  deriving DecidableEq

/-- What a merge makes of one path: an entry of one of the sides, or nothing; or a conflict. -/
inductive PathMerge
  | take (entry : Option TreeEntry)
  | conflict
  deriving DecidableEq

/-- A blob of a bundle, its `base64` decoded. -/
structure BundleBlob where
  size : ℕ
  data : Bytes
  mimeType : Option Text
  deriving DecidableEq

/-- `GitBundlePayload` as it comes back from JSON, without the counts of its manifest. -/
structure GitBundlePayload where
  activeBranch : Text
  commits : List (Text × CheckpointNode)
  trees : InsertionMap Text (List TreeEntry)
  blobs : InsertionMap Text BundleBlob
  branches : List (Text × BranchRef)
  tags : List (Text × TagRef)

/-- The entries of a tree under their paths. -/
def entriesByPath (tree : List TreeEntry) : InsertionMap Text TreeEntry :=
  .ofList (tree.map fun e => (e.path, e))

/-- `new Set(keys)`, in its order. -/
def distinct (keys : List Text) : List Text := (InsertionMap.ofList (keys.map (·, ()))).keys

/-- One round of the loop in `mergeCheckpoints`; in a conflict our file is kept too, for a tree
that is never made. -/
def mergePath (entryO entryT entryB : Option TreeEntry) : PathMerge :=
  if entryO.map TreeEntry.hash = entryT.map TreeEntry.hash then .take entryO
  else if entryO.map TreeEntry.hash = entryB.map TreeEntry.hash ∧ entryT.isSome then .take entryT
  else if entryT.map TreeEntry.hash = entryB.map TreeEntry.hash ∧ entryO.isSome then .take entryO
  else .conflict

/-- The trees a merge compares. -/
structure MergeSides where
  ours : List TreeEntry
  theirs : List TreeEntry
  base : List TreeEntry

namespace MergeSides

variable (m : MergeSides)

/-- `allPaths`. -/
def allPaths : List Text :=
  distinct ((entriesByPath m.ours).keys ++ (entriesByPath m.theirs).keys ++
    (entriesByPath m.base).keys)

def merged (path : Text) : PathMerge :=
  mergePath ((entriesByPath m.ours).get? path) ((entriesByPath m.theirs).get? path)
    ((entriesByPath m.base).get? path)

def conflicts : List Text := m.allPaths.filter fun path => m.merged path = .conflict

def conflictMarkers : List ConflictMarker :=
  m.conflicts.map fun path =>
    let hash (tree : List TreeEntry) := ((entriesByPath tree).get? path).map TreeEntry.hash
    ⟨path, hash m.base, (hash m.ours).getD (text "empty"), (hash m.theirs).getD (text "empty")⟩

end MergeSides

namespace CasStore

/-! ## Ancestors -/

/-- The id a loop that follows parents goes on with. -/
def parentOf (s : CasStore) (commitId : Text) : Option Text :=
  truthy ((s.getCommit commitId).bind CheckpointNode.parentId)

/-- The loop from an id on, up to one at which `stop` holds: the ids on the way, and the id at
which it stopped. -/
def walk (s : CasStore) (stop : Text → Bool) (curr : Text) : Option (List Text × Option Text) :=
  -- as many steps as a walk that ends can take
  ParentChain.walk s.parentOf stop (s.commits.size + 2) (truthy (some curr))

/-- `findLowestCommonAncestor`, where it returns. -/
def findLowestCommonAncestor (s : CasStore) (commitAId commitBId : Text) : Option (Option Text) :=
  match s.walk (fun _ => false) commitAId with
  | none => none
  | some (ancestorsA, _) => (s.walk (fun id => decide (id ∈ ancestorsA)) commitBId).map Prod.snd

def diffCommits (s : CasStore) (commitAId commitBId : Text) : DiffResult :=
  let mapA := entriesByPath (s.treeOf (s.getCommit commitAId))
  let mapB := entriesByPath (s.treeOf (s.getCommit commitBId))
  { added := mapB.keys.filter fun path => (mapA.get? path).isNone
    modified := mapB.keys.filter fun path => (mapA.get? path).any fun a =>
      some a.hash ≠ (mapB.get? path).map TreeEntry.hash
    deleted := mapA.keys.filter fun path => (mapB.get? path).isNone }

variable [Runtime]

/-! ## Merges -/

/-- `treeBase`. -/
def baseTree (s : CasStore) (ancestorId : Option Text) : List TreeEntry :=
  match truthy ancestorId with
  | some id => (s.getTree (((s.getCommit id).map CheckpointNode.treeHash).getD [])).getD []
  | none => []

/-- `mergedFiles`, where there is no conflict. -/
def mergedFiles (s : CasStore) (m : MergeSides) : List FileInput :=
  m.allPaths.filterMap fun path =>
    match m.merged path with
    | .take (some e) => (s.getBlob e.hash).map fun blob => ⟨path, blob.data, some e.mode⟩
    | _ => none

section

variable (s : CasStore)

def mergeAncestor (oursId theirsId : Text) :
    Option Text → Option (Option Text)
  | some baseId => some (some baseId)
  | none => s.findLowestCommonAncestor oursId theirsId

/-- A merge, once the ancestor is known. -/
def mergeWith (draw : Draw) (oursId theirsId : Text) (commitOurs commitTheirs : CheckpointNode)
    (ancestorId : Option Text) : MergeResult × CasStore :=
  let m : MergeSides :=
    ⟨s.treeOf (some commitOurs), s.treeOf (some commitTheirs), s.baseTree ancestorId⟩
  if m.conflicts.length > 0 then
    (⟨false, none, m.conflicts, some m.conflictMarkers, ancestorId⟩, s)
  else
    let ours := (truthy commitOurs.branchName).getD (oursId.take 8)
    let theirs := (truthy commitTheirs.branchName).getD (theirsId.take 8)
    let (mergeCommitId, s) := s.createCommit draw
      (text "Merge branch '" ++ theirs ++ text "' into '" ++ ours ++ text "'")
      (s.mergedFiles m) (max commitOurs.frameIndex commitTheirs.frameIndex + 1) (some oursId)
      none none
    (⟨true, some mergeCommitId, [], none, ancestorId⟩, s)

/-- `mergeCheckpoints`, where it returns. -/
def mergeCheckpoints (draw : Draw) (oursId theirsId : Text)
    (baseId : Option Text) : Option (MergeResult × CasStore) :=
  match s.getCommit oursId, s.getCommit theirsId with
  | some commitOurs, some commitTheirs =>
    (s.mergeAncestor oursId theirsId baseId).map
      (s.mergeWith draw oursId theirsId commitOurs commitTheirs)
  | _, _ =>
    some (⟨false, none, [text "One or both commits not found"], none, none⟩, s)

/-! ## Cherry-picks, reverts, rebases and squashes -/

/-- The files of the branch, with what the commit added and modified, without what it deleted. -/
def pickedFiles (commitId : Text) (sourceCommit : CheckpointNode)
    (targetHeadCommit : Option CheckpointNode) : List FileInput :=
  let sourceParent := s.findCommit sourceCommit.parentId
  let diff := s.diffCommits ((sourceParent.map Prod.fst).getD []) commitId
  let sourceTree := s.treeOf (some sourceCommit)
  let changed := (diff.added ++ diff.modified).filterMap fun path =>
    (sourceTree.find? fun e => e.path = path).bind fun srcEntry =>
      (s.getBlob srcEntry.hash).map fun blob => ⟨path, blob.data, some srcEntry.mode⟩
  (diff.deleted.foldl InsertionMap.delete
    (byPath (s.filesOf (s.treeOf targetHeadCommit) ++ changed))).values

/-- `cherryPick`: the id of the new commit, if it succeeds. -/
def cherryPick (draw : Draw) (commitId targetBranchName : Text) : Option Text × CasStore :=
  match s.getCommit commitId, s.branches.get? targetBranchName with
  | some sourceCommit, some targetBranch =>
    let targetHeadCommit := s.getCommit targetBranch.commitId
    let (newCommitId, s) := s.createCommit draw
      (text "[cherry-pick " ++ commitId.take 7 ++ text "] " ++ sourceCommit.message)
      (s.pickedFiles commitId sourceCommit targetHeadCommit)
      ((targetHeadCommit.map CheckpointNode.frameIndex).getD 0 + 1)
      (targetHeadCommit.map fun _ => targetBranch.commitId) (some targetBranchName)
      (some sourceCommit.changeId)
    (some newCommitId, s)
  | _, _ => (none, s)

/-- `revert`: the id of the new commit, if it succeeds. -/
def revert (draw : Draw) (commitId : Text) : Option Text × CasStore :=
  match s.getCommit commitId with
  | none => (none, s)
  | some targetCommit =>
    let parent := s.findCommit targetCommit.parentId
    let (revertCommitId, s) := s.createCommit draw
      (text "Revert \"" ++ targetCommit.message ++ text "\" (undo " ++ commitId.take 7 ++
        text ")")
      (s.filesOf (s.treeOf (parent.map Prod.snd))) (targetCommit.frameIndex + 1) s.headId
      (some s.activeBranch) none
    (some revertCommitId, s)

end

/-- One round of the loop that replays commits, on the parent it starts from. -/
def replay (sourceBranchName : Text) (clock : ℕ → Draw) :
    ℕ → Text → CasStore → List CheckpointNode → Text × CasStore
  | _, newParentId, s, [] => (newParentId, s)
  | i, newParentId, s, c :: rest =>
    let (rebasedId, s) := s.createCommit (clock i) c.message
      (s.filesOf (s.treeOf (some c))) c.frameIndex (some newParentId) (some sourceBranchName)
      (some c.changeId)
    replay sourceBranchName clock (i + 1) rebasedId s rest

/-- The commits that `rebase` replays, the oldest first. -/
def commitsToReplay (s : CasStore) (sourceId ontoId : Text) : Option (List CheckpointNode) :=
  match s.findLowestCommonAncestor sourceId ontoId with
  | none => none
  | some lca =>
    (s.walk (fun id => some id = lca ∨ id = text "root") sourceId).map
      fun r => (r.1.filterMap s.getCommit).reverse

/-- `rebase`, where it returns: the new head of the branch and the number of commits replayed,
if both branches exist. -/
def rebase (s : CasStore) (clock : ℕ → Draw) (sourceBranchName ontoBranchName : Text) :
    Option (Option (Text × ℕ) × CasStore) :=
  match s.branches.get? sourceBranchName, s.branches.get? ontoBranchName with
  | some sourceBranch, some ontoBranch =>
    (s.commitsToReplay sourceBranch.commitId ontoBranch.commitId).map fun commits =>
      let (newParentId, s) :=
        replay sourceBranchName clock 0 ontoBranch.commitId s commits
      (some (newParentId, commits.length), { s with
        branches := s.branches.set sourceBranchName
          ⟨newParentId, sourceBranch.createdAt, (clock commits.length).now⟩ })
  | _, _ => some (none, s)

/-- `squash`: the id of the new commit, if it succeeds. -/
def squash (s : CasStore) (draw : Draw) (commitIds : List Text) (message : Text) :
    Option Text × CasStore :=
  match commitIds.getLast?.bind s.getCommit, commitIds.head?.bind s.getCommit with
  | some latestCommit, some oldestCommit =>
    let (squashedId, s) := s.createCommit draw message
      (s.filesOf (s.treeOf (some latestCommit))) latestCommit.frameIndex oldestCommit.parentId
      latestCommit.branchName (some latestCommit.changeId)
    (some squashedId, s)
  | _, _ => (none, s)

/-! ## Bundles -/

/-- A key that an object has as a property of its own after an assignment. -/
def ownProperty {α : Type*} (key : Text) (value : α) : Option α :=
  if key = text "__proto__" then none else some value

def exportGitBundle (s : CasStore) : GitBundlePayload :=
  { activeBranch := s.activeBranch
    commits := s.commits.entries
    trees := s.trees.filterMap ownProperty
    blobs := s.blobs.filterMap fun hash blob =>
      ownProperty hash ⟨blob.size, blob.data, blob.mimeType⟩
    branches := s.branches.entries
    tags := s.tags.entries }

def importBlob (blobs : InsertionMap Text CasBlob) (e : Text × BundleBlob) :
    InsertionMap Text CasBlob :=
  if (blobs.get? e.1).isSome then blobs
  else blobs.set e.1 ⟨e.2.size, e.2.data, e.2.mimeType, none⟩

def importCommit (s : CasStore) (e : Text × CheckpointNode) : CasStore :=
  if (s.commits.get? e.1).isSome then s
  else { s with
    commits := s.commits.set e.1 e.2
    changeIdToCommitMap := s.changeIdToCommitMap.set e.2.changeId e.1 }

def importGitBundle (s : CasStore) (payload : GitBundlePayload) : CasStore :=
  let s := { s with
    blobs := payload.blobs.entries.foldl importBlob s.blobs
    trees := payload.trees.entries.foldl (fun trees e => trees.set e.1 e.2) s.trees }
  let s := payload.commits.foldl importCommit s
  { s with
    branches := payload.branches.foldl (fun branches e => branches.set e.1 e.2) s.branches
    tags := payload.tags.foldl (fun tags e => tags.set e.1 e.2) s.tags
    activeBranch := if payload.activeBranch ≠ [] then payload.activeBranch else s.activeBranch }

/-! ## Collection -/

/-- The entries in the trees of the commits. -/
def committedEntries (s : CasStore) : List TreeEntry :=
  s.commits.values.flatMap fun commit => s.treeOf (some commit)

def reachableBlobs (s : CasStore) : List Text :=
  s.committedEntries.map TreeEntry.hash ++ s.stagingArea.values.map fun f => sha256 f.data

def reachableChunks (s : CasStore) : List Text :=
  s.committedEntries.flatMap fun e => e.chunkHashes.getD []

/-- `pruneOrphanBlobs`, without its counts. -/
def pruneOrphanBlobs (s : CasStore) : CasStore :=
  { s with
    blobs := s.blobs.filterMap fun hash blob =>
      if hash ∈ s.reachableBlobs then some blob else none
    chunks := s.chunks.filterMap fun hash chunk =>
      if hash ∈ s.reachableChunks then some chunk else none }

end CasStore

/-! ## Calls -/

/-- The calls of the public methods that change what is modelled. -/
inductive CasCall
  | putBlob (data : Bytes) (mimeType : Option Text)
  | putTree (files : List FileInput)
  | stageFile (path : Text) (data : Bytes) (mode now : ℕ)
  | unstageFile (path : Text)
  | clearStaging
  | createCommit (draw : Draw) (message : Text) (files : List FileInput) (frameIndex : ℕ)
      (parentId branchName existingChangeId : Option Text)
  | commitStaged (draw : Draw) (message : Text) (frameIndex : ℕ)
  | setHead (commitId : Text)
  | signCommit (commitId : Text) (privateKeyHex publicKeyHex : Option Text) (now : ℕ)
  | createBranch (name : Text) (commitId : Option Text) (now : ℕ)
  | switchBranch (name : Text)
  | createTag (name commitId : Text) (message : Option Text) (now : ℕ)
  | mergeCheckpoints (draw : Draw) (oursId theirsId : Text) (baseId : Option Text)
  | cherryPick (draw : Draw) (commitId targetBranchName : Text)
  | revert (draw : Draw) (commitId : Text)
  | rebase (clock : ℕ → Draw) (sourceBranchName ontoBranchName : Text)
  | squash (draw : Draw) (commitIds : List Text) (message : Text)
  | importGitBundle (payload : GitBundlePayload)
  | pruneOrphanBlobs
  | clear

/-- The store after a call; one that throws or does not return has changed nothing. -/
def CasStore.step [Runtime] (s : CasStore) : CasCall → CasStore
  | .putBlob data mimeType => (s.putBlob data mimeType).2
  | .putTree files => (s.putTree files).2
  | .stageFile path data mode now => s.stageFile path data mode now
  | .unstageFile path => s.unstageFile path
  | .clearStaging => s.clearStaging
  | .createCommit draw message files frameIndex parentId branchName existingChangeId =>
    (s.createCommit draw message files frameIndex parentId branchName existingChangeId).2
  | .commitStaged draw message frameIndex => (s.commitStaged draw message frameIndex).2
  | .setHead commitId => (s.setHead commitId).2
  | .signCommit commitId privateKeyHex publicKeyHex now =>
    (s.signCommit commitId privateKeyHex publicKeyHex now).getD s
  | .createBranch name commitId now => s.createBranch name commitId now
  | .switchBranch name => (s.switchBranch name).2
  | .createTag name commitId message now => s.createTag name commitId message now
  | .mergeCheckpoints draw oursId theirsId baseId =>
    ((s.mergeCheckpoints draw oursId theirsId baseId).map Prod.snd).getD s
  | .cherryPick draw commitId targetBranchName => (s.cherryPick draw commitId targetBranchName).2
  | .revert draw commitId => (s.revert draw commitId).2
  | .rebase clock sourceBranchName ontoBranchName =>
    ((s.rebase clock sourceBranchName ontoBranchName).map Prod.snd).getD s
  | .squash draw commitIds message => (s.squash draw commitIds message).2
  | .importGitBundle payload => s.importGitBundle payload
  | .pruneOrphanBlobs => s.pruneOrphanBlobs
  | .clear => .new

end Lumi.Cas
