import Lumi.Lib.Decimal
import Lumi.Lib.InsertionMap
import Lumi.Lib.PosixPath
import Lumi.Mutation.GovernedPatch

/-!
# Governed mutations

The calls of `NativeMutationManager` on one workspace.  A call runs up to its next `await`, and
other calls go on before it is resumed.  What it awaits happens when it is resumed: one file is
read, hashed or written, or one observation is made of what is not modelled (whether a path lies
in the workspace, the head of the repository, the exit code of a command, the clock).

The state of the manager stands in `.dietcode/mutation-state.json`, and every call that changes it
writes it as a whole.
-/

namespace Lumi.Mutation

open Js PosixPath

structure CoherenceToken where
  tokenId : Text
  taskId : Text
  workspaceRevision : ℕ
  verifyRevision : ℕ
  anchors : InsertionMap Text Text
  createdAt : ℤ
  expiresAt : ℤ

structure MutationState where
  workspaceRevision : ℕ
  verifyRevision : ℕ
  contextRefreshId : ℕ
  trackedFileHashes : InsertionMap Text Text
  coherenceTokens : InsertionMap Text CoherenceToken
  anchorGitHead : Option Text
  anchorRefreshedAt : Option ℤ
  lastVerifiedCommand : Option Text
  lastVerifiedAt : Option ℤ
  lastVerifyPassed : Option Bool

/-- What is read where the file has no state. -/
def MutationState.fresh : MutationState :=
  ⟨1, 0, 1, .empty, .empty, none, none, none, none, none⟩

/-- The content of a file; a state is written as its JSON text. -/
inductive Content
  | text (s : Text)
  | state (s : MutationState)

/-- What the calls are given: directories, the file that a path leads to, hashes, JSON. -/
structure MutationHost where
  cwd : Text
  workspace : Text
  realpath : Text → Text
  sha256 : Text → Text
  stringify : MutationState → Text
  parse : Text → Option MutationState

/-- The files that exist, by their real paths. -/
abbrev Files := Text → Option Content

/-! ## Files -/

namespace MutationHost

variable (h : MutationHost)

/-- `path.resolve(workspace, filePath)`, as the file that it leads to. -/
def fileAt (filePath : Text) : Text := h.realpath (resolve h.cwd [h.workspace, filePath])

def stateFile : Text :=
  h.realpath (resolve h.cwd
    [join [h.workspace, text ".dietcode", text "mutation-state.json"]])

def contentText : Content → Text
  | .text s => s
  | .state s => h.stringify s

/-- `content.replace(/\r\n/g, "\n")`. -/
def normalizeBreaks : Text → Text
  | 0xD :: 0xA :: rest => 0xA :: normalizeBreaks rest
  | c :: rest => c :: normalizeBreaks rest
  | [] => []

def getNormalizedHash (content : Text) : Text := h.sha256 (normalizeBreaks content)

/-- The hash of a file, or the empty text if there is none. -/
def getFileHash (files : Files) (file : Text) : Text :=
  match files file with
  | some content => h.getNormalizedHash (h.contentText content)
  | none => []

/-- The state that a content is read as. -/
def parseState : Content → Option MutationState
  | .text s => h.parse s
  | .state s => some s

def readMutationState (files : Files) : MutationState :=
  match (files h.stateFile).bind h.parseState with
  | some state => if state.workspaceRevision = 0 then .fresh else state
  | none => .fresh

end MutationHost

/-! ## Changes of the state -/

namespace MutationState

section

variable (state : MutationState)

def setAnchor (tokenId relPath hash : Text) : MutationState :=
  match state.coherenceTokens.get? tokenId with
  | none => state
  | some token =>
    { state with
      coherenceTokens := state.coherenceTokens.set tokenId
        { token with anchors := token.anchors.set relPath hash } }

/-- The token of a task: the one that it has, renewed, or a new one. -/
def issue (taskId : Text) (now : ℤ) : Text × MutationState :=
  let existing := state.coherenceTokens.entries.find? fun entry => entry.2.taskId = taskId
  match existing.filter fun entry => entry.1 ≠ [] with
  | some (tokenId, token) =>
    (tokenId, { state with
      coherenceTokens := state.coherenceTokens.set tokenId
        { token with
          workspaceRevision := state.workspaceRevision
          verifyRevision := state.verifyRevision
          expiresAt := now + 300000 } })
  | none =>
    let tokenId := text "coh_" ++ decimal (state.coherenceTokens.size + 1)
    (tokenId, { state with
      coherenceTokens := state.coherenceTokens.set tokenId
        ⟨tokenId, taskId, state.workspaceRevision, state.verifyRevision, .empty, now,
          now + 300000⟩ })

/-- A path is hashed for a token. -/
def anchor (tokenId relPath hash : Text) : MutationState :=
  if hash = [] then state
  else
    { state.setAnchor tokenId relPath hash with
      trackedFileHashes := state.trackedFileHashes.set relPath hash }

/-- A task has read a file. -/
def track (taskId relPath hash : Text) : MutationState :=
  { state with
    trackedFileHashes := state.trackedFileHashes.set relPath hash
    coherenceTokens := state.coherenceTokens.map fun _ token =>
      if token.taskId = taskId then { token with anchors := token.anchors.set relPath hash }
      else token }

def verified (command : Text) (passed : Bool) (now : ℤ) : MutationState :=
  { state with
    verifyRevision := if passed then state.verifyRevision + 1 else state.verifyRevision
    lastVerifiedCommand := some command
    lastVerifiedAt := some now
    lastVerifyPassed := some passed }

/-- The change that `recordMutationReceipt` makes. -/
def recorded (path postContentHash : Text) : MutationState :=
  { state with
    workspaceRevision := state.workspaceRevision + 1
    trackedFileHashes := state.trackedFileHashes.set path postContentHash
    coherenceTokens := state.coherenceTokens.map fun _ token =>
      { token with anchors := token.anchors.set path postContentHash } }

end

end MutationState

/-! ## Patches -/

inductive PatchError
  | bridgeWorkspaceUnsafe
  | fileNotFound
  | tokenRequired
  | tokenUnknown
  | tokenExpired
  | tokenTaskMismatch
  | workspaceChanged
  | verifyRevisionStale
  | coherenceMismatch (changedPaths : List Text)
  | patchInvalid
  | patchApplyError

structure PatchCall where
  filePath : Text
  request : PatchRequest
  taskId : Text
  coherenceTokenId : Option Text
  expectedWorkspaceRevision : Option ℕ

/-- What a patch awaits, with what it has read before; or what it has answered. -/
inductive PatchStage
  | checkingPath
  | checkingExistence
  | validating
  | hashingAnchors (anchors : List (Text × Text)) (changedPaths : List Text)
  | readingFile
  | writingFile (postContent : Text)
  | readingRevision (postContent : Text)
  | readingRecord (postContent : Text) (revisionBefore : ℕ)
  | writingRecord (state : MutationState) (revisionBefore : ℕ)
  | refused (error : PatchError)
  | unchanged
  | patched (revisionBefore revisionAfter : ℕ)

/-- What a resumed call leaves on the disk. -/
inductive Effect
  | none
  | writeState (state : MutationState)
  | writeFile (file content : Text)

/-- What a resumed call may observe. -/
structure Observation where
  inWorkspace : Bool
  gitHead : Text
  exitCode : ℤ
  now : ℤ

/-- The rest of the loop over the anchors. -/
def hashAnchors (anchors : List (Text × Text)) (changedPaths : List Text) : PatchStage :=
  if anchors ≠ [] then .hashingAnchors anchors changedPaths
  else if changedPaths = [] then .readingFile
  else .refused (.coherenceMismatch changedPaths)

namespace PatchCall

/-- The checks of `validateCoherence` on the state, up to the anchors. -/
def validateCoherence (call : PatchCall) (state : MutationState) (now : ℤ) : PatchStage :=
  match call.coherenceTokenId.filter (· ≠ []), call.expectedWorkspaceRevision with
  | some coherenceTokenId, some expectedWorkspaceRevision =>
    match state.coherenceTokens.get? coherenceTokenId with
    | none => .refused .tokenUnknown
    | some token =>
      if now > token.expiresAt then .refused .tokenExpired
      else if token.taskId ≠ call.taskId then .refused .tokenTaskMismatch
      else if expectedWorkspaceRevision ≠ state.workspaceRevision then
        .refused .workspaceChanged
      else if token.verifyRevision ≠ state.verifyRevision then .refused .verifyRevisionStale
      else hashAnchors token.anchors.entries []
  | _, _ => .refused .tokenRequired

variable (h : MutationHost) (files : Files) (o : Observation) (call : PatchCall)

def resume : PatchStage → PatchStage × Effect
  | .checkingPath =>
    (if o.inWorkspace then .checkingExistence else .refused .bridgeWorkspaceUnsafe, .none)
  | .checkingExistence =>
    (match files (h.fileAt call.filePath) with
      | none => .refused .fileNotFound
      | some _ => if call.taskId = [] then .readingFile else .validating, .none)
  | .validating => (call.validateCoherence (h.readMutationState files) o.now, .none)
  | .hashingAnchors [] changedPaths => (hashAnchors [] changedPaths, .none)
  | .hashingAnchors ((relPath, anchorHash) :: anchors) changedPaths =>
    let currentHash := h.getFileHash files (h.fileAt relPath)
    (hashAnchors anchors
      (if anchorHash ≠ [] ∧ currentHash ≠ [] ∧ anchorHash ≠ currentHash
        then changedPaths ++ [relPath] else changedPaths), .none)
  | .readingFile =>
    (match files (h.fileAt call.filePath) with
      | none => .refused .patchApplyError
      | some content =>
        match computePatch (h.contentText content) call.request with
        | .invalid => .refused .patchInvalid
        | .unchanged => .unchanged
        | .written postContent => .writingFile postContent, .none)
  | .writingFile postContent =>
    (.readingRevision postContent, .writeFile (h.fileAt call.filePath) postContent)
  | .readingRevision postContent =>
    (.readingRecord postContent (h.readMutationState files).workspaceRevision, .none)
  | .readingRecord postContent revisionBefore =>
    (.writingRecord ((h.readMutationState files).recorded call.filePath
      (h.getNormalizedHash postContent)) revisionBefore, .none)
  | .writingRecord state revisionBefore =>
    (.patched revisionBefore (revisionBefore + 1), .writeState state)
  | stage => (stage, .none)

end PatchCall

/-! ## The other calls -/

inductive Request
  | applyPatch (call : PatchCall)
  | issueCoherenceToken (taskId : Text) (paths : List Text)
  | autoTrackFileRead (filePath taskId : Text)
  | applyVerify (command : Text)

/-- A call, with what it awaits. -/
inductive Thread
  | patch (call : PatchCall) (stage : PatchStage)
  | issueReading (taskId : Text) (paths : List Text)
  | issueGit (paths : List Text) (tokenId : Text) (state : MutationState) (now : ℤ)
  | issueHashing (paths : List Text) (tokenId : Text) (state : MutationState)
  | trackChecking (filePath taskId : Text)
  | trackHashing (filePath taskId : Text)
  | trackReading (relPath taskId hash : Text)
  | verifyChecking (command : Text)
  | verifyRunning (command : Text)
  | verifyReading (command : Text) (passed : Bool)
  | writing (state : MutationState)
  | finished

/-- The loop of `issueCoherenceToken` over the paths. -/
def hashPaths (paths : List Text) (tokenId : Text) (state : MutationState) : Thread :=
  if paths ≠ [] then .issueHashing paths tokenId state else .writing state

/-- `[...new Set([...paths, ...Object.keys(state.trackedFileHashes)])]`, without empty paths. -/
def pathsToAnchor (paths : List Text) (state : MutationState) : List Text :=
  (InsertionMap.ofList ((paths ++ state.trackedFileHashes.keys).map (·, ()))).keys.filter (· ≠ [])

/-- A call up to its first `await`. -/
def Request.start : Request → Thread
  | applyPatch call => .patch call .checkingPath
  | issueCoherenceToken taskId paths => .issueReading taskId paths
  | autoTrackFileRead filePath taskId =>
    if taskId = [] then .finished else .trackChecking filePath taskId
  | applyVerify command => .verifyChecking command

namespace Thread

variable (h : MutationHost) (files : Files) (o : Observation)

def resume : Thread → Thread × Effect
  | patch call stage =>
    let (stage, effect) := call.resume h files o stage
    (patch call stage, effect)
  | issueReading taskId paths =>
    let (tokenId, state) := (h.readMutationState files).issue taskId o.now
    if (state.anchorGitHead.getD []) = [] then (issueGit paths tokenId state o.now, .none)
    else (hashPaths (pathsToAnchor paths state) tokenId state, .none)
  | issueGit paths tokenId state now =>
    let state := { state with anchorGitHead := some o.gitHead, anchorRefreshedAt := some now }
    (hashPaths (pathsToAnchor paths state) tokenId state, .none)
  | issueHashing [] tokenId state => (hashPaths [] tokenId state, .none)
  | issueHashing (relPath :: paths) tokenId state =>
    (hashPaths paths tokenId
      (state.anchor tokenId relPath (h.getFileHash files (h.fileAt relPath))), .none)
  | trackChecking filePath taskId =>
    (if o.inWorkspace then trackHashing filePath taskId else finished, .none)
  | trackHashing filePath taskId =>
    let relPath := relative h.cwd h.workspace (resolve h.cwd [h.workspace, filePath])
    let currentHash := h.getFileHash files (h.fileAt filePath)
    (if currentHash = [] then finished else trackReading relPath taskId currentHash, .none)
  | trackReading relPath taskId hash =>
    (writing ((h.readMutationState files).track taskId relPath hash), .none)
  | verifyChecking command =>
    (if o.inWorkspace then verifyRunning command else finished, .none)
  | verifyRunning command => (verifyReading command (o.exitCode = 0), .none)
  | verifyReading command passed =>
    (writing ((h.readMutationState files).verified command passed o.now), .none)
  | writing state => (finished, .writeState state)
  | finished => (finished, .none)

end Thread

/-! ## Interleavings -/

structure System where
  files : Files
  calls : List Thread

inductive Action
  | start (request : Request)
  | resume (i : ℕ) (o : Observation)
  /-- Something else writes a file. -/
  | edit (file content : Text)

def Files.write (files : Files) (file : Text) (content : Content) : Files :=
  Function.update files file (some content)

namespace System

variable (h : MutationHost)

def perform (files : Files) : Effect → Files
  | .none => files
  | .writeState state => files.write h.stateFile (.state state)
  | .writeFile file content => files.write file (.text content)

def step (s : System) : Action → System
  | .start request => { s with calls := s.calls ++ [request.start] }
  | .resume i o =>
    match s.calls[i]? with
    | none => s
    | some thread =>
      let (thread, effect) := thread.resume h s.files o
      ⟨perform h s.files effect, s.calls.set i thread⟩
  | .edit file content => { s with files := s.files.write file (.text content) }

/-- `getWorkspaceRevision`. -/
def revision (s : System) : ℕ := (h.readMutationState s.files).workspaceRevision

end System

end Lumi.Mutation
