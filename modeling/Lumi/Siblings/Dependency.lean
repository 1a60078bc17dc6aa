import Mathlib.Data.List.Induction
import Lumi.Lib.Decimal
import Lumi.Lib.PosixPath

/-!
# Dependencies between sibling tool calls

`buildSiblingToolDependencyModel` turns the tool blocks of a message into nodes with edges to
earlier nodes: a block waits for those it names, for those whose result it refers to, for all if it
completes the task, and for those whose resource claims conflict with its own.

What the file system says of a path, and what is known of a command, is asked of the host.
-/

namespace Lumi.Siblings

open Js List

inductive SiblingResourceAccess
  | read
  | write
  deriving DecidableEq

inductive SiblingResourceKind
  | path
  | workspace
  | environment
  | approval
  | external
  | completion
  | presentation
  deriving DecidableEq

structure SiblingResourceClaim where
  key : Text
  access : SiblingResourceAccess
  kind : SiblingResourceKind
  deriving DecidableEq

inductive SiblingToolCategory
  | query
  | mutation
  | command
  | approval
  | external
  | completion
  | unknown
  deriving DecidableEq

/-- A tool block; of `depends_on`, the entries that are strings. -/
structure ToolUse where
  name : Text
  params : List (Text × Text)
  callId : Option Text
  dependsOn : List Text

inductive SiblingDependencyKind
  | conflict
  | prerequisite
  | barrier
  deriving DecidableEq

inductive SiblingDependencyReason
  | resourceOverlap
  | explicitDependency
  | resultReference
  | completionBarrier
  deriving DecidableEq

structure SiblingDependencyEdge where
  sequence : ℕ
  kind : SiblingDependencyKind
  reason : SiblingDependencyReason
  deriving DecidableEq

structure SiblingToolDependencyNode where
  id : Text
  sequence : ℕ
  block : ToolUse
  category : SiblingToolCategory
  claims : List SiblingResourceClaim
  dependsOn : List ℕ
  dependencyEdges : List SiblingDependencyEdge
  capturePresentation : Bool
  requiresCheckpoint : Bool
  requiresAssistantHistory : Bool

structure SiblingDependencyModelOptions where
  workspaceLocalBySequence : Option (List Bool) := none
  invocationPrefix : Text := text "sibling"
  canonicalTargetBySequence : List (Option Text) := []
  scratchpadReadCreates : Bool := true

/-- The file system and the classifier of commands. -/
structure SiblingHost where
  processCwd : Text
  /-- the canonical path of a file that exists -/
  realpath : Text → Option Text
  isReadOnlyVerificationCommand : Text → Bool

def ioAuthorityTools : List Text :=
  [text "read_file", text "list_files", text "search_files", text "list_code_definition_names",
    text "diagnose_stability"]

def localMutationTools : List Text :=
  [text "write_to_file", text "replace_in_file", text "new_rule", text "apply_patch",
    text "dietcode_kernel"]

def externalTools : List Text :=
  [text "browser_action", text "use_mcp_tool", text "access_mcp_resource", text "web_fetch",
    text "web_search"]

section

variable (host : SiblingHost) (cwd : Text)

/-- The longest part of a path that exists, canonical, and what is missing below it. -/
def existingPath (segments : List Text) : ℕ → Option Text
  | 0 => (host.realpath [PosixPath.slash]).map fun real => PosixPath.join (real :: segments)
  | k + 1 =>
    let cursor := PosixPath.slash :: joinWith [PosixPath.slash] (segments.take (k + 1))
    match host.realpath cursor with
    | some real => some (PosixPath.join (real :: segments.drop (k + 1)))
    | none => existingPath segments k

def normalizedPath (rawPath : Option Text) : Option Text :=
  let raw := trim (rawPath.getD [])
  if raw = [] then none
  else
    let segments := PosixPath.resolveSegments host.processCwd [cwd, raw]
    some ((existingPath host segments segments.length).getD
      (PosixPath.slash :: joinWith [PosixPath.slash] segments))

def normalizedTarget (block : ToolUse) : Option Text :=
  normalizedPath host cwd (block.params.lookup (text "path"))

/-- What `.` does not match. -/
def isLineTerminator (c : UInt16) : Bool := c = 0xA || c = 0xD || c = 0x2028 || c = 0x2029

/-- What a line of a patch names after one of its headers. -/
def patchTarget? (line : Text) : Option Text :=
  [text "Add File", text "Update File", text "Delete File", text "Move to"].findSome? fun header =>
    let marker := text "*** " ++ header ++ text ":"
    let rest := (trim line).drop marker.length
    let target := rest.dropWhile isWhiteSpace
    if startsWith (trim line) marker ∧ target.length < rest.length ∧ target ≠ []
        ∧ target.any isLineTerminator = false then some target
    else none

def mutationTargets (block : ToolUse) : List Text :=
  if block.name = text "apply_patch" then
    (((block.params.lookup (text "input")).map fun input => input.splitOn 0xA).getD []
      |>.filterMap fun line => normalizedPath host cwd (patchTarget? line)).eraseDups
  else (normalizedTarget host cwd block).toList

end

def invocationId (block : ToolUse) (sequence : ℕ) (invocationPrefix : Text) : Text :=
  let callId := trim (block.callId.getD [])
  if callId ≠ [] then callId else invocationPrefix ++ text "-" ++ decimal sequence

/-- The last segment of a path. -/
def basename (path : Text) : Text :=
  ((path.splitOn PosixPath.slash).filter (· ≠ [])).getLast?.getD []

def classifyCategory [Host] (block : ToolUse) (scratchpadReadCreates : Bool) :
    SiblingToolCategory :=
  let target := trim ((block.params.lookup (text "path")).getD [])
  if scratchpadReadCreates ∧ block.name = text "read_file" ∧ target ≠ []
      ∧ Host.toLowerCase (basename target) = text "scratchpad.md" then .mutation
  else if ioAuthorityTools.contains block.name then .query
  else if localMutationTools.contains block.name then .mutation
  else if block.name = text "execute_command" then .command
  else if block.name = text "ask_followup_question" then .approval
  else if block.name = text "attempt_completion" ∨ block.name = text "run_finalization" then
    .completion
  else if externalTools.contains block.name then .external
  else .unknown

def referencesResult (block : ToolUse) (invocationId : Text) : Bool :=
  if invocationId = [] ∨ startsWith invocationId (text "sibling-") then false
  else
    let markers := [text "tool_result:" ++ invocationId,
      text "\x7b\x7b" ++ invocationId ++ text "\x7d\x7d", text "$" ++ invocationId]
    block.params.any fun param => markers.any fun marker => includes param.2 marker

def interactivePresentation : SiblingResourceClaim :=
  ⟨text "interactive-presentation", .write, .presentation⟩

def claimsFor (host : SiblingHost) (block : ToolUse) (cwd : Text) (category : SiblingToolCategory)
    (canonicalTarget : Option Text) : List SiblingResourceClaim :=
  match category with
  | .query =>
    match canonicalTarget.or (normalizedTarget host cwd block) with
    | some target => if target ≠ [] then [⟨target, .read, .path⟩]
        else [⟨text "diagnostic:" ++ block.name, .read, .workspace⟩]
    | none => [⟨text "diagnostic:" ++ block.name, .read, .workspace⟩]
  | .mutation =>
    let targets := mutationTargets host cwd block
    (if targets ≠ [] then targets.map fun key => ⟨key, .write, .path⟩
      else [⟨text "workspace:*", .write, .workspace⟩])
    ++ [⟨text "workspace-mutation", .write, .workspace⟩, interactivePresentation]
  | .command =>
    if host.isReadOnlyVerificationCommand ((block.params.lookup (text "command")).getD []) then
      [⟨text "command-lane", .write, .environment⟩, ⟨text "workspace:*", .read, .workspace⟩,
        interactivePresentation]
    else [⟨text "command-environment", .write, .environment⟩,
      ⟨text "workspace:*", .write, .workspace⟩, interactivePresentation]
  | .approval => [⟨text "user-approval", .write, .approval⟩, interactivePresentation]
  | .external => [⟨text "external:" ++ block.name, .write, .external⟩, interactivePresentation]
  | .completion => [⟨text "task-completion", .write, .completion⟩]
  | .unknown => [⟨text "workspace:*", .write, .workspace⟩, interactivePresentation]

def pathsOverlap (left right : Text) : Bool :=
  left = right || startsWith left (right ++ [PosixPath.slash])
    || startsWith right (left ++ [PosixPath.slash])

def siblingClaimsConflict (left right : SiblingResourceClaim) : Bool :=
  if left.access = .read ∧ right.access = .read then false
  else if left.key = text "workspace:*" ∨ right.key = text "workspace:*" then true
  else if left.kind = .path ∧ right.kind = .path then pathsOverlap left.key right.key
  else left.key = right.key

def siblingNodesConflict (left right : SiblingToolDependencyNode) : Bool :=
  left.category = .completion || right.category = .completion
    || left.claims.any fun leftClaim => right.claims.any (siblingClaimsConflict leftClaim)

/-- The edge to an earlier node, if there is one. -/
def edgeTo (node previous : SiblingToolDependencyNode) : Option SiblingDependencyEdge :=
  if node.block.dependsOn.contains previous.id then
    some ⟨previous.sequence, .prerequisite, .explicitDependency⟩
  else if referencesResult node.block previous.id then
    some ⟨previous.sequence, .prerequisite, .resultReference⟩
  else if node.category = .completion then
    some ⟨previous.sequence, .barrier, .completionBarrier⟩
  else if siblingNodesConflict previous node then
    some ⟨previous.sequence, .conflict, .resourceOverlap⟩
  else none

section

variable [Host] (host : SiblingHost) (cwd : Text) (options : SiblingDependencyModelOptions)

/-- The node of a block, without its edges. -/
def isolatedNode (sequence : ℕ) (block : ToolUse) : SiblingToolDependencyNode :=
  let category := classifyCategory block options.scratchpadReadCreates
  let workspaceLocal :=
    ((options.workspaceLocalBySequence.bind fun locals => locals[sequence]?).getD true)
  let queryNeedsApproval := category = .query && !workspaceLocal
  let readOnlyVerificationCommand := category = .command
    && host.isReadOnlyVerificationCommand ((block.params.lookup (text "command")).getD [])
  { id := invocationId block sequence options.invocationPrefix
    sequence
    block
    category
    claims := claimsFor host block cwd category (options.canonicalTargetBySequence[sequence]?.join)
      ++ if queryNeedsApproval then
        [⟨text "user-approval", .write, .approval⟩, interactivePresentation] else []
    dependsOn := []
    dependencyEdges := []
    capturePresentation := category = .query && workspaceLocal
    requiresCheckpoint := category = .mutation
      || (category = .command && !readOnlyVerificationCommand) || category = .unknown
    requiresAssistantHistory := category ≠ .query || queryNeedsApproval }

/-- A node with its edges to the nodes before it. -/
def connect (nodes : List SiblingToolDependencyNode) (node : SiblingToolDependencyNode) :
    SiblingToolDependencyNode :=
  let edges := nodes.filterMap (edgeTo node)
  { node with dependencyEdges := edges, dependsOn := edges.map SiblingDependencyEdge.sequence }

def buildSiblingToolDependencyModel (blocks : List ToolUse) : List SiblingToolDependencyNode :=
  blocks.foldl (fun nodes block =>
    nodes ++ [connect nodes (isolatedNode host cwd options nodes.length block)]) []

end

/-! ## The edges lead back -/

/-- The nodes are numbered in their order, each waits for earlier ones only, and for all the
earlier ones that it conflicts with. -/
structure Connected (nodes : List SiblingToolDependencyNode) : Prop where
  sequence : ∀ (i : ℕ) (node : SiblingToolDependencyNode), nodes[i]? = some node → node.sequence = i
  earlier : ∀ node ∈ nodes, ∀ edge ∈ node.dependencyEdges, edge.sequence < node.sequence
  conflict : ∀ (i j : ℕ) left right, i < j → nodes[i]? = some left → nodes[j]? = some right →
    siblingNodesConflict left right → ∃ edge ∈ right.dependencyEdges, edge.sequence = i

theorem sequence_of_edgeTo {node previous : SiblingToolDependencyNode}
    {edge : SiblingDependencyEdge} (h : edgeTo node previous = some edge) :
    edge.sequence = previous.sequence := by
  unfold edgeTo at h
  split at h
  · exact Option.some.inj h ▸ rfl
  split at h
  · exact Option.some.inj h ▸ rfl
  split at h
  · exact Option.some.inj h ▸ rfl
  split at h
  · exact Option.some.inj h ▸ rfl
  · cases h

theorem edgeTo_of_conflict {node previous : SiblingToolDependencyNode}
    (h : siblingNodesConflict previous node) : ∃ edge, edgeTo node previous = some edge := by
  unfold edgeTo
  split
  · exact ⟨_, rfl⟩
  split
  · exact ⟨_, rfl⟩
  split
  · exact ⟨_, rfl⟩
  · exact ⟨_, rfl⟩

/-- A node conflicts with what it conflicts with, whatever its edges are. -/
theorem siblingNodesConflict_connect (nodes : List SiblingToolDependencyNode)
    (left right : SiblingToolDependencyNode) :
    siblingNodesConflict left (connect nodes right) = siblingNodesConflict left right := rfl

theorem connected_nil : Connected [] :=
  ⟨fun _ _ h => absurd h (by simp), fun _ h => absurd h not_mem_nil,
    fun _ _ _ _ _ h => absurd h (by simp)⟩

theorem Connected.concat {nodes : List SiblingToolDependencyNode} (h : Connected nodes)
    {node : SiblingToolDependencyNode} (hsequence : node.sequence = nodes.length) :
    Connected (nodes ++ [connect nodes node]) := by
  have hlast : ∀ j next, nodes.length ≤ j → (nodes ++ [connect nodes node])[j]? = some next →
      j = nodes.length ∧ next = connect nodes node := by
    intro j next hj hnext
    rw [getElem?_append_right hj, getElem?_singleton] at hnext
    split at hnext
    · exact ⟨by omega, (Option.some.inj hnext).symm⟩
    · cases hnext
  have hearlier : ∀ previous ∈ nodes, previous.sequence < nodes.length := by
    intro previous hprevious
    obtain ⟨i, hi⟩ := mem_iff_getElem?.mp hprevious
    rw [h.sequence i previous hi]
    exact (List.getElem?_eq_some_iff.mp hi).1
  constructor
  · intro i next hnext
    by_cases hlt : i < nodes.length
    · rw [getElem?_append_left hlt] at hnext
      exact h.sequence i next hnext
    · obtain ⟨rfl, rfl⟩ := hlast i next (by omega) hnext
      exact hsequence
  · intro next hnext edge hedge
    rcases mem_append.mp hnext with hold | hnew
    · exact h.earlier next hold edge hedge
    · obtain rfl := mem_singleton.mp hnew
      obtain ⟨previous, hprevious, heq⟩ := mem_filterMap.mp hedge
      rw [sequence_of_edgeTo heq]
      show previous.sequence < node.sequence
      rw [hsequence]
      exact hearlier previous hprevious
  · intro i j left right hij hi hj hconflict
    by_cases hlt : j < nodes.length
    · rw [getElem?_append_left hlt] at hj
      rw [getElem?_append_left (by omega)] at hi
      exact h.conflict i j left right hij hi hj hconflict
    · obtain ⟨rfl, rfl⟩ := hlast j right (by omega) hj
      rw [getElem?_append_left hij] at hi
      rw [siblingNodesConflict_connect] at hconflict
      obtain ⟨edge, hedge⟩ := edgeTo_of_conflict hconflict
      refine ⟨edge, mem_filterMap.mpr ⟨left, mem_of_getElem? hi, hedge⟩, ?_⟩
      rw [sequence_of_edgeTo hedge, h.sequence i left hi]

section

variable [Host] (host : SiblingHost) (cwd : Text) (options : SiblingDependencyModelOptions)

theorem buildSiblingToolDependencyModel_concat (blocks : List ToolUse) (block : ToolUse) :
    buildSiblingToolDependencyModel host cwd options (blocks ++ [block])
      = buildSiblingToolDependencyModel host cwd options blocks
        ++ [connect (buildSiblingToolDependencyModel host cwd options blocks)
          (isolatedNode host cwd options
            (buildSiblingToolDependencyModel host cwd options blocks).length block)] := by
  rw [buildSiblingToolDependencyModel, foldl_append]
  rfl

theorem connected_buildSiblingToolDependencyModel (blocks : List ToolUse) :
    Connected (buildSiblingToolDependencyModel host cwd options blocks) := by
  induction blocks using List.reverseRecOn with
  | nil => exact connected_nil
  | append_singleton blocks block ih =>
    rw [buildSiblingToolDependencyModel_concat]
    exact ih.concat rfl

/-- One node for each block, in their order. -/
theorem block_buildSiblingToolDependencyModel (blocks : List ToolUse) :
    (buildSiblingToolDependencyModel host cwd options blocks).map SiblingToolDependencyNode.block
      = blocks := by
  induction blocks using List.reverseRecOn with
  | nil => rfl
  | append_singleton blocks block ih =>
    rw [buildSiblingToolDependencyModel_concat, map_append, ih]
    rfl

end

end Lumi.Siblings
