import Mathlib.Data.Rat.Floor
import Lumi.Lib.PosixPath

/-!
# Scheduled tool calls

What a `ToolExecutionScheduler` knows of a call before it runs: whether it mutates, whether it is
a global command, and the paths it targets.  `dependsOn` is the relation by which
`executeReadyCalls` lets a call wait for an earlier one.

The parser of raw arguments is one the scheduler is given, and the registry one it is called with.
-/

namespace Lumi.Tools

open Js

/-- A parsed argument, as far as resources are read from it. -/
inductive ArgValue
  | string (s : Text)
  | array (items : List ArgValue)
  | object (fields : List (Text × ArgValue))
  | other

abbrev Args := List (Text × ArgValue)

inductive CallArgs
  | record (args : Args)
  | raw (input : Text)

structure ScheduledToolCall where
  id : Text
  name : Text
  args : CallArgs

structure ToolDefinition where
  isMutating : Option Bool

/-- `getTool` of a tool registry. -/
abbrev ToolRegistry := Text → Option ToolDefinition

structure SchedulerOptions where
  maxConcurrency : Option Number
  allowParallelDisjointMutations : Option Bool

/-- A finite request for concurrency is rounded down, and at least 1. -/
def normalizeConcurrency (requested : Option Number) (fallback : ℕ) : ℕ :=
  match requested with
  | some (.finite q) => max 1 ⌊q⌋.toNat
  | _ => fallback

structure ToolExecutionScheduler where
  parseRawArguments : Text → Args
  defaultMaxConcurrency : ℕ
  positive : 0 < defaultMaxConcurrency

theorem normalizeConcurrency_pos {requested : Option Number} {fallback : ℕ} (h : 0 < fallback) :
    0 < normalizeConcurrency requested fallback := by
  unfold normalizeConcurrency
  split
  · exact Nat.lt_of_lt_of_le Nat.zero_lt_one (Nat.le_max_left _ _)
  · exact h

/-- What a call targets. -/
structure Target where
  mutating : Bool
  global : Bool
  resources : List Text

/-- The paths an argument names, if it is a string. -/
def ArgValue.string? : ArgValue → Option Text
  | .string s => some s
  | _ => none

namespace ToolExecutionScheduler

def new (parseRawArguments : Text → Args) (maxConcurrency : Option Number) :
    ToolExecutionScheduler where
  parseRawArguments := parseRawArguments
  defaultMaxConcurrency := normalizeConcurrency (some (maxConcurrency.getD (.finite 16))) 16
  positive := normalizeConcurrency_pos (by decide)

variable [Host] (scheduler : ToolExecutionScheduler) (registry : ToolRegistry)
  (options : SchedulerOptions) (processCwd cwd : Text)

def maxConcurrency : ℕ :=
  normalizeConcurrency options.maxConcurrency scheduler.defaultMaxConcurrency

omit [Host] in
theorem maxConcurrency_pos : 0 < scheduler.maxConcurrency options :=
  normalizeConcurrency_pos scheduler.positive

/-- A path as it is, or below the working directory. -/
def locate (path : Text) : Text :=
  if PosixPath.isAbsolute path then PosixPath.normalize path
  else PosixPath.normalize (PosixPath.join [cwd, path])

/-- The path a file of the argument `files` names. -/
def fileResource : ArgValue → Option Text
  | .string s => some (locate cwd s)
  | .object fields => ((fields.lookup (text "path")).bind ArgValue.string?).map (locate cwd)
  | _ => none

def extractTargetResources (call : ScheduledToolCall) : List Text :=
  let rawArgs := match call.args with
    | .raw input => scheduler.parseRawArguments input
    | .record args => args
  let named (key : Text) : Option Text := (rawArgs.lookup key).bind ArgValue.string?
  let items (key : Text) : List ArgValue :=
    match rawArgs.lookup key with
    | some (.array items) => items
    | _ => []
  let pathCandidate := (((named (text "path")).or (named (text "filePath"))).or
    (named (text "targetFile"))).or (named (text "targetPath"))
  let directories := (named (text "directory")).toList ++ (named (text "dir")).toList
    ++ (items (text "paths")).filterMap ArgValue.string?
  (pathCandidate.filter (· ≠ [])).toList.map (locate cwd)
    ++ (named (text "source")).toList.map (locate cwd)
    ++ (named (text "target")).toList.map (locate cwd)
    ++ directories.map (fun value => PosixPath.resolve processCwd [cwd, value])
    ++ (items (text "files")).filterMap (fileResource cwd)

def mutatingWords : List Text :=
  ["write", "replace", "delete", "create", "remove", "move", "edit", "append", "exec",
    "run_command", "terminal", "bash"].map text

def isKnownMutatingTool (name : Text) : Bool :=
  mutatingWords.any fun word => includes (toLowerCase name) word

/-- Does the tool of a call mutate? -/
def isMutating (call : ScheduledToolCall) : Bool :=
  ((registry call.name).bind ToolDefinition.isMutating == some true)
    || isKnownMutatingTool call.name

def globalTools : List Text :=
  ["run_command", "terminal", "bash", "delegate_task", "delegate_batch", "delegate_abort"].map text

def target (call : ScheduledToolCall) : Target where
  mutating := isMutating registry call
  global := globalTools.contains call.name
  resources := scheduler.extractTargetResources processCwd cwd call

/-! ## Dependencies -/

/-- `right` is `left`, or lies below it. -/
def overlaps (left right : Text) : Bool :=
  let relative := PosixPath.relative processCwd left right
  relative = []
    || (!PosixPath.isAbsolute relative && relative ≠ PosixPath.dotDot
      && !startsWith relative (text "../"))

/-- Does a call with this target wait for an earlier call with that one? -/
def dependsOn (target prior : Target) : Bool :=
  (target.mutating || prior.mutating || target.global || prior.global)
    && (target.global || prior.global || options.allowParallelDisjointMutations == some false
      || target.resources.isEmpty || prior.resources.isEmpty
      || target.resources.any fun resource => prior.resources.any fun other =>
          overlaps processCwd resource other || overlaps processCwd other resource)

omit [Host] in
/-- One path leads into the other exactly if its segments begin those of the other. -/
theorem overlaps_iff {left right : Text} : overlaps processCwd left right = true
    ↔ PosixPath.resolveSegments processCwd [left]
      <+: PosixPath.resolveSegments processCwd [right] := by
  rw [← PosixPath.relative_stays_iff, overlaps]
  simp only [Bool.or_eq_true, Bool.and_eq_true, Bool.not_eq_true', decide_eq_true_eq, and_assoc]

end ToolExecutionScheduler

end Lumi.Tools
