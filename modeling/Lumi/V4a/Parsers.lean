import Lumi.Lib.PairSplit
import Lumi.Unified.Engine

/-!
# The two parsers of V4A patches

The patch engine and `DeterministicV4aPatch` each read V4A patches in a way of their own.
-/

namespace Lumi.V4a

open Js Unified

/-! ## V4A patches, as the patch engine parses them

`parseV4APatch` tells the lines of a patch apart by what is left of them without white space at
their ends, wherever they stand: a marker begins an operation, and any other line belongs to the
operation before it.  The lines of an update are cut into hunks at every line that begins with
`@@`.
-/

inductive OperationType
  | add
  | update
  | delete
  | move
  deriving DecidableEq

structure PatchOperation where
  type : OperationType
  filePath : Text
  newPath : Option Text
  hunks : List PatchHunk
  content : Option Text
  deriving DecidableEq

/-! ### Markers -/

/-- `s.split("->")`. -/
def splitArrows : Text → List Text := PairSplit.parts 0x2D 0x3E

/-- What a marker says. -/
inductive Marker
  | beginPatch
  | endPatch
  | operation (op : PatchOperation)
  deriving DecidableEq

/-- The operation that a line without white space at its ends begins. -/
def operation? (trimmed : Text) : Option PatchOperation :=
  if startsWith trimmed (text "*** Update File: ") then
    some ⟨.update, trim (trimmed.drop 17), none, [], none⟩
  else if startsWith trimmed (text "*** File: ") then
    some ⟨.update, trim (trimmed.drop 10), none, [], none⟩
  else if startsWith trimmed (text "*** Add File: ") then
    some ⟨.add, trim (trimmed.drop 14), none, [], some []⟩
  else if startsWith trimmed (text "*** Delete File: ") then
    some ⟨.delete, trim (trimmed.drop 17), none, [], none⟩
  else if startsWith trimmed (text "*** Move File: ") then
    let parts := (splitArrows (trimmed.drop 15)).map trim
    some ⟨.move, parts.headD [], parts[1]?, [], none⟩
  else none

def marker? (trimmed : Text) : Option Marker :=
  if trimmed = text "*** Begin Patch" then some .beginPatch
  else if trimmed = text "*** End Patch" then some .endPatch
  else (operation? trimmed).map .operation

/-! ### The parser -/

/-- The variables of `parseV4APatch`. -/
structure EngineParser where
  operations : List PatchOperation
  currentOp : Option PatchOperation
  currentHunks : List PatchHunk
  currentHunkLines : List PatchHunkLine
  currentContent : List Text

/-- A hunk without numbers: its counts are those of its lines. -/
def hunkOf (lines : List PatchHunkLine) : PatchHunk where
  oldStart := 1
  oldLines := (lines.filter fun l => l.linePrefix ≠ .plus).length
  newStart := 1
  newLines := (lines.filter fun l => l.linePrefix ≠ .minus).length
  lines := lines
  contextHint := none

namespace EngineParser

def start : EngineParser := ⟨[], none, [], [], []⟩

section

variable (p : EngineParser)

def flushHunk : EngineParser :=
  if p.currentHunkLines.length > 0 then
    { p with
      currentHunks := p.currentHunks ++ [hunkOf p.currentHunkLines]
      currentHunkLines := [] }
  else p

def flushOp : EngineParser :=
  let p := p.flushHunk
  match p.currentOp with
  | none => p
  | some op =>
    { p with
      operations := p.operations ++
        [if op.type = .add then { op with content := some (joinLines p.currentContent) }
          else { op with hunks := p.currentHunks }]
      currentOp := none
      currentHunks := []
      currentContent := [] }

/-- A line of an operation, that is no marker. -/
def readBody (line : Text) : EngineParser :=
  match p.currentOp with
  | none => p
  | some op =>
    match op.type with
    | .add =>
      { p with
        currentContent := p.currentContent ++
          [if startsWith line (text "+") then line.drop 1 else line] }
    | .update =>
      if startsWith line (text "@@") then p.flushHunk
      else { p with currentHunkLines := p.currentHunkLines ++ (Parser.hunkLine? line).toList }
    | .delete => p
    | .move => p

/-- One round of the loop in `parseV4APatch`. -/
def read (line : Text) : EngineParser :=
  match marker? (trim line) with
  | some .beginPatch => p
  | some .endPatch => p.flushOp
  | some (.operation op) => { p.flushOp with currentOp := some op }
  | none => p.readBody line

end

end EngineParser

/-- `DeterministicPatchEngine.parseV4APatch`. -/
def parseV4APatch (patchText : Text) : List PatchOperation :=
  ((splitBreaks patchText).foldl EngineParser.read .start).flushOp.operations

/-! ## V4A patches, as `DeterministicV4aPatch` parses them

The markers stand at the beginning of a line here, and are read by regular expressions in which
white space and case are free.  Each expression is a function from what is left of a line; where
it can match in several ways, the function tries them in the order of the expression.
-/

/-- The engine's hunk lines have the same two fields. -/
abbrev V4aHunkLine := PatchHunkLine

structure V4aHunk where
  contextHint : Option Text
  lines : List V4aHunkLine
  deriving DecidableEq

structure V4aPatchOperation where
  type : OperationType
  filePath : Text
  newPath : Option Text
  hunks : List V4aHunk
  content : Option Text
  deriving DecidableEq

structure V4aPatchParseResult where
  success : Bool
  operations : List V4aPatchOperation
  error : Option Text
  deriving DecidableEq

/-! ### Regular expressions -/

/-- What the flag `i` does to the letters of a pattern. -/
def foldCase (c : UInt16) : UInt16 := if 0x41 ≤ c && c ≤ 0x5A then c + 0x20 else c

section

variable (line : Text)

/-- `^\*\*\*\s*`. -/
def readStars : Option Text :=
  if startsWith line (text "***") then some ((line.drop 3).dropWhile isWhiteSpace) else none

/-- A word in any case; the pattern is given in lower case. -/
def readWord (word s : Text) : Option Text :=
  if (s.take word.length).map foldCase = word then some (s.drop word.length) else none

/-- `\s+`. -/
def readSpaces (s : Text) : Option Text :=
  let rest := s.dropWhile isWhiteSpace
  if rest.length < s.length then some rest else none

/-- `/^\*\*\*\s*first\s+second/i`. -/
def readMarker (first second line : Text) : Option Text := do
  let s ← readStars line
  let s ← readWord first s
  let s ← readSpaces s
  readWord second s

/-- `\s*(.+)$`.  Where all is white space, one of it is left for the group. -/
def readRest (s : Text) : Option Text :=
  match s.dropWhile isWhiteSpace with
  | [] => (s.getLast?.filter isInLine).map fun c => [c]
  | c :: rest => if (c :: rest).all isInLine then some (c :: rest) else none

/-- `\s*->\s*(.+)$`. -/
def readArrow (s : Text) : Option Text :=
  let s := s.dropWhile isWhiteSpace
  if startsWith s (text "->") then readRest (s.drop 2) else none

/-- `(.+?)\s*->\s*(.+)$`: the shortest source that is followed by an arrow. -/
def readSource (s : Text) : Option (Text × Text) :=
  (List.range s.length).findSome? fun n =>
    if (s.take (n + 1)).all isInLine then
      (readArrow (s.drop (n + 1))).map fun dest => (s.take (n + 1), dest)
    else none

/-- `\s*(.+?)\s*->\s*(.+)$`: the first group begins as late as it can. -/
def readMove (s : Text) : Option (Text × Text) :=
  (List.range ((s.takeWhile isWhiteSpace).length + 1)).reverse.findSome? fun k =>
    readSource (s.drop k)

/-- `line.match(/^@@\s*(.+?)\s*@@$/)`. -/
def hintOf : Option Text :=
  if startsWith line (text "@@") && endsWith line (text "@@") && 5 ≤ line.length then
    let between := (line.drop 2).take (line.length - 4)
    if trim between = [] then (between.reverse.find? isInLine).map fun c => [c]
    else if (trim between).all isInLine then some (trim between)
    else none
  else none

/-- `/^\*\*\*\s*Begin\s+Patch\s*$/i`. -/
def isBegin : Bool :=
  (readMarker (text "begin") (text "patch") line).any fun rest => rest.all isWhiteSpace

/-- `/^\*\*\*\s*End\s+Patch\s*$/i`. -/
def isEnd : Bool :=
  (readMarker (text "end") (text "patch") line).any fun rest => rest.all isWhiteSpace

/-- `/^\*\*\*\s*keyword\s+File:\s*(.+)$/i`. -/
def fileOf (keyword line : Text) : Option Text :=
  (readMarker keyword (text "file:") line).bind readRest

/-- `/^\*\*\*\s*Move\s+File:\s*(.+?)\s*->\s*(.+)$/i`. -/
def moveOf : Option (Text × Text) :=
  (readMarker (text "move") (text "file:") line).bind readMove

/-- The operation that a line begins. -/
def header? : Option V4aPatchOperation :=
  match fileOf (text "update") line with
  | some path => some ⟨.update, trim path, none, [], none⟩
  | none =>
    match fileOf (text "add") line with
    | some path => some ⟨.add, trim path, none, [], some []⟩
    | none =>
      match fileOf (text "delete") line with
      | some path => some ⟨.delete, trim path, none, [], none⟩
      | none =>
        (moveOf line).map fun groups => ⟨.move, trim groups.1, some (trim groups.2), [], none⟩

end

/-! ### The parser -/

/-- The variables of `parseV4aPatch`. -/
structure V4aParser where
  operations : List V4aPatchOperation
  currentOp : Option V4aPatchOperation
  currentHunk : Option V4aHunk
  currentHunkLines : List V4aHunkLine
  addLines : List Text

namespace V4aParser

def start : V4aParser := ⟨[], none, none, [], []⟩

def flushHunk (p : V4aParser) : V4aParser :=
  match p.currentOp with
  | none => p
  | some op =>
    if p.currentHunkLines.length > 0 then
      { p with
        currentOp := some { op with
          hunks := op.hunks ++ [⟨p.currentHunk.bind V4aHunk.contextHint, p.currentHunkLines⟩] }
        currentHunkLines := []
        currentHunk := none }
    else p

def flushOp (p : V4aParser) : V4aParser :=
  let p := p.flushHunk
  match p.currentOp with
  | none => p
  | some op =>
    if op.type = .add && p.addLines.length > 0 then
      { p with
        operations := p.operations ++ [{ op with content := some (joinLines p.addLines) }]
        currentOp := none
        addLines := [] }
    else { p with operations := p.operations ++ [op], currentOp := none }

/-- A line of an operation. -/
def readBody (p : V4aParser) (line : Text) : V4aParser :=
  match p.currentOp with
  | none => p
  | some op =>
    match op.type with
    | .add =>
      { p with
        addLines := p.addLines ++
          [if startsWith line (text "+") then line.drop 1
            else if startsWith line (text " ") then line.drop 1
            else line] }
    | .update =>
      match hintOf line with
      | some hint => { p.flushHunk with currentHunk := some ⟨some hint, []⟩ }
      | none =>
        { p with currentHunkLines := p.currentHunkLines ++ (Parser.hunkLine? line).toList }
    | .delete => p
    | .move => p

/-- One round of the second loop in `parseV4aPatch`. -/
def read (p : V4aParser) (line : Text) : V4aParser :=
  match header? line with
  | some op => { p.flushOp with currentOp := some op }
  | none => p.readBody line

end V4aParser

/-- The first loop in `parseV4aPatch`: the last beginning before the first end after it. -/
def findMarkers (startIdx : Option ℕ) : ℕ → List Text → Option ℕ × Option ℕ
  | _, [] => (startIdx, none)
  | i, line :: rest =>
    if isBegin line then findMarkers (some i) (i + 1) rest
    else if isEnd line && startIdx ≠ none then (startIdx, some i)
    else findMarkers startIdx (i + 1) rest

/-- `DeterministicV4aPatch.parseV4aPatch`. -/
def parseV4aPatch (patchContent : Text) : V4aPatchParseResult :=
  if patchContent = [] then ⟨false, [], some (text "Patch content is empty.")⟩
  else
    let lines := (splitLines patchContent).map stripReturn
    match findMarkers none 0 lines with
    | (none, _) => ⟨false, [], some (text "Missing '*** Begin Patch' marker.")⟩
    | (some _, none) => ⟨false, [], some (text "Missing '*** End Patch' marker.")⟩
    | (some startIdx, some endIdx) =>
      let patchLines := slice lines (startIdx + 1) endIdx
      ⟨true, (patchLines.foldl V4aParser.read .start).flushOp.operations, none⟩

end Lumi.V4a
