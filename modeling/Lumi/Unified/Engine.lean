import Lumi.Lib.JsText

/-!
# The engine of unified diffs

`parseUnifiedDiff` reads a diff line by line and tells its lines apart by how they begin; the
counts in the header of a hunk are read and kept, but not used.  `applyHunks` looks for the
old lines of each hunk in the file as the hunks before have left it: at the line number of
the header, then anywhere, then anywhere without white space at the ends.
-/

namespace Lumi.Unified

open Js

inductive LinePrefix
  | space
  | minus
  | plus
  deriving DecidableEq

structure PatchHunkLine where
  linePrefix : LinePrefix
  content : Text
  deriving DecidableEq

structure PatchHunk where
  oldStart : ℕ
  oldLines : ℕ
  newStart : ℕ
  newLines : ℕ
  lines : List PatchHunkLine
  contextHint : Option Text
  deriving DecidableEq

inductive PatchType
  | add
  | update
  | delete
  deriving DecidableEq

structure PatchOperation where
  type : PatchType
  filePath : Text
  hunks : List PatchHunk
  content : Option Text
  deriving DecidableEq

/-! ## Lines and headers -/

/-- The line without one carriage return at its end. -/
def stripReturn (line : Text) : Text := if line.getLast? = some 0xD then line.dropLast else line

/-- `s.split(/\r?\n/)`. -/
def splitBreaks (s : Text) : List Text :=
  let lines := splitLines s
  lines.dropLast.map stripReturn ++ lines.getLast?.toList

def isDigit (c : UInt16) : Bool := 0x30 ≤ c && c ≤ 0x39

/-- `parseInt` of decimal digits. -/
def numberOf (digits : Text) : ℕ := digits.foldl (fun n c => 10 * n + (c.toNat - 0x30)) 0

/-- `(\d+)`: the number, and what follows it. -/
def readNumber (s : Text) : Option (ℕ × Text) :=
  let digits := s.takeWhile isDigit
  if digits = [] then none else some (numberOf digits, s.dropWhile isDigit)

/-- `(\d+)(?:,(\d+))?`: a start and a count. -/
def readRange (s : Text) : Option (ℕ × Option ℕ × Text) :=
  (readNumber s).map fun r =>
    match r.2 with
    | [] => (r.1, none, [])
    | c :: rest =>
      if c = 0x2C then
        match readNumber rest with
        | some (count, rest) => (r.1, some count, rest)
        | none => (r.1, none, c :: rest)
      else (r.1, none, c :: rest)

/-- `\s+` and then `token`. -/
def readToken (token s : Text) : Option Text :=
  let rest := s.dropWhile isWhiteSpace
  if rest.length < s.length && startsWith rest token then some (rest.drop token.length) else none

/-- What `.` matches. -/
def isInLine (c : UInt16) : Bool := c ∉ [0xA, 0xD, 0x2028, 0x2029]

/-- The numbers and the hint of a header. -/
structure Header where
  oldStart : ℕ
  oldLines : ℕ
  newStart : ℕ
  newLines : ℕ
  contextHint : Option Text
  deriving DecidableEq

/-- `line.match(/^@@\s+-(\d+)(?:,(\d+))?\s+\+(\d+)(?:,(\d+))?\s+@@(.*)$/)`. -/
def readHeader (line : Text) : Option Header := do
  let s ← if startsWith line (text "@@") then some (line.drop 2) else none
  let s ← readToken (text "-") s
  let (oldStart, oldLines, s) ← readRange s
  let s ← readToken (text "+") s
  let (newStart, newLines, s) ← readRange s
  let hint ← readToken (text "@@") s
  if hint.all isInLine then
    some ⟨oldStart, oldLines.getD 1, newStart, newLines.getD 1, some (trim hint) |>.filter (· ≠ [])⟩
  else none

/-- `pathPart.replace(/^[ab]\//, "")`. -/
def stripSide : Text → Text
  | c :: d :: rest => if (c = 0x61 || c = 0x62) && d = 0x2F then rest else c :: d :: rest
  | s => s

def devNull : Text := text "/dev/null"

/-! ## The parser -/

/-- The variables of `parseUnifiedDiff`. -/
structure Parser where
  operations : List PatchOperation
  currentFile : Text
  currentType : PatchType
  isOldDevNull : Bool
  isNewDevNull : Bool
  oldFile : Text
  currentHunks : List PatchHunk
  currentHunkLines : List PatchHunkLine
  header : Header

namespace Parser

def start : Parser := ⟨[], [], .update, false, false, [], [], [], ⟨0, 0, 0, 0, none⟩⟩

def flushHunk (p : Parser) : Parser :=
  if p.currentHunkLines.length > 0 then
    { p with
      currentHunks := p.currentHunks ++ [⟨p.header.oldStart, p.header.oldLines, p.header.newStart,
        p.header.newLines, p.currentHunkLines, p.header.contextHint⟩]
      currentHunkLines := [] }
  else p

/-- The lines that the hunks add, as the content of a new file. -/
def addedContent (hunks : List PatchHunk) : Text :=
  joinLines ((hunks.flatMap PatchHunk.lines).filterMap fun l =>
    if l.linePrefix = .plus then some l.content else none) ++ [newline]

def flushFile (p : Parser) : Parser :=
  let p := p.flushHunk
  if p.currentFile ≠ [] && p.currentHunks.length > 0 then
    { p with
      operations := p.operations ++ [{
        type := p.currentType
        filePath := p.currentFile
        hunks := p.currentHunks
        content := if p.currentType = .add then some (addedContent p.currentHunks) else none }]
      currentHunks := []
      currentFile := []
      currentType := .update
      isOldDevNull := false
      isNewDevNull := false
      oldFile := [] }
  else p

/-- The line of a hunk that begins with a sign. -/
def hunkLine? : Text → Option PatchHunkLine
  | [] => none
  | c :: content =>
    if c = 0x20 then some ⟨.space, content⟩
    else if c = 0x2D then some ⟨.minus, content⟩
    else if c = 0x2B then some ⟨.plus, content⟩
    else none

/-- One round of the loop in `parseUnifiedDiff`. -/
def read (p : Parser) (line : Text) : Parser :=
  if startsWith line (text "--- ") then
    let p := p.flushFile
    let pathPart := trim (line.drop 4)
    { p with isOldDevNull := pathPart = devNull, oldFile := stripSide pathPart }
  else if startsWith line (text "+++ ") then
    let pathPart := trim (line.drop 4)
    let isNewDevNull := decide (pathPart = devNull)
    { p with
      isNewDevNull
      currentFile := if isNewDevNull then p.oldFile else stripSide pathPart
      currentType := if p.isOldDevNull then .add else if isNewDevNull then .delete else .update }
  else if startsWith line (text "@@ ") then
    let p := p.flushHunk
    { p with header := (readHeader line).getD p.header }
  else if p.currentFile ≠ [] then
    { p with currentHunkLines := p.currentHunkLines ++ (hunkLine? line).toList }
  else p

end Parser

def parseUnifiedDiff (diffText : Text) : List PatchOperation :=
  ((splitBreaks diffText).foldl Parser.read .start).flushFile.operations

/-! ## Application -/

/-- The lines with a blank or a minus. -/
def expectedOldLines (lines : List PatchHunkLine) : List Text :=
  lines.filterMap fun l => if l.linePrefix = .plus then none else some l.content

/-- The lines with a blank or a plus. -/
def replacementLines (lines : List PatchHunkLine) : List Text :=
  lines.filterMap fun l => if l.linePrefix = .minus then none else some l.content

/-- The lines of the file from `start` on are the expected ones, after each is read with `view`. -/
def matchAt (view : Text → Text) (fileLines : List Text) (start : ℕ) (expected : List Text) :
    Bool :=
  start + expected.length ≤ fileLines.length &&
    ((fileLines.drop start).take expected.length).map view = expected.map view

def linesMatch : List Text → ℕ → List Text → Bool := matchAt id

def linesMatchFuzzy : List Text → ℕ → List Text → Bool := matchAt trim

/-- The first place of a loop over the places where so many lines can stand. -/
def scan (fileLines expected : List Text) (isMatch : ℕ → Bool) : Option ℕ :=
  (List.range (fileLines.length + 1 - expected.length)).find? isMatch

/-- `findHunkMatch`; -1 where there is no place. -/
def findHunkMatch (fileLines : List Text) (hunk : PatchHunk) : ℤ :=
  let expected := expectedOldLines hunk.lines
  if expected.length = 0 then min ((hunk.oldStart : ℤ) - 1) fileLines.length
  else
    let candidateIdx := hunk.oldStart - 1
    if linesMatch fileLines candidateIdx expected then candidateIdx
    else
      match scan fileLines expected fun i => linesMatch fileLines i expected with
      | some i => i
      | none =>
        match scan fileLines expected fun i => linesMatchFuzzy fileLines i expected with
        | some i => i
        | none => -1

/-- The loop in `applyHunks`: the lines of the file, or an error. -/
def applyLoop : List Text → List PatchHunk → Except Text (List Text)
  | fileLines, [] => .ok fileLines
  | fileLines, hunk :: rest =>
    let matchIndex := findHunkMatch fileLines hunk
    if matchIndex = -1 then
      .error (text "Hunk failed to match context (expected around line " ++
        text (toString hunk.oldStart) ++ text ")")
    else
      applyLoop (slice fileLines 0 matchIndex ++ replacementLines hunk.lines ++
        slice fileLines (matchIndex + (expectedOldLines hunk.lines).length) fileLines.length) rest

/-- `applyHunks`: the new content, or the error. -/
def applyHunks (originalText : Text) (hunks : List PatchHunk) : Except Text Text :=
  (applyLoop (splitBreaks originalText) hunks).map joinLines

end Lumi.Unified
