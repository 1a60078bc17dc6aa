import Mathlib.Algebra.Order.Ring.Unbundled.Rat
import Lumi.Lib.InsertionMap
import Lumi.Lib.JsText

/-!
# The parser of patches

`PatchParser` reads a patch line by line.  An action names a file; an update is a list of
hunks, each of which is found in the file by the lines it keeps and deletes: exactly, then
without white space at the ends, then by similarity.  `applyChunks` applies what was found.

The parser holds the lines that are left, in place of an index into all of them.  Where it
throws, the result is the text of the error.  A hunk without any line, on a line that is no
marker, is found at the start of the file and leaves the parser where it was; the loop does
not end then, and has no result.
-/

namespace Lumi.ApplyPatch

open Js

/-- What is not decided by the program: Unicode normalisation, and how a number is shown. -/
class Runtime where
  /-- `s.normalize("NFC")`. -/
  nfc : Text → Text
  /-- `x.toFixed(2)`. -/
  toFixed2 : ℚ → Text

/-! ## The patch -/

namespace Markers

def beginPatch : Text := text "*** Begin Patch"
def endPatch : Text := text "*** End Patch"
def addFile : Text := text "*** Add File: "
def updateFile : Text := text "*** Update File: "
def deleteFile : Text := text "*** Delete File: "
def moveTo : Text := text "*** Move to: "
def sectionMark : Text := text "@@"
def endFile : Text := text "*** End of File"

end Markers

inductive PatchActionType
  | add
  | delete
  | update
  deriving DecidableEq

structure PatchChunk where
  origIndex : ℤ
  delLines : List Text
  insLines : List Text
  deriving DecidableEq

structure PatchAction where
  type : PatchActionType
  newFile : Option Text
  chunks : List PatchChunk
  movePath : Option Text
  deriving DecidableEq

structure PatchWarning where
  path : Text
  chunkIndex : Option ℕ
  message : Text
  context : Option Text
  deriving DecidableEq

structure Patch where
  actions : InsertionMap Text PatchAction
  warnings : Option (List PatchWarning)
  deriving DecidableEq

/-! ## Canonical texts -/

/-- `PUNCT_EQUIV[c] ?? c`. -/
def punctEquiv (c : UInt16) : UInt16 :=
  if c ∈ [0x2010, 0x2011, 0x2012, 0x2013, 0x2014, 0x2212] then 0x2D
  else if c ∈ [0x201C, 0x201D, 0x201E, 0xAB, 0xBB] then 0x22
  else if c ∈ [0x2018, 0x2019, 0x201B] then 0x27
  else if c ∈ [0xA0, 0x202F] then 0x20
  else c

/-- The backslash before each `quote` is dropped. -/
def unescape (quote : UInt16) : Text → Text
  | [] => []
  | [c] => [c]
  | c :: d :: rest =>
    if c = 0x5C ∧ d = quote then quote :: unescape quote rest
    else c :: unescape quote (d :: rest)

/-- `s.replace(/\\/g, "\\\\")` and then a backslash before each `quote`. -/
def escape (quote : UInt16) (s : Text) : Text :=
  (s.flatMap fun c => if c = 0x5C then [0x5C, 0x5C] else [c]).flatMap fun c =>
    if c = quote then [0x5C, quote] else [c]

/-- One round of `preserveEscaping`, for one kind of quote. -/
def preserveQuote (quote : UInt16) (originalText newText result : Text) : Text :=
  if includes originalText [0x5C, quote] && !includes newText [0x5C, quote] then
    escape quote result
  else result

def preserveEscaping (originalText newText : Text) : Text :=
  preserveQuote 0x22 originalText newText (preserveQuote 0x27 originalText newText
    (preserveQuote 0x60 originalText newText newText))

section

variable [Runtime]

def canonicalize (s : Text) : Text :=
  unescape 0x22 (unescape 0x27 (unescape 0x60 ((Runtime.nfc s).map punctEquiv)))

end

/-! ## Similarity -/

/-- The cells of a row of the matrix after the one on the left, from those of the row above. -/
def distanceRow (c : UInt16) : ℕ → Text → List ℕ → List ℕ
  | left, d :: rest, diagonal :: above :: aboves =>
    let cell := if c = d then diagonal else 1 + min diagonal (min left above)
    cell :: distanceRow c cell rest (above :: aboves)
  | _, _, _ => []

def levenshteinDistance (str1 str2 : Text) : ℕ :=
  let row (above : List ℕ) (e : UInt16 × ℕ) : List ℕ :=
    (e.2 + 1) :: distanceRow e.1 (e.2 + 1) str1 above
  (str2.zipIdx.foldl row (List.range (str1.length + 1))).getLastD 0

def calculateSimilarity (str1 str2 : Text) : ℚ :=
  let longer := if str1.length > str2.length then str1 else str2
  let shorter := if str1.length > str2.length then str2 else str1
  if longer.length = 0 then 1
  else (longer.length - levenshteinDistance shorter longer : ℚ) / longer.length

/-! ## The search for a context -/

/-- The indices of a loop from `start` up to `size`. -/
def indicesFrom (start : ℤ) (size : ℕ) : List ℤ :=
  (List.range (size - start).toNat).map fun (k : ℕ) => start + k

section

variable [Runtime]

/-- The lines of the file that a context of this length is compared with. -/
def segmentAt (lines : List Text) (size : ℕ) (i : ℤ) : List Text := slice lines i (i + size)

/-- Pass 1: the first place where the canonical texts are the same, and the best similarity of
those before it. -/
def findExact (lines : List Text) (size : ℕ) (canonicalContext : Text) :
    List ℤ → ℚ → Option ℤ × ℚ
  | [], best => (none, best)
  | i :: rest, best =>
    let segment := canonicalize (joinLines (segmentAt lines size i))
    if segment = canonicalContext then (some i, best)
    else findExact lines size canonicalContext rest
      (max best (calculateSimilarity segment canonicalContext))

/-- Passes 2 and 3: the same, after each line is trimmed. -/
def findTrimmed (trimLine : Text → Text) (lines context : List Text) (indices : List ℤ) :
    Option ℤ :=
  indices.find? fun i =>
    canonicalize (joinLines ((segmentAt lines context.length i).map trimLine))
      = canonicalize (joinLines (context.map trimLine))

def similarityThreshold : ℚ := 33 / 50

/-- Pass 4: the first place that is similar enough. -/
def findSimilar (lines : List Text) (size : ℕ) (canonicalContext : Text) :
    List ℤ → ℚ → Option (ℤ × ℚ) × ℚ
  | [], best => (none, best)
  | i :: rest, best =>
    let similarity :=
      calculateSimilarity (canonicalize (joinLines (segmentAt lines size i))) canonicalContext
    if similarity ≥ similarityThreshold then (some (i, similarity), best)
    else findSimilar lines size canonicalContext rest (max best similarity)

/-- `findCore`: index, fuzz and similarity, and the best similarity so far. -/
def findCore (lines context : List Text) (bestSimilarity : ℚ) (startIdx : ℤ) : (ℤ × ℕ × ℚ) × ℚ :=
  let indices := indicesFrom startIdx lines.length
  let canonicalContext := canonicalize (joinLines context)
  match findExact lines context.length canonicalContext indices bestSimilarity with
  | (some i, best) => ((i, 0, 1), best)
  | (none, best) =>
    match findTrimmed trimEnd lines context indices, findTrimmed trim lines context indices with
    | some i, _ => ((i, 1, 1), best)
    | none, some i => ((i, 100, 1), best)
    | none, none =>
      match findSimilar lines context.length canonicalContext indices best with
      | (some (i, similarity), best) => ((i, 1000, similarity), best)
      | (none, best) => ((-1, 0, best), best)

def findContext (lines context : List Text) (start : ℤ) (eof : Bool) : ℤ × ℕ × ℚ :=
  if context.length = 0 then (start, 0, 1)
  else if eof then
    let (found, best) := findCore lines context 0 (lines.length - context.length)
    if found.1 ≠ -1 then found
    else
      let (newIndex, fuzz, similarity) := (findCore lines context best start).1
      (newIndex, fuzz + 10000, similarity)
  else (findCore lines context 0 start).1

end

/-! ## One section -/

inductive Mode
  | keep
  | add
  | delete
  deriving DecidableEq

/-- The variables of the loop in `peek`. -/
structure Section where
  old : List Text
  delLines : List Text
  insLines : List Text
  chunks : List PatchChunk
  mode : Mode

namespace Section

def start : Section := ⟨[], [], [], [], .keep⟩

/-- The lines that were deleted and inserted since the last one that was kept. -/
def pending (st : Section) : List PatchChunk :=
  if st.insLines.length > 0 || st.delLines.length > 0 then
    [⟨st.old.length - st.delLines.length, st.delLines, st.insLines⟩]
  else []

def flush (st : Section) : Section :=
  { st with chunks := st.chunks ++ st.pending, delLines := [], insLines := [] }

/-- The mode of a line, and the line without its first character. -/
def modeOf : Text → Mode × Text
  | [] => (.keep, [])
  | c :: rest =>
    if c = 0x2B then (.add, rest)
    else if c = 0x2D then (.delete, rest)
    else if c = 0x20 then (.keep, rest)
    -- a context line without its blank
    else (.keep, c :: rest)

def read (st : Section) (s : Text) : Section :=
  let (mode, line) := modeOf s
  let st := if mode = .keep && st.mode ≠ mode then st.flush else st
  match mode with
  | .delete => { st with delLines := st.delLines ++ [line], old := st.old ++ [line], mode }
  | .add => { st with insLines := st.insLines ++ [line], mode }
  | .keep => { st with old := st.old ++ [line], mode }

end Section

def peekStops : List Text :=
  [Markers.sectionMark, Markers.endPatch, Markers.updateFile, Markers.deleteFile, Markers.addFile,
    Markers.endFile]

/-- A line begins with one of the markers. -/
def startsWithAny (markers : List Text) (s : Text) : Bool :=
  markers.any fun m => startsWith s (trim m)

/-- The loop in `peek`: what was read, and the lines from where it stops. -/
def readSection (st : Section) : List Text → Except Text (Section × List Text)
  | [] => .ok (st, [])
  | s :: rest =>
    if s = [] || startsWithAny peekStops s then .ok (st, s :: rest)
    else if s = text "***" then .ok (st, s :: rest)
    else if startsWith s (text "***") then .error (text "Invalid line: " ++ s)
    else readSection (st.read s) rest

structure Peek where
  context : List Text
  chunks : List PatchChunk
  rest : List Text
  eof : Bool

def peek (lines : List Text) : Except Text Peek := do
  let (st, rest) ← readSection .start lines
  let chunks := st.chunks ++ st.pending
  if rest.head? = some Markers.endFile then return ⟨st.old, chunks, rest.tail, true⟩
  return ⟨st.old, chunks, rest, false⟩

/-! ## Updates -/

/-- The variables of the loop in `parseUpdateFile`. -/
structure Update where
  rest : List Text
  index : ℤ
  chunks : List PatchChunk
  fuzz : ℕ
  warnings : List PatchWarning

def updateStops : List Text :=
  [Markers.endPatch, Markers.updateFile, Markers.deleteFile, Markers.addFile, Markers.endFile]

section

variable [Runtime]

/-- The line after the one that a section names, and whether it was found only when trimmed. -/
def findDefinition (fileLines : List Text) (canonDefStr : Text) (index : ℤ) : Option (ℤ × Bool) :=
  ((indicesFrom index fileLines.length).find? fun i =>
    let fileLine := if i < 0 then [] else fileLines.getD i.toNat []
    fileLine ≠ [] && (canonicalize fileLine = canonDefStr ||
      canonicalize (trim fileLine) = canonDefStr)).map fun i =>
    (i + 1, canonicalize (fileLines.getD i.toNat []) ≠ canonDefStr)

def skippedWarning (path : Text) (chunkIndex : ℕ) (context : List Text) (similarity : ℚ) :
    PatchWarning :=
  let ctxText := joinLines context
  { path
    chunkIndex := some chunkIndex
    message := text "Could not find matching context (similarity: " ++
      Runtime.toFixed2 similarity ++ text "). Chunk skipped."
    context := some (if ctxText.length > 200 then ctxText.take 200 ++ text "..." else ctxText) }

/-- One round of the loop in `parseUpdateFile`. -/
def updateStep (fileLines : List Text) (path : Text) (st : Update) : Except Text Update := do
  let currentLine := st.rest.head?
  let defStr := currentLine.bind fun l =>
    if startsWith l (text "@@ ") then some (l.drop 3) else none
  let isSection := decide (currentLine = some Markers.sectionMark)
  if !defStr.isSome && !isSection && st.index ≠ 0 then
    throw (text "Invalid Line:\n" ++ currentLine.getD (text "undefined"))
  let rest := if defStr.isSome || isSection then st.rest.tail else st.rest
  let named := ((defStr.map trim).filter (· ≠ [])).bind fun d =>
    findDefinition fileLines (canonicalize d) st.index
  let index := (named.map Prod.fst).getD st.index
  let fuzz := st.fuzz + if (named.map Prod.snd).getD false then 1 else 0
  let next ← peek rest
  let (newIndex, found, similarity) := findContext fileLines next.context index next.eof
  if newIndex = -1 then
    return { st with
      rest := next.rest
      index
      fuzz
      warnings := st.warnings ++ [skippedWarning path st.chunks.length next.context similarity] }
  return { st with
    rest := next.rest
    index := newIndex + next.context.length
    chunks := st.chunks ++
      next.chunks.map fun chunk => { chunk with origIndex := chunk.origIndex + newIndex }
    fuzz := fuzz + found }

/-- The loop in `parseUpdateFile`, where it ends. -/
def updateLoop (fileLines : List Text) (path : Text) :
    ℕ → Update → Option (Except Text Update)
  | 0, _ => none
  | steps + 1, st =>
    if (st.rest.head?.map (startsWithAny updateStops)).getD false then some (.ok st)
    else
      match updateStep fileLines path st with
      | .error message => some (.error message)
      | .ok st => updateLoop fileLines path steps st

/-! ## Actions -/

/-- The variables of the parser. -/
structure Parser where
  rest : List Text
  actions : InsertionMap Text PatchAction
  warnings : List PatchWarning
  fuzz : ℕ

/-- What every object inherits, and `in` finds. -/
def inheritedNames : List Text :=
  ["constructor", "__defineGetter__", "__defineSetter__", "hasOwnProperty", "__lookupGetter__",
    "__lookupSetter__", "isPrototypeOf", "propertyIsEnumerable", "toString", "valueOf",
    "__proto__", "toLocaleString"].map text

/-- `path in record`. -/
def isIn {α : Type*} (record : InsertionMap Text α) (path : Text) : Bool :=
  (record.get? path).isSome || inheritedNames.contains path

def checkDuplicate (p : Parser) (path : Text) (operation : String) : Except Text Unit :=
  if isIn p.actions path then
    .error (text "Duplicate " ++ text operation ++ text " for file: " ++ path)
  else .ok ()

section

variable (currentFiles : InsertionMap Text Text)

/-- `parseUpdate`, where it ends. -/
def parseUpdate (p : Parser) (path : Text) : Option (Except Text Parser) :=
  match checkDuplicate p path "update" with
  | .error message => some (.error message)
  | .ok () =>
    let rest := p.rest.tail
    let moved := rest.head?.filter fun l => startsWith l Markers.moveTo
    let movePath := moved.map fun l => trim (l.drop Markers.moveTo.length)
    let rest := if moved.isSome then rest.tail else rest
    if !isIn currentFiles path then
      some (.error (text "Update File Error: Missing File: " ++ path))
    else
      let fileLines := splitLines ((currentFiles.get? path).getD [])
      -- every round but the last reads a line
      (updateLoop fileLines path (rest.length + 1) ⟨rest, 0, [], p.fuzz, p.warnings⟩).map
        fun result => result.map fun st =>
          { rest := st.rest
            actions := p.actions.set path ⟨.update, none, st.chunks, movePath⟩
            warnings := st.warnings
            fuzz := st.fuzz }

def parseDelete (p : Parser) (path : Text) :
    Except Text Parser := do
  checkDuplicate p path "delete"
  if !isIn currentFiles path then
    throw (text "Delete File Error: Missing File: " ++ path)
  return { p with
    rest := p.rest.tail
    actions := p.actions.set path ⟨.delete, none, [], none⟩ }

def addStops : List Text :=
  [Markers.endPatch, Markers.updateFile, Markers.deleteFile, Markers.addFile]

/-- The loop in `parseAdd`: the lines of the file, and those that are left. -/
def readAdded : List Text → Except Text (List Text × List Text)
  | [] => .ok ([], [])
  | line :: rest =>
    if startsWithAny addStops line then .ok ([], line :: rest)
    else if !startsWith line (text "+") then
      .error (text "Invalid Add File line (missing '+'): " ++ line)
    else (readAdded rest).map fun r => (line.drop 1 :: r.1, r.2)

def parseAdd (p : Parser) (path : Text) :
    Except Text Parser := do
  checkDuplicate p path "add"
  if isIn currentFiles path then
    throw (text "Add File Error: File already exists: " ++ path)
  let (lines, rest) ← readAdded p.rest.tail
  return { p with
    rest
    actions := p.actions.set path ⟨.add, some (joinLines lines), [], none⟩ }

/-- The path after a marker. -/
def pathAfter (marker line : Text) : Text := trim (line.drop marker.length)

/-- `parseNextAction` on the next line, where it ends. -/
def parseNextAction (p : Parser) (line : Text) : Option (Except Text Parser) :=
  if startsWith line Markers.updateFile then
    parseUpdate currentFiles p (pathAfter Markers.updateFile line)
  else if startsWith line Markers.deleteFile then
    some (parseDelete currentFiles p (pathAfter Markers.deleteFile line))
  else if startsWith line Markers.addFile then
    some (parseAdd currentFiles p (pathAfter Markers.addFile line))
  else some (.error (text "Unknown line while parsing: " ++ line))

end

/-- The loop in `parse`, where it ends. -/
def parseLoop (currentFiles : InsertionMap Text Text) : ℕ → Parser → Option (Except Text Parser)
  | 0, p => some (.ok p)
  | steps + 1, p =>
    match p.rest with
    | [] => some (.ok p)
    | line :: _ =>
      if startsWith line Markers.endPatch then some (.ok p)
      else
        match parseNextAction currentFiles p line with
        | some (.ok p) => parseLoop currentFiles steps p
        | other => other

/-- `parse`: the patch and its fuzz, where it ends. -/
def parse (lines : List Text) (currentFiles : InsertionMap Text Text) :
    Option (Except Text (Patch × ℕ)) :=
  let rest :=
    if (lines.head?.map fun l => startsWith l Markers.beginPatch).getD false then lines.tail
    else lines
  -- every action reads a line
  (parseLoop currentFiles rest.length ⟨rest, .empty, [], 0⟩).map fun result =>
    result.map fun p =>
      (⟨p.actions, if p.warnings.length = 0 then none else some p.warnings⟩, p.fuzz)

end

/-! ## Application -/

/-- The loop in `applyChunks`: what is left of the result, from the index it has come to. -/
def applyLoop (path : Text) (tryPreserveEscaping : Bool) (lines : List Text) :
    ℤ → List PatchChunk → Except Text (List Text)
  | currentIndex, [] => .ok (slice lines currentIndex lines.length)
  | currentIndex, chunk :: rest => do
      if chunk.origIndex > lines.length then
        throw (path ++ text ": chunk.origIndex " ++ text (toString chunk.origIndex) ++
          text " > lines.length " ++ text (toString lines.length))
      if currentIndex > chunk.origIndex then
        throw (path ++ text ": currentIndex " ++ text (toString currentIndex) ++
          text " > chunk.origIndex " ++ text (toString chunk.origIndex))
      let stop := chunk.origIndex + chunk.delLines.length
      let originalText := joinLines (slice lines chunk.origIndex stop)
      let insertedLines := chunk.insLines.map fun line =>
        if tryPreserveEscaping && originalText ≠ [] then preserveEscaping originalText line
        else line
      let result ← applyLoop path tryPreserveEscaping lines stop rest
      return slice lines currentIndex chunk.origIndex ++ insertedLines ++ result

def applyChunks (content : Text) (chunks : List PatchChunk) (path : Text)
    (tryPreserveEscaping : Bool) : Except Text Text :=
  if chunks.length = 0 then .ok content
  else (applyLoop path tryPreserveEscaping (splitLines content) 0 chunks).map joinLines

/-! ## A runtime for small texts -/

namespace Plain

/-- What a runtime answers for ASCII texts and for decimals that are not on the border. -/
scoped instance runtime : Runtime where
  nfc s := s
  toFixed2 q :=
    let n := (q * 100 + 1 / 2).floor.toNat
    text (toString (n / 100)) ++ text "." ++ text (toString (n / 10 % 10)) ++
      text (toString (n % 10))

end Plain

end Lumi.ApplyPatch
