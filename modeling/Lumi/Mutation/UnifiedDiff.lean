import Lumi.Unified.Engine

/-!
# Governed unified diffs

`applyUnifiedDiff` reads chunks off a diff by how its lines begin, and splices each into the lines
of the content: where its old lines are found near its number, or at its number anyway.
-/

namespace Lumi.Mutation

open Js Unified

structure Chunk where
  oldStart : ℕ
  oldCount : ℕ
  newStart : ℕ
  newCount : ℕ
  lines : List Text
  deriving DecidableEq

/-! ## Reading chunks -/

/-- `(\d+),?(\d+)?` -/
def readNumbers (s : Text) : Option (ℕ × Option ℕ × Text) :=
  (readNumber s).map fun (start, rest) =>
    let rest := if rest.head? = some 0x2C then rest.tail else rest
    match readNumber rest with
    | some (count, rest) => (start, some count, rest)
    | none => (start, none, rest)

/-- `/^@@\s+-(\d+),?(\d+)?\s+\+(\d+),?(\d+)?\s+@@/.exec(line)`, as a chunk without lines. -/
def readChunkHeader (line : Text) : Option Chunk := do
  let s ← if startsWith line (text "@@") then some (line.drop 2) else none
  let s ← readToken (text "-") s
  let (oldStart, oldCount, s) ← readNumbers s
  let s ← readToken (text "+") s
  let (newStart, newCount, s) ← readNumbers s
  let _ ← readToken (text "@@") s
  some ⟨oldStart, oldCount.getD 1, newStart, newCount.getD 1, []⟩

/-- The variables of the first loop. -/
structure ChunkReader where
  chunks : List Chunk
  currentChunk : Option Chunk

namespace ChunkReader

def empty : ChunkReader := ⟨[], none⟩

/-- The chunks with the one that is being read. -/
def all (r : ChunkReader) : List Chunk := r.chunks ++ r.currentChunk.toList

def read (r : ChunkReader) (line : Text) : ChunkReader :=
  if startsWith line (text "---") || startsWith line (text "+++") then r
  else
    match readChunkHeader line with
    | some chunk => ⟨r.all, some chunk⟩
    | none =>
      if line = [] || startsWith line (text " ") || startsWith line (text "-") ||
        startsWith line (text "+")
      then { r with
        currentChunk := r.currentChunk.map fun chunk =>
          { chunk with lines := chunk.lines ++ [line] } }
      else r

end ChunkReader

def readChunks (diff : Text) : List Chunk :=
  ((splitBreaks diff).foldl ChunkReader.read .empty).all

/-! ## Splicing -/

namespace Chunk

def expectedDeleted (chunk : Chunk) : List Text :=
  chunk.lines.filterMap fun
    | [] => some []
    | c :: rest => if c = 0x2D || c = 0x20 then some rest else none

def inserted (chunk : Chunk) : List Text :=
  chunk.lines.filterMap fun
    | [] => some []
    | c :: rest => if c = 0x2B || c = 0x20 then some rest else none

end Chunk

/-- The lines stand at this index. -/
def checkMatch (resultLines expectedDeleted : List Text) (idx : ℤ) : Bool :=
  0 ≤ idx && idx + expectedDeleted.length ≤ resultLines.length &&
    (resultLines.drop idx.toNat).take expectedDeleted.length = expectedDeleted

/-- Where the lines stand: at the index, or at most a hundred lines away from it. -/
def findMatch (resultLines expectedDeleted : List Text) (startIdx : ℤ) : Option ℤ :=
  if checkMatch resultLines expectedDeleted startIdx then some startIdx
  else (List.range' 1 100).findSome? fun (scan : ℕ) =>
    if checkMatch resultLines expectedDeleted (startIdx - scan) then some (startIdx - scan)
    else if checkMatch resultLines expectedDeleted (startIdx + scan) then some (startIdx + scan)
    else none

/-- `lines.splice(start, deleteCount, ...items)`. -/
def spliceLines (lines : List Text) (start : ℤ) (deleteCount : ℕ) (items : List Text) : List Text :=
  let i := relativeIndex lines start
  lines.take i ++ items ++ lines.drop (i + deleteCount)

/-- One round of the second loop. -/
def applyChunk (s : List Text × ℤ) (chunk : Chunk) : List Text × ℤ :=
  let (resultLines, offset) := s
  let startIdx := chunk.oldStart - 1 + offset
  let expectedDeleted := chunk.expectedDeleted
  let inserted := chunk.inserted
  -- the fallback splices at the number where nothing was found
  let actualStart := (findMatch resultLines expectedDeleted startIdx).getD startIdx
  (spliceLines resultLines actualStart expectedDeleted.length inserted,
    offset + (inserted.length - expectedDeleted.length))

def applyUnifiedDiff (content diff : Text) : Text :=
  let chunks := readChunks diff
  if chunks.length = 0 then content
  else joinLines (chunks.foldl applyChunk (splitBreaks content, 0)).1

end Lumi.Mutation
