import Lumi.Lib.JsText

/-!
# The streaming scrubber

`DeterministicStreamingScrubberEngine` takes reasoning tags and what is between them out of a stream
that arrives in chunks.  Outside a block it looks for the first open tag: if its own close tag is in
the buffer, both go with what is between them; else a block begins, which ends with the next close tag
of any kind.  What may be the beginning of a tag at the end of the buffer is held back.

Each round of the loop takes at least one tag off the buffer, so there are no more rounds than
characters.
-/

namespace Lumi.Scrubber

open Js

structure StreamingScrubberState where
  inBlock : Bool
  heldBuffer : Text
  lastEmittedEndedNewline : Bool
  turnIndex : ℕ

/-- What the engine reads of its configuration. -/
structure StreamingThinkScrubberConfig where
  enabled : Bool
  preserveProseMentions : Bool

def defaultStreamingThinkScrubberConfig : StreamingThinkScrubberConfig where
  enabled := true
  preserveProseMentions := true

structure FeedResult where
  visibleText : Text
  nextState : StreamingScrubberState
  suppressed : Bool
  blockEntered : Bool
  heldBackTail : Bool

/-- Tags with their lengths are found under their index, the earliest first. -/
def earliest {α : Type*} (candidates : List (ℕ × α)) : Option (ℕ × α) :=
  candidates.foldl (fun best candidate =>
    match best with
    | none => some candidate
    | some found => if candidate.1 < found.1 then some candidate else some found) none

def newline : UInt16 := 0xA

/-- `/^\s*$/` -/
def isBlank (text : Text) : Bool := text.all isWhiteSpace

def endsWithNewline (text : Text) : Bool := text.getLast? = some newline

/-- What the flag `i` of a regular expression makes of an ASCII letter. -/
def lowerAscii (c : UInt16) : UInt16 := if 0x41 ≤ c && c ≤ 0x5A then c + 0x20 else c

/-- `text.replace(new RegExp(tag, "gi"), "")`; the first argument counts what is still skipped. -/
def removeTag (tag : Text) : ℕ → Text → Text
  | _, [] => []
  | skip + 1, _ :: rest => removeTag tag skip rest
  | 0, c :: rest =>
    if startsWith ((c :: rest).map lowerAscii) tag then removeTag tag (tag.length - 1) rest
    else c :: removeTag tag 0 rest

/-- The greatest `k` above `maxLen` for which the text ends with `k` characters of the tag. -/
def longestPartial (lowerBuf tag : Text) (maxLen : ℕ) : ℕ → ℕ
  | 0 => maxLen
  | k + 1 =>
    if k + 1 > maxLen then
      if endsWith lowerBuf (tag.take (k + 1)) then k + 1 else longestPartial lowerBuf tag maxLen k
    else maxLen

structure DeterministicStreamingScrubberEngine where
  openTags : List Text
  closeTags : List Text

def defaultReasoningTagNames : List Text :=
  [text "think", text "thinking", text "reasoning", text "thought", text "REASONING_SCRATCHPAD"]

section

variable [Host]

def findFirstTag (buf : Text) (tags : List Text) : Option (ℕ × ℕ) :=
  let lowerBuf := toLowerCase buf
  earliest (tags.filterMap fun tag => (indexOf lowerBuf tag 0).map (·, tag.length))

def maxPartialSuffix (buf : Text) (tags : List Text) : ℕ :=
  let lowerBuf := toLowerCase buf
  tags.foldl (fun maxLen tag =>
    longestPartial lowerBuf tag maxLen (min (tag.length - 1) lowerBuf.length)) 0

def isAtBoundary (buf : Text) (pos : ℕ) (out : List Text) (lastEmittedEndedNewline : Bool) : Bool :=
  let afterOut :=
    match out.getLast? with
    | none => lastEmittedEndedNewline
    | some piece => endsWithNewline piece
  if pos = 0 then afterOut
  else
    let preceding := buf.take pos
    if preceding.contains newline then
      isBlank (preceding.reverse.takeWhile (· ≠ newline))
    else isBlank preceding && afterOut

namespace DeterministicStreamingScrubberEngine

/-- An engine for the given names of tags. -/
def new (tagNames : List Text) : DeterministicStreamingScrubberEngine where
  openTags := tagNames.map fun name => text "<" ++ toLowerCase name ++ text ">"
  closeTags := tagNames.map fun name => text "</" ++ toLowerCase name ++ text ">"

variable (engine : DeterministicStreamingScrubberEngine)

def stripOrphanCloseTags (text : Text) : Text :=
  engine.closeTags.foldl (fun result closeTag => removeTag closeTag 0 result) text

/-- The first pair of an open tag and its own close tag: where it starts and where it ends. -/
def findEarliestClosedPair (buf : Text) : Option (ℕ × ℕ) :=
  let lowerBuf := toLowerCase buf
  earliest ((engine.openTags.zip engine.closeTags).filterMap fun (openTag, closeTag) =>
    (indexOf lowerBuf openTag 0).bind fun openIdx =>
      (indexOf lowerBuf closeTag (openIdx + openTag.length)).map fun closeIdx =>
        (openIdx, closeIdx + closeTag.length))

/-- The loop over the places of one open tag, from `searchPos` on. -/
def boundaryIndex (buf openTag : Text) (atBoundary : ℕ → Bool) : ℕ → ℕ → Option ℕ
  | 0, _ => none
  | rounds + 1, searchPos =>
    if searchPos < (toLowerCase buf).length then
      match indexOf (toLowerCase buf) openTag searchPos with
      | none => none
      | some idx =>
        if atBoundary idx then some idx
        else boundaryIndex buf openTag atBoundary rounds (idx + 1)
    else none

def findOpenAtBoundary (buf : Text) (out : List Text) (lastEmittedEndedNewline : Bool)
    (config : StreamingThinkScrubberConfig) : Option (ℕ × ℕ) :=
  earliest (engine.openTags.filterMap fun openTag =>
    (boundaryIndex buf openTag (fun idx => !config.preserveProseMentions
        || isAtBoundary buf idx out lastEmittedEndedNewline) ((toLowerCase buf).length + 1) 0).map
      (·, openTag.length))

/-- The variables of the loop of `feed`. -/
structure Loop where
  inBlock : Bool
  buf : Text
  lastEmittedEndedNewline : Bool
  out : List Text
  wasSuppressed : Bool
  blockEntered : Bool
  heldBackTail : Bool

/-- Puts a piece of the buffer out, without close tags. -/
def Loop.emit (loop : Loop) (piece : Text) : Loop :=
  let stripped := engine.stripOrphanCloseTags piece
  if piece = [] ∨ stripped = [] then loop
  else
    { loop with
      out := loop.out ++ [stripped]
      lastEmittedEndedNewline := endsWithNewline stripped }

/-- What `feed` returns, with the held buffer. -/
def Loop.finish (loop : Loop) (state : StreamingScrubberState) (heldBuffer : Text) : FeedResult where
  visibleText := loop.out.flatten
  nextState :=
    { state with
      inBlock := loop.inBlock
      heldBuffer := heldBuffer
      lastEmittedEndedNewline := loop.lastEmittedEndedNewline }
  suppressed := loop.wasSuppressed
  blockEntered := loop.blockEntered
  heldBackTail := loop.heldBackTail

/-- One round of the loop: it goes on with a shorter buffer, or returns with what it holds back. -/
def round (config : StreamingThinkScrubberConfig) (loop : Loop) : Loop ⊕ (Loop × Text) :=
  let buf := loop.buf
  if loop.inBlock then
    match findFirstTag buf engine.closeTags with
    | none =>
      let held := maxPartialSuffix buf engine.closeTags
      .inr ({ loop with wasSuppressed := true, heldBackTail := held > 0 },
        buf.drop (buf.length - held))
    | some (index, length) =>
      .inl { loop with buf := buf.drop (index + length), inBlock := false, wasSuppressed := true }
  else
    let pair := engine.findEarliestClosedPair buf
    let openMatch := engine.findOpenAtBoundary buf loop.out loop.lastEmittedEndedNewline config
    match pair.filter fun pair => openMatch.all fun opened => pair.1 ≤ opened.1 with
    | some (startIndex, endIndex) =>
      .inl { loop.emit engine (buf.take startIndex) with
        buf := buf.drop endIndex
        wasSuppressed := true }
    | none =>
      match openMatch with
      | some (index, length) =>
        .inl { loop.emit engine (buf.take index) with
          inBlock := true
          blockEntered := true
          wasSuppressed := true
          buf := buf.drop (index + length) }
      | none =>
        let held := max (maxPartialSuffix buf engine.openTags)
          (maxPartialSuffix buf engine.closeTags)
        .inr ({ loop.emit engine (buf.take (buf.length - held)) with
            heldBackTail := loop.heldBackTail || held > 0 },
          buf.drop (buf.length - held))

/-- The loop, for as many rounds as there may be. -/
def rounds (config : StreamingThinkScrubberConfig) (state : StreamingScrubberState) :
    ℕ → Loop → FeedResult
  | 0, loop => loop.finish state []
  | n + 1, loop =>
    if loop.buf = [] then loop.finish state []
    else
      match engine.round config loop with
      | .inl next => rounds config state n next
      | .inr (last, heldBuffer) => last.finish state heldBuffer

def feed (text : Text) (state : StreamingScrubberState) (config : StreamingThinkScrubberConfig) :
    FeedResult :=
  if config.enabled = false ∨ text = [] then ⟨text, state, false, false, false⟩
  else
    let buf := state.heldBuffer ++ text
    engine.rounds config state buf.length
      ⟨state.inBlock, buf, state.lastEmittedEndedNewline, [], false, false, false⟩

/-- The end of the stream: what is held back outside a block comes out. -/
def flush (state : StreamingScrubberState) : Text × StreamingScrubberState :=
  let nextState :=
    { state with inBlock := false, heldBuffer := [], lastEmittedEndedNewline := true }
  if state.inBlock then ([], nextState)
  else (if state.heldBuffer ≠ [] then engine.stripOrphanCloseTags state.heldBuffer else [], nextState)

/-- The visible text of a stream that is fed in chunks and flushed. -/
def visible (config : StreamingThinkScrubberConfig) :
    StreamingScrubberState → List Text → Text
  | state, [] => (engine.flush state).1
  | state, chunk :: rest =>
    let result := engine.feed chunk state config
    result.visibleText ++ visible config result.nextState rest

end DeterministicStreamingScrubberEngine

end

end Lumi.Scrubber
