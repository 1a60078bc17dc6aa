import Lumi.SearchReplace.ConstructorV1
import Mathlib.Data.List.Induction

/-!
# The second constructor

`NewFileContentConstructor` writes the new file as it reads the diff, in one pass: a block has
to be found from the last place on.  Lines outside of the blocks are kept as pending, since a
block with a malformed marker might be repaired with them; a repair reads the lines again,
with less of them pending.  `constructNewFileContentV2` knows only three spellings of a marker
in the last line.
-/

namespace Lumi.SearchReplace

open Js List

/-- The two bits of the enumeration. -/
structure ProcessingState where
  searchBit : Bool
  replaceBit : Bool
  deriving DecidableEq

namespace ProcessingState

def idle : ProcessingState := ⟨false, false⟩

def stateSearch : ProcessingState := ⟨true, false⟩

def stateReplace : ProcessingState := ⟨false, true⟩

/-- `a | b`. -/
def union (a b : ProcessingState) : ProcessingState :=
  ⟨a.searchBit || b.searchBit, a.replaceBit || b.replaceBit⟩

/-- `a & b`. -/
def inter (a b : ProcessingState) : ProcessingState :=
  ⟨a.searchBit && b.searchBit, a.replaceBit && b.replaceBit⟩

end ProcessingState

/-- The fields of `NewFileContentConstructor` that change. -/
structure StateV2 where
  state : ProcessingState
  pendingNonStandardLines : List Text
  result : Text
  lastProcessedIndex : ℤ
  currentSearchContent : Text
  searchMatchIndex : ℤ
  searchEndIndex : ℤ

namespace StateV2

open ProcessingState

def start : StateV2 := ⟨idle, [], [], 0, [], -1, -1⟩

section

variable (c : StateV2)

def resetForNextBlock : StateV2 :=
  { c with
    state := idle
    currentSearchContent := []
    searchMatchIndex := -1
    searchEndIndex := -1 }

/-- The last of the first lines that match, or -1; an error where there are not so many. -/
def findLastMatchingLineIndex (c : StateV2) (isTag : Text → Bool) : ℕ → Except Text ℤ
  | 0 => .ok (-1)
  | i + 1 =>
    match c.pendingNonStandardLines[i]? with
    | some line => if isTag line then .ok i else c.findLastMatchingLineIndex isTag i
    | none => .error (text "Cannot read properties of undefined (reading 'match')")

def updateProcessingState (newState : ProcessingState) (c : StateV2) : Except Text StateV2 :=
  if c.state = idle && newState = stateSearch || c.state = stateSearch && newState = stateReplace
  then .ok { c with state := c.state.union newState }
  else .error (text "Invalid state transition.\nValid transitions are:\n- Idle → StateSearch\n" ++
    text "- StateSearch → StateReplace")

def isStateActive (state : ProcessingState) : Bool :=
  c.state.inter state = state

def activateReplaceState : Except Text StateV2 :=
  c.updateProcessingState stateReplace

def activateSearchState : Except Text StateV2 :=
  (c.updateProcessingState stateSearch).map fun c => { c with currentSearchContent := [] }

def isSearchingActive : Bool := c.isStateActive stateSearch

def isReplacingActive : Bool := c.isStateActive stateReplace

def hasPendingNonStandardLines (pendingNonStandardLineLimit : ℤ) : Bool :=
  (c.pendingNonStandardLines.length : ℤ) - pendingNonStandardLineLimit
    < c.pendingNonStandardLines.length

/-- The loop in `trimPendingNonStandardTrailingEmptyLines`, with `i + 1` counted: the lines, and
how many were removed. -/
def trimLoop : ℕ → List Text → List Text × ℤ
  | 0, lines => (lines, 0)
  | i + 1, lines =>
    if lines[i]?.map trim = some [] then
      ((trimLoop i lines.dropLast).1, (trimLoop i lines.dropLast).2 + 1)
    else (lines, 0)

def trimPendingNonStandardTrailingEmptyLines (lineLimit : ℤ) : StateV2 × ℤ :=
  let trimmed := trimLoop (min lineLimit c.pendingNonStandardLines.length).toNat
    c.pendingNonStandardLines
  ({ c with pendingNonStandardLines := trimmed.1 }, trimmed.2)

end

/-! ## Blocks -/

/-- The place of the block whose SEARCH text has been read. -/
def locateV2 (originalContent searchContent : Text) (lastProcessedIndex : ℤ) :
    Except Text (ℤ × ℤ) :=
  if searchContent = [] then
    if originalContent.length = 0 then .ok (0, 0) else .ok (0, originalContent.length)
  else
    match findMatch originalContent searchContent lastProcessedIndex.toNat with
    | some (start, stop) => .ok (start, stop)
    | none => .error (searchError searchContent (text "does not match anything in the file."))

def beforeReplace (originalContent : Text) (c : StateV2) : Except Text StateV2 :=
  (locateV2 originalContent c.currentSearchContent c.lastProcessedIndex).bind fun found =>
    if found.1 < c.lastProcessedIndex then
      .error (searchError c.currentSearchContent (text "matched an incorrect content in the file."))
    else
      .ok { c with
        searchMatchIndex := found.1
        searchEndIndex := found.2
        result := c.result ++ slice originalContent c.lastProcessedIndex found.1 }

/-! ## Repairs

`process line limit` is what reads a line again. -/

section

variable (process : StateV2 → Text → ℤ → Except Text (StateV2 × ℤ))

/-- The lines of a repair are read again, with a limit that depends on how many were removed. -/
def readFixLines (limit : ℤ → ℤ) (fixLines : List Text) (c : StateV2) : Except Text (StateV2 × ℤ) :=
  fixLines.foldlM (fun acc line =>
    (process acc.1 line (limit acc.2)).map fun read => (read.1, acc.2 + read.2)) (c, 0)

/-- `lineLimit`, or all of the pending lines where it is negative. -/
def lineLimitOf (c : StateV2) (lineLimit : ℤ) : ℤ :=
  if lineLimit < 0 then c.pendingNonStandardLines.length else lineLimit

/-- `/^([-]{3,}|[<]{3,}) SEARCH$/`. -/
def isSearchTag (line : Text) : Bool :=
  isMark 0x2D (· = text " SEARCH") line || isMark 0x3C (· = text " SEARCH") line

/-- `/^([+]{3,}|[>]{3,}) REPLACE$/`. -/
def isReplaceEndTag (line : Text) : Bool :=
  isMark 0x2B (· = text " REPLACE") line || isMark 0x3E (· = text " REPLACE") line

def tryFixSearchBlock (c : StateV2) (lineLimit : ℤ) : Except Text (StateV2 × ℤ) :=
  let lineLimit := c.lineLimitOf lineLimit
  if lineLimit = 0 then
    .error (text "Invalid SEARCH/REPLACE block structure - no lines available to process")
  else
    (c.findLastMatchingLineIndex isSearchTag lineLimit.toNat).bind fun searchTagIndex =>
      if searchTagIndex ≠ -1 then
        let fixLines := (slice c.pendingNonStandardLines searchTagIndex lineLimit).set 0
          searchBlockStart
        readFixLines process (fun _ => searchTagIndex) fixLines c
      else
        .error (text "Invalid REPLACE marker detected - could not find matching SEARCH block " ++
          text "starting from line " ++ text (toString (searchTagIndex + 1)))

def tryFixReplaceBlock (c : StateV2) (lineLimit : ℤ) : Except Text (StateV2 × ℤ) :=
  let lineLimit := c.lineLimitOf lineLimit
  if lineLimit = 0 then .error []
  else
    (c.findLastMatchingLineIndex isSearchBlockEnd lineLimit.toNat).bind fun replaceBeginTagIndex =>
      if replaceBeginTagIndex ≠ -1 then
        let fixLines := (slice c.pendingNonStandardLines replaceBeginTagIndex lineLimit).set 0
          searchBlockEnd
        readFixLines process (fun removed => replaceBeginTagIndex - removed) fixLines c
      else
        .error (text "Malformed REPLACE block - missing valid separator after line " ++
          text (toString (replaceBeginTagIndex + 1)))

def tryFixSearchReplaceBlock (c : StateV2) (lineLimit : ℤ) : Except Text (StateV2 × ℤ) :=
  let lineLimit := c.lineLimitOf lineLimit
  if lineLimit = 0 then .error []
  else
    (c.findLastMatchingLineIndex isReplaceEndTag lineLimit.toNat).bind fun replaceEndTagIndex =>
      if replaceEndTagIndex = lineLimit - 1 then
        let lines := slice c.pendingNonStandardLines replaceEndTagIndex lineLimit
        let fixLines := lines.set (lines.length - 1) replaceBlockEnd
        readFixLines process (fun removed => replaceEndTagIndex - removed) fixLines c
      else
        .error (text "Malformed SEARCH/REPLACE block structure: " ++
          text "Missing valid closing REPLACE marker")

end

/-- After a repair, the pending lines may be dropped. -/
def dropPending (canWritependingNonStandardLines : Bool) (read : StateV2 × ℤ) : StateV2 :=
  if canWritependingNonStandardLines then { read.1 with pendingNonStandardLines := [] } else read.1

/-! ## Lines -/

/-- `internalProcessLine`: the state, and how many pending lines were removed.  A repair reads
lines below its limit, so that `fuel` bounds how deep repairs can nest. -/
def internalProcessLine (originalContent : Text) :
    ℕ → StateV2 → Text → Bool → ℤ → Except Text (StateV2 × ℤ)
  | 0, _, _, _, _ => .error (text "Maximum call stack size exceeded")
  | fuel + 1, c, line, canWrite, limit =>
    let process (c : StateV2) (line : Text) (limit : ℤ) :=
      internalProcessLine originalContent fuel c line false limit
    if isSearchBlockStart line then
      let (c, removeLineCount) := c.trimPendingNonStandardTrailingEmptyLines limit
      let limit := limit - removeLineCount
      (if c.hasPendingNonStandardLines limit then
        (tryFixSearchReplaceBlock process c limit).map (dropPending canWrite)
      else .ok c).bind fun c => c.activateSearchState.map fun c => (c, removeLineCount)
    else if isSearchBlockEnd line then
      (if !c.isSearchingActive then
        (tryFixSearchBlock process c limit).map (dropPending canWrite)
      else .ok c).bind fun c =>
        (c.activateReplaceState.bind (beforeReplace originalContent)).map fun c => (c, 0)
    else if isReplaceBlockEnd line then
      (if !c.isReplacingActive then
        (tryFixReplaceBlock process c limit).map (dropPending canWrite)
      else .ok c).map fun c =>
        ({ c with lastProcessedIndex := c.searchEndIndex }.resetForNextBlock, 0)
    else if c.isReplacingActive then
      if c.searchMatchIndex ≠ -1 then
        .ok ({ c with result := c.result ++ (line ++ [newline]) }, 0)
      else .ok (c, 0)
    else if c.isSearchingActive then
      .ok ({ c with currentSearchContent := c.currentSearchContent ++ (line ++ [newline]) }, 0)
    else if canWrite then
      .ok ({ c with pendingNonStandardLines := c.pendingNonStandardLines ++ [line] }, 0)
    else .ok (c, 0)

def processLine (originalContent : Text) (c : StateV2) (line : Text) : Except Text StateV2 :=
  (internalProcessLine originalContent (c.pendingNonStandardLines.length + 1) c line true
    c.pendingNonStandardLines.length).map Prod.fst

def getResult (originalContent : Text) (isFinal : Bool) (c : StateV2) : Except Text NewFile :=
  let result :=
    if isFinal && c.lastProcessedIndex < originalContent.length then
      c.result ++ slice originalContent c.lastProcessedIndex originalContent.length
    else c.result
  if isFinal && c.state ≠ idle then
    .error (text "File processing incomplete - SEARCH/REPLACE operations still active " ++
      text "during finalization")
  else .ok ⟨result, []⟩

end StateV2

def constructNewFileContentV2 (diffContent originalContent : Text) (isFinal : Bool) :
    Except Text NewFile :=
  let isKnown (line : Text) :=
    line = searchBlockStart || line = searchBlockEnd || line = replaceBlockEnd
  let lines := dropPartialMarker isKnown (splitLines diffContent)
  (lines.foldlM (StateV2.processLine originalContent) .start).bind
    (StateV2.getResult originalContent isFinal)

/-! ## Reading a block -/

namespace StateV2

/-- The state between blocks: all that is pending is blank. -/
def between (result : Text) (lastProcessedIndex : ℤ) (pending : List Text) : StateV2 :=
  ⟨ProcessingState.idle, pending, result, lastProcessedIndex, [], -1, -1⟩

section

variable {originalContent : Text}

variable {lines : List Text}

theorem trimLoop_blanks (h : ∀ line ∈ lines, IsBlank line) :
    trimLoop lines.length lines = ([], (lines.length : ℤ)) := by
  induction lines using List.reverseRecOn with
  | nil => rfl
  | append_singleton front line ih =>
    have hline : trim line = [] := (h line (by simp)).trim
    have hlast : (front ++ [line])[front.length]?.map trim = some [] := by
      rw [getElem?_concat_length, Option.map_some, hline]
    have hfront := ih fun l hl => h l (mem_append_left _ hl)
    rw [length_append, length_singleton, trimLoop, if_pos hlast, dropLast_concat,
      hfront]
    rfl

variable {line : Text}

theorem processLine_blank (h : IsBlank line) (result : Text) (last : ℤ) (pending : List Text) :
    processLine originalContent (between result last pending) line
      = .ok (between result last (pending ++ [line])) := by
  obtain ⟨hstart, hend, hfinish⟩ := h.unmarked
  have hreplacing : (between result last pending).isReplacingActive = false := rfl
  have hsearching : (between result last pending).isSearchingActive = false := rfl
  simp only [processLine, internalProcessLine, hstart, hend, hfinish, hreplacing, hsearching,
    Bool.false_eq_true, if_false, if_true]
  rfl

theorem foldlM_blanks (h : ∀ line ∈ lines, IsBlank line) (result : Text) (last : ℤ)
    (pending : List Text) :
    lines.foldlM (processLine originalContent) (between result last pending)
      = .ok (between result last (pending ++ lines)) := by
  induction lines generalizing pending with
  | nil =>
    rw [append_nil]
    rfl
  | cons line rest ih =>
    refine (foldlM_cons_ok (processLine_blank (h line mem_cons_self) ..)).trans ?_
    refine (ih (fun l hl => h l (mem_cons_of_mem _ hl)) _).trans ?_
    rw [append_assoc]
    rfl

/-- A block begins: what is pending is dropped. -/
theorem processLine_start (h : isSearchBlockStart line = true) {pending : List Text}
    (hpending : ∀ line ∈ pending, IsBlank line) (result : Text) (last : ℤ) :
    processLine originalContent (between result last pending) line
      = .ok ⟨ProcessingState.stateSearch, [], result, last, [], -1, -1⟩ := by
  have htrim : (between result last pending).trimPendingNonStandardTrailingEmptyLines pending.length
      = (between result last [], (pending.length : ℤ)) := by
    have hloop := trimLoop_blanks hpending
    have hcount : (min (pending.length : ℤ) pending.length).toNat = pending.length := by omega
    simp only [trimPendingNonStandardTrailingEmptyLines, between, hcount, hloop]
  have hnone : (between result last []).hasPendingNonStandardLines
      ((pending.length : ℤ) - pending.length) = false := by
    rw [Int.sub_self]
    rfl
  show Except.map Prod.fst (internalProcessLine originalContent (pending.length + 1)
    (between result last pending) line true pending.length) = _
  simp only [internalProcessLine, h, if_true, htrim, hnone, Bool.false_eq_true, if_false]
  rfl

theorem foldlM_search (h : ∀ line ∈ lines, Unmarked line) (result : Text) (last : ℤ) (search : Text) :
    lines.foldlM (processLine originalContent)
        ⟨ProcessingState.stateSearch, [], result, last, search, -1, -1⟩
      = .ok ⟨ProcessingState.stateSearch, [], result, last, search ++ endLines lines, -1, -1⟩ := by
  induction lines generalizing search with
  | nil =>
    rw [endLines, flatMap_nil, append_nil]
    rfl
  | cons line rest ih =>
    obtain ⟨hstart, hend, hfinish⟩ := h line mem_cons_self
    have hline : processLine originalContent
        ⟨ProcessingState.stateSearch, [], result, last, search, -1, -1⟩ line
        = .ok ⟨ProcessingState.stateSearch, [], result, last, search ++ (line ++ [newline]),
            -1, -1⟩ := by
      simp only [processLine, internalProcessLine, hstart, hend, hfinish, Bool.false_eq_true,
        if_false]
      rfl
    refine (foldlM_cons_ok hline).trans ?_
    refine (ih (fun l hl => h l (mem_cons_of_mem _ hl)) _).trans ?_
    rw [append_assoc]
    rfl

/-- What is active in the second half of a block. -/
def replacing : ProcessingState :=
  ProcessingState.stateSearch.union ProcessingState.stateReplace

theorem processLine_middle (h : isSearchBlockEnd line = true) (result : Text) (last : ℤ)
    (search : Text) :
    processLine originalContent
        ⟨ProcessingState.stateSearch, [], result, last, search, -1, -1⟩ line
      = beforeReplace originalContent ⟨replacing, [], result, last, search, -1, -1⟩ := by
  have hprocess : processLine originalContent
      ⟨ProcessingState.stateSearch, [], result, last, search, -1, -1⟩ line
      = ((beforeReplace originalContent ⟨replacing, [], result, last, search, -1, -1⟩).map
          fun c => (c, (0 : ℤ))).map Prod.fst := by
    simp only [processLine, internalProcessLine, not_start_of_isSearchBlockEnd h, h,
      Bool.false_eq_true, if_false, if_true]
    rfl
  rw [hprocess]
  cases beforeReplace originalContent ⟨replacing, [], result, last, search, -1, -1⟩ with
  | error e => rfl
  | ok c => rfl

theorem foldlM_replace (h : ∀ line ∈ lines, Unmarked line) (result : Text) (last : ℤ)
    (search : Text) {start : ℤ} (hstart : start ≠ -1) (stop : ℤ) :
    lines.foldlM (processLine originalContent) ⟨replacing, [], result, last, search, start, stop⟩
      = .ok ⟨replacing, [], result ++ endLines lines, last, search, start, stop⟩ := by
  induction lines generalizing result with
  | nil =>
    rw [endLines, flatMap_nil, append_nil]
    rfl
  | cons line rest ih =>
    obtain ⟨hsearch, hend, hfinish⟩ := h line mem_cons_self
    have hreplacing : isReplacingActive ⟨replacing, [], result, last, search, start, stop⟩
        = true := rfl
    have hline : processLine originalContent
        ⟨replacing, [], result, last, search, start, stop⟩ line
        = .ok ⟨replacing, [], result ++ (line ++ [newline]), last, search, start, stop⟩ := by
      simp only [processLine, internalProcessLine, hsearch, hend, hfinish, hreplacing, hstart,
        Bool.false_eq_true, if_false, if_true, ne_eq, not_false_eq_true]
      rfl
    refine (foldlM_cons_ok hline).trans ?_
    refine (ih (fun l hl => h l (mem_cons_of_mem _ hl)) _).trans ?_
    rw [append_assoc]
    rfl

theorem processLine_end (h : isReplaceBlockEnd line = true) (result : Text) (last : ℤ)
    (search : Text) (start stop : ℤ) :
    processLine originalContent ⟨replacing, [], result, last, search, start, stop⟩ line
      = .ok (between result stop []) := by
  obtain ⟨hstart, hend⟩ := not_search_of_isReplaceBlockEnd h
  have hreplacing : isReplacingActive ⟨replacing, [], result, last, search, start, stop⟩
      = true := rfl
  simp only [processLine, internalProcessLine, hstart, hend, h, hreplacing, Bool.not_true,
    Bool.false_eq_true, if_false, if_true]
  rfl

/-- The block up to its last marker is written where it is found. -/
theorem foldlM_body {b : Block} (hb : b.WellFormed) (result : Text) (last : ℕ)
    {pending : List Text} (hpending : ∀ line ∈ pending, IsBlank line) :
    (findMatch originalContent b.searchContent last = none → ∃ error,
      (b.blanks ++ b.startMarker :: b.search ++ b.middleMarker :: b.replace).foldlM
        (processLine originalContent) (between result last pending) = .error error) ∧
    ∀ found, findMatch originalContent b.searchContent last = some found →
      (b.blanks ++ b.startMarker :: b.search ++ b.middleMarker :: b.replace).foldlM
        (processLine originalContent) (between result last pending)
          = .ok ⟨replacing, [], result ++ slice originalContent last found.1 ++ endLines b.replace,
              last, b.searchContent, found.1, found.2⟩ := by
  have hblanks : ∀ line ∈ pending ++ b.blanks, IsBlank line := by
    intro line hline
    rcases mem_append.mp hline with hline | hline
    · exact hpending line hline
    · exact hb.blanks line hline
  have hfront : (b.blanks ++ b.startMarker :: b.search).foldlM (processLine originalContent)
      (between result last pending)
        = .ok ⟨ProcessingState.stateSearch, [], result, last, b.searchContent, -1, -1⟩ :=
    calc (b.blanks ++ b.startMarker :: b.search).foldlM (processLine originalContent)
          (between result last pending)
        = (b.startMarker :: b.search).foldlM (processLine originalContent)
            (between result last (pending ++ b.blanks)) :=
          foldlM_append_ok (foldlM_blanks hb.blanks result last pending)
      _ = _ := foldlM_cons_ok (processLine_start hb.start hblanks result last)
      _ = .ok _ := foldlM_search (fun line hl => (hb.search line hl).2) result last []
  have hmiddle := @processLine_middle originalContent _ hb.middle result last
    b.searchContent
  have hlocate : locateV2 originalContent b.searchContent last
      = match findMatch originalContent b.searchContent last with
        | some (start, stop) => .ok (start, stop)
        | none => .error (searchError b.searchContent
            (text "does not match anything in the file.")) :=
    if_neg hb.searchContent_ne
  simp only [beforeReplace] at hmiddle
  rw [hlocate] at hmiddle
  constructor
  · intro hnone
    rw [hnone] at hmiddle
    exact ⟨_, (foldlM_append_ok hfront).trans (foldlM_cons_error hmiddle)⟩
  · rintro ⟨start, stop⟩ hfound
    have hle : last ≤ start := (findMatch_le hb.length_searchContent hfound).1
    have horder : ¬ (start : ℤ) < last := by omega
    rw [hfound] at hmiddle
    have hwritten := hmiddle.trans (if_neg horder)
    exact (foldlM_append_ok hfront).trans ((foldlM_cons_ok hwritten).trans
      (foldlM_replace (fun line hl => (hb.replace line hl).2) _ last _ (by omega) stop))

end

end StateV2

/-- The replacements of blocks, if every one of them is found from the end of the one before. -/
def matchBlocks (originalContent : Text) : ℕ → List Block → Option (List Replacement)
  | _, [] => some []
  | last, b :: rest =>
    (findMatch originalContent b.searchContent last).bind fun found =>
      (matchBlocks originalContent found.2 rest).map
        (⟨found.1, found.2, endLines b.replace⟩ :: ·)

namespace StateV2

open ProcessingState

section

variable {originalContent : Text}

/-- **Run lemma.**  The blocks are written one after the other. -/
theorem foldlM_blocks {blocks : List Block} (hblocks : ∀ b ∈ blocks, b.WellFormed)
    (result : Text) (last : ℕ) {pending : List Text} (hpending : ∀ line ∈ pending, IsBlank line) :
    (matchBlocks originalContent last blocks = none → ∃ error,
      (blocks.flatMap Block.encode).foldlM (processLine originalContent)
        (between result last pending) = .error error) ∧
    ∀ found, matchBlocks originalContent last blocks = some found →
      ∃ (result' : Text) (last' : ℕ) (pending' : List Text), (∀ line ∈ pending', IsBlank line) ∧
        (blocks.flatMap Block.encode).foldlM (processLine originalContent)
          (between result last pending) = .ok (between result' last' pending') ∧
        result' ++ slice originalContent last' originalContent.length
          = result ++ rebuild originalContent last found := by
  induction blocks generalizing result last pending with
  | nil =>
    refine ⟨fun hnone => absurd hnone (by simp [matchBlocks]), fun found hfound => ?_⟩
    obtain rfl := Option.some.inj hfound
    exact ⟨result, last, pending, hpending, rfl, rfl⟩
  | cons b rest ih =>
    have hb := hblocks b mem_cons_self
    obtain ⟨hmissing, hfound⟩ := @foldlM_body originalContent _ hb result last _ hpending
    have hrest := ih fun b' hb' => hblocks b' (mem_cons_of_mem _ hb')
    rw [matchBlocks, flatMap_cons]
    cases hfind : findMatch originalContent b.searchContent last with
    | none =>
      refine ⟨fun _ => ?_, fun found h => absurd h (by simp)⟩
      obtain ⟨error, hbody⟩ := hmissing hfind
      exact ⟨error, foldlM_append_error (foldlM_append_error hbody)⟩
    | some found =>
      have hblock : b.encode.foldlM (processLine originalContent) (between result last pending)
          = .ok (between (result ++ slice originalContent last found.1 ++ endLines b.replace)
              found.2 []) :=
        (foldlM_append_ok (hfound found hfind)).trans
          (foldlM_cons_ok (processLine_end hb.finish ..))
      obtain ⟨hfail, hdone⟩ := @hrest
        (result ++ slice originalContent last found.1 ++ endLines b.replace) found.2
        [] fun line hline => absurd hline not_mem_nil
      rw [Option.bind_some]
      constructor
      · intro hnone
        obtain ⟨error, hloop⟩ := hfail (Option.map_eq_none_iff.mp hnone)
        exact ⟨error, (foldlM_append_ok hblock).trans hloop⟩
      · intro replacements hsome
        obtain ⟨others, hothers, rfl⟩ := Option.map_eq_some_iff.mp hsome
        obtain ⟨result', last', pending', hblanks, hloop, hwritten⟩ := hdone others hothers
        refine ⟨result', last', pending', hblanks, (foldlM_append_ok hblock).trans hloop, ?_⟩
        rw [hwritten, append_assoc, append_assoc]
        exact congrArg (result ++ ·) (append_assoc _ _ _).symm

theorem getResult_between (result : Text) (last : ℕ) (pending : List Text) :
    getResult originalContent true (between result last pending)
      = .ok ⟨result ++ slice originalContent last originalContent.length, []⟩ := by
  have hrest : (if true && decide ((last : ℤ) < originalContent.length) then
      result ++ slice originalContent last originalContent.length else result)
        = result ++ slice originalContent last originalContent.length := by
    rw [Bool.true_and]
    split
    · rfl
    · next hover =>
      have hempty : slice originalContent last originalContent.length = [] := by
        have hlast : ¬ (last : ℤ) < originalContent.length := by simpa using hover
        rw [slice, take_eq_nil_iff]
        refine .inr (drop_eq_nil_iff.mpr ?_)
        rw [relativeIndex, if_neg (by omega)]
        omega
      rw [hempty, append_nil]
  show Except.ok _ = _
  rw [← hrest]
  rfl

end

end StateV2

section

variable {originalContent : Text} {blocks : List Block} {trailing : List Text}

/-- The last line of the diff, if it is a marker, is spelled as the constructor knows it. -/
def EndsKnown (blocks : List Block) (trailing : List Text) : Prop :=
  trailing = [] → ∀ b ∈ blocks.getLast?, b.endMarker = replaceBlockEnd

/-- Where the last line is known, the file is written from the blocks. -/
theorem constructNewFileContentV2_blocks (hblocks : ∀ b ∈ blocks, b.WellFormed)
    (htrailing : ∀ line ∈ trailing, IsBlank line) (hend : EndsKnown blocks trailing) :
    (matchBlocks originalContent 0 blocks = none → ∃ error,
      constructNewFileContentV2 (encodeDiff blocks trailing) originalContent true = .error error) ∧
    ∀ replacements, matchBlocks originalContent 0 blocks = some replacements →
      constructNewFileContentV2 (encodeDiff blocks trailing) originalContent true
        = .ok ⟨rebuild originalContent 0 replacements, []⟩ := by
  obtain ⟨rest, hrest, hrestEq, hsplit⟩ := splitLines_encodeDiff hblocks htrailing
  have hknown : rest = [] → ∀ b ∈ blocks.getLast?, (decide (b.endMarker = searchBlockStart) ||
      decide (b.endMarker = searchBlockEnd) || decide (b.endMarker = replaceBlockEnd)) = true := by
    intro hnil b hb
    have hne : blocks ≠ [] := by
      rintro rfl
      exact absurd hb (by simp)
    rw [hend ((hrestEq hne).symm.trans hnil) b hb, decide_eq_true rfl, Bool.or_true]
  obtain ⟨hmissing, hfound⟩ := @StateV2.foldlM_blocks originalContent _ hblocks
    [] 0 [] fun line hline => absurd hline not_mem_nil
  rw [constructNewFileContentV2, hsplit, dropPartialMarker_eq hrest hknown]
  constructor
  · intro hnone
    obtain ⟨error, hloop⟩ := hmissing hnone
    have hall : (blocks.flatMap Block.encode ++ rest).foldlM
        (StateV2.processLine originalContent) .start = .error error := foldlM_append_error hloop
    rw [hall]
    exact ⟨error, rfl⟩
  · intro replacements hsome
    obtain ⟨result, last, pending, -, hloop, hwritten⟩ := hfound replacements hsome
    have hall : (blocks.flatMap Block.encode ++ rest).foldlM
        (StateV2.processLine originalContent) .start
          = .ok (.between result last (pending ++ rest)) :=
      (foldlM_append_ok hloop).trans (StateV2.foldlM_blanks hrest result last pending)
    rw [hall]
    refine (StateV2.getResult_between result last (pending ++ rest)).trans ?_
    rw [hwritten]
    rfl

/-- Where the last line is a marker that is not known, it is dropped, and the diff is not
complete. -/
theorem constructNewFileContentV2_unknown (hblocks : ∀ b ∈ blocks, b.WellFormed)
    (hend : ¬ EndsKnown blocks []) :
    ∃ error, constructNewFileContentV2 (encodeDiff blocks []) originalContent true
      = .error error := by
  obtain ⟨front, b, rfl, hmarker⟩ : ∃ front b, blocks = front ++ [b] ∧
      b.endMarker ≠ replaceBlockEnd := by
    rcases eq_nil_or_concat' blocks with rfl | ⟨front, b, rfl⟩
    · exact absurd (fun _ b hb => absurd hb (by simp)) hend
    · refine ⟨front, b, rfl, fun heq => hend fun _ b' hb' => ?_⟩
      rw [getLast?_concat] at hb'
      obtain rfl := Option.some.inj hb'
      exact heq
  have hb : b.WellFormed := hblocks b (by simp)
  obtain ⟨rest, -, hrest, hsplit⟩ := @splitLines_encodeDiff _ [] hblocks
    fun line hline => absurd hline not_mem_nil
  have hunknown : (decide (b.endMarker = searchBlockStart) ||
      decide (b.endMarker = searchBlockEnd) || decide (b.endMarker = replaceBlockEnd)) = false := by
    have hfinish := hb.finish
    have hno : ∀ line ∈ [searchBlockStart, searchBlockEnd], isReplaceBlockEnd line = false := by
      decide
    have hstart : b.endMarker ≠ searchBlockStart := fun heq =>
      absurd (heq ▸ hfinish) (by rw [hno searchBlockStart (by simp)]; decide)
    have hmiddle : b.endMarker ≠ searchBlockEnd := fun heq =>
      absurd (heq ▸ hfinish) (by rw [hno searchBlockEnd (by simp)]; decide)
    rw [decide_eq_false hstart, decide_eq_false hmiddle, decide_eq_false hmarker]
    rfl
  let body := b.blanks ++ b.startMarker :: b.search ++ b.middleMarker :: b.replace
  have hlines : splitLines (encodeDiff (front ++ [b]) [])
      = (front.flatMap Block.encode ++ body) ++ [b.endMarker] := by
    rw [hsplit, hrest (by simp), append_nil, flatMap_append, flatMap_singleton,
      Block.encode, ← append_assoc]
  have hdrop : dropPartialMarker (fun line => decide (line = searchBlockStart) ||
      decide (line = searchBlockEnd) || decide (line = replaceBlockEnd))
        (splitLines (encodeDiff (front ++ [b]) [])) = front.flatMap Block.encode ++ body := by
    rw [hlines, dropPartialMarker, getLast?_concat, Option.any_some,
      hb.beginsLikeMarker_endMarker, hunknown, dropLast_concat]
    rfl
  obtain ⟨hmissing, hfound⟩ := @StateV2.foldlM_blocks originalContent front
    (fun b' hb' => hblocks b' (mem_append_left _ hb')) [] 0 []
    (fun line hline => absurd hline not_mem_nil)
  rw [constructNewFileContentV2, hdrop]
  cases hfront : matchBlocks originalContent 0 front with
  | none =>
    obtain ⟨error, hloop⟩ := hmissing hfront
    have hall : (front.flatMap Block.encode ++ body).foldlM
        (StateV2.processLine originalContent) .start = .error error := foldlM_append_error hloop
    rw [hall]
    exact ⟨error, rfl⟩
  | some found =>
    obtain ⟨result, last, pending, hpending, hloop, -⟩ := hfound found hfront
    obtain ⟨hnone, hsome⟩ := @StateV2.foldlM_body originalContent _ hb result last _ hpending
    have hall : (front.flatMap Block.encode ++ body).foldlM
        (StateV2.processLine originalContent) .start
          = body.foldlM (StateV2.processLine originalContent) (.between result last pending) :=
      foldlM_append_ok hloop
    rw [hall]
    cases hfind : findMatch originalContent b.searchContent last with
    | none =>
      obtain ⟨error, hbody⟩ := hnone hfind
      rw [hbody]
      exact ⟨error, rfl⟩
    | some place =>
      rw [hsome place hfind]
      exact ⟨_, rfl⟩

end

end Lumi.SearchReplace
