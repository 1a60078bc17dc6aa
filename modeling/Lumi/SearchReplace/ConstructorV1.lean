import Lumi.SearchReplace.Blocks
import Mathlib.Data.List.Sort

/-!
# The first constructor

`constructNewFileContentV1` collects the replacements of a diff, wherever in the file they
are, and rebuilds the file from them in the order of their places.  A block that is found
nowhere from the last place on is looked for in the whole file.
-/

namespace Lumi.SearchReplace

open Js List

/-- What is put in the place of the characters from `start` on, before `stop`. -/
structure Replacement where
  start : ℤ
  stop : ℤ
  content : Text
  deriving DecidableEq

/-- What a constructor returns. -/
structure NewFile where
  newContent : Text
  matchIndices : List ℤ
  deriving DecidableEq

/-- The variables of `constructNewFileContentV1`. -/
structure StateV1 where
  result : Text
  lastProcessedIndex : ℤ
  currentSearchContent : Text
  currentReplaceContent : Text
  inSearch : Bool
  inReplace : Bool
  searchMatchIndex : ℤ
  searchEndIndex : ℤ
  replacements : List Replacement
  pendingOutOfOrderReplacement : Bool

def StateV1.start : StateV1 := ⟨[], 0, [], [], false, false, -1, -1, [], false⟩

def emptySearchError : Text :=
  text "Empty SEARCH block detected with non-empty file. " ++
    text "This usually indicates a malformed SEARCH marker.\n" ++
    text "Please ensure your SEARCH marker follows the correct format:\n" ++
    text "- Use '------- SEARCH' (7+ dashes + space + SEARCH)\n"

def searchError (searchContent reason : Text) : Text :=
  text "The SEARCH block:\n" ++ trimEnd searchContent ++ text "\n..." ++ reason

/-- The match, or as a last resort one in the whole file. -/
def findInFile (originalContent searchContent : Text) (lastProcessedIndex : ℕ) : Option (ℕ × ℕ) :=
  (findMatch originalContent searchContent lastProcessedIndex).or
    ((indexOf originalContent searchContent 0).map fun i => (i, i + searchContent.length))

/-- The place of the block whose SEARCH text has been read. -/
def locateV1 (originalContent searchContent : Text) (lastProcessedIndex : ℤ) :
    Except Text (ℤ × ℤ) :=
  if searchContent = [] then
    if originalContent.length = 0 then .ok (0, 0) else .error emptySearchError
  else
    match findInFile originalContent searchContent lastProcessedIndex.toNat with
    | some (start, stop) => .ok (start, stop)
    | none => .error (searchError searchContent (text "does not match anything in the file."))

/-- The replacement is stored, and the place advances unless it is out of order. -/
def StateV1.store (st : StateV1) : StateV1 :=
  { st with
    replacements :=
      st.replacements ++ [⟨st.searchMatchIndex, st.searchEndIndex, st.currentReplaceContent⟩]
    lastProcessedIndex :=
      if st.pendingOutOfOrderReplacement then st.lastProcessedIndex else st.searchEndIndex
    inSearch := false
    inReplace := false
    currentSearchContent := []
    currentReplaceContent := []
    searchMatchIndex := -1
    searchEndIndex := -1
    pendingOutOfOrderReplacement := false }

/-- One round of the loop in `constructNewFileContentV1`. -/
def processLineV1 (originalContent : Text) (st : StateV1) (line : Text) : Except Text StateV1 :=
  if isSearchBlockStart line then
    .ok { st with inSearch := true, currentSearchContent := [], currentReplaceContent := [] }
  else if isSearchBlockEnd line then
    (locateV1 originalContent st.currentSearchContent st.lastProcessedIndex).map fun found =>
      let outOfOrder := st.pendingOutOfOrderReplacement || found.1 < st.lastProcessedIndex
      { st with
        inSearch := false
        inReplace := true
        searchMatchIndex := found.1
        searchEndIndex := found.2
        pendingOutOfOrderReplacement := outOfOrder
        result :=
          if outOfOrder then st.result
          else st.result ++ slice originalContent st.lastProcessedIndex found.1 }
  else if isReplaceBlockEnd line then
    if st.searchMatchIndex = -1 then
      .error (searchError st.currentSearchContent (text "is malformatted."))
    else .ok st.store
  else if st.inSearch then
    .ok { st with currentSearchContent := st.currentSearchContent ++ (line ++ [newline]) }
  else if st.inReplace then
    .ok { st with
      currentReplaceContent := st.currentReplaceContent ++ (line ++ [newline])
      result :=
        if st.searchMatchIndex ≠ -1 && !st.pendingOutOfOrderReplacement then
          st.result ++ (line ++ [newline])
        else st.result }
  else .ok st

/-- The loop that rebuilds the file, from `currentPos` on. -/
def rebuild (originalContent : Text) : ℤ → List Replacement → Text
  | currentPos, [] => slice originalContent currentPos originalContent.length
  | currentPos, r :: rest =>
    slice originalContent currentPos r.start ++ r.content ++ rebuild originalContent r.stop rest

/-- The order of `replacements.sort`. -/
def Replacement.before (a b : Replacement) : Prop := a.start ≤ b.start

instance : DecidableRel Replacement.before := fun a b =>
  inferInstanceAs (Decidable (a.start ≤ b.start))

/-- What follows the loop. -/
def StateV1.finish (originalContent : Text) (isFinal : Bool) (st : StateV1) : NewFile :=
  if isFinal then
    let st := if st.inReplace && st.searchMatchIndex ≠ -1 then st.store else st
    let replacements := st.replacements.insertionSort Replacement.before
    ⟨rebuild originalContent 0 replacements, replacements.map Replacement.start⟩
  else ⟨st.result, st.replacements.map Replacement.start⟩

def constructNewFileContentV1 (diffContent originalContent : Text) (isFinal : Bool) :
    Except Text NewFile :=
  let isKnown (line : Text) := isSearchBlockStart line || isSearchBlockEnd line ||
    isReplaceBlockEnd line
  let lines := dropPartialMarker isKnown (splitLines diffContent)
  (lines.foldlM (processLineV1 originalContent) .start).map (StateV1.finish originalContent isFinal)

/-! ## Reading a block -/

/-- The state before a block. -/
def StateV1.between (result : Text) (lastProcessedIndex : ℤ) (replacements : List Replacement) :
    StateV1 :=
  ⟨result, lastProcessedIndex, [], [], false, false, -1, -1, replacements, false⟩

section

variable {originalContent : Text}

theorem processLineV1_start {line : Text} (h : isSearchBlockStart line = true) (st : StateV1) :
    processLineV1 originalContent st line
      = .ok { st with inSearch := true, currentSearchContent := [], currentReplaceContent := [] } :=
  if_pos h

theorem processLineV1_middle {line : Text} (h : isSearchBlockEnd line = true) {st : StateV1}
    (hpending : st.pendingOutOfOrderReplacement = false) :
    ∃ result : ℤ × ℤ → Text, processLineV1 originalContent st line
      = (locateV1 originalContent st.currentSearchContent st.lastProcessedIndex).map fun found =>
          { st with
            inSearch := false
            inReplace := true
            searchMatchIndex := found.1
            searchEndIndex := found.2
            pendingOutOfOrderReplacement := decide (found.1 < st.lastProcessedIndex)
            result := result found } := by
  refine ⟨fun found => if found.1 < st.lastProcessedIndex then st.result
    else st.result ++ slice originalContent st.lastProcessedIndex found.1, ?_⟩
  simp only [processLineV1, not_start_of_isSearchBlockEnd h, h, hpending, Bool.false_eq_true,
    if_false, if_true, Bool.false_or, decide_eq_true_eq]

theorem processLineV1_end {line : Text} (h : isReplaceBlockEnd line = true) {st : StateV1}
    (hmatch : st.searchMatchIndex ≠ -1) : processLineV1 originalContent st line = .ok st.store := by
  obtain ⟨hstart, hend⟩ := not_search_of_isReplaceBlockEnd h
  simp only [processLineV1, hstart, hend, h, hmatch, Bool.false_eq_true, if_false, if_true]

variable {lines : List Text}

section

variable (hlines : ∀ line ∈ lines, Unmarked line)
include hlines

/-- Blank lines between the blocks are skipped. -/
theorem foldlM_blanks {st : StateV1} (hsearch : st.inSearch = false)
    (hreplace : st.inReplace = false) :
    lines.foldlM (processLineV1 originalContent) st = .ok st := by
  induction lines with
  | nil => rfl
  | cons line rest ih =>
    obtain ⟨hstart, hend, hfinish⟩ := hlines line mem_cons_self
    have hline : processLineV1 originalContent st line = .ok st := by
      simp only [processLineV1, hstart, hend, hfinish, hsearch, hreplace, Bool.false_eq_true,
        if_false]
    rw [foldlM_cons, hline]
    exact ih fun l hl => hlines l (mem_cons_of_mem _ hl)

theorem foldlM_search {st : StateV1} (hsearch : st.inSearch = true) :
    lines.foldlM (processLineV1 originalContent) st
      = .ok { st with currentSearchContent := st.currentSearchContent ++ endLines lines } := by
  induction lines generalizing st with
  | nil =>
    rw [endLines, flatMap_nil, append_nil]
    rfl
  | cons line rest ih =>
    obtain ⟨hstart, hend, hfinish⟩ := hlines line mem_cons_self
    have hline : processLineV1 originalContent st line = .ok { st with
        currentSearchContent := st.currentSearchContent ++ (line ++ [newline]) } := by
      simp only [processLineV1, hstart, hend, hfinish, hsearch, Bool.false_eq_true, if_false,
        if_true]
    have hrest := @ih (fun l hl => hlines l (mem_cons_of_mem _ hl))
      { st with currentSearchContent := st.currentSearchContent ++ (line ++ [newline]) } hsearch
    rw [foldlM_cons, hline]
    refine hrest.trans ?_
    rw [append_assoc]
    rfl

theorem foldlM_replace {st : StateV1} (hsearch : st.inSearch = false)
    (hreplace : st.inReplace = true) :
    ∃ result, lines.foldlM (processLineV1 originalContent) st
      = .ok { st with
          currentReplaceContent := st.currentReplaceContent ++ endLines lines, result } := by
  induction lines generalizing st with
  | nil =>
    refine ⟨st.result, ?_⟩
    rw [endLines, flatMap_nil, append_nil]
    rfl
  | cons line rest ih =>
    obtain ⟨hstart, hend, hfinish⟩ := hlines line mem_cons_self
    obtain ⟨result, hline⟩ : ∃ result, processLineV1 originalContent st line = .ok { st with
        currentReplaceContent := st.currentReplaceContent ++ (line ++ [newline]), result } := by
      simp only [processLineV1, hstart, hend, hfinish, hsearch, hreplace, Bool.false_eq_true,
        if_false, if_true]
      exact ⟨_, rfl⟩
    obtain ⟨result', hrest⟩ := @ih (fun l hl => hlines l (mem_cons_of_mem _ hl))
      { st with
        currentReplaceContent := st.currentReplaceContent ++ (line ++ [newline]), result }
      hsearch hreplace
    refine ⟨result', ?_⟩
    rw [foldlM_cons, hline]
    refine hrest.trans ?_
    rw [append_assoc]
    rfl

end

/-- The place after a block that was found. -/
def placeAfter (lastProcessedIndex : ℕ) (found : ℕ × ℕ) : ℕ :=
  if found.1 < lastProcessedIndex then lastProcessedIndex else found.2

/-- **Step lemma.**  A block is stored where it is found, and the place advances if that is not
before it. -/
theorem foldlM_block {b : Block} (hb : b.WellFormed) (result : Text) (last : ℕ)
    (replacements : List Replacement) :
    (findInFile originalContent b.searchContent last = none →
      ∃ error, b.encode.foldlM (processLineV1 originalContent)
        (.between result last replacements) = .error error) ∧
    ∀ found, findInFile originalContent b.searchContent last = some found →
      ∃ result', b.encode.foldlM (processLineV1 originalContent)
        (.between result last replacements)
          = .ok (.between result' (placeAfter last found)
              (replacements ++ [⟨found.1, found.2, endLines b.replace⟩])) := by
  have hsearchLines : ∀ line ∈ b.search, Unmarked line := fun line hl => (hb.search line hl).2
  have hreplaceLines : ∀ line ∈ b.replace, Unmarked line := fun line hl => (hb.replace line hl).2
  have hlocate : locateV1 originalContent b.searchContent last
      = match findInFile originalContent b.searchContent last with
        | some (start, stop) => .ok (start, stop)
        | none => .error (searchError b.searchContent
            (text "does not match anything in the file.")) :=
    if_neg hb.searchContent_ne
  -- up to the marker in the middle
  let st : StateV1 :=
    { StateV1.between result last replacements with
      inSearch := true, currentSearchContent := b.searchContent }
  have hfront : (b.blanks ++ b.startMarker :: b.search).foldlM (processLineV1 originalContent)
      (.between result last replacements) = .ok st :=
    calc (b.blanks ++ b.startMarker :: b.search).foldlM (processLineV1 originalContent)
          (.between result last replacements)
        = (b.startMarker :: b.search).foldlM (processLineV1 originalContent)
            (.between result last replacements) :=
          foldlM_append_ok (foldlM_blanks (fun line hl => (hb.blanks line hl).unmarked) rfl rfl)
      _ = _ := foldlM_cons_ok (processLineV1_start hb.start _)
      _ = .ok st := foldlM_search hsearchLines rfl
  obtain ⟨results, hmiddle⟩ := @processLineV1_middle originalContent _ hb.middle st rfl
  have hmiddle' := hmiddle.trans (congrArg (Except.map _) hlocate)
  constructor
  · intro hnone
    rw [hnone] at hmiddle'
    exact ⟨_, foldlM_append_error ((foldlM_append_ok hfront).trans (foldlM_cons_error hmiddle'))⟩
  · rintro ⟨start, stop⟩ hfound
    rw [hfound] at hmiddle'
    obtain ⟨result', hreplace⟩ := @foldlM_replace originalContent _ hreplaceLines
      { st with
        inSearch := false
        inReplace := true
        searchMatchIndex := start
        searchEndIndex := stop
        pendingOutOfOrderReplacement := decide ((start : ℤ) < last)
        result := results (start, stop) } rfl rfl
    have hfinish := @processLineV1_end originalContent _ hb.finish
      { st with
        inSearch := false
        inReplace := true
        currentReplaceContent := endLines b.replace
        searchMatchIndex := start
        searchEndIndex := stop
        pendingOutOfOrderReplacement := decide ((start : ℤ) < last)
        result := result' } (by show (start : ℤ) ≠ -1; omega)
    refine ⟨result', ?_⟩
    calc b.encode.foldlM (processLineV1 originalContent) (.between result last replacements)
        = [b.endMarker].foldlM (processLineV1 originalContent) _ :=
          foldlM_append_ok ((foldlM_append_ok hfront).trans
            ((foldlM_cons_ok hmiddle').trans hreplace))
      _ = .ok _ := foldlM_cons_ok hfinish
      _ = _ := by
          have hplace : (if decide ((start : ℤ) < last) = true then (last : ℤ) else stop)
              = placeAfter last (start, stop) := by
            unfold placeAfter
            by_cases hbefore : start < last
            · rw [if_pos hbefore, if_pos (decide_eq_true (by omega))]
            · rw [if_neg hbefore, if_neg (by simpa using hbefore)]
          rw [← hplace]
          rfl

/-- The replacements of blocks, if every one of them is found. -/
def locateBlocks (originalContent : Text) : ℕ → List Block → Option (List Replacement)
  | _, [] => some []
  | last, b :: rest =>
    (findInFile originalContent b.searchContent last).bind fun found =>
      (locateBlocks originalContent (placeAfter last found) rest).map
        (⟨found.1, found.2, endLines b.replace⟩ :: ·)

theorem locateBlocks_length {blocks : List Block} {last : ℕ} {replacements : List Replacement}
    (h : locateBlocks originalContent last blocks = some replacements) :
    replacements.length = blocks.length := by
  induction blocks generalizing last replacements with
  | nil =>
    obtain rfl := Option.some.inj h
    rfl
  | cons b rest ih =>
    obtain ⟨found, -, hrest⟩ := Option.bind_eq_some_iff.mp h
    obtain ⟨others, hothers, rfl⟩ := Option.map_eq_some_iff.mp hrest
    exact congrArg Nat.succ (ih hothers)

/-- **Run lemma.**  The blocks are stored one after the other. -/
theorem foldlM_blocks {blocks : List Block} (hblocks : ∀ b ∈ blocks, b.WellFormed)
    (result : Text) (last : ℕ) (replacements : List Replacement) :
    (locateBlocks originalContent last blocks = none →
      ∃ error, (blocks.flatMap Block.encode).foldlM (processLineV1 originalContent)
        (.between result last replacements) = .error error) ∧
    ∀ found, locateBlocks originalContent last blocks = some found →
      ∃ result' last', (blocks.flatMap Block.encode).foldlM (processLineV1 originalContent)
        (.between result last replacements)
          = .ok (.between result' last' (replacements ++ found)) := by
  induction blocks generalizing result last replacements with
  | nil =>
    refine ⟨fun hnone => absurd hnone (by simp [locateBlocks]), fun found hfound => ?_⟩
    obtain rfl := Option.some.inj hfound
    rw [append_nil]
    exact ⟨result, last, rfl⟩
  | cons b rest ih =>
    obtain ⟨hmissing, hfound⟩ := @foldlM_block originalContent b
      (hblocks b mem_cons_self) result last replacements
    have hrest := ih fun b' hb' => hblocks b' (mem_cons_of_mem _ hb')
    rw [locateBlocks, flatMap_cons]
    cases hfind : findInFile originalContent b.searchContent last with
    | none =>
      refine ⟨fun _ => ?_, fun found h => absurd h (by simp)⟩
      obtain ⟨error, hblock⟩ := hmissing hfind
      exact ⟨error, foldlM_append_error hblock⟩
    | some found =>
      obtain ⟨result', hblock⟩ := hfound found hfind
      obtain ⟨hfail, hdone⟩ := hrest result' (placeAfter last found)
        (replacements ++ [⟨found.1, found.2, endLines b.replace⟩])
      rw [Option.bind_some]
      constructor
      · intro hnone
        obtain ⟨error, hloop⟩ := hfail (Option.map_eq_none_iff.mp hnone)
        exact ⟨error, (foldlM_append_ok hblock).trans hloop⟩
      · intro replacements' hsome
        obtain ⟨others, hothers, rfl⟩ := Option.map_eq_some_iff.mp hsome
        obtain ⟨result'', last', hloop⟩ := hdone others hothers
        refine ⟨result'', last', (foldlM_append_ok hblock).trans (hloop.trans ?_)⟩
        rw [append_assoc]
        rfl

end

/-- The file is rebuilt from the replacements of the blocks, in the order of their places. -/
theorem constructNewFileContentV1_blocks {originalContent : Text} {blocks : List Block}
    {trailing : List Text} (hblocks : ∀ b ∈ blocks, b.WellFormed)
    (htrailing : ∀ line ∈ trailing, IsBlank line) :
    (locateBlocks originalContent 0 blocks = none → ∃ error,
      constructNewFileContentV1 (encodeDiff blocks trailing) originalContent true = .error error) ∧
    ∀ replacements, locateBlocks originalContent 0 blocks = some replacements →
      constructNewFileContentV1 (encodeDiff blocks trailing) originalContent true
        = .ok ⟨rebuild originalContent 0 (replacements.insertionSort Replacement.before),
            (replacements.insertionSort Replacement.before).map Replacement.start⟩ := by
  obtain ⟨rest, hrest, -, hsplit⟩ := splitLines_encodeDiff hblocks htrailing
  have hknown : ∀ b ∈ blocks, (isSearchBlockStart b.endMarker || isSearchBlockEnd b.endMarker ||
      isReplaceBlockEnd b.endMarker) = true := by
    intro b hb
    rw [(hblocks b hb).finish, Bool.or_true]
  obtain ⟨hmissing, hfound⟩ := @foldlM_blocks originalContent _ hblocks [] 0 []
  rw [constructNewFileContentV1, hsplit, dropPartialMarker_eq hrest fun _ b hb =>
    hknown b (mem_of_getLast? hb)]
  constructor
  · intro hnone
    obtain ⟨error, hloop⟩ := hmissing hnone
    refine ⟨error, ?_⟩
    have hall : (blocks.flatMap Block.encode ++ rest).foldlM (processLineV1 originalContent)
        .start = .error error := foldlM_append_error hloop
    rw [hall]
    rfl
  · intro replacements hsome
    obtain ⟨result, last, hloop⟩ := hfound replacements hsome
    have hall : (blocks.flatMap Block.encode ++ rest).foldlM (processLineV1 originalContent)
        .start = .ok (.between result last replacements) :=
      (foldlM_append_ok hloop).trans
        (foldlM_blanks (fun line hl => (hrest line hl).unmarked) rfl rfl)
    rw [hall]
    rfl

end Lumi.SearchReplace
