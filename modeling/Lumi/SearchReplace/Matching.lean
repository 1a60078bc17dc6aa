import Lumi.Lib.JsText
import Mathlib.Data.List.TakeDrop

/-!
# Markers and matches of SEARCH/REPLACE diffs

A SEARCH text is looked for from a position on: as it is, then line by line without white
space at the ends, then by its first and last line only.  The two fallbacks find whole lines,
and none of the three finds anything before the position.
-/

namespace Lumi.SearchReplace

open Js List Option

def searchBlockStart : Text := text "------- SEARCH"

def searchBlockEnd : Text := text "======="

def replaceBlockEnd : Text := text "+++++++ REPLACE"

/-- Three characters or more, and then the ending. -/
def isMark (c : UInt16) (isEnding : Text → Bool) (line : Text) : Bool :=
  3 ≤ (line.takeWhile (· = c)).length && isEnding (line.dropWhile (· = c))

/-- `/^[-]{3,} SEARCH>?$/` or `/^[<]{3,} SEARCH>?$/`. -/
def isSearchBlockStart (line : Text) : Bool :=
  let isEnding (s : Text) := s = text " SEARCH" || s = text " SEARCH>"
  isMark 0x2D isEnding line || isMark 0x3C isEnding line

/-- `/^[=]{3,}$/`. -/
def isSearchBlockEnd (line : Text) : Bool := isMark 0x3D (· = []) line

/-- `/^[+]{3,} REPLACE>?$/` or `/^[>]{3,} REPLACE>?$/`. -/
def isReplaceBlockEnd (line : Text) : Bool :=
  let isEnding (s : Text) := s = text " REPLACE" || s = text " REPLACE>"
  isMark 0x2B isEnding line || isMark 0x3E isEnding line

/-- The line begins like a marker. -/
def beginsLikeMarker (line : Text) : Bool :=
  startsWith line [0x2D] || startsWith line [0x3C] || startsWith line [0x3D] ||
    startsWith line [0x2B] || startsWith line [0x3E]

variable {line : Text}

theorem head_of_isMark {c : UInt16} {isEnding : Text → Bool} (h : isMark c isEnding line = true) :
    line.head? = some c := by
  obtain ⟨hlength, -⟩ := (Bool.and_eq_true_iff).mp h
  have hlength := of_decide_eq_true hlength
  cases line with
  | nil => exact absurd hlength (Nat.not_succ_le_zero _)
  | cons d rest =>
    by_cases hd : d = c
    · rw [hd]
      rfl
    · rw [takeWhile_cons, if_neg (by simpa using hd)] at hlength
      exact absurd hlength (Nat.not_succ_le_zero _)

theorem head_of_isSearchBlockStart (h : isSearchBlockStart line = true) :
    line.head? = some 0x2D ∨ line.head? = some 0x3C := by
  rcases Bool.or_eq_true_iff.mp h with h | h
  · exact .inl (head_of_isMark h)
  · exact .inr (head_of_isMark h)

theorem head_of_isSearchBlockEnd (h : isSearchBlockEnd line = true) :
    line.head? = some 0x3D := head_of_isMark h

theorem head_of_isReplaceBlockEnd (h : isReplaceBlockEnd line = true) :
    line.head? = some 0x2B ∨ line.head? = some 0x3E := by
  rcases Bool.or_eq_true_iff.mp h with h | h
  · exact .inl (head_of_isMark h)
  · exact .inr (head_of_isMark h)

theorem not_start_of_isSearchBlockEnd (h : isSearchBlockEnd line = true) :
    isSearchBlockStart line = false := by
  refine Bool.eq_false_iff.mpr fun hstart => ?_
  have hhead := head_of_isSearchBlockEnd h
  rcases head_of_isSearchBlockStart hstart with hother | hother
  · exact absurd (hhead.symm.trans hother) (by decide)
  · exact absurd (hhead.symm.trans hother) (by decide)

theorem not_search_of_isReplaceBlockEnd (h : isReplaceBlockEnd line = true) :
    isSearchBlockStart line = false ∧ isSearchBlockEnd line = false := by
  have hhead := head_of_isReplaceBlockEnd h
  constructor
  · refine Bool.eq_false_iff.mpr fun hstart => ?_
    have hother := head_of_isSearchBlockStart hstart
    rcases hhead with hhead | hhead
    · rw [hhead] at hother
      exact absurd hother (by decide)
    · rw [hhead] at hother
      exact absurd hother (by decide)
  · refine Bool.eq_false_iff.mpr fun hend => ?_
    have hother := head_of_isSearchBlockEnd hend
    rcases hhead with hhead | hhead
    · exact absurd (hhead.symm.trans hother) (by decide)
    · exact absurd (hhead.symm.trans hother) (by decide)

/-- No marker is recognised as the line. -/
def Unmarked (line : Text) : Prop :=
  isSearchBlockStart line = false ∧ isSearchBlockEnd line = false ∧ isReplaceBlockEnd line = false

instance (line : Text) : Decidable (Unmarked line) := inferInstanceAs (Decidable (_ ∧ _))

/-- A line that does not begin like a marker is none. -/
theorem unmarked_of_head (h : ∀ c ∈ line.head?, c ∉ [0x2D, 0x3C, 0x3D, 0x2B, 0x3E]) :
    Unmarked line := by
  refine ⟨?_, ?_, ?_⟩
  · refine Bool.eq_false_iff.mpr fun hmark => ?_
    rcases head_of_isSearchBlockStart hmark with hhead | hhead
    · exact h _ hhead (by decide)
    · exact h _ hhead (by decide)
  · exact Bool.eq_false_iff.mpr fun hmark => h _ (head_of_isSearchBlockEnd hmark) (by decide)
  · refine Bool.eq_false_iff.mpr fun hmark => ?_
    rcases head_of_isReplaceBlockEnd hmark with hhead | hhead
    · exact h _ hhead (by decide)
    · exact h _ hhead (by decide)

/-! ## Matches -/

/-- The first line that does not begin before `startIndex`, from `currentIndex` on. -/
def startLine (startIndex : ℕ) : ℕ → List Text → ℕ
  | _, [] => 0
  | currentIndex, line :: rest =>
    if currentIndex < startIndex then
      startLine startIndex (currentIndex + line.length + 1) rest + 1
    else 0

/-- The loop over the lines, from the one where `startIndex` falls: the first at which `size`
lines match, as a range of characters. -/
def findLines (originalLines : List Text) (size startIndex : ℕ) (isMatch : ℕ → Bool) :
    Option (ℕ × ℕ) :=
  let startLineNum := startLine startIndex 0 originalLines
  ((List.range (originalLines.length + 1 - size)).find? fun i => startLineNum ≤ i && isMatch i).map
    fun i => (lineOffset originalLines i, lineOffset originalLines (i + size))

section

variable (originalContent searchContent : Text)

def lineTrimmedFallbackMatch (startIndex : ℕ) : Option (ℕ × ℕ) :=
  let originalLines := splitLines originalContent
  let searchLines := textLines searchContent
  findLines originalLines searchLines.length startIndex fun i =>
    ((originalLines.drop i).take searchLines.length).map trim = searchLines.map trim

def blockAnchorFallbackMatch (startIndex : ℕ) : Option (ℕ × ℕ) :=
  let originalLines := splitLines originalContent
  if (splitLines searchContent).length < 3 then none
  else
    let searchLines := textLines searchContent
    findLines originalLines searchLines.length startIndex fun i =>
      originalLines[i]?.map trim = searchLines.head?.map trim &&
        originalLines[i + searchLines.length - 1]?.map trim = searchLines.getLast?.map trim

/-- The exact match and the two fallbacks, as both constructors try them. -/
def findMatch (lastProcessedIndex : ℕ) : Option (ℕ × ℕ) :=
  ((indexOf originalContent searchContent lastProcessedIndex).map
    fun i => (i, i + searchContent.length)).or
  ((lineTrimmedFallbackMatch originalContent searchContent lastProcessedIndex).or
    (blockAnchorFallbackMatch originalContent searchContent lastProcessedIndex))

end

/-- The line where the search starts does not begin before the position. -/
theorem le_lineOffset_startLine (startIndex currentIndex : ℕ) (lines : List Text)
    (hlt : startLine startIndex currentIndex lines < lines.length) :
    startIndex ≤ currentIndex + lineOffset lines (startLine startIndex currentIndex lines) := by
  induction lines generalizing currentIndex with
  | nil => exact absurd hlt (Nat.not_lt_zero _)
  | cons line rest ih =>
    rw [startLine] at hlt ⊢
    split at hlt
    · next hbefore =>
      have hrest := ih (currentIndex + line.length + 1) (Nat.lt_of_succ_lt_succ hlt)
      rw [if_pos hbefore]
      have hoffset : lineOffset (line :: rest)
          (startLine startIndex (currentIndex + line.length + 1) rest + 1) = line.length + 1 +
            lineOffset rest (startLine startIndex (currentIndex + line.length + 1) rest) := rfl
      omega
    · next hstop =>
      rw [if_neg hstop]
      omega

variable {lines : List Text}

/-- What the loop finds is a stretch of lines that matches, from the position on. -/
theorem findLines_eq_some {size startIndex : ℕ} {isMatch : ℕ → Bool} (hsize : 0 < size)
    {range : ℕ × ℕ} (h : findLines lines size startIndex isMatch = some range) :
    ∃ i, isMatch i = true ∧ i + size ≤ lines.length ∧ startIndex ≤ lineOffset lines i ∧
      range = (lineOffset lines i, lineOffset lines (i + size)) := by
  obtain ⟨i, hfound, rfl⟩ := map_eq_some_iff.mp h
  obtain ⟨hmatch, hrange, -⟩ := find?_range_eq_some.mp hfound
  obtain ⟨hstart, hmatch⟩ := Bool.and_eq_true_iff.mp hmatch
  have hstart := of_decide_eq_true hstart
  have hbound := mem_range.mp hrange
  have hoffset := le_lineOffset_startLine startIndex 0 lines (by omega)
  have hmono := @lineOffset_mono lines _ _ hstart
  exact ⟨i, hmatch, by omega, by omega, rfl⟩

/-- Where a match lies: the text itself stands there, or as many whole lines lie there. -/
theorem findMatch_cases {originalContent searchContent : Text} {lastProcessedIndex : ℕ}
    {found : ℕ × ℕ} (hsize : 0 < (textLines searchContent).length)
    (h : findMatch originalContent searchContent lastProcessedIndex = some found) :
    lastProcessedIndex ≤ found.1 ∧
      ((StandsAt originalContent searchContent found.1 ∧
        found.2 = found.1 + searchContent.length) ∨
      ∃ i, i + (textLines searchContent).length ≤ (splitLines originalContent).length ∧
        found = (lineOffset (splitLines originalContent) i,
          lineOffset (splitLines originalContent) (i + (textLines searchContent).length))) := by
  have hne : searchContent ≠ [] := by
    rintro rfl
    exact absurd hsize (by decide)
  rcases or_eq_some_iff.mp h with hexact | ⟨-, h⟩
  · obtain ⟨i, hi, rfl⟩ := map_eq_some_iff.mp hexact
    obtain ⟨hle, hstands, -⟩ := (indexOf_eq_some_iff hne).mp hi
    exact ⟨hle, .inl ⟨hstands, rfl⟩⟩
  · have hlines : ∃ isMatch, findLines (splitLines originalContent) (textLines searchContent).length
        lastProcessedIndex isMatch = some found := by
      rcases or_eq_some_iff.mp h with htrimmed | ⟨-, hanchor⟩
      · exact ⟨_, htrimmed⟩
      · unfold blockAnchorFallbackMatch at hanchor
        split at hanchor
        · exact absurd hanchor (by simp)
        · exact ⟨_, hanchor⟩
    obtain ⟨isMatch, hlines⟩ := hlines
    obtain ⟨i, -, hbound, hle, rfl⟩ := findLines_eq_some hsize hlines
    exact ⟨hle, .inr ⟨i, hbound, rfl⟩⟩

theorem findMatch_le {originalContent searchContent : Text} {lastProcessedIndex : ℕ}
    {found : ℕ × ℕ} (hsize : 0 < (textLines searchContent).length)
    (h : findMatch originalContent searchContent lastProcessedIndex = some found) :
    lastProcessedIndex ≤ found.1 ∧ found.1 ≤ found.2 := by
  obtain ⟨hle, ⟨-, hstop⟩ | ⟨i, -, rfl⟩⟩ := findMatch_cases hsize h
  · exact ⟨hle, hstop ▸ Nat.le_add_right _ _⟩
  · exact ⟨hle, lineOffset_mono (Nat.le_add_right _ _)⟩

/-! ## Where nothing is found -/

/-- The lines from `i` on begin and end like the search lines, up to white space at their ends. -/
def AnchorsAt (originalLines searchLines : List Text) (i : ℕ) : Prop :=
  originalLines[i]?.map trim = searchLines.head?.map trim ∧
    originalLines[i + searchLines.length - 1]?.map trim = searchLines.getLast?.map trim

instance (originalLines searchLines : List Text) (i : ℕ) :
    Decidable (AnchorsAt originalLines searchLines i) := inferInstanceAs (Decidable (_ ∧ _))

theorem startLine_le_iff {startIndex : ℕ} (currentIndex : ℕ) {i : ℕ} (hi : i < lines.length) :
    startLine startIndex currentIndex lines ≤ i ↔
      startIndex ≤ currentIndex + lineOffset lines i := by
  constructor
  · intro hle
    have hstart := le_lineOffset_startLine startIndex currentIndex lines (by omega)
    have hmono := @lineOffset_mono lines _ _ hle
    omega
  · intro hle
    induction lines generalizing currentIndex i with
    | nil => exact absurd hi (Nat.not_lt_zero _)
    | cons line rest ih =>
      rw [startLine]
      split
      · next hbefore =>
        cases i with
        | zero =>
          have hzero : lineOffset (line :: rest) 0 = 0 := rfl
          omega
        | succ i =>
          have hoffset : lineOffset (line :: rest) (i + 1)
              = line.length + 1 + lineOffset rest i := rfl
          have hrest := ih (currentIndex + line.length + 1) (Nat.lt_of_succ_lt_succ hi)
            (by omega)
          omega
      · exact Nat.zero_le _

theorem findLines_eq_none_iff {size startIndex : ℕ} {isMatch : ℕ → Bool} (hsize : 0 < size) :
    findLines lines size startIndex isMatch = none ↔
      ∀ i, i + size ≤ lines.length → startIndex ≤ lineOffset lines i → isMatch i = false := by
  rw [findLines, map_eq_none_iff, find?_range_eq_none]
  simp only [Bool.not_eq_true', Bool.and_eq_false_iff, decide_eq_false_iff_not]
  constructor
  · intro h i hi hstart
    rcases h i (by omega) with hno | hno
    · exact absurd ((startLine_le_iff 0 (by omega)).mpr (by omega)) hno
    · exact hno
  · intro h i hi
    by_cases hstart : startLine startIndex 0 lines ≤ i
    · have hle := (startLine_le_iff 0 (by omega)).mp hstart
      exact .inr (h i (by omega) (by omega))
    · exact .inl hstart

/-- Lines that match up to white space begin and end so. -/
theorem anchorsAt_of_trimmed {originalLines searchLines : List Text} {i : ℕ}
    (hne : searchLines ≠ [])
    (h : ((originalLines.drop i).take searchLines.length).map trim = searchLines.map trim) :
    AnchorsAt originalLines searchLines i := by
  have hpos := length_pos_of_ne_nil hne
  have hline : ∀ j < searchLines.length,
      originalLines[i + j]?.map trim = searchLines[j]?.map trim := by
    intro j hj
    have hj' := congrArg (·[j]?) h
    simpa [getElem?_take, hj] using hj'
  constructor
  · rw [head?_eq_getElem?]
    exact hline 0 hpos
  · rw [getLast?_eq_getElem?, Nat.add_sub_assoc hpos]
    exact hline _ (by omega)

theorem trimmed_of_anchorsAt {originalLines : List Text} {searchLine : Text} {i : ℕ}
    (h : AnchorsAt originalLines [searchLine] i) :
    ((originalLines.drop i).take 1).map trim = [trim searchLine] := by
  obtain ⟨line, hline, htrim⟩ := map_eq_some_iff.mp h.1
  obtain ⟨hi, rfl⟩ := List.getElem?_eq_some_iff.mp hline
  rw [take_one_drop_eq_of_lt_length hi, map_singleton, get_eq_getElem, htrim]

/-- The fallbacks find nothing just where no lines begin and end like the search lines. -/
theorem fallbacks_eq_none_iff {originalContent : Text} {searchLines : List Text}
    (hne : searchLines ≠ []) (hlines : ∀ line ∈ searchLines, newline ∉ line) (startIndex : ℕ) :
    (lineTrimmedFallbackMatch originalContent (endLines searchLines) startIndex = none ∧
        blockAnchorFallbackMatch originalContent (endLines searchLines) startIndex = none) ↔
      ∀ i, i + searchLines.length ≤ (splitLines originalContent).length →
        startIndex ≤ lineOffset (splitLines originalContent) i →
        ¬ AnchorsAt (splitLines originalContent) searchLines i := by
  have hsize := length_pos_of_ne_nil hne
  rw [lineTrimmedFallbackMatch, blockAnchorFallbackMatch, textLines_endLines hlines,
    splitLines_endLines hlines, length_append, length_singleton,
    findLines_eq_none_iff hsize]
  constructor
  · rintro ⟨htrimmed, hanchor⟩ i hi hstart hmatch
    by_cases hshort : searchLines.length + 1 < 3
    · obtain ⟨searchLine, rfl⟩ : ∃ searchLine, searchLines = [searchLine] :=
        length_eq_one_iff.mp (by omega)
      exact of_decide_eq_false (htrimmed i hi hstart) (trimmed_of_anchorsAt hmatch)
    · rw [if_neg hshort, findLines_eq_none_iff hsize] at hanchor
      have hno := hanchor i hi hstart
      rw [Bool.and_eq_false_iff, decide_eq_false_iff_not, decide_eq_false_iff_not] at hno
      rcases hno with hno | hno
      · exact hno hmatch.1
      · exact hno hmatch.2
  · intro h
    refine ⟨fun i hi hstart => decide_eq_false fun hmatch =>
      h i hi hstart (anchorsAt_of_trimmed hne hmatch), ?_⟩
    split
    · rfl
    · refine (findLines_eq_none_iff hsize).mpr fun i hi hstart => ?_
      refine Bool.eq_false_iff.mpr fun hmatch => ?_
      obtain ⟨hfirst, hlast⟩ := Bool.and_eq_true_iff.mp hmatch
      exact h i hi hstart ⟨of_decide_eq_true hfirst, of_decide_eq_true hlast⟩

end Lumi.SearchReplace
