import Lumi.SearchReplace.Matching
import Mathlib.Data.List.TakeWhile

/-!
# Diffs of complete blocks

A diff is a sequence of blocks with blank lines between them.  Both constructors read it line
by line, after they have dropped a last line that looks like the beginning of a marker; which
markers they know there is what they differ in.
-/

namespace Lumi.SearchReplace

open Js List

/-- The lines without the last one, where it begins like a marker and is not known as one. -/
def dropPartialMarker (isKnown : Text → Bool) (lines : List Text) : List Text :=
  if lines.getLast?.any fun line => beginsLikeMarker line && !isKnown line then lines.dropLast
  else lines

/-- A block, with the blank lines before it and its markers as they are written. -/
structure Block where
  blanks : List Text
  startMarker : Text
  search : List Text
  middleMarker : Text
  replace : List Text
  endMarker : Text

/-- The lines of a diff: blocks, and what follows the last. -/
def Block.encode (b : Block) : List Text :=
  b.blanks ++ b.startMarker :: b.search ++ b.middleMarker :: b.replace ++ [b.endMarker]

def encodeDiff (blocks : List Block) (trailing : List Text) : Text :=
  joinLines (blocks.flatMap Block.encode ++ trailing)

/-- A line of white space. -/
def IsBlank (line : Text) : Prop := newline ∉ line ∧ ∀ c ∈ line, isWhiteSpace c = true

instance (line : Text) : Decidable (IsBlank line) :=
  @instDecidableAnd _ _ inferInstance (List.decidableBAll _ line)

/-- The markers are recognised, and nothing else in the block is. -/
structure Block.WellFormed (b : Block) : Prop where
  blanks : ∀ line ∈ b.blanks, IsBlank line
  start : isSearchBlockStart b.startMarker = true
  middle : isSearchBlockEnd b.middleMarker = true
  finish : isReplaceBlockEnd b.endMarker = true
  nonempty : b.search ≠ []
  search : ∀ line ∈ b.search, newline ∉ line ∧ Unmarked line
  replace : ∀ line ∈ b.replace, newline ∉ line ∧ Unmarked line

def Block.searchContent (b : Block) : Text := endLines b.search

variable {b : Block}

theorem Block.WellFormed.searchContent_ne (h : b.WellFormed) : b.searchContent ≠ [] := by
  obtain ⟨line, rest, hlines⟩ := exists_cons_of_ne_nil h.nonempty
  rw [Block.searchContent, hlines, endLines, flatMap_cons]
  simp

theorem Block.WellFormed.textLines_searchContent (h : b.WellFormed) :
    textLines b.searchContent = b.search :=
  textLines_endLines fun line hline => (h.search line hline).1

theorem Block.WellFormed.length_searchContent (h : b.WellFormed) :
    0 < (textLines b.searchContent).length := by
  rw [h.textLines_searchContent]
  exact length_pos_of_ne_nil h.nonempty

/-! ## Loops that may throw -/

section

variable {α β : Type*} {f : β → α → Except Text β} {xs ys : List α} {x : α} {s s' : β} {e : Text}

theorem foldlM_cons_ok (h : f s x = .ok s') : (x :: xs).foldlM f s = xs.foldlM f s' := by
  rw [foldlM_cons, h]
  rfl

theorem foldlM_cons_error (h : f s x = .error e) : (x :: xs).foldlM f s = .error e := by
  rw [foldlM_cons, h]
  rfl

theorem foldlM_append_ok (h : xs.foldlM f s = .ok s') : (xs ++ ys).foldlM f s = ys.foldlM f s' := by
  rw [foldlM_append, h]
  rfl

theorem foldlM_append_error (h : xs.foldlM f s = .error e) : (xs ++ ys).foldlM f s = .error e := by
  rw [foldlM_append, h]
  rfl

end

/-! ## Lines -/

variable {line : Text}

theorem IsBlank.trim (h : IsBlank line) : trim line = [] := by
  rw [Js.trim, dropWhile_eq_nil_iff.mpr h.2]
  rfl

theorem IsBlank.head_notMem (h : IsBlank line) :
    ∀ c ∈ line.head?, c ∉ [0x2D, 0x3C, 0x3D, 0x2B, 0x3E] := by
  intro c hc hmark
  have hspace := h.2 c (mem_of_mem_head? hc)
  have hall : ∀ c ∈ [0x2D, 0x3C, 0x3D, 0x2B, 0x3E], isWhiteSpace c = false := by
    simp only [forall_mem_cons]
    exact ⟨rfl, rfl, rfl, rfl, rfl, fun _ h => absurd h not_mem_nil⟩
  rw [hall c hmark] at hspace
  exact absurd hspace (by decide)

theorem IsBlank.unmarked (h : IsBlank line) : Unmarked line :=
  unmarked_of_head h.head_notMem

theorem head_of_startsWith {c : UInt16} (h : startsWith line [c] = true) : line.head? = some c := by
  cases line with
  | nil => exact absurd h Bool.false_ne_true
  | cons d rest => exact congrArg some (eq_of_beq (Bool.and_eq_true_iff.mp h).1).symm

theorem startsWith_of_head {c : UInt16} (h : line.head? = some c) : startsWith line [c] = true := by
  obtain ⟨rest, rfl⟩ := head?_eq_some_iff.mp h
  simp [startsWith]

theorem Block.WellFormed.beginsLikeMarker_endMarker (h : b.WellFormed) :
    beginsLikeMarker b.endMarker = true := by
  rcases head_of_isReplaceBlockEnd h.finish with hhead | hhead
  · simp [beginsLikeMarker, startsWith_of_head hhead]
  · simp [beginsLikeMarker, startsWith_of_head hhead]

theorem IsBlank.not_beginsLikeMarker (h : IsBlank line) : beginsLikeMarker line = false := by
  have hno : ∀ c ∈ [0x2D, 0x3C, 0x3D, 0x2B, 0x3E], startsWith line [c] = false := by
    intro c hc
    refine Bool.eq_false_iff.mpr fun hstarts => ?_
    exact h.head_notMem c (head_of_startsWith hstarts) hc
  simp [beginsLikeMarker, hno]

theorem newline_notMem_of_isMark {c : UInt16} {isEnding : Text → Bool} (hc : newline ≠ c)
    (hending : ∀ s, isEnding s = true → newline ∉ s) (h : isMark c isEnding line = true) :
    newline ∉ line := by
  obtain ⟨-, hend⟩ := Bool.and_eq_true_iff.mp h
  intro hmem
  rw [← takeWhile_append_dropWhile (p := (· = c)) (l := line)] at hmem
  rcases mem_append.mp hmem with hmem | hmem
  · have hrun := mem_takeWhile_imp hmem
    exact hc (of_decide_eq_true hrun)
  · exact hending _ hend hmem

theorem Block.WellFormed.newline_notMem (h : b.WellFormed) : ∀ line ∈ b.encode, newline ∉ line := by
  have hworded : ∀ (s : Text) (short long : Text), newline ∉ short ∧ newline ∉ long →
      (s = short || s = long) = true → newline ∉ s := by
    intro s short long hno hs
    rcases Bool.or_eq_true_iff.mp hs with hs | hs
    · exact of_decide_eq_true hs ▸ hno.1
    · exact of_decide_eq_true hs ▸ hno.2
  have hstart : newline ∉ b.startMarker := by
    rcases Bool.or_eq_true_iff.mp h.start with hmark | hmark
    · exact newline_notMem_of_isMark (by decide) (fun s => hworded s _ _ (by decide)) hmark
    · exact newline_notMem_of_isMark (by decide) (fun s => hworded s _ _ (by decide)) hmark
  have hmiddle : newline ∉ b.middleMarker :=
    newline_notMem_of_isMark (by decide)
      (fun s (hs : decide (s = []) = true) => of_decide_eq_true hs ▸ not_mem_nil) h.middle
  have hfinish : newline ∉ b.endMarker := by
    rcases Bool.or_eq_true_iff.mp h.finish with hmark | hmark
    · exact newline_notMem_of_isMark (by decide) (fun s => hworded s _ _ (by decide)) hmark
    · exact newline_notMem_of_isMark (by decide) (fun s => hworded s _ _ (by decide)) hmark
  intro line hline
  simp only [Block.encode, mem_append, mem_cons, not_mem_nil, or_false] at hline
  rcases hline with ((hline | rfl | hline) | rfl | hline) | rfl
  · exact (h.blanks line hline).1
  · exact hstart
  · exact (h.search line hline).1
  · exact hmiddle
  · exact (h.replace line hline).1
  · exact hfinish

variable {blocks : List Block}

/-- The lines that a constructor reads: those of the blocks, and what is blank. -/
theorem splitLines_encodeDiff {trailing : List Text} (hblocks : ∀ b ∈ blocks, b.WellFormed)
    (htrailing : ∀ line ∈ trailing, IsBlank line) :
    ∃ rest, (∀ line ∈ rest, IsBlank line) ∧ (blocks ≠ [] → rest = trailing) ∧
      splitLines (encodeDiff blocks trailing) = blocks.flatMap Block.encode ++ rest := by
  by_cases hne : blocks.flatMap Block.encode ++ trailing = []
  · refine ⟨[[]], ?_, fun hblocks => ?_, ?_⟩
    · intro line hline
      rw [mem_singleton.mp hline]
      exact ⟨not_mem_nil, fun c hc => absurd hc not_mem_nil⟩
    · obtain ⟨b, rest, rfl⟩ := exists_cons_of_ne_nil hblocks
      simp [Block.encode] at hne
    · rw [encodeDiff, hne, (append_eq_nil_iff.mp hne).1]
      rfl
  · refine ⟨trailing, htrailing, fun _ => rfl, splitLines_joinLines hne fun line hline => ?_⟩
    rcases mem_append.mp hline with hline | hline
    · obtain ⟨b, hb, hline⟩ := mem_flatMap.mp hline
      exact (hblocks b hb).newline_notMem line hline
    · exact (htrailing line hline).1

/-- The last line of a block is its last marker. -/
theorem getLast?_flatMap_encode :
    (blocks.flatMap Block.encode).getLast? = blocks.getLast?.map Block.endMarker := by
  rcases eq_nil_or_concat' blocks with rfl | ⟨front, b, rfl⟩
  · rfl
  · rw [flatMap_append, flatMap_singleton, Block.encode, ← append_assoc,
      getLast?_concat, getLast?_concat]
    rfl

/-- Nothing is dropped where the last line is blank, or a marker that is known. -/
theorem dropPartialMarker_eq {isKnown : Text → Bool} {rest : List Text}
    (hrest : ∀ line ∈ rest, IsBlank line)
    (hknown : rest = [] → ∀ b ∈ blocks.getLast?, isKnown b.endMarker = true) :
    dropPartialMarker isKnown (blocks.flatMap Block.encode ++ rest)
      = blocks.flatMap Block.encode ++ rest := by
  refine if_neg fun hdrop => ?_
  rw [Option.any_eq_true] at hdrop
  obtain ⟨line, hlast, hdrop⟩ := hdrop
  obtain ⟨hbegins, hunknown⟩ := Bool.and_eq_true_iff.mp hdrop
  rw [getLast?_append, Option.or_eq_some_iff] at hlast
  rcases hlast with hlast | ⟨hnone, hlast⟩
  · rw [(hrest line (mem_of_getLast? hlast)).not_beginsLikeMarker] at hbegins
    exact absurd hbegins (by decide)
  · rw [getLast?_flatMap_encode, Option.map_eq_some_iff] at hlast
    obtain ⟨b, hb, rfl⟩ := hlast
    rw [hknown (getLast?_eq_none_iff.mp hnone) b hb] at hunknown
    exact absurd hunknown (by decide)

end Lumi.SearchReplace
