import Lumi.Lib.JsReplace
import Lumi.Unified.Format

/-!
# Replacing text within a range of lines

`replaceContiguous` takes the lines apart at either kind of break, and puts them together again
with newlines.  What it looks for is replaced with `replace` or `replaceAll`, which expand the
patterns of the replacement.  In a text of newlines, the replacement is literal where its patterns
stand for themselves.
-/

namespace Lumi.Unified

open Js List

structure RangeOptions where
  startLine : Option ℤ
  endLine : Option ℤ
  allowMultiple : Bool

namespace RangeOptions

def startIdx (options : RangeOptions) : ℤ :=
  match options.startLine.filter (· ≠ 0) with
  | some startLine => max 0 (startLine - 1)
  | none => 0

def endIdx (options : RangeOptions) (lines : List Text) : ℤ :=
  match options.endLine.filter (· ≠ 0) with
  | some endLine => min lines.length endLine
  | none => lines.length

end RangeOptions

/-- `s.replace(/\r\n/g, "\n")`. -/
def normalizeBreaks : Text → Text
  | [] => []
  | [c] => [c]
  | c :: d :: rest =>
    if c = 0xD ∧ d = newline then newline :: normalizeBreaks rest
    else c :: normalizeBreaks (d :: rest)

structure Replaced where
  newContent : Text
  replacementsMade : ℕ
  deriving DecidableEq

/-- `replaceContiguous`: the new content, or the error. -/
def replaceContiguous (originalText targetContent replacementContent : Text)
    (options : RangeOptions) : Except Text Replaced :=
  let lines := splitBreaks originalText
  let startIdx := options.startIdx
  let endIdx := options.endIdx lines
  let sliceLines := slice lines startIdx endIdx
  let sliceText := joinLines sliceLines
  let targetNormalized := normalizeBreaks targetContent
  let replacementNormalized := normalizeBreaks replacementContent
  let before := slice lines 0 startIdx
  let after := slice lines endIdx lines.length
  if includes sliceText targetNormalized then
    if !options.allowMultiple &&
        indexOf sliceText targetNormalized 0 ≠ lastIndexOf sliceText targetNormalized then
      .error (text "Multiple occurrences of target content found; " ++
        text "specify allowMultiple: true or narrower line range")
    else
      let newSliceText :=
        if options.allowMultiple then replaceAll sliceText targetNormalized replacementNormalized
        else replaceFirst sliceText targetNormalized replacementNormalized
      .ok ⟨joinLines (before ++ [newSliceText] ++ after), 1⟩
  else
    let targetLines := splitLines targetNormalized
    match scan sliceLines targetLines fun i => linesMatchFuzzy sliceLines i targetLines with
    | none => .error (text "Target content not found within specified line bounds")
    | some matchIdx =>
      let newSliceLines := sliceLines.take matchIdx ++ splitLines replacementNormalized ++
        sliceLines.drop (matchIdx + targetLines.length)
      .ok ⟨joinLines (before ++ newSliceLines ++ after), 1⟩

/-! ## The text before, within and after the range -/

namespace RangeOptions

/-- The lines before the range, with their breaks. -/
def before (options : RangeOptions) (s : Text) : Text :=
  endLines (slice (splitLines s) 0 options.startIdx)

/-- The lines of the range, with the breaks between them. -/
def within (options : RangeOptions) (s : Text) : Text :=
  joinLines (slice (splitLines s) options.startIdx (options.endIdx (splitLines s)))

/-- The lines after the range, with the breaks before them. -/
def after (options : RangeOptions) (s : Text) : Text :=
  startLines (slice (splitLines s) (options.endIdx (splitLines s)) (splitLines s).length)

end RangeOptions

/-- No line is ended with a carriage return and a newline. -/
def Unbroken (s : Text) : Prop := ¬ [0xD, newline] <:+: s

instance (s : Text) : Decidable (Unbroken s) := inferInstanceAs (Decidable (¬ _))

/-- Every occurrence gives way to the replacement as it is. -/
def literally (s target replacement : Text) (places : List ℕ) : Text :=
  Edit.splice s 0 (places.map fun place => ⟨place, target.length, replacement⟩)

/-- What the replacement is expanded to for an occurrence is the replacement. -/
def Kept (s target replacement : Text) (place : ℕ) : Prop :=
  (replacementAt s target (normalizeBreaks replacement) place).inserted = replacement

instance (s target replacement : Text) (place : ℕ) : Decidable (Kept s target replacement place) :=
  inferInstanceAs (Decidable (_ = _))

theorem normalizeBreaks_eq_self {s : Text} (h : Unbroken s) : normalizeBreaks s = s := by
  induction s using normalizeBreaks.induct with
  | case1 => rfl
  | case2 c => rfl
  | case3 c d rest hbreak ih =>
    obtain ⟨rfl, rfl⟩ := hbreak
    exact absurd (prefix_append [0xD, newline] rest).isInfix h
  | case4 c d rest hbreak ih =>
    have hrest : Unbroken (d :: rest) := fun hbroken => h (hbroken.trans (infix_cons infix_rfl))
    rw [normalizeBreaks, if_neg hbreak, ih hrest]

/-- A text without breaks of two characters has the same lines either way. -/
theorem splitBreaks_eq_splitLines {s : Text} (h : Unbroken s) : splitBreaks s = splitLines s := by
  apply splitBreaks_eq_of_dropLast
  -- a carriage return at the end of a line would be followed by its newline
  intro line hline hlast
  obtain ⟨front, hfront⟩ := getLast?_eq_some_iff.mp hlast
  obtain ⟨lines, more, hlines⟩ := append_of_mem hline
  have hsplit : splitLines s
      = lines ++ [line] ++ (more ++ [(splitLines s).getLast (splitLines_ne_nil s)]) := by
    conv_lhs => rw [← dropLast_append_getLast (splitLines_ne_nil s), hlines]
    simp only [append_assoc, cons_append, nil_append]
  have htext := congrArg joinLines hsplit
  rw [joinLines_splitLines, joinLines_append _ (by simp), endLines, flatMap_append,
    flatMap_singleton, hfront] at htext
  refine h ⟨endLines lines ++ front,
    joinLines (more ++ [(splitLines s).getLast (splitLines_ne_nil s)]), ?_⟩
  conv_rhs => rw [htext]
  simp only [append_assoc, cons_append, nil_append]
  rfl

/-- The range is cut out of the text where it has any lines. -/
theorem RangeOptions.before_within_after (options : RangeOptions) {s : Text}
    (h : options.within s ≠ []) : options.before s ++ options.within s ++ options.after s = s := by
  have hlines : slice (splitLines s) options.startIdx (options.endIdx (splitLines s)) ≠ [] := by
    intro hnil
    rw [within, hnil] at h
    exact h rfl
  calc options.before s ++ options.within s ++ options.after s
      = joinLines (slice (splitLines s) 0 options.startIdx ++
          slice (splitLines s) options.startIdx (options.endIdx (splitLines s)) ++
          slice (splitLines s) (options.endIdx (splitLines s)) (splitLines s).length) :=
        (joinLines_between _ hlines _).symm
    _ = s := by rw [slice_parts hlines, joinLines_splitLines]

/-! ## The replacement -/

section

variable {s target replacement : Text} {options : RangeOptions}

/-- The text is put together again with the range replaced. -/
theorem joinLines_replaced (newSliceText : Text) :
    joinLines (slice (splitLines s) 0 options.startIdx ++ [newSliceText] ++
        slice (splitLines s) (options.endIdx (splitLines s)) (splitLines s).length)
      = options.before s ++ newSliceText ++ options.after s := by
  rw [joinLines_between _ (cons_ne_nil _ _), joinLines_cons]
  simp only [startLines, flatMap_nil, append_nil]
  rfl

/-- What stands in the range of a text without breaks of two characters has none. -/
theorem unbroken_of_standsAt (h : Unbroken s) (hne : target ≠ []) {place : ℕ}
    (hstands : StandsAt (options.within s) target place) : Unbroken target := by
  have hwithin : target <:+: options.within s := by
    rw [← hstands]
    exact ((List.take_prefix _ _).isInfix).trans (drop_suffix _ _).isInfix
  have hnonempty : options.within s ≠ [] := by
    intro hnil
    rw [hnil, infix_nil] at hwithin
    exact hne hwithin
  have htext : options.within s <:+: s :=
    ⟨options.before s, options.after s, options.before_within_after hnonempty⟩
  exact fun hbreak => h (hbreak.trans (hwithin.trans htext))

/-- **What is made of the range.**  In a text without breaks of two characters, the range is
replaced, and nothing else. -/
theorem replaceContiguous_eq (h : Unbroken s) (hne : target ≠ []) {place : ℕ}
    (hstands : StandsAt (options.within s) target place)
    (hmany : options.allowMultiple = true ∨ ∀ i, StandsAt (options.within s) target i ↔ i = place) :
    replaceContiguous s target replacement options
      = .ok ⟨options.before s ++
          (if options.allowMultiple then
            replaceAll (options.within s) target (normalizeBreaks replacement)
          else replaceFirst (options.within s) target (normalizeBreaks replacement)) ++
          options.after s, 1⟩ := by
  have htarget := normalizeBreaks_eq_self (unbroken_of_standsAt h hne hstands)
  have hincludes : includes (options.within s) target = true := includes_of_standsAt hstands
  have honce : ¬ (!options.allowMultiple && decide
      (indexOf (options.within s) target 0 ≠ lastIndexOf (options.within s) target)) = true := by
    rcases hmany with hmultiple | hunique
    · rw [hmultiple]
      exact Bool.false_ne_true
    · rw [indexOf_of_unique hne hunique, lastIndexOf_of_unique hne hunique]
      simp
  simp only [replaceContiguous, splitBreaks_eq_splitLines h, htarget]
  show (if includes (options.within s) target then
    if !options.allowMultiple && decide
        (indexOf (options.within s) target 0 ≠ lastIndexOf (options.within s) target) then _
    else _ else _) = _
  rw [if_pos hincludes, if_neg honce, joinLines_replaced]
  rfl

end

section

variable {s target : Text} {options : RangeOptions}

/-- One occurrence is replaced literally just where the replacement is kept. -/
theorem splice_eq_literally_iff {replacement : Text} {place : ℕ} :
    Edit.splice s 0 [replacementAt s target (normalizeBreaks replacement) place]
        = literally s target replacement [place] ↔ Kept s target replacement place := by
  have hexpanded : Edit.splice s 0 [replacementAt s target (normalizeBreaks replacement) place]
      = s.take place ++ (replacementAt s target (normalizeBreaks replacement) place).inserted ++
          s.drop (place + target.length) := rfl
  have hliteral : literally s target replacement [place]
      = s.take place ++ replacement ++ s.drop (place + target.length) := rfl
  rw [hexpanded, hliteral, append_left_inj, append_right_inj]
  rfl

theorem splice_eq_literally {replacement : Text} {places : List ℕ}
    (h : ∀ place ∈ places, Kept s target replacement place) :
    Edit.splice s 0 (places.map (replacementAt s target (normalizeBreaks replacement)))
      = literally s target replacement places := by
  have hedits : places.map (replacementAt s target (normalizeBreaks replacement))
      = places.map fun place => ⟨place, target.length, replacement⟩ := by
    refine map_congr_left fun place hplace => ?_
    have hkept : (replacementAt s target (normalizeBreaks replacement) place).inserted
        = replacement := h place hplace
    calc replacementAt s target (normalizeBreaks replacement) place
        = ⟨place, target.length,
            (replacementAt s target (normalizeBreaks replacement) place).inserted⟩ := rfl
      _ = ⟨place, target.length, replacement⟩ := by rw [hkept]
  rw [hedits]
  rfl

theorem before_within_after_of_standsAt (hne : target ≠ []) {place : ℕ}
    (h : StandsAt (options.within s) target place) :
    options.before s ++ options.within s ++ options.after s = s := by
  apply options.before_within_after
  intro hnil
  have hbound := h.le_length hne
  have hpos := length_pos_of_ne_nil hne
  rw [hnil, length_nil] at hbound
  omega

end

/-- **Contiguous replacement is literal** in a text without breaks of two characters, where the
replacement is kept: just then where the target occurs once, and for all occurrences from left to
right if it is kept for each. -/
theorem replaceContiguous_literal_iff {s target : Text} (replacement : Text)
    (options : RangeOptions) (hbreaks : Unbroken s) (hne : target ≠ []) :
    (∀ place, (∀ i, StandsAt (options.within s) target i ↔ i = place) →
      options.before s ++ options.within s ++ options.after s = s ∧
      (replaceContiguous s target replacement { options with allowMultiple := false }
          = .ok ⟨options.before s ++ literally (options.within s) target replacement [place] ++
              options.after s, 1⟩ ↔
        Kept (options.within s) target replacement place)) ∧
    ∀ places ≠ [], AreMatches (options.within s) target places →
      (∀ place ∈ places, Kept (options.within s) target replacement place) →
      options.before s ++ options.within s ++ options.after s = s ∧
      replaceContiguous s target replacement { options with allowMultiple := true }
        = .ok ⟨options.before s ++ literally (options.within s) target replacement places ++
            options.after s, 1⟩ := by
  constructor
  · intro place honce
    have hstands := (honce place).mpr rfl
    refine ⟨before_within_after_of_standsAt hne hstands, ?_⟩
    have hresult := @replaceContiguous_eq s target replacement
      { options with allowMultiple := false } hbreaks hne place hstands (Or.inr honce)
    have hreplaced := @replaceFirst_of_unique (options.within s) target
      (normalizeBreaks replacement) hne place honce
    rw [hresult, ← splice_eq_literally_iff, ← hreplaced, Except.ok.injEq, Replaced.mk.injEq]
    show options.before s ++ replaceFirst _ _ _ ++ options.after s = _ ∧ _ ↔ _
    rw [and_iff_left rfl, append_left_inj, append_right_inj]
    rfl
  · intro places hsome hmatches hkept
    obtain ⟨place, hplace⟩ := exists_mem_of_ne_nil places hsome
    have hstands := hmatches.stands place hplace
    refine ⟨before_within_after_of_standsAt hne hstands, ?_⟩
    have hresult := @replaceContiguous_eq s target replacement
      { options with allowMultiple := true } hbreaks hne place hstands (Or.inl rfl)
    have hreplaced := @AreMatches.replaceAll_eq (options.within s) target
      (normalizeBreaks replacement) hne places hmatches
    rw [splice_eq_literally hkept] at hreplaced
    rw [hresult, ← hreplaced]
    rfl

/-- The second line is replaced, and not the third. -/
theorem line_replaced :
    replaceContiguous (text "a\nb\nb") (text "b") (text "$5") ⟨some 2, some 2, false⟩
      = .ok ⟨text "a\n$5\nb", 1⟩ := by
  have hliteral := (@replaceContiguous_literal_iff (text "a\nb\nb") (text "b") (text "$5")
    ⟨some 2, some 2, false⟩ (by decide +kernel) (by decide)).1 0
    (standsAt_unique (by decide) (by decide +kernel) (by decide +kernel))
  exact (hliteral.2.mpr (by decide +kernel)).trans (by decide +kernel)

/-- A pattern of the replacement is expanded, and a break outside the occurrence is changed. -/
theorem not_literal :
    let options : RangeOptions := ⟨none, none, false⟩
    ((∀ i, StandsAt (options.within (text "price")) (text "price") i ↔ i = 0) ∧
      options.before (text "price") ++
        literally (options.within (text "price")) (text "price") (text "$$5") [0] ++
        options.after (text "price") = text "$$5" ∧
      replaceContiguous (text "price") (text "price") (text "$$5") options
        = .ok ⟨text "$5", 1⟩) ∧
    (∀ i, StandsAt (options.within (text "a\r\nb")) (text "b") i ↔ i = 3) ∧
      options.before (text "a\r\nb") ++
        literally (options.within (text "a\r\nb")) (text "b") (text "c") [3] ++
        options.after (text "a\r\nb") = text "a\r\nc" ∧
      replaceContiguous (text "a\r\nb") (text "b") (text "c") options = .ok ⟨text "a\nc", 1⟩ := by
  intro options
  refine ⟨⟨?_, by decide +kernel, by decide +kernel⟩, ?_, by decide +kernel, by decide +kernel⟩
  · exact standsAt_unique (by decide) (by decide +kernel) (by decide +kernel)
  · exact standsAt_unique (by decide) (by decide +kernel) (by decide +kernel)

end Lumi.Unified
