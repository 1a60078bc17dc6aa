import Mathlib.Algebra.GroupWithZero.Nat
import Lumi.Lib.JsValue
import Lumi.Lib.Splice

/-!
# Texts and arrays of lines

What programs do with a text line by line: `split` and `join`, `trimEnd`, `indexOf`, and
`slice` with its indices from either end.  A line stands in its text at its offset, and the
lines before it, each ended, are what stands before that.
-/

namespace Js

open List

def newline : UInt16 := 0xA

/-- `s.split("\n")`. -/
def splitLines (s : Text) : List Text := s.splitOn newline

/-- `lines.join("\n")`. -/
def joinLines (lines : List Text) : Text := joinWith [newline] lines

def trimEnd (s : Text) : Text := (s.reverse.dropWhile isWhiteSpace).reverse

section

variable {α : Type*}

/-- The place in an array that an index names; a negative one counts from the end. -/
def relativeIndex (xs : List α) (i : ℤ) : ℕ :=
  if i < 0 then (xs.length + i).toNat else min i.toNat xs.length

/-- `xs.slice(start, stop)`. -/
def slice (xs : List α) (start stop : ℤ) : List α :=
  (xs.drop (relativeIndex xs start)).take (relativeIndex xs stop - relativeIndex xs start)

variable {xs : List α}

theorem relativeIndex_of_le {i : ℕ} (h : i ≤ xs.length) : relativeIndex xs i = i := by
  rw [relativeIndex, if_neg (by omega)]
  omega

theorem slice_eq {start stop : ℕ} (hle : start ≤ stop) (hstop : stop ≤ xs.length) :
    slice xs start stop = (xs.drop start).take (stop - start) := by
  rw [slice, relativeIndex_of_le (hle.trans hstop), relativeIndex_of_le hstop]

/-- The slice from an index to the end. -/
theorem slice_to_length {start : ℕ} (h : start ≤ xs.length) :
    slice xs start xs.length = xs.drop start := by
  rw [slice_eq h (Nat.le_refl _), take_of_length_le]
  rw [length_drop]

theorem length_slice {start : ℕ} (h : start ≤ xs.length) (stop : ℕ) :
    (slice xs start stop).length = min stop xs.length - start := by
  rw [slice, relativeIndex_of_le h, length_take, length_drop, relativeIndex,
    if_neg (by omega), Int.toNat_natCast]
  omega

/-- An array is what lies before, within and after a slice that is not empty. -/
theorem slice_parts {start stop : ℤ} (h : slice xs start stop ≠ []) :
    slice xs 0 start ++ slice xs start stop ++ slice xs stop xs.length = xs := by
  have hzero : relativeIndex xs 0 = 0 := rfl
  have hlength : relativeIndex xs xs.length = xs.length := relativeIndex_of_le (Nat.le_refl _)
  have hlt : relativeIndex xs start < relativeIndex xs stop := by
    by_contra hge
    refine h ?_
    rw [slice, Nat.sub_eq_zero_of_le (Nat.le_of_not_lt hge), take_zero]
  have hbefore : slice xs 0 start = xs.take (relativeIndex xs start) := by
    rw [slice, hzero, drop_zero, Nat.sub_zero]
  have hafter : slice xs stop xs.length = xs.drop (relativeIndex xs stop) := by
    rw [slice, hlength, take_of_length_le]
    rw [length_drop]
  calc slice xs 0 start ++ slice xs start stop ++ slice xs stop xs.length
      = xs.take (relativeIndex xs start) ++
          (xs.drop (relativeIndex xs start)).take (relativeIndex xs stop - relativeIndex xs start) ++
          xs.drop (relativeIndex xs stop) := by rw [hbefore, hafter, slice]
    _ = xs.take (relativeIndex xs stop) ++ xs.drop (relativeIndex xs stop) := by
        rw [← take_add, Nat.add_sub_cancel' (Nat.le_of_lt hlt)]
    _ = xs := take_append_drop _ xs

/-- A slice is no longer than the array. -/
theorem length_slice_le (xs : List α) (start stop : ℤ) :
    (slice xs start stop).length ≤ xs.length := by
  rw [slice, length_take, length_drop]
  omega

end

theorem joinLines_splitLines (s : Text) : joinLines (splitLines s) = s :=
  intercalate_splitOn newline

variable {lines : List Text}

theorem splitLines_joinLines (hne : lines ≠ []) (h : ∀ line ∈ lines, newline ∉ line) :
    splitLines (joinLines lines) = lines :=
  splitOn_intercalate newline h hne

/-- Texts of as many lines are the same only if the lines are. -/
theorem joinLines_inj {lines lines' : List Text} (hlen : lines.length = lines'.length)
    (h : ∀ line ∈ lines, newline ∉ line) (h' : ∀ line ∈ lines', newline ∉ line) :
    joinLines lines = joinLines lines' ↔ lines = lines' := by
  refine ⟨fun heq => ?_, congrArg joinLines⟩
  by_cases hne : lines = []
  · rw [hne, length_nil] at hlen
    rw [hne, eq_nil_of_length_eq_zero hlen.symm]
  · have hne' : lines' ≠ [] := by
      rw [← length_pos_iff_ne_nil, ← hlen]
      exact length_pos_of_ne_nil hne
    rw [← splitLines_joinLines hne h, heq, splitLines_joinLines hne' h']

theorem splitLines_ne_nil (s : Text) : splitLines s ≠ [] := splitOn_ne_nil newline s

theorem notMem_of_mem_splitOn {separator : UInt16} {s part : Text}
    (h : part ∈ s.splitOn separator) : separator ∉ part := by
  induction s generalizing part with
  | nil =>
    rw [splitOn_nil, mem_singleton] at h
    rw [h]
    exact not_mem_nil
  | cons c rest ih =>
    rw [splitOn_cons_eq_if_modifyHead] at h
    split at h
    · rcases mem_cons.mp h with rfl | h
      · exact not_mem_nil
      · exact ih h
    · next hc =>
      cases hrest : rest.splitOn separator with
      | nil => exact absurd hrest (splitOn_ne_nil separator rest)
      | cons first others =>
        rw [hrest, modifyHead_cons] at h
        rcases mem_cons.mp h with rfl | h
        · have hfirst := ih (hrest ▸ mem_cons_self)
          simp at hc
          simp [hfirst, Ne.symm hc]
        · exact ih (hrest ▸ mem_cons_of_mem _ h)

theorem newline_notMem_splitLines {s line : Text} (h : line ∈ splitLines s) : newline ∉ line :=
  notMem_of_mem_splitOn h

/-! ## The lines of a text -/

/-- Nothing is left after the last newline. -/
def EndsLine (s : Text) : Prop := (splitLines s).getLast? = some []

instance (s : Text) : Decidable (EndsLine s) := inferInstanceAs (Decidable (_ = _))

/-- The lines of a text, without the nothing after its last newline. -/
def textLines (s : Text) : List Text := if EndsLine s then (splitLines s).dropLast else splitLines s

/-- What `splitLines` has after the lines. -/
def lineEnd (s : Text) : List Text := if EndsLine s then [[]] else []

theorem splitLines_eq (s : Text) : splitLines s = textLines s ++ lineEnd s := by
  unfold textLines lineEnd
  split
  · next hend =>
    obtain ⟨lines, hlines⟩ := getLast?_eq_some_iff.mp hend
    rw [hlines, dropLast_concat]
  · rw [append_nil]

section

variable (lines : List Text)

/-- The lines, each with a newline after it. -/
def endLines : Text := lines.flatMap (· ++ [newline])

/-- The lines, each with a newline before it. -/
def startLines : Text := lines.flatMap (newline :: ·)

/-- Where a line begins. -/
def lineOffset (i : ℕ) : ℕ := ((lines.take i).map (·.length + 1)).sum

theorem length_endLines : (endLines lines).length = (lines.map (·.length + 1)).sum := by
  induction lines with
  | nil => rfl
  | cons line rest ih =>
    rw [endLines, flatMap_cons, length_append, ← endLines, ih, length_append]
    rfl

theorem lineOffset_add (i n : ℕ) :
    lineOffset lines (i + n) = lineOffset lines i + (endLines ((lines.drop i).take n)).length := by
  rw [lineOffset, take_add, map_append, sum_append, length_endLines]
  rfl

end

theorem lineOffset_lt {i j : ℕ} (hlt : i < j) (hj : j ≤ lines.length) :
    lineOffset lines i < lineOffset lines j := by
  obtain ⟨n, rfl⟩ := Nat.exists_eq_add_of_lt hlt
  have hne : (lines.drop i).take (n + 1) ≠ [] := by
    rw [← length_pos_iff_ne_nil, length_take, length_drop]
    omega
  obtain ⟨line, rest, hlines⟩ := exists_cons_of_ne_nil hne
  rw [Nat.add_assoc, lineOffset_add, hlines, endLines, flatMap_cons, length_append,
    length_append, length_singleton]
  omega

theorem lineOffset_mono {i j : ℕ} (hle : i ≤ j) : lineOffset lines i ≤ lineOffset lines j := by
  obtain ⟨n, rfl⟩ := Nat.exists_eq_add_of_le hle
  rw [lineOffset_add]
  exact Nat.le_add_right _ _

theorem joinLines_append (front : List Text) (hne : lines ≠ []) :
    joinLines (front ++ lines) = endLines front ++ joinLines lines := by
  induction front with
  | nil => rfl
  | cons line rest ih =>
    have hcons : joinLines (line :: (rest ++ lines))
        = line ++ [newline] ++ joinLines (rest ++ lines) :=
      intercalate_cons_of_ne_nil (by simp [hne])
    rw [cons_append, hcons, ih]
    exact (append_assoc (line ++ [newline]) (endLines rest) (joinLines lines)).symm

theorem joinLines_cons (line : Text) (lines : List Text) :
    joinLines (line :: lines) = line ++ startLines lines := by
  induction lines generalizing line with
  | nil =>
    rw [joinLines, joinWith, intercalate_singleton]
    exact (append_nil line).symm
  | cons next rest ih =>
    have hstart : startLines (next :: rest) = newline :: next ++ startLines rest := rfl
    calc joinLines (line :: next :: rest) = endLines [line] ++ joinLines (next :: rest) :=
          joinLines_append [line] (cons_ne_nil next rest)
      _ = line ++ [newline] ++ (next ++ startLines rest) := by
          rw [ih, endLines, flatMap_singleton]
      _ = line ++ startLines (next :: rest) := by
          rw [hstart, append_assoc]
          rfl

/-- The lines before and after some lines of a text, with the breaks. -/
theorem joinLines_between (front : List Text) {middle : List Text} (hne : middle ≠ [])
    (back : List Text) : joinLines (front ++ middle ++ back)
      = endLines front ++ joinLines middle ++ startLines back := by
  obtain ⟨line, rest, rfl⟩ := exists_cons_of_ne_nil hne
  have hrest : startLines (rest ++ back) = startLines rest ++ startLines back :=
    flatMap_append
  rw [append_assoc, cons_append, joinLines_append front (cons_ne_nil _ _),
    joinLines_cons, joinLines_cons, hrest]
  simp only [append_assoc]

theorem splitLines_endLines (h : ∀ line ∈ lines, newline ∉ line) :
    splitLines (endLines lines) = lines ++ [[]] := by
  have hjoin : joinLines (lines ++ [[]]) = endLines lines := by
    rw [joinLines_append lines (cons_ne_nil _ _)]
    exact append_nil _
  rw [← hjoin]
  refine splitLines_joinLines (by simp) fun line hline => ?_
  rcases mem_append.mp hline with hline | hline
  · exact h line hline
  · rw [mem_singleton.mp hline]
    exact not_mem_nil

theorem textLines_endLines (h : ∀ line ∈ lines, newline ∉ line) :
    textLines (endLines lines) = lines := by
  have hlines := splitLines_endLines h
  have hend : EndsLine (endLines lines) := by
    rw [EndsLine, hlines, getLast?_concat]
  rw [textLines, if_pos hend, hlines, dropLast_concat]

variable {i : ℕ}

theorem joinLines_take_drop (hi : i < lines.length) :
    joinLines lines = endLines (lines.take i) ++ joinLines (lines.drop i) ∧
      (endLines (lines.take i)).length = lineOffset lines i := by
  have hne : lines.drop i ≠ [] := by
    rw [← length_pos_iff_ne_nil, length_drop]
    omega
  have hsplit := joinLines_append (lines.take i) hne
  rw [take_append_drop] at hsplit
  exact ⟨hsplit, length_endLines _⟩

/-- The text from a line on. -/
theorem drop_joinLines (hi : i < lines.length) :
    (joinLines lines).drop (lineOffset lines i) = joinLines (lines.drop i) := by
  obtain ⟨hsplit, hlength⟩ := joinLines_take_drop hi
  rw [← hlength, hsplit, drop_left]

theorem length_joinLines (hi : i < lines.length) :
    (joinLines lines).length = lineOffset lines i + (joinLines (lines.drop i)).length := by
  obtain ⟨hsplit, hlength⟩ := joinLines_take_drop hi
  rw [hsplit, length_append, hlength]

theorem length_le_of_mem_splitLines {s line : Text} (h : line ∈ splitLines s) :
    line.length ≤ s.length := by
  obtain ⟨i, hi, rfl⟩ := getElem_of_mem h
  have hlength := length_joinLines hi
  rw [joinLines_splitLines, drop_eq_getElem_cons hi] at hlength
  have hline : (splitLines s)[i].length
      ≤ (joinLines ((splitLines s)[i] :: (splitLines s).drop (i + 1))).length := by
    cases (splitLines s).drop (i + 1) with
    | nil => rw [joinLines, joinWith, intercalate_singleton]
    | cons next rest =>
      have hjoin := joinLines_append [(splitLines s)[i]] (cons_ne_nil next rest)
      rw [singleton_append] at hjoin
      rw [hjoin, length_append, length_endLines]
      show _ ≤ _ + 1 + 0 + _
      omega
  omega

/-! ## Where a text stands in another -/

/-- `s.indexOf(pattern, start)`. -/
def indexOf (s pattern : Text) (start : ℕ) : Option ℕ :=
  (List.range (s.length + 1)).find? fun i =>
    min start s.length ≤ i && startsWith (s.drop i) pattern

variable {s pattern : Text}

theorem startsWith_drop_iff : startsWith (s.drop i) pattern = true ↔ StandsAt s pattern i := by
  rw [startsWith, isPrefixOf_iff_prefix, prefix_iff_eq_take, StandsAt, eq_comm]

theorem indexOf_eq_some_iff (hne : pattern ≠ []) {start i : ℕ} :
    indexOf s pattern start = some i ↔
      start ≤ i ∧ StandsAt s pattern i ∧ ∀ j, start ≤ j → j < i → ¬ StandsAt s pattern j := by
  have hpos := length_pos_of_ne_nil hne
  rw [indexOf, find?_range_eq_some]
  simp only [Bool.and_eq_true, decide_eq_true_eq, startsWith_drop_iff, mem_range,
    Bool.not_eq_true', Bool.and_eq_false_iff, decide_eq_false_iff_not]
  constructor
  · rintro ⟨⟨hstart, hstands⟩, -, hbefore⟩
    have hbound := hstands.le_length hne
    refine ⟨by omega, hstands, fun j hj hlt hstands' => ?_⟩
    rcases hbefore j hlt with hno | hno
    · omega
    · rw [startsWith_drop_iff.mpr hstands'] at hno
      exact absurd hno (by decide)
  · rintro ⟨hstart, hstands, hbefore⟩
    have hbound := hstands.le_length hne
    refine ⟨⟨by omega, hstands⟩, by omega, fun j hlt => ?_⟩
    by_cases hj : start ≤ j
    · refine .inr (Bool.eq_false_iff.mpr fun hyes => ?_)
      exact hbefore j hj hlt (startsWith_drop_iff.mp hyes)
    · exact .inl (by omega)

theorem indexOf_eq_none_iff (hne : pattern ≠ []) {start : ℕ} :
    indexOf s pattern start = none ↔ ∀ j, start ≤ j → ¬ StandsAt s pattern j := by
  have hpos := length_pos_of_ne_nil hne
  rw [indexOf, find?_range_eq_none]
  simp only [Bool.not_eq_true', Bool.and_eq_false_iff, decide_eq_false_iff_not]
  constructor
  · intro h j hj hstands
    have hbound := hstands.le_length hne
    rcases h j (by omega) with hno | hno
    · omega
    · rw [startsWith_drop_iff.mpr hstands] at hno
      exact absurd hno (by decide)
  · intro h j hlt
    by_cases hj : min start s.length ≤ j
    · refine .inr (Bool.eq_false_iff.mpr fun hyes => ?_)
      have hstands := startsWith_drop_iff.mp hyes
      have hbound := hstands.le_length hne
      exact h j (by omega) hstands
    · exact .inl hj

/-- Whole lines that are followed by another stand in the text where the first of them begins. -/
theorem standsAt_endLines {s : Text} (h : StandsAt (splitLines s) lines i)
    (hlt : i + lines.length < (splitLines s).length) :
    StandsAt s (endLines lines) (lineOffset (splitLines s) i) := by
  have hne : (splitLines s).drop (i + lines.length) ≠ [] := by
    rw [← length_pos_iff_ne_nil, length_drop]
    omega
  have hdrop : (splitLines s).drop i = lines ++ (splitLines s).drop (i + lines.length) := by
    have hparts := take_append_drop lines.length ((splitLines s).drop i)
    rw [h, drop_drop] at hparts
    exact hparts.symm
  have htext := @drop_joinLines (splitLines s) i (by omega)
  rw [joinLines_splitLines, hdrop, joinLines_append lines hne] at htext
  rw [StandsAt, htext, take_left]

end Js
