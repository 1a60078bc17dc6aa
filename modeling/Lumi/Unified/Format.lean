import Lumi.Lib.HunkLines
import Lumi.Unified.Engine

/-!
# Unified diffs, printed and parsed

The header of a hunk is read back as it was printed, whichever of its counts are left out.
The lines of a hunk are read back too, unless one of them, with its sign, begins like the
header of a file: a deleted line that begins with `-- `, or an added one with `++ `.
-/

namespace Lumi.Unified

open Js List

/-! ## Numbers -/

/-- A number in decimal digits. -/
def decimal (n : ℕ) : Text :=
  if n < 10 then [0x30 + n.toUInt16] else decimal (n / 10) ++ [0x30 + (n % 10).toUInt16]
termination_by n

theorem digit_spec {d : ℕ} (h : d < 10) :
    isDigit (0x30 + d.toUInt16) = true ∧ (0x30 + d.toUInt16 : UInt16).toNat - 0x30 = d := by
  have hall : ∀ d : Fin 10, isDigit (0x30 + d.val.toUInt16) = true ∧
      (0x30 + d.val.toUInt16 : UInt16).toNat - 0x30 = d.val := by decide
  exact hall ⟨d, h⟩

theorem decimal_spec (n : ℕ) :
    numberOf (decimal n) = n ∧ (∀ c ∈ decimal n, isDigit c = true) ∧ decimal n ≠ [] := by
  induction n using Nat.strongRecOn with
  | ind n ih =>
    rw [decimal]
    split
    · next hlt =>
      obtain ⟨hdigit, hvalue⟩ := digit_spec hlt
      refine ⟨?_, fun c hc => ?_, cons_ne_nil _ _⟩
      · show 10 * 0 + ((0x30 + n.toUInt16 : UInt16).toNat - 0x30) = n
        omega
      · rwa [mem_singleton.mp hc]
    · next hge =>
      obtain ⟨hnumber, hdigits, -⟩ := ih (n / 10) (by omega)
      obtain ⟨hdigit, hvalue⟩ := digit_spec (Nat.mod_lt n (by decide : 10 > 0))
      refine ⟨?_, fun c hc => ?_, by simp⟩
      · unfold numberOf at hnumber ⊢
        rw [foldl_append, hnumber]
        show 10 * (n / 10) + ((0x30 + (n % 10).toUInt16 : UInt16).toNat - 0x30) = n
        omega
      · rcases mem_append.mp hc with hc | hc
        · exact hdigits c hc
        · rwa [mem_singleton.mp hc]

theorem readNumber_decimal (n : ℕ) {rest : Text} (hrest : ∀ c ∈ rest.head?, isDigit c = false) :
    readNumber (decimal n ++ rest) = some (n, rest) := by
  obtain ⟨hnumber, hdigits, hne⟩ := decimal_spec n
  have hstop : rest.takeWhile isDigit = [] ∧ rest.dropWhile isDigit = rest := by
    cases rest with
    | nil => exact ⟨rfl, rfl⟩
    | cons c rest =>
      have hc := hrest c rfl
      exact ⟨by rw [takeWhile_cons, hc]; rfl, by rw [dropWhile_cons, hc]; rfl⟩
  have htake : (decimal n ++ rest).takeWhile isDigit = decimal n := by
    rw [takeWhile_append_of_pos hdigits, hstop.1, append_nil]
  have hdrop : (decimal n ++ rest).dropWhile isDigit = rest := by
    rw [dropWhile_append_of_pos hdigits, hstop.2]
  rw [readNumber, htake, hdrop, if_neg hne, hnumber]

/-! ## Headers -/

/-- A count of one may be left out. -/
def encodeRange (start count : ℕ) (short : Bool) : Text :=
  decimal start ++ if short && count = 1 then [] else 0x2C :: decimal count

theorem readRange_encodeRange (start count : ℕ) (short : Bool) (rest : Text) :
    ∃ read, readRange (encodeRange start count short ++ 0x20 :: rest)
        = some (start, read, 0x20 :: rest) ∧ read.getD 1 = count := by
  unfold encodeRange readRange
  split
  · next hshort =>
    have hcount : count = 1 := by
      simp at hshort
      exact hshort.2
    refine ⟨none, ?_, hcount.symm⟩
    rw [append_nil, readNumber_decimal start fun c hc => by cases hc; decide]
    rfl
  · refine ⟨some count, ?_, rfl⟩
    have hcount : readNumber (decimal count ++ 0x20 :: rest) = some (count, 0x20 :: rest) :=
      readNumber_decimal count fun c hc => by cases hc; decide
    rw [append_assoc, readNumber_decimal start fun c hc => by cases hc; decide,
      Option.map_some, cons_append]
    simp only [if_true, hcount]

/-- The header of a hunk, as a diff prints it; `hint` is what follows it. -/
structure HeaderFormat where
  shortOld : Bool
  shortNew : Bool
  hint : Text

section

variable (f : HeaderFormat)

/-- What the parser keeps of the hint. -/
def HeaderFormat.contextHint : Option Text :=
  (some (trim f.hint)).filter (· ≠ [])

def encodeHeader (oldStart oldCount newStart newCount : ℕ) : Text :=
  text "@@ -" ++ (encodeRange oldStart oldCount f.shortOld ++ (text " +" ++
    (encodeRange newStart newCount f.shortNew ++ (text " @@" ++ f.hint))))

theorem readToken_cons {token s : Text} (htoken : ∀ c ∈ token.head?, isWhiteSpace c = false)
    (hne : token ≠ []) : readToken token (0x20 :: (token ++ s)) = some s := by
  have hdrop : (0x20 :: (token ++ s)).dropWhile isWhiteSpace = token ++ s := by
    cases token with
    | nil => exact absurd rfl hne
    | cons c rest =>
      have hc := htoken c rfl
      rw [dropWhile_cons, if_pos (by decide), cons_append, dropWhile_cons, hc]
      rfl
  have hstarts : startsWith (token ++ s) token = true :=
    isPrefixOf_iff_prefix.mpr (prefix_append _ _)
  rw [readToken, hdrop, hstarts, drop_left]
  simp

/-- The pieces of a printed header, with any reader of its ranges. -/
theorem pieces_encodeHeader {read : Text → Option (ℕ × Option ℕ × Text)}
    (hread : ∀ start count short rest, ∃ taken, read (encodeRange start count short ++ 0x20 :: rest)
      = some (start, taken, 0x20 :: rest) ∧ taken.getD 1 = count)
    (f : HeaderFormat) (oldStart oldCount newStart newCount : ℕ) :
    startsWith (encodeHeader f oldStart oldCount newStart newCount) (text "@@") = true ∧
      ∃ old afterOld new afterNew oldTaken newTaken,
        readToken (text "-") ((encodeHeader f oldStart oldCount newStart newCount).drop 2)
            = some old ∧
          read old = some (oldStart, oldTaken, afterOld) ∧ oldTaken.getD 1 = oldCount ∧
          readToken (text "+") afterOld = some new ∧
          read new = some (newStart, newTaken, afterNew) ∧ newTaken.getD 1 = newCount ∧
          readToken (text "@@") afterNew = some f.hint := by
  obtain ⟨oldTaken, hold, holdCount⟩ := hread oldStart oldCount f.shortOld
    (text "+" ++ (encodeRange newStart newCount f.shortNew ++ (text " @@" ++ f.hint)))
  obtain ⟨newTaken, hnew, hnewCount⟩ := hread newStart newCount f.shortNew (text "@@" ++ f.hint)
  refine ⟨rfl, _, _, _, _, oldTaken, newTaken, readToken_cons ?_ (cons_ne_nil _ _), hold, holdCount,
    readToken_cons ?_ (cons_ne_nil _ _), hnew, hnewCount, readToken_cons ?_ (cons_ne_nil _ _)⟩
  all_goals
    intro c hc
    cases hc
    rfl

/-- A header is read back as it was printed. -/
theorem readHeader_encodeHeader (hhint : f.hint.all isInLine = true)
    (oldStart oldCount newStart newCount : ℕ) :
    readHeader (encodeHeader f oldStart oldCount newStart newCount)
      = some ⟨oldStart, oldCount, newStart, newCount, f.contextHint⟩ := by
  obtain ⟨hstarts, _, _, _, _, _, _, hminus, hold, holdCount, hplus, hnew, hnewCount, hend⟩ :=
    pieces_encodeHeader readRange_encodeRange f oldStart oldCount newStart newCount
  simp only [readHeader, hstarts, if_true, Option.bind_eq_bind, Option.bind_some, hminus, hold, hplus,
    hnew, hend, hhint, holdCount, hnewCount]
  rfl

/-! ## Lines -/

/-- What `splitBreaks` leaves as it is. -/
def IsLine (line : Text) : Prop := newline ∉ line ∧ line.getLast? ≠ some 0xD

instance (line : Text) : Decidable (IsLine line) := inferInstanceAs (Decidable (_ ∧ _))

/-- The lines are the same either way where none but the last ends with a carriage return. -/
theorem splitBreaks_eq_of_dropLast {s : Text}
    (h : ∀ line ∈ (splitLines s).dropLast, line.getLast? ≠ some 0xD) :
    splitBreaks s = splitLines s := by
  have hstrip : (splitLines s).dropLast.map stripReturn = (splitLines s).dropLast := by
    rw [map_congr_left fun line hline => ?_, map_id]
    rw [stripReturn, if_neg (h line hline)]
    rfl
  rw [splitBreaks]
  show (splitLines s).dropLast.map stripReturn ++ (splitLines s).getLast?.toList = splitLines s
  rw [hstrip, getLast?_eq_some_getLast (splitLines_ne_nil s)]
  exact dropLast_append_getLast (splitLines_ne_nil s)

theorem splitBreaks_joinLines {lines : List Text} (hne : lines ≠ [])
    (h : ∀ line ∈ lines, IsLine line) : splitBreaks (joinLines lines) = lines := by
  have hlines := splitLines_joinLines hne fun line hline => (h line hline).1
  rw [splitBreaks_eq_of_dropLast, hlines]
  rw [hlines]
  exact fun line hline => (h line (dropLast_subset _ hline)).2

/-! ## Diffs -/

/-- A hunk of a diff.  After each of its lines a diff may say that the line is not ended. -/
structure DiffHunk where
  position : ℕ
  markedLines : List (HunkLine Text × Bool)
  newStart : ℕ
  format : HeaderFormat

namespace DiffHunk

section

variable (h : DiffHunk)

def lines : List (HunkLine Text) := h.markedLines.map Prod.fst

def edit : Edit Text := hunkEdit h.position h.lines

/-- Lines are numbered from one; where no line is old, the number is that of the line before. -/
def oldStart : ℕ := if oldLines h.lines = [] then h.position else h.position + 1

def encodeLine (l : HunkLine Text × Bool) : List Text :=
  l.1.encode :: if l.2 then [text "\\ No newline at end of file"] else []

def encode : List Text :=
  encodeHeader h.format h.oldStart (oldLines h.lines).length h.newStart (newLines h.lines).length ::
    h.markedLines.flatMap encodeLine

/-- What the header says. -/
def header : Header :=
  ⟨h.oldStart, (oldLines h.lines).length, h.newStart, (newLines h.lines).length,
    h.format.contextHint⟩

end

end DiffHunk

/-- The lines before the hunks: what a diff says first, and the two names. -/
structure DiffNames where
  preamble : List Text
  oldName : Text
  newName : Text

def DiffNames.encode (n : DiffNames) : List Text :=
  n.preamble ++ [text "--- " ++ n.oldName, text "+++ " ++ n.newName]

/-- A diff, whose last line may be ended or not. -/
def encodeDiff (n : DiffNames) (hunks : List DiffHunk) (ended : Bool) : Text :=
  joinLines (n.encode ++ hunks.flatMap DiffHunk.encode ++ if ended then [[]] else [])

/-! ## Reading a diff back -/

/-- A line of a hunk, as the parser keeps it. -/
def patchLine : HunkLine Text → PatchHunkLine
  | .context line => ⟨.space, line⟩
  | .delete line => ⟨.minus, line⟩
  | .insert line => ⟨.plus, line⟩

/-- A hunk, as the parser keeps it. -/
def DiffHunk.patchHunk (h : DiffHunk) : PatchHunk :=
  ⟨h.header.oldStart, h.header.oldLines, h.header.newStart, h.header.newLines,
    h.lines.map patchLine, h.header.contextHint⟩

/-- The line begins like one of the two that name the files. -/
def BeginsLikeName (line : Text) : Prop :=
  startsWith line (text "--- ") = true ∨ startsWith line (text "+++ ") = true

instance (line : Text) : Decidable (BeginsLikeName line) := inferInstanceAs (Decidable (_ ∨ _))

/-- The names are those of a file at a path; what is said before them looks like no line that
the parser knows. -/
structure DiffNames.Names (n : DiffNames) (path : Text) : Prop where
  preamble : ∀ line ∈ n.preamble,
    IsLine line ∧ ¬ BeginsLikeName line ∧ startsWith line (text "@@ ") = false
  lines : IsLine n.oldName ∧ IsLine n.newName
  old : trim n.oldName ≠ devNull
  new : trim n.newName ≠ devNull
  strip : stripSide (trim n.newName) = path
  nonempty : path ≠ []

/-- The hunk has lines, none of which looks like a name, and a hint that `.` matches. -/
structure DiffHunk.Readable (h : DiffHunk) : Prop where
  nonempty : h.markedLines ≠ []
  plain : ∀ l ∈ h.lines, ¬ BeginsLikeName l.encode
  hint : h.format.hint.all isInLine = true

namespace Parser

variable {p : Parser}

theorem read_line (hfile : p.currentFile ≠ []) {l : HunkLine Text × Bool}
    (hplain : ¬ BeginsLikeName l.1.encode) :
    (DiffHunk.encodeLine l).foldl read p
      = { p with currentHunkLines := p.currentHunkLines ++ [patchLine l.1] } := by
  obtain ⟨hminus, hplus⟩ := not_or.mp hplain
  have hread : p.read l.1.encode
      = { p with currentHunkLines := p.currentHunkLines ++ [patchLine l.1] } := by
    have hheader : startsWith l.1.encode (text "@@ ") = false := by
      rcases l with ⟨line | line | line, mark⟩ <;> rfl
    have hline : hunkLine? l.1.encode = some (patchLine l.1) := by
      rcases l with ⟨line | line | line, mark⟩ <;> rfl
    rw [read, if_neg hminus, if_neg hplus, hheader, if_neg (by decide), if_pos hfile, hline]
    rfl
  -- the mark begins with a backslash, and is not kept
  have hmark : ∀ q : Parser, q.currentFile ≠ [] →
      q.read (text "\\ No newline at end of file") = q := by
    intro q hq
    have hkept : q.read (text "\\ No newline at end of file")
        = { q with currentHunkLines := q.currentHunkLines ++ [] } := if_pos hq
    rw [hkept, append_nil]
  obtain ⟨line, mark⟩ := l
  cases mark with
  | false => exact hread
  | true =>
    have hlines : DiffHunk.encodeLine (line, true)
        = [line.encode, text "\\ No newline at end of file"] := rfl
    rw [hlines, foldl_cons, hread]
    exact hmark _ hfile

theorem read_lines (hfile : p.currentFile ≠ []) {lines : List (HunkLine Text × Bool)}
    (hplain : ∀ l ∈ lines, ¬ BeginsLikeName l.1.encode) :
    (lines.flatMap DiffHunk.encodeLine).foldl read p
      = { p with
          currentHunkLines := p.currentHunkLines ++ (lines.map Prod.fst).map patchLine } := by
  induction lines generalizing p with
  | nil =>
    rw [map_nil, map_nil, append_nil]
    rfl
  | cons l rest ih =>
    have hrest := ih (p := { p with currentHunkLines := p.currentHunkLines ++ [patchLine l.1] })
      hfile fun l' hl' => hplain l' (mem_cons_of_mem _ hl')
    rw [flatMap_cons, foldl_append, read_line hfile (hplain l mem_cons_self),
      hrest, append_assoc]
    rfl

theorem flushHunk_lines (p : Parser) : p.flushHunk.currentHunkLines = [] := by
  unfold flushHunk
  split
  · rfl
  · next hnone => exact length_eq_zero_iff.mp (by omega)

theorem flushHunk_file (p : Parser) : p.flushHunk.currentFile = p.currentFile := by
  unfold flushHunk
  split <;> rfl

/-- **Step lemma.**  A hunk that is read is kept, with what its header says. -/
theorem read_hunk (hfile : p.currentFile ≠ []) {h : DiffHunk} (hread : h.Readable) :
    (h.encode.foldl read p).flushHunk
      = { p.flushHunk with
          currentHunks := p.flushHunk.currentHunks ++ [h.patchHunk], header := h.header } := by
  obtain ⟨hne, hplain, hhint⟩ := hread
  have hheader : p.read (encodeHeader h.format h.oldStart (oldLines h.lines).length h.newStart
      (newLines h.lines).length) = { p.flushHunk with header := h.header } := by
    have hvalue := readHeader_encodeHeader h.format hhint h.oldStart (oldLines h.lines).length
      h.newStart (newLines h.lines).length
    rw [read, hvalue]
    rfl
  have hlines := @read_lines { p.flushHunk with header := h.header }
    ((flushHunk_file p).trans_ne hfile) h.markedLines fun l hl =>
      hplain l.1 (mem_map_of_mem hl)
  have hlength : (h.lines.map patchLine).length > 0 := by
    rw [length_map, DiffHunk.lines, length_map]
    exact length_pos_of_ne_nil hne
  rw [DiffHunk.encode, foldl_cons, hheader, hlines]
  show flushHunk { p.flushHunk with
    header := h.header, currentHunkLines := p.flushHunk.currentHunkLines ++ _ } = _
  rw [flushHunk_lines, nil_append, flushHunk]
  refine (if_pos hlength).trans ?_
  rw [← flushHunk_lines p]
  rfl

/-- **Run lemma.**  The hunks of a diff are kept one after the other. -/
theorem read_hunks (hfile : p.currentFile ≠ []) {hunks : List DiffHunk}
    (hread : ∀ h ∈ hunks, h.Readable) :
    ∃ header, ((hunks.flatMap DiffHunk.encode).foldl read p).flushHunk
      = { p.flushHunk with
          currentHunks := p.flushHunk.currentHunks ++ hunks.map DiffHunk.patchHunk, header } := by
  induction hunks generalizing p with
  | nil =>
    refine ⟨p.flushHunk.header, ?_⟩
    rw [map_nil, append_nil]
    rfl
  | cons h rest ih =>
    have hstep := read_hunk hfile (hread h mem_cons_self)
    have hfile' : (h.encode.foldl read p).currentFile ≠ [] := by
      rw [← flushHunk_file, hstep]
      exact (flushHunk_file p).trans_ne hfile
    obtain ⟨header, hrest⟩ := ih hfile' fun h' hh' => hread h' (mem_cons_of_mem _ hh')
    refine ⟨header, ?_⟩
    rw [flatMap_cons, foldl_append, hrest, hstep, append_assoc]
    rfl

theorem read_names {n : DiffNames} {path : Text} (h : n.Names path) :
    n.encode.foldl read start
      = { start with oldFile := stripSide (trim n.oldName), currentFile := path } := by
  have hpreamble : ∀ lines : List Text, (∀ line ∈ lines, ¬ BeginsLikeName line ∧
      startsWith line (text "@@ ") = false) → lines.foldl read start = start := by
    intro lines hlines
    induction lines with
    | nil => rfl
    | cons line rest ih =>
      obtain ⟨hplain, hheader⟩ := hlines line mem_cons_self
      obtain ⟨hminus, hplus⟩ := not_or.mp hplain
      have hskip : start.read line = start := by
        rw [read, if_neg hminus, if_neg hplus, hheader]
        rfl
      rw [foldl_cons, hskip]
      exact ih fun l hl => hlines l (mem_cons_of_mem _ hl)
  have hold : start.read (text "--- " ++ n.oldName)
      = { start with oldFile := stripSide (trim n.oldName) } := by
    have hfile : start.read (text "--- " ++ n.oldName)
        = { start with
            isOldDevNull := decide (trim n.oldName = devNull)
            oldFile := stripSide (trim n.oldName) } := rfl
    rw [hfile, decide_eq_false h.old]
    rfl
  have hnew : ∀ oldFile, read { start with oldFile } (text "+++ " ++ n.newName)
      = { start with oldFile, currentFile := path } := by
    intro oldFile
    have hfile : read { start with oldFile } (text "+++ " ++ n.newName)
        = { start with
            oldFile
            isNewDevNull := decide (trim n.newName = devNull)
            currentFile :=
              if decide (trim n.newName = devNull) then oldFile else stripSide (trim n.newName)
            currentType := if decide (trim n.newName = devNull) then .delete else .update } := rfl
    rw [hfile, decide_eq_false h.new, h.strip]
    rfl
  rw [DiffNames.encode, foldl_append, hpreamble n.preamble fun line hl =>
    (h.preamble line hl).2, foldl_cons, hold, foldl_cons, hnew]
  rfl

end Parser

theorem IsLine.append {front line : Text} (hfront : newline ∉ front ∧ 0xD ∉ front)
    (h : IsLine line) : IsLine (front ++ line) := by
  refine ⟨fun hmem => ?_, fun hlast => ?_⟩
  · rcases mem_append.mp hmem with hmem | hmem
    · exact hfront.1 hmem
    · exact h.1 hmem
  · rw [getLast?_append, Option.or_eq_some_iff] at hlast
    rcases hlast with hlast | ⟨-, hlast⟩
    · exact h.2 hlast
    · exact hfront.2 (mem_of_getLast? hlast)

/-- What `.` matches ends no line. -/
theorem isLine_of_isInLine {line : Text} (h : line.all isInLine = true) : IsLine line := by
  rw [all_eq_true] at h
  exact ⟨fun hmem => absurd (h _ hmem) (by decide),
    fun hlast => absurd (h _ (mem_of_getLast? hlast)) (by decide)⟩

/-- No character of a header ends a line. -/
theorem isLine_encodeHeader (hhint : IsLine f.hint)
    (oldStart oldCount newStart newCount : ℕ) :
    IsLine (encodeHeader f oldStart oldCount newStart newCount) := by
  have hrange : ∀ start count short, newline ∉ encodeRange start count short ∧
      0xD ∉ encodeRange start count short := by
    have hdecimal : ∀ n, newline ∉ decimal n ∧ 0xD ∉ decimal n := fun n =>
      ⟨fun h => absurd ((decimal_spec n).2.1 _ h) (by decide),
        fun h => absurd ((decimal_spec n).2.1 _ h) (by decide)⟩
    intro start count short
    unfold encodeRange
    split
    · rw [append_nil]
      exact hdecimal start
    · have hcomma : newline ≠ 0x2C ∧ (0xD : UInt16) ≠ 0x2C := by decide
      simp [hdecimal, hcomma]
  exact .append (by decide) (.append (hrange ..) (.append (by decide) (.append (hrange ..)
    (.append (by decide) hhint))))

end

/-- A diff is split into the lines that it was joined from. -/
theorem splitBreaks_encodeDiff {n : DiffNames} {hunks : List DiffHunk}
    (hnames : ∀ line ∈ n.encode, IsLine line) (hhints : ∀ h ∈ hunks, IsLine h.format.hint)
    (hlines : ∀ h ∈ hunks, ∀ l ∈ h.lines, IsLine l.encode) (ended : Bool) :
    splitBreaks (encodeDiff n hunks ended)
      = n.encode ++ hunks.flatMap DiffHunk.encode ++ if ended then [[]] else [] := by
  refine splitBreaks_joinLines (by simp [DiffNames.encode]) fun line hline => ?_
  rcases mem_append.mp hline with hline | hline
  · rcases mem_append.mp hline with hline | hline
    · exact hnames line hline
    · obtain ⟨h, hh, hline⟩ := mem_flatMap.mp hline
      rcases mem_cons.mp hline with rfl | hline
      · exact isLine_encodeHeader _ (hhints h hh) _ _ _ _
      · obtain ⟨l, hl, hline⟩ := mem_flatMap.mp hline
        rcases mem_cons.mp hline with rfl | hline
        · exact hlines h hh _ (mem_map_of_mem hl)
        · split at hline
          · rw [mem_singleton.mp hline]
            exact ⟨by decide, by decide⟩
          · exact absurd hline not_mem_nil
  · split at hline
    · rw [mem_singleton.mp hline]
      exact ⟨by decide, by decide⟩
    · exact absurd hline not_mem_nil

theorem DiffNames.Names.isLine {n : DiffNames} {path : Text} (h : n.Names path) :
    ∀ line ∈ n.encode, IsLine line := by
  intro line hline
  rcases mem_append.mp hline with hline | hline
  · exact (h.preamble line hline).1
  · have hnamed : line = text "--- " ++ n.oldName ∨ line = text "+++ " ++ n.newName := by
      simpa using hline
    rcases hnamed with rfl | rfl
    · exact h.lines.1.append (by decide)
    · exact h.lines.2.append (by decide)

/-- A diff with hunks is read back as one update of its file. -/
theorem parseUnifiedDiff_encodeDiff {n : DiffNames} {path : Text} {hunks : List DiffHunk}
    (hnames : n.Names path) (hne : hunks ≠ []) (hread : ∀ h ∈ hunks, h.Readable)
    (hlines : ∀ h ∈ hunks, ∀ l ∈ h.lines, IsLine l.encode) (ended : Bool) :
    parseUnifiedDiff (encodeDiff n hunks ended)
      = [⟨.update, path, hunks.map DiffHunk.patchHunk, none⟩] := by
  have hsplit := splitBreaks_encodeDiff hnames.isLine
    (fun h hh => isLine_of_isInLine (hread h hh).hint) hlines ended
  let p : Parser :=
    { Parser.start with oldFile := stripSide (trim n.oldName), currentFile := path }
  have hending : ∀ q : Parser, q.currentFile ≠ [] →
      (if ended then [[]] else []).foldl Parser.read q = q := by
    intro q hq
    cases ended with
    | false => rfl
    | true =>
      have hkept : q.read [] = { q with currentHunkLines := q.currentHunkLines ++ [] } :=
        if_pos hq
      show q.read [] = q
      rw [hkept, append_nil]
  obtain ⟨header, hhunks⟩ := Parser.read_hunks (p := p) hnames.nonempty hread
  have hfile : ((hunks.flatMap DiffHunk.encode).foldl Parser.read p).currentFile = path := by
    rw [← Parser.flushHunk_file, hhunks]
    rfl
  have hlength : (hunks.map DiffHunk.patchHunk).length > 0 := by
    rw [length_map]
    exact length_pos_of_ne_nil hne
  rw [parseUnifiedDiff, hsplit, foldl_append, foldl_append, Parser.read_names hnames,
    hending _ (hfile.trans_ne hnames.nonempty), Parser.flushFile, hhunks]
  have hflush : (decide (path ≠ []) && decide ((hunks.map DiffHunk.patchHunk).length > 0))
      = true := by
    rw [decide_eq_true hnames.nonempty, decide_eq_true hlength]
    rfl
  show Parser.operations (if (decide (path ≠ []) &&
    decide ((hunks.map DiffHunk.patchHunk).length > 0)) = true then _ else _) = _
  rw [if_pos hflush]
  rfl

end Lumi.Unified
