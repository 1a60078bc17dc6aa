import Lumi.Lib.Trim
import Lumi.V4a.Parsers

/-!
# V4A patches and their lines

The format of a patch, and what either parser makes of the lines of one.
-/

namespace Lumi.V4a

open Js Unified

/-! ## The format of V4A patches

A patch is a list of sections between two markers: files to add, with their lines, files to
update, with lines that are kept, deleted and added and with separators between hunks, files to
delete and files to move.  A patch is clean where both parsers can read it alike.
-/

/-- A path that is not blank. -/
abbrev FileName := { path : Text // trim path ≠ [] }

/-- A line of a hunk, or a separator: `@@`, or `@@ hint @@`. -/
inductive HunkPart
  | line (l : PatchHunkLine)
  | separator (hint : Option Text)
  deriving DecidableEq

def sign : LinePrefix → UInt16
  | .space => 0x20
  | .minus => 0x2D
  | .plus => 0x2B

namespace HunkPart

def encode : HunkPart → Text
  | line l => sign l.linePrefix :: l.content
  | separator none => text "@@"
  | separator (some hint) => text "@@ " ++ (hint ++ text " @@")

def line? : HunkPart → Option PatchHunkLine
  | line l => some l
  | separator _ => none

end HunkPart

inductive PatchSection
  | add (path : FileName) (content : List Text)
  | update (path : FileName) (body : List HunkPart)
  | delete (path : FileName)
  | move (source dest : FileName)

namespace PatchSection

def header : PatchSection → Text
  | add path _ => text "*** Add File: " ++ path.val
  | update path _ => text "*** Update File: " ++ path.val
  | delete path => text "*** Delete File: " ++ path.val
  | move source dest => text "*** Move File: " ++ (source.val ++ (text " -> " ++ dest.val))

def bodyLines : PatchSection → List Text
  | add _ content => content.map (0x2B :: ·)
  | update _ body => body.map HunkPart.encode
  | delete _ => []
  | move _ _ => []

def lines (s : PatchSection) : List Text := s.header :: s.bodyLines

end PatchSection

def beginLine : Text := text "*** Begin Patch"

def endLine : Text := text "*** End Patch"

/-- The lines of a patch. -/
def patchLines (sections : List PatchSection) : List Text :=
  beginLine :: (sections.flatMap PatchSection.lines ++ [endLine])

/-! ### Agreement -/

/-- What is compared of an operation; hunks are compared by their lines. -/
structure OperationView where
  type : OperationType
  filePath : Text
  newPath : Option Text
  content : Option Text
  hunks : List (List PatchHunkLine)
  deriving DecidableEq

def PatchOperation.view (op : PatchOperation) : OperationView :=
  ⟨op.type, op.filePath, op.newPath, op.content, op.hunks.map PatchHunk.lines⟩

def V4aPatchOperation.view (op : V4aPatchOperation) : OperationView :=
  ⟨op.type, op.filePath, op.newPath, op.content, op.hunks.map V4aHunk.lines⟩

/-- The two parsers return the same operations. -/
def Agree (patch : Text) : Prop :=
  (parseV4aPatch patch).success = true ∧
    (parseV4APatch patch).map PatchOperation.view
      = (parseV4aPatch patch).operations.map V4aPatchOperation.view

instance (patch : Text) : Decidable (Agree patch) := inferInstanceAs (Decidable (_ ∧ _))

/-! ### Clean patches -/

/-- The text has no line terminator: `.` matches every character of it. -/
def InLine (s : Text) : Prop := ∀ c ∈ s, isInLine c = true

/-- White space is free before a path, and a line terminator is none of it. -/
def ReadablePath (path : Text) : Prop := InLine (path.dropWhile isWhiteSpace)

instance (s : Text) : Decidable (InLine s) := inferInstanceAs (Decidable (∀ c ∈ s, _))

instance (path : Text) : Decidable (ReadablePath path) := inferInstanceAs (Decidable (InLine _))

/-- There is no arrow in the path. -/
def NoArrow (path : Text) : Prop := splitArrows path = [path]

namespace HunkPart

/-- A context line whose content is no marker. -/
def Unmarked : HunkPart → Prop
  | line l => l.linePrefix = .space → marker? (trim l.content) = none
  | separator _ => True

/-- A separator with a hint, in which there is no line terminator. -/
def Hinted : HunkPart → Prop
  | separator (some hint) => InLine (trim hint)
  | _ => False

end HunkPart

/-- Where separators stand between two lines, one of them is hinted. -/
def Separated (body : List HunkPart) : Prop :=
  ∀ front gap back l l', body = front ++ .line l :: (gap ++ .line l' :: back) →
    (∀ part ∈ gap, part.line? = none) → gap ≠ [] → ∃ part ∈ gap, part.Hinted

/-- Both parsers can read the section, and read it alike. -/
def PatchSection.Clean : PatchSection → Prop
  | add path _ => ReadablePath path.val
  | update path body =>
    ReadablePath path.val ∧ (∀ part ∈ body, part.Unmarked) ∧ Separated body
  | delete path => ReadablePath path.val
  | move source dest =>
    (InLine (trim source.val) ∧ ReadablePath dest.val) ∧ NoArrow source.val ∧ NoArrow dest.val

/-! ## How the parsers read the lines of a patch

The engine takes the header of every section for a marker.  `DeterministicV4aPatch` does so
where its regular expression matches the paths; on a header for one path that is where the path
is readable, and on a header for two paths it is where an arrow can be found between them.
-/

theorem trim_def (s : Text) : trim s = Trim.both isWhiteSpace s := rfl

theorem startsWith_of_head {c d : UInt16} {s p : Text} (hne : c ≠ d) (hp : p.head? = some d) :
    startsWith (c :: s) p = false := by
  obtain ⟨rest, rfl⟩ := List.head?_eq_some_iff.mp hp
  have hbeq : (d == c) = false := beq_eq_false_iff_ne.mpr hne.symm
  rw [startsWith, List.isPrefixOf, hbeq, Bool.false_and]

/-! ### The engine -/

variable {c : UInt16}

theorem marker?_cons (hc : c ≠ 0x2A) (s : Text) : marker? (c :: s) = none := by
  have hstart : ∀ p : Text, p.head? = some 0x2A → startsWith (c :: s) p = false :=
    fun p hp => startsWith_of_head hc hp
  have hne : ∀ p : Text, p.head? = some 0x2A → c :: s ≠ p := fun p hp h =>
    hc (Option.some.inj ((congrArg List.head? h).trans hp))
  rw [marker?, if_neg (hne _ rfl), if_neg (hne _ rfl), operation?, hstart _ rfl, hstart _ rfl,
    hstart _ rfl, hstart _ rfl, hstart _ rfl]
  rfl

/-- A line that begins with neither white space nor an asterisk is no marker. -/
theorem marker?_trim_cons (hwhite : isWhiteSpace c = false) (hc : c ≠ 0x2A) (s : Text) :
    marker? (trim (c :: s)) = none := by
  rw [trim_def, Trim.both_cons hwhite]
  exact marker?_cons hc _

theorem marker?_encode (part : HunkPart) : marker? (trim part.encode) = none ↔ part.Unmarked := by
  rcases part with ⟨⟨sign, content⟩⟩ | hint
  · cases sign with
    | space => exact ⟨fun h _ => h, fun h => h rfl⟩
    | minus =>
      have hnone := marker?_trim_cons (c := 0x2D) (by decide) (by decide) content
      exact iff_of_true hnone fun h => nomatch h
    | plus =>
      have hnone := marker?_trim_cons (c := 0x2B) (by decide) (by decide) content
      exact iff_of_true hnone fun h => nomatch h
  · have hnone := marker?_trim_cons (c := 0x40) (by decide) (by decide)
    cases hint with
    | none => exact iff_of_true (hnone _) trivial
    | some hint => exact iff_of_true (hnone _) trivial

/-- The operation that the header of a section begins in the engine. -/
def PatchSection.startOperation : PatchSection → PatchOperation
  | add path _ => ⟨.add, trim path.val, none, [], some []⟩
  | update path _ => ⟨.update, trim path.val, none, [], none⟩
  | delete path => ⟨.delete, trim path.val, none, [], none⟩
  | move source dest =>
    let parts := (splitArrows (source.val ++ (text " -> " ++ trimEnd dest.val))).map trim
    ⟨.move, parts.headD [], parts[1]?, [], none⟩

/-- Blanks after the path of a header are no part of it. -/
theorem trim_header (hc : isWhiteSpace c = false) (front : Text) (path : FileName) :
    trim (c :: (front ++ path.val)) = c :: (front ++ trimEnd path.val) := by
  have hne : path.val.rdropWhile isWhiteSpace ≠ [] := fun hnil =>
    path.property (Trim.both_eq_nil_iff.mpr (List.rdropWhile_eq_nil_iff.mp hnil))
  rw [trim_def, Trim.both_cons hc, Trim.rdropWhile_append hne]
  rfl

theorem trim_trimEnd (s : Text) : trim (trimEnd s) = trim s := Trim.both_rdropWhile s

theorem marker?_header (s : PatchSection) :
    marker? (trim s.header) = some (.operation s.startOperation) := by
  cases s with
  | add path content =>
    have htrim : trim (text "*** Add File: " ++ path.val)
        = text "*** Add File: " ++ trimEnd path.val := trim_header (by decide) _ path
    rw [PatchSection.header, htrim, PatchSection.startOperation, ← trim_trimEnd path.val]
    rfl
  | update path body =>
    have htrim : trim (text "*** Update File: " ++ path.val)
        = text "*** Update File: " ++ trimEnd path.val := trim_header (by decide) _ path
    rw [PatchSection.header, htrim, PatchSection.startOperation, ← trim_trimEnd path.val]
    rfl
  | delete path =>
    have htrim : trim (text "*** Delete File: " ++ path.val)
        = text "*** Delete File: " ++ trimEnd path.val := trim_header (by decide) _ path
    rw [PatchSection.header, htrim, PatchSection.startOperation, ← trim_trimEnd path.val]
    rfl
  | move source dest =>
    have hassoc : ∀ end_ : Text, text "*** Move File: " ++ (source.val ++ (text " -> " ++ end_))
        = 0x2A :: ((text "** Move File: " ++ source.val ++ text " -> ") ++ end_) := fun end_ => by
      rw [List.append_assoc, List.append_assoc]
      rfl
    rw [PatchSection.header, hassoc, trim_header (by decide), ← hassoc]
    rfl

/-! ### The regular expressions -/

theorem readStars_cons (hc : c ≠ 0x2A) (s : Text) : readStars (c :: s) = none := by
  have hstarts : startsWith (c :: s) (text "***") = false := startsWith_of_head hc rfl
  rw [readStars, hstarts]
  rfl

theorem readMarker_cons (hc : c ≠ 0x2A) (first second s : Text) :
    readMarker first second (c :: s) = none := by
  rw [readMarker, readStars_cons hc]
  rfl

/-- A line that does not begin with an asterisk begins no operation. -/
theorem header?_cons (hc : c ≠ 0x2A) (s : Text) : header? (c :: s) = none := by
  rw [header?, fileOf, fileOf, fileOf, moveOf, readMarker_cons hc, readMarker_cons hc,
    readMarker_cons hc, readMarker_cons hc]
  rfl

theorem readSpaces_cons (hc : isWhiteSpace c = true) (s : Text) :
    readSpaces (c :: s) = some (s.dropWhile isWhiteSpace) := by
  have hlength := (List.dropWhile_sublist (l := s) isWhiteSpace).length_le
  rw [readSpaces, List.dropWhile_cons, if_pos hc]
  exact if_pos (Nat.lt_succ_of_le hlength)

/-- A marker of two words with one blank between them. -/
theorem readMarker_eq {first second line s t u : Text}
    (hfirst : (readStars line).bind (readWord first) = some (0x20 :: s))
    (hsecond : readWord second (s.dropWhile isWhiteSpace) = some t) (hu : t = u) :
    readMarker first second line = some u := by
  obtain ⟨stars, hstars, hfirst⟩ := Option.bind_eq_some_iff.mp hfirst
  rw [readMarker, hstars, ← hu, ← hsecond]
  show (readWord first stars >>= fun s => readSpaces s >>= readWord second) = _
  rw [hfirst]
  show (readSpaces (0x20 :: s)).bind (readWord second) = _
  rw [readSpaces_cons (by decide)]
  rfl

/-- After a blank, `\s*(.+)$` matches where the path is readable. -/
theorem readRest_space (path : FileName) :
    readRest (0x20 :: path.val)
      = if ReadablePath path.val then some (path.val.dropWhile isWhiteSpace) else none := by
  have hdrop : (0x20 :: path.val).dropWhile isWhiteSpace = path.val.dropWhile isWhiteSpace := rfl
  have hne : path.val.dropWhile isWhiteSpace ≠ [] := fun hnil =>
    path.property (Trim.both_eq_nil_iff.mpr (List.dropWhile_eq_nil_iff.mp hnil))
  have hall : (path.val.dropWhile isWhiteSpace).all isInLine = true ↔ ReadablePath path.val :=
    List.all_eq_true
  obtain ⟨c, rest, hrest⟩ := List.exists_cons_of_ne_nil hne
  rw [readRest, hdrop, hrest]
  rw [hrest] at hall
  exact if_congr hall rfl rfl

end Lumi.V4a
