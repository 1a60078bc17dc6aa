import Lumi.V4a.Arrows

/-!
# The parsers on the lines of a patch

Each parser reads a section from a state in which what went before can be flushed, and leaves
such a state.  What a section adds to the operations is a function of the section: the engine
cuts the lines of an update at every separator, and sees only those before a line that reads
like the end of the patch; `DeterministicV4aPatch` cuts them at the separators with a hint.
-/

namespace Lumi.V4a

open Js Unified List

/-! ## Hunks -/

/-- A hunk of the lines, if there are any. -/
def closeHunk (lines : List PatchHunkLine) : List (List PatchHunkLine) :=
  if lines.length > 0 then [lines] else []

/-- The lines of the hunks, after the lines read already, where the separators that `cuts` are
taken for such. -/
def hunksOf (cuts : HunkPart → Bool) :
    List PatchHunkLine → List HunkPart → List (List PatchHunkLine)
  | lines, [] => closeHunk lines
  | lines, .line l :: rest => hunksOf cuts (lines ++ [l]) rest
  | lines, .separator hint :: rest =>
    if cuts (.separator hint) then closeHunk lines ++ hunksOf cuts [] rest
    else hunksOf cuts lines rest

/-- What the engine sees of a body: the lines before one that reads like the end of the patch,
without those that read like its beginning. -/
def seenBody : List HunkPart → List HunkPart
  | [] => []
  | part :: rest =>
    match marker? (trim part.encode) with
    | some .endPatch => []
    | some .beginPatch => seenBody rest
    | some (.operation _) => part :: seenBody rest
    | none => part :: seenBody rest

/-- The separator is one that `DeterministicV4aPatch` takes for such. -/
def isHinted (part : HunkPart) : Bool := (hintOf part.encode).isSome

theorem hunkLine?_encode (part : HunkPart) : Parser.hunkLine? part.encode = part.line? := by
  rcases part with ⟨⟨sign, content⟩⟩ | hint
  · cases sign <;> rfl
  · cases hint <;> rfl

theorem hintOf_line (l : PatchHunkLine) : hintOf (HunkPart.line l).encode = none := by
  rcases l with ⟨sign, content⟩
  have hstarts : startsWith (HunkPart.line ⟨sign, content⟩).encode (text "@@") = false := by
    cases sign <;> rfl
  rw [hintOf, hstarts]
  rfl

/-- No line of a body begins with an asterisk. -/
theorem exists_encode_eq_cons (part : HunkPart) : ∃ c rest, part.encode = c :: rest ∧ c ≠ 0x2A := by
  rcases part with ⟨⟨sign, content⟩⟩ | hint
  · cases sign with
    | space => exact ⟨0x20, content, rfl, by decide⟩
    | minus => exact ⟨0x2D, content, rfl, by decide⟩
    | plus => exact ⟨0x2B, content, rfl, by decide⟩
  · cases hint with
    | none => exact ⟨0x40, _, rfl, by decide⟩
    | some hint => exact ⟨0x40, _, rfl, by decide⟩

theorem exists_bodyLine_eq_cons {s : PatchSection} {line : Text} (h : line ∈ s.bodyLines) :
    ∃ c rest, line = c :: rest ∧ c ≠ 0x2A := by
  cases s with
  | add path content =>
    obtain ⟨added, -, rfl⟩ := mem_map.mp h
    exact ⟨0x2B, added, rfl, by decide⟩
  | update path body =>
    obtain ⟨part, -, rfl⟩ := mem_map.mp h
    exact exists_encode_eq_cons part
  | delete path => exact absurd h not_mem_nil
  | move source dest => exact absurd h not_mem_nil

theorem header?_bodyLine {s : PatchSection} {line : Text} (h : line ∈ s.bodyLines) :
    header? line = none := by
  obtain ⟨c, rest, rfl, hc⟩ := exists_bodyLine_eq_cons h
  exact header?_cons hc rest

/-! ## The engine -/

/-- The line is a marker that begins an operation. -/
def opensOperation (line : Text) : Bool :=
  match marker? (trim line) with
  | some (.operation _) => true
  | _ => false

namespace EngineParser

/-- What is read is flushed into these operations, and nothing else is left. -/
def Settles (p : EngineParser) (views : List OperationView) : Prop :=
  ∃ operations : List PatchOperation,
    p.flushOp = ⟨operations, none, [], [], []⟩ ∧ operations.map PatchOperation.view = views

theorem settles_start : start.Settles [] := ⟨[], rfl, rfl⟩

theorem read_plain {line : Text} (h : marker? (trim line) = none) (p : EngineParser) :
    p.read line = p.readBody line := by
  rw [read, h]

variable {op : PatchOperation}

/-- An added line. -/
theorem read_add (hop : op.type = .add) (operations : List PatchOperation) (content : List Text)
    (line : Text) :
    (⟨operations, some op, [], [], content⟩ : EngineParser).read (0x2B :: line)
      = ⟨operations, some op, [], [], content ++ [line]⟩ := by
  rw [read_plain (marker?_trim_cons (by decide) (by decide) line), readBody]
  simp only [hop]
  rfl

theorem run_add (hop : op.type = .add) (operations : List PatchOperation)
    (content added : List Text) :
    (added.map (0x2B :: ·)).foldl read ⟨operations, some op, [], [], content⟩
      = ⟨operations, some op, [], [], content ++ added⟩ := by
  induction added generalizing content with
  | nil => rw [append_nil]; rfl
  | cons line rest ih =>
    rw [map_cons, foldl_cons, read_add hop, ih, append_assoc]
    rfl

/-- Without a current operation only markers are read. -/
theorem run_idle {lines : List Text} (hlines : ∀ line ∈ lines, opensOperation line = false)
    (operations : List PatchOperation) :
    lines.foldl read ⟨operations, none, [], [], []⟩ = ⟨operations, none, [], [], []⟩ := by
  induction lines with
  | nil => rfl
  | cons line rest ih =>
    have hread : (⟨operations, none, [], [], []⟩ : EngineParser).read line
        = ⟨operations, none, [], [], []⟩ := by
      have hline := hlines line mem_cons_self
      unfold opensOperation at hline
      unfold read
      split at hline
      · cases hline
      · next hno =>
        split
        · rfl
        · rfl
        · next op hop => exact absurd hop (hno op)
        · rfl
    rw [foldl_cons, hread]
    exact ih fun line hmem => hlines line (mem_cons_of_mem _ hmem)

theorem flushHunk_eq (operations : List PatchOperation) (op : Option PatchOperation)
    (hunks : List PatchHunk) (lines : List PatchHunkLine) :
    ∃ flushed : List PatchHunk, flushed.map PatchHunk.lines = closeHunk lines ∧
      (⟨operations, op, hunks, lines, []⟩ : EngineParser).flushHunk
        = ⟨operations, op, hunks ++ flushed, [], []⟩ := by
  cases lines with
  | nil => exact ⟨[], rfl, by rw [append_nil]; rfl⟩
  | cons l rest => exact ⟨[hunkOf (l :: rest)], rfl, rfl⟩

theorem flushOp_update (hop : op.type = .update) (operations : List PatchOperation)
    (hunks : List PatchHunk) (lines : List PatchHunkLine) :
    ∃ last : PatchOperation,
      (⟨operations, some op, hunks, lines, []⟩ : EngineParser).flushOp
        = ⟨operations ++ [last], none, [], [], []⟩ ∧
      last.view = ⟨op.type, op.filePath, op.newPath, op.content,
        hunks.map PatchHunk.lines ++ closeHunk lines⟩ := by
  obtain ⟨flushed, hlines, heq⟩ := flushHunk_eq operations (some op) hunks lines
  refine ⟨{ op with hunks := hunks ++ flushed }, ?_, ?_⟩
  · rw [flushOp, heq]
    simp only [hop, reduceCtorEq, if_false]
  · rw [PatchOperation.view, map_append, hlines]

/-- The lines of an update. -/
theorem run_update (hop : op.type = .update) (operations : List PatchOperation)
    (hunks : List PatchHunk) (lines : List PatchHunkLine) (body : List HunkPart)
    (hbody : ∀ part ∈ body, opensOperation part.encode = false) :
    ((body.map HunkPart.encode).foldl read ⟨operations, some op, hunks, lines, []⟩).Settles
      (operations.map PatchOperation.view ++ [⟨op.type, op.filePath, op.newPath, op.content,
        hunks.map PatchHunk.lines ++ hunksOf (fun _ => true) lines (seenBody body)⟩]) := by
  induction body generalizing hunks lines with
  | nil =>
    obtain ⟨last, heq, hview⟩ := flushOp_update hop operations hunks lines
    refine ⟨operations ++ [last], heq, ?_⟩
    rw [map_append, map_singleton, hview]
    rfl
  | cons part rest ih =>
    have hrest := fun part hmem => hbody part (mem_cons_of_mem _ hmem)
    have hpart := hbody part mem_cons_self
    rw [map_cons, foldl_cons, seenBody]
    cases hmarker : marker? (trim part.encode) with
    | some marker =>
      cases marker with
      | beginPatch =>
        rw [read, hmarker]
        exact ih hunks lines hrest
      | endPatch =>
        -- the operation is closed, and the rest of the body belongs to none
        obtain ⟨last, heq, hview⟩ := flushOp_update hop operations hunks lines
        have hidle : ∀ line ∈ rest.map HunkPart.encode, opensOperation line = false := by
          intro line hline
          obtain ⟨part, hmem, rfl⟩ := mem_map.mp hline
          exact hrest part hmem
        rw [read, hmarker]
        simp only [heq, run_idle hidle]
        refine ⟨operations ++ [last], rfl, ?_⟩
        rw [map_append, map_singleton, hview]
        rfl
      | operation found =>
        rw [opensOperation, hmarker] at hpart
        cases hpart
    | none =>
      rw [read_plain hmarker]
      cases part with
      | line l =>
        have hread : (⟨operations, some op, hunks, lines, []⟩ : EngineParser).readBody
            (HunkPart.line l).encode = ⟨operations, some op, hunks, lines ++ [l], []⟩ := by
          have hstarts : startsWith (HunkPart.line l).encode (text "@@") = false := by
            rcases l with ⟨sign, content⟩
            cases sign <;> rfl
          simp only [readBody, hop, hstarts, hunkLine?_encode]
          rfl
        rw [hread]
        exact ih hunks (lines ++ [l]) hrest
      | separator hint =>
        obtain ⟨flushed, hlines, heq⟩ := flushHunk_eq operations (some op) hunks lines
        have hread : (⟨operations, some op, hunks, lines, []⟩ : EngineParser).readBody
            (HunkPart.separator hint).encode
              = ⟨operations, some op, hunks ++ flushed, [], []⟩ := by
          have hstarts : startsWith (HunkPart.separator hint).encode (text "@@") = true := by
            cases hint <;> rfl
          rw [← heq]
          simp only [readBody, hop, hstarts, if_true]
        have hsettles := ih (hunks ++ flushed) [] hrest
        rw [map_append, hlines, append_assoc] at hsettles
        rw [hread]
        exact hsettles

/-- What the engine makes of a section. -/
def viewOf : PatchSection → OperationView
  | .add path content => ⟨.add, trim path.val, none, some (joinLines content), []⟩
  | .update path body =>
    ⟨.update, trim path.val, none, none, hunksOf (fun _ => true) [] (seenBody body)⟩
  | .delete path => ⟨.delete, trim path.val, none, none, []⟩
  | .move source dest => (PatchSection.move source dest).startOperation.view

/-- A section after what can be flushed. -/
theorem run_section {p : EngineParser} {views : List OperationView} (hp : p.Settles views)
    {s : PatchSection} (hs : ∀ line ∈ s.bodyLines, opensOperation line = false) :
    (s.lines.foldl read p).Settles (views ++ [viewOf s]) := by
  obtain ⟨operations, hflush, rfl⟩ := hp
  have hread : p.read s.header = ⟨operations, some s.startOperation, [], [], []⟩ := by
    rw [read, marker?_header, hflush]
  have hclose : ∀ last : PatchOperation, last.view = viewOf s →
      (operations ++ [last]).map PatchOperation.view
        = operations.map PatchOperation.view ++ [viewOf s] := fun last hlast => by
    rw [map_append, map_singleton, hlast]
  rw [PatchSection.lines, foldl_cons, hread]
  cases s with
  | add path content =>
    rw [PatchSection.bodyLines, run_add rfl]
    exact ⟨_, rfl, hclose ⟨.add, trim path.val, none, [], some (joinLines content)⟩ rfl⟩
  | update path body =>
    refine run_update rfl operations [] [] body fun part hmem => ?_
    exact hs part.encode (mem_map_of_mem hmem)
  | delete path => exact ⟨_, rfl, hclose ⟨.delete, trim path.val, none, [], none⟩ rfl⟩
  | move source dest => exact ⟨_, rfl, hclose (PatchSection.move source dest).startOperation rfl⟩

theorem run_sections {p : EngineParser} {views : List OperationView} (hp : p.Settles views)
    {sections : List PatchSection}
    (hsections : ∀ s ∈ sections, ∀ line ∈ s.bodyLines, opensOperation line = false) :
    ((sections.flatMap PatchSection.lines).foldl read p).Settles
      (views ++ sections.map viewOf) := by
  induction sections generalizing p views with
  | nil => rwa [map_nil, append_nil]
  | cons s rest ih =>
    rw [flatMap_cons, foldl_append, map_cons, append_cons]
    exact ih (run_section hp (hsections s mem_cons_self))
      fun s hs => hsections s (mem_cons_of_mem _ hs)

end EngineParser

/-! ## `DeterministicV4aPatch` -/

/-- The operation that the header of a section begins in `DeterministicV4aPatch`. -/
def PatchSection.startV4a? : PatchSection → Option V4aPatchOperation
  | add path _ =>
    if ReadablePath path.val then some ⟨.add, trim path.val, none, [], some []⟩ else none
  | update path _ =>
    if ReadablePath path.val then some ⟨.update, trim path.val, none, [], none⟩ else none
  | delete path =>
    if ReadablePath path.val then some ⟨.delete, trim path.val, none, [], none⟩ else none
  | move source dest =>
    (readMove (0x20 :: (source.val ++ (text " -> " ++ dest.val)))).map fun groups =>
      ⟨.move, trim groups.1, some (trim groups.2), [], none⟩

/-- The path of a header, if it is read, and its operation. -/
theorem header_path (path : FileName) (op : Text → V4aPatchOperation) :
    (match readRest (0x20 :: path.val) with
      | some path => some (op (trim path))
      | none => none)
      = if ReadablePath path.val then some (op (trim path.val)) else none := by
  have htrim : trim (path.val.dropWhile isWhiteSpace) = trim path.val := Trim.both_dropWhile path.val
  rw [readRest_space]
  by_cases hpath : ReadablePath path.val
  · rw [if_pos hpath, if_pos hpath, ← htrim]
  · rw [if_neg hpath, if_neg hpath]

theorem header?_header (s : PatchSection) : header? s.header = s.startV4a? := by
  cases s with
  | add path content =>
    have hmarker : readMarker (text "add") (text "file:") (text "*** Add File: " ++ path.val)
        = some (0x20 :: path.val) := readMarker_eq rfl rfl rfl
    have hadd : fileOf (text "add") (text "*** Add File: " ++ path.val)
        = readRest (0x20 :: path.val) := by rw [fileOf, hmarker]; rfl
    have hupdate : fileOf (text "update") (text "*** Add File: " ++ path.val) = none := rfl
    have hdelete : fileOf (text "delete") (text "*** Add File: " ++ path.val) = none := rfl
    have hmove : moveOf (text "*** Add File: " ++ path.val) = none := rfl
    rw [PatchSection.header, header?, hupdate, hadd, hdelete, hmove]
    exact header_path path fun path => ⟨.add, path, none, [], some []⟩
  | update path body =>
    have hmarker : readMarker (text "update") (text "file:")
        (text "*** Update File: " ++ path.val) = some (0x20 :: path.val) := readMarker_eq rfl rfl rfl
    have hupdate : fileOf (text "update") (text "*** Update File: " ++ path.val)
        = readRest (0x20 :: path.val) := by rw [fileOf, hmarker]; rfl
    have hadd : fileOf (text "add") (text "*** Update File: " ++ path.val) = none := rfl
    have hdelete : fileOf (text "delete") (text "*** Update File: " ++ path.val) = none := rfl
    have hmove : moveOf (text "*** Update File: " ++ path.val) = none := rfl
    rw [PatchSection.header, header?, hupdate, hadd, hdelete, hmove]
    exact header_path path fun path => ⟨.update, path, none, [], none⟩
  | delete path =>
    have hmarker : readMarker (text "delete") (text "file:")
        (text "*** Delete File: " ++ path.val) = some (0x20 :: path.val) := readMarker_eq rfl rfl rfl
    have hdelete : fileOf (text "delete") (text "*** Delete File: " ++ path.val)
        = readRest (0x20 :: path.val) := by rw [fileOf, hmarker]; rfl
    have hupdate : fileOf (text "update") (text "*** Delete File: " ++ path.val) = none := rfl
    have hadd : fileOf (text "add") (text "*** Delete File: " ++ path.val) = none := rfl
    have hmove : moveOf (text "*** Delete File: " ++ path.val) = none := rfl
    rw [PatchSection.header, header?, hupdate, hadd, hdelete, hmove]
    exact header_path path fun path => ⟨.delete, path, none, [], none⟩
  | move source dest =>
    have hmarker : ∀ rest : Text, readMarker (text "move") (text "file:")
        (text "*** Move File: " ++ rest) = some (0x20 :: rest) := fun rest =>
      readMarker_eq rfl rfl rfl
    have hmove : ∀ rest : Text, moveOf (text "*** Move File: " ++ rest)
        = readMove (0x20 :: rest) := fun rest => by rw [moveOf, hmarker]; rfl
    have hfile : ∀ rest : Text, fileOf (text "update") (text "*** Move File: " ++ rest) = none ∧
        fileOf (text "add") (text "*** Move File: " ++ rest) = none ∧
        fileOf (text "delete") (text "*** Move File: " ++ rest) = none := fun rest =>
      ⟨rfl, rfl, rfl⟩
    obtain ⟨hupdate, hadd, hdelete⟩ := hfile (source.val ++ (text " -> " ++ dest.val))
    rw [PatchSection.header, header?, hupdate, hadd, hdelete, hmove]
    rfl

namespace V4aParser

/-- What is read is flushed into these operations, and only a hunk without lines is left. -/
def Settles (p : V4aParser) (views : List OperationView) : Prop :=
  ∃ (operations : List V4aPatchOperation) (hunk : Option V4aHunk),
    p.flushOp = ⟨operations, none, hunk, [], []⟩ ∧ operations.map V4aPatchOperation.view = views

theorem settles_start : start.Settles [] := ⟨[], none, rfl, rfl⟩

theorem read_plain {line : Text} (h : header? line = none) (p : V4aParser) :
    p.read line = p.readBody line := by
  rw [read, h]

variable {op : V4aPatchOperation}

theorem run_add (hop : op.type = .add) (operations : List V4aPatchOperation) (hunk : Option V4aHunk)
    (addLines added : List Text) :
    (added.map (0x2B :: ·)).foldl read ⟨operations, some op, hunk, [], addLines⟩
      = ⟨operations, some op, hunk, [], addLines ++ added⟩ := by
  induction added generalizing addLines with
  | nil => rw [append_nil]; rfl
  | cons line rest ih =>
    have hread : (⟨operations, some op, hunk, [], addLines⟩ : V4aParser).read (0x2B :: line)
        = ⟨operations, some op, hunk, [], addLines ++ [line]⟩ := by
      rw [read_plain (header?_cons (by decide) line), readBody]
      simp only [hop]
      rfl
    rw [map_cons, foldl_cons, hread, ih, append_assoc]
    rfl

theorem flushHunk_eq (operations : List V4aPatchOperation) (op : V4aPatchOperation)
    (hunk : Option V4aHunk) (lines : List PatchHunkLine) :
    ∃ (flushed : List V4aHunk) (left : Option V4aHunk),
      flushed.map V4aHunk.lines = closeHunk lines ∧
      (⟨operations, some op, hunk, lines, []⟩ : V4aParser).flushHunk
        = ⟨operations, some { op with hunks := op.hunks ++ flushed }, left, [], []⟩ := by
  cases lines with
  | nil => exact ⟨[], hunk, rfl, by rw [append_nil]; rfl⟩
  | cons l rest =>
    exact ⟨[⟨hunk.bind V4aHunk.contextHint, l :: rest⟩], none, rfl, rfl⟩

theorem flushOp_update (hop : op.type = .update) (operations : List V4aPatchOperation)
    (hunk : Option V4aHunk) (lines : List PatchHunkLine) :
    ∃ (last : V4aPatchOperation) (left : Option V4aHunk),
      (⟨operations, some op, hunk, lines, []⟩ : V4aParser).flushOp
        = ⟨operations ++ [last], none, left, [], []⟩ ∧
      last.view = ⟨op.type, op.filePath, op.newPath, op.content,
        op.hunks.map V4aHunk.lines ++ closeHunk lines⟩ := by
  obtain ⟨flushed, left, hlines, heq⟩ := flushHunk_eq operations op hunk lines
  refine ⟨{ op with hunks := op.hunks ++ flushed }, left, ?_, ?_⟩
  · rw [flushOp, heq]
    simp [hop]
  · rw [V4aPatchOperation.view, map_append, hlines]

/-- The lines of an update. -/
theorem run_update (hop : op.type = .update) (operations : List V4aPatchOperation)
    (hunk : Option V4aHunk) (lines : List PatchHunkLine) (body : List HunkPart) :
    ((body.map HunkPart.encode).foldl read ⟨operations, some op, hunk, lines, []⟩).Settles
      (operations.map V4aPatchOperation.view ++ [⟨op.type, op.filePath, op.newPath, op.content,
        op.hunks.map V4aHunk.lines ++ hunksOf isHinted lines body⟩]) := by
  induction body generalizing op hunk lines with
  | nil =>
    obtain ⟨last, left, heq, hview⟩ := flushOp_update hop operations hunk lines
    refine ⟨operations ++ [last], left, heq, ?_⟩
    rw [map_append, map_singleton, hview]
    rfl
  | cons part rest ih =>
    obtain ⟨c, tail, hencode, hc⟩ := exists_encode_eq_cons part
    have hplain : header? part.encode = none := by
      rw [hencode]
      exact header?_cons hc tail
    rw [map_cons, foldl_cons, read_plain hplain]
    cases part with
    | line l =>
      have hread : (⟨operations, some op, hunk, lines, []⟩ : V4aParser).readBody
          (HunkPart.line l).encode = ⟨operations, some op, hunk, lines ++ [l], []⟩ := by
        simp only [readBody, hop, hintOf_line, hunkLine?_encode]
        rfl
      rw [hread]
      exact ih hop hunk (lines ++ [l])
    | separator hint =>
      cases hfound : hintOf (HunkPart.separator hint).encode with
      | some found =>
        obtain ⟨flushed, left, hlines, heq⟩ := flushHunk_eq operations op hunk lines
        have hread : (⟨operations, some op, hunk, lines, []⟩ : V4aParser).readBody
            (HunkPart.separator hint).encode
              = ⟨operations, some { op with hunks := op.hunks ++ flushed },
                  some ⟨some found, []⟩, [], []⟩ := by
          simp only [readBody, hop, hfound, heq]
        have hcut : isHinted (.separator hint) = true := by rw [isHinted, hfound]; rfl
        have hsettles := @ih { op with hunks := op.hunks ++ flushed } hop
          (some ⟨some found, []⟩) []
        rw [map_append, hlines, append_assoc] at hsettles
        rw [hread, hunksOf, if_pos hcut]
        exact hsettles
      | none =>
        have hread : (⟨operations, some op, hunk, lines, []⟩ : V4aParser).readBody
            (HunkPart.separator hint).encode = ⟨operations, some op, hunk, lines, []⟩ := by
          simp only [readBody, hop, hfound, hunkLine?_encode]
          show (⟨operations, some op, hunk, lines ++ [], []⟩ : V4aParser) = _
          rw [append_nil]
        have hcut : ¬ isHinted (.separator hint) = true := by
          rw [isHinted, hfound]
          decide
        rw [hread, hunksOf, if_neg hcut]
        exact ih hop hunk lines

/-- What becomes of a section whose header begins `op`. -/
def viewOf (op : V4aPatchOperation) : PatchSection → OperationView
  | .add _ content => { op.view with content := some (joinLines content) }
  | .update _ body => { op.view with hunks := hunksOf isHinted [] body }
  | .delete _ => op.view
  | .move _ _ => op.view

theorem run_section {p : V4aParser} {views : List OperationView} (hp : p.Settles views)
    {s : PatchSection} (hop : s.startV4a? = some op) :
    (s.lines.foldl read p).Settles (views ++ [viewOf op s]) := by
  obtain ⟨operations, hunk, hflush, rfl⟩ := hp
  have hread : p.read s.header = ⟨operations, some op, hunk, [], []⟩ := by
    rw [read, header?_header, hop, hflush]
  have hclose : ∀ last : V4aPatchOperation, last.view = viewOf op s →
      (operations ++ [last]).map V4aPatchOperation.view
        = operations.map V4aPatchOperation.view ++ [viewOf op s] := fun last hlast => by
    rw [map_append, map_singleton, hlast]
  rw [PatchSection.lines, foldl_cons, hread]
  cases s with
  | add path content =>
    rw [PatchSection.startV4a?] at hop
    split at hop
    · cases hop
      rw [PatchSection.bodyLines, run_add rfl, nil_append]
      cases content with
      | nil => exact ⟨_, hunk, rfl, hclose ⟨.add, trim path.val, none, [], some []⟩ rfl⟩
      | cons line rest =>
        exact ⟨_, hunk, rfl,
          hclose ⟨.add, trim path.val, none, [], some (joinLines (line :: rest))⟩ rfl⟩
    · cases hop
  | update path body =>
    rw [PatchSection.startV4a?] at hop
    split at hop
    · cases hop
      exact run_update rfl operations hunk [] body
    · cases hop
  | delete path =>
    rw [PatchSection.startV4a?] at hop
    split at hop
    · cases hop
      exact ⟨_, hunk, rfl, hclose ⟨.delete, trim path.val, none, [], none⟩ rfl⟩
    · cases hop
  | move source dest =>
    obtain ⟨groups, -, rfl⟩ := Option.map_eq_some_iff.mp hop
    exact ⟨_, hunk, rfl,
      hclose ⟨.move, trim groups.1, some (trim groups.2), [], none⟩ rfl⟩

/-- The views of sections whose headers are read. -/
theorem run_sections {p : V4aParser} {views : List OperationView} (hp : p.Settles views)
    {sections : List PatchSection} {ops : List V4aPatchOperation}
    (hops : sections.map PatchSection.startV4a? = ops.map some) :
    ((sections.flatMap PatchSection.lines).foldl read p).Settles
      (views ++ List.zipWith viewOf ops sections) := by
  induction sections generalizing p views ops with
  | nil =>
    cases ops with
    | nil => rwa [zipWith_nil_left, append_nil]
    | cons op rest => cases hops
  | cons s rest ih =>
    cases ops with
    | nil => cases hops
    | cons op others =>
      obtain ⟨hop, hrest⟩ := List.cons.inj hops
      rw [flatMap_cons, foldl_append, zipWith_cons_cons, append_cons]
      exact ih (run_section hp hop) hrest

end V4aParser

end Lumi.V4a
