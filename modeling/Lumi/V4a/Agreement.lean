import Lumi.V4a.Hunks

/-!
# Where the two parsers agree

The engine returns an operation for every section and one for every line of a body that looks
like the header of another; `DeterministicV4aPatch` returns one for every section whose header
it reads.  So lists of equal length mean that all headers are read and that no line of a body
begins an operation, and then the operations of the two come from the same sections.
-/

namespace Lumi.V4a

open Js Unified List

/-! ## The number of operations -/

/-- A loop that counts the lines of a kind. -/
theorem count_foldl {σ : Type*} {read : σ → Text → σ} {count : σ → ℕ} {opens : Text → Bool}
    (hstep : ∀ s line, count (read s line) = count s + (if opens line then 1 else 0))
    (s : σ) (lines : List Text) : count (lines.foldl read s) = count s + lines.countP opens := by
  induction lines generalizing s with
  | nil => rfl
  | cons line rest ih =>
    rw [foldl_cons, ih, hstep, countP_cons]
    omega

namespace EngineParser

section

variable (p : EngineParser)

/-- The operations, with the one that is not closed yet. -/
def count : ℕ := p.operations.length + if p.currentOp.isSome then 1 else 0

theorem count_flushHunk : p.flushHunk.count = p.count := by
  rw [flushHunk]
  split <;> rfl

theorem flushOp_spec : p.flushOp.operations.length = p.count ∧ p.flushOp.currentOp = none := by
  have hcount := count_flushHunk p
  rw [flushOp]
  split
  · next hnone =>
    refine ⟨?_, hnone⟩
    rw [← hcount, count, hnone]
    rfl
  · next op hop =>
    refine ⟨?_, rfl⟩
    rw [← hcount, count, hop, length_append]
    rfl

theorem count_flushOp : p.flushOp.count = p.count := by
  obtain ⟨hlength, hnone⟩ := flushOp_spec p
  rw [count, hnone, hlength]
  rfl

theorem count_readBody (line : Text) : (p.readBody line).count = p.count := by
  rw [readBody]
  split
  · rfl
  · next op hop =>
    split
    · rw [count, count, hop]
    · split
      · exact count_flushHunk p
      · rw [count, count, hop]
    · rfl
    · rfl

theorem count_read (line : Text) :
    (p.read line).count = p.count + (if opensOperation line then 1 else 0) := by
  rw [read, opensOperation]
  cases marker? (trim line) with
  | none => exact count_readBody p line
  | some marker =>
    cases marker with
    | beginPatch => rfl
    | endPatch => exact count_flushOp p
    | operation op =>
      have hlength := (flushOp_spec p).1
      show p.flushOp.operations.length + 1 = p.count + 1
      rw [hlength]

end

end EngineParser

namespace V4aParser

section

variable (p : V4aParser)

/-- The operations, with the one that is not closed yet. -/
def count : ℕ := p.operations.length + if p.currentOp.isSome then 1 else 0

theorem count_flushHunk : p.flushHunk.count = p.count := by
  rw [flushHunk]
  split
  · rfl
  · next op hop =>
    split
    · rw [count, count, hop]
      rfl
    · rfl

theorem flushOp_spec : p.flushOp.operations.length = p.count ∧ p.flushOp.currentOp = none := by
  have hcount := count_flushHunk p
  rw [flushOp]
  split
  · next hnone =>
    refine ⟨?_, hnone⟩
    rw [← hcount, count, hnone]
    rfl
  · next op hop =>
    have hlength : p.flushHunk.operations.length + 1 = p.count := by
      rw [← hcount, count, hop]
      rfl
    split <;> exact ⟨by rw [← hlength, length_append]; rfl, rfl⟩

theorem count_readBody (line : Text) : (p.readBody line).count = p.count := by
  rw [readBody]
  split
  · rfl
  · next op hop =>
    split
    · rw [count, count, hop]
    · split
      · exact count_flushHunk p
      · rw [count, count, hop]
    · rfl
    · rfl

theorem count_read (line : Text) :
    (p.read line).count = p.count + (if (header? line).isSome then 1 else 0) := by
  rw [read]
  cases header? line with
  | none => exact count_readBody p line
  | some op =>
    have hlength := (flushOp_spec p).1
    show p.flushOp.operations.length + 1 = p.count + 1
    rw [hlength]

end

end V4aParser

/-! ## The lines of a patch -/

variable {s : PatchSection}

theorem isBegin_section {line : Text} (h : line ∈ s.lines) :
    isBegin line = false ∧ isEnd line = false := by
  rcases mem_cons.mp h with rfl | h
  · cases s <;> exact ⟨rfl, rfl⟩
  · obtain ⟨c, rest, rfl, hc⟩ := exists_bodyLine_eq_cons h
    exact ⟨by rw [isBegin, readMarker_cons hc]; rfl, by rw [isEnd, readMarker_cons hc]; rfl⟩

theorem findMarkers_between {lines : List Text}
    (h : ∀ line ∈ lines, isBegin line = false ∧ isEnd line = false) (startIdx i : ℕ) :
    findMarkers (some startIdx) i (lines ++ [endLine])
      = (some startIdx, some (i + lines.length)) := by
  induction lines generalizing i with
  | nil => rfl
  | cons line rest ih =>
    obtain ⟨hbegin, hend⟩ := h line mem_cons_self
    rw [cons_append, findMarkers, hbegin, hend, if_neg (by decide), Bool.false_and,
      if_neg (by decide), ih (fun line hmem => h line (mem_cons_of_mem _ hmem)),
      length_cons]
    congr 2
    omega

section

variable {patch : Text} {sections : List PatchSection}

section

variable (h : splitBreaks patch = patchLines sections)
include h

/-- The last line of the patch is no line that ends with a carriage return. -/
theorem map_stripReturn : (splitLines patch).map stripReturn = patchLines sections := by
  have hne := splitLines_ne_nil patch
  have hlast : (splitLines patch).getLast hne = endLine := by
    have hget := congrArg List.getLast? h
    rw [splitBreaks, patchLines, getLast?_eq_some_getLast hne] at hget
    rw [← cons_append, getLast?_concat] at hget
    exact Option.some.inj (getLast?_concat.symm.trans hget)
  have hstrip : stripReturn endLine = endLine := by decide +kernel
  calc (splitLines patch).map stripReturn
      = ((splitLines patch).dropLast ++ [(splitLines patch).getLast hne]).map stripReturn := by
        rw [dropLast_append_getLast hne]
    _ = (splitLines patch).dropLast.map stripReturn ++ [endLine] := by
        rw [map_append, map_singleton, hlast, hstrip]
    _ = splitBreaks patch := by
        rw [splitBreaks, getLast?_eq_some_getLast hne, hlast]
        rfl
    _ = patchLines sections := h

/-- `DeterministicV4aPatch` reads the lines of the sections. -/
theorem parseV4aPatch_eq :
    parseV4aPatch patch = ⟨true,
      ((sections.flatMap PatchSection.lines).foldl V4aParser.read .start).flushOp.operations,
      none⟩ := by
  have hlines := map_stripReturn h
  have hne : patch ≠ [] := by
    rintro rfl
    have hlength := congrArg List.length h
    rw [patchLines, length_cons, length_append] at hlength
    have hone : (splitBreaks []).length = 1 := rfl
    rw [hone, length_singleton] at hlength
    omega
  have hbetween : ∀ line ∈ sections.flatMap PatchSection.lines,
      isBegin line = false ∧ isEnd line = false := by
    intro line hline
    obtain ⟨s, -, hmem⟩ := mem_flatMap.mp hline
    exact isBegin_section hmem
  have hfound : findMarkers none 0 (patchLines sections)
      = (some 0, some (1 + (sections.flatMap PatchSection.lines).length)) := by
    have hbegin : isBegin beginLine = true := by decide +kernel
    rw [patchLines, findMarkers, if_pos hbegin]
    exact findMarkers_between hbetween 0 1
  have hslice : slice (patchLines sections) ((0 : ℕ) + 1)
      ((1 + (sections.flatMap PatchSection.lines).length : ℕ) : ℤ)
        = sections.flatMap PatchSection.lines := by
    have hstart : ((0 : ℕ) : ℤ) + 1 = (1 : ℕ) := rfl
    have hlength : (patchLines sections).length
        = (sections.flatMap PatchSection.lines).length + 2 := by
      rw [patchLines, length_cons, length_append]
      rfl
    rw [hstart, slice_eq (by omega) (by omega), Nat.add_sub_cancel_left, patchLines,
      drop_succ_cons, drop_zero, take_left]
  rw [parseV4aPatch, if_neg hne, hlines]
  simp only [hfound, hslice]

/-- The engine reads them between two lines that begin no operation. -/
theorem parseV4APatch_eq :
    parseV4APatch patch =
      (((sections.flatMap PatchSection.lines).foldl EngineParser.read
        .start).flushOp.flushOp).operations := by
  have hbegin : EngineParser.start.read beginLine = .start := by
    have hmarker : marker? (trim beginLine) = some .beginPatch := by decide +kernel
    rw [EngineParser.read, hmarker]
  have hend : ∀ p : EngineParser, p.read endLine = p.flushOp := fun p => by
    have hmarker : marker? (trim endLine) = some .endPatch := by decide +kernel
    rw [EngineParser.read, hmarker]
  rw [parseV4APatch, h, patchLines, foldl_cons, hbegin, foldl_append, foldl_cons,
    foldl_nil, hend]

end

end

/-! ## From as many operations to the same sections -/

/-- The header of the section is read, and no line of its body begins an operation. -/
def PatchSection.Aligned (s : PatchSection) : Prop :=
  s.startV4a?.isSome = true ∧ ∀ line ∈ s.bodyLines, opensOperation line = false

theorem countP_engine (s : PatchSection) :
    s.lines.countP opensOperation = s.bodyLines.countP opensOperation + 1 := by
  have hheader : opensOperation s.header = true := by rw [opensOperation, marker?_header]
  rw [PatchSection.lines, countP_cons_of_pos hheader]

theorem countP_v4a (s : PatchSection) :
    s.lines.countP (fun line => (header? line).isSome) = if s.startV4a?.isSome then 1 else 0 := by
  have hbody : s.bodyLines.countP (fun line => (header? line).isSome) = 0 := by
    rw [countP_eq_zero]
    intro line hline
    rw [header?_bodyLine hline]
    decide
  rw [PatchSection.lines, countP_cons, hbody, header?_header, Nat.zero_add]

theorem countP_v4a_le (sections : List PatchSection) :
    (sections.flatMap PatchSection.lines).countP (fun line => (header? line).isSome)
      ≤ (sections.flatMap PatchSection.lines).countP opensOperation := by
  induction sections with
  | nil => exact Nat.le_refl _
  | cons s rest ih =>
    rw [flatMap_cons, countP_append, countP_append, countP_engine, countP_v4a]
    split <;> omega

variable {sections : List PatchSection}

theorem aligned_of_countP
    (h : (sections.flatMap PatchSection.lines).countP opensOperation
      = (sections.flatMap PatchSection.lines).countP (fun line => (header? line).isSome)) :
    ∀ s ∈ sections, s.Aligned := by
  induction sections with
  | nil => exact fun s hs => absurd hs not_mem_nil
  | cons s rest ih =>
    have hle := countP_v4a_le rest
    rw [flatMap_cons, countP_append, countP_append, countP_engine, countP_v4a] at h
    have hsome : s.startV4a?.isSome = true := by
      by_contra hno
      rw [if_neg hno] at h
      omega
    rw [if_pos hsome] at h
    have hbody : s.bodyLines.countP opensOperation = 0 := by omega
    intro other hother
    rcases mem_cons.mp hother with rfl | hother
    · exact ⟨hsome, fun line hline =>
        Bool.eq_false_iff.mpr (countP_eq_zero.mp hbody line hline)⟩
    · exact ih (by omega) other hother

theorem exists_ops_of_aligned (h : ∀ s ∈ sections, s.Aligned) :
    ∃ ops : List V4aPatchOperation, sections.map PatchSection.startV4a? = ops.map some := by
  induction sections with
  | nil => exact ⟨[], rfl⟩
  | cons s rest ih =>
    obtain ⟨op, hop⟩ := Option.isSome_iff_exists.mp (h s mem_cons_self).1
    obtain ⟨ops, hops⟩ := ih fun s hs => h s (mem_cons_of_mem _ hs)
    exact ⟨op :: ops, by rw [map_cons, map_cons, hop, hops]⟩

/-! ## One section -/

theorem aligned_of_clean (h : s.Clean) : s.Aligned := by
  cases s with
  | add path content =>
    have hread : ReadablePath path.val := h
    refine ⟨by rw [PatchSection.startV4a?, if_pos hread]; rfl, fun line hline => ?_⟩
    obtain ⟨added, -, rfl⟩ := mem_map.mp hline
    rw [opensOperation, marker?_trim_cons (by decide) (by decide)]
  | update path body =>
    obtain ⟨hread, hunmarked, -⟩ := h
    refine ⟨by rw [PatchSection.startV4a?, if_pos hread]; rfl, fun line hline => ?_⟩
    obtain ⟨part, hpart, rfl⟩ := mem_map.mp hline
    rw [opensOperation, (marker?_encode part).mpr (hunmarked part hpart)]
  | delete path =>
    have hread : ReadablePath path.val := h
    exact ⟨by rw [PatchSection.startV4a?, if_pos hread]; rfl,
      fun line hline => absurd hline not_mem_nil⟩
  | move source dest =>
    obtain ⟨⟨hsource, hdest⟩, -⟩ := h
    refine ⟨?_, fun line hline => absurd hline not_mem_nil⟩
    rw [PatchSection.startV4a?, Option.isSome_map]
    exact readMove_isSome_of_readable hsource hdest

/-- What the two parsers make of an aligned section is the same just where it is clean. -/
theorem view_eq_iff {op : V4aPatchOperation} (hop : s.startV4a? = some op) (hs : s.Aligned) :
    EngineParser.viewOf s = V4aParser.viewOf op s ↔ s.Clean := by
  cases s with
  | add path content =>
    rw [PatchSection.startV4a?] at hop
    split at hop
    · next hread => cases hop; exact iff_of_true rfl hread
    · cases hop
  | update path body =>
    have hbody : ∀ part ∈ body, opensOperation part.encode = false := fun part hpart =>
      hs.2 part.encode (mem_map_of_mem hpart)
    rw [PatchSection.startV4a?] at hop
    split at hop
    · next hread =>
      cases hop
      calc EngineParser.viewOf (.update path body)
            = V4aParser.viewOf ⟨.update, trim path.val, none, [], none⟩ (.update path body)
          ↔ hunksOf (fun _ => true) [] (seenBody body) = hunksOf isHinted [] body :=
            ⟨fun h => congrArg OperationView.hunks h,
              fun h => congrArg (OperationView.mk .update (trim path.val) none none) h⟩
        _ ↔ (∀ part ∈ body, part.Unmarked) ∧ Separated body := hunks_agree_iff hbody
        _ ↔ PatchSection.Clean (.update path body) := ⟨fun h => ⟨hread, h⟩, fun h => h.2⟩
    · cases hop
  | delete path =>
    rw [PatchSection.startV4a?] at hop
    split at hop
    · next hread => cases hop; exact iff_of_true rfl hread
    · cases hop
  | move source dest =>
    obtain ⟨⟨x, y⟩, hfound, rfl⟩ := Option.map_eq_some_iff.mp hop
    have hmatch := readMove_eq_some hfound
    have harrows := splitArrows_header_iff hmatch rfl
    calc EngineParser.viewOf (.move source dest)
          = V4aParser.viewOf ⟨.move, trim x, some (trim y), [], none⟩ (.move source dest)
        ↔ _ := ⟨fun h => ⟨congrArg OperationView.filePath h, congrArg OperationView.newPath h⟩,
          fun h => congrArg₂ (fun path new => OperationView.mk .move path new none []) h.1 h.2⟩
      _ ↔ NoArrow source.val ∧ NoArrow dest.val := harrows
      _ ↔ PatchSection.Clean (.move source dest) :=
        ⟨fun h => ⟨(hmatch.trim_eq rfl h.1 h.2).2.2, h⟩, fun h => h.2⟩

/-! ## All sections -/

theorem views_eq_iff {ops : List V4aPatchOperation}
    (hops : sections.map PatchSection.startV4a? = ops.map some)
    (hsections : ∀ s ∈ sections, s.Aligned) :
    sections.map EngineParser.viewOf = List.zipWith V4aParser.viewOf ops sections ↔
      ∀ s ∈ sections, s.Clean := by
  induction sections generalizing ops with
  | nil =>
    cases ops with
    | nil => exact iff_of_true rfl fun s hs => absurd hs not_mem_nil
    | cons op rest => cases hops
  | cons s rest ih =>
    cases ops with
    | nil => cases hops
    | cons op others =>
      obtain ⟨hop, hrest⟩ := List.cons.inj hops
      rw [map_cons, zipWith_cons_cons, cons_eq_cons, forall_mem_cons,
        view_eq_iff hop (hsections s mem_cons_self),
        ih hrest fun s hs => hsections s (mem_cons_of_mem _ hs)]

/-- The two parsers return the same operations for a patch just where its sections are clean. -/
theorem agree_iff_clean {patch : Text} {sections : List PatchSection}
    (h : splitBreaks patch = patchLines sections) : Agree patch ↔ ∀ s ∈ sections, s.Clean := by
  have haligned : (∀ s ∈ sections, s.Aligned) → (Agree patch ↔ ∀ s ∈ sections, s.Clean) := by
    intro hsections
    obtain ⟨ops, hops⟩ := exists_ops_of_aligned hsections
    obtain ⟨operations, hflush, hviews⟩ :=
      EngineParser.run_sections EngineParser.settles_start fun s hs => (hsections s hs).2
    obtain ⟨operations', hunk, hflush', hviews'⟩ :=
      V4aParser.run_sections V4aParser.settles_start hops
    rw [Agree, parseV4aPatch_eq h, parseV4APatch_eq h, hflush, hflush',
      ← views_eq_iff hops hsections]
    have hagain : (⟨operations, none, [], [], []⟩ : EngineParser).flushOp.operations = operations :=
      rfl
    rw [hagain, hviews, hviews', nil_append, nil_append]
    exact ⟨fun h => h.2, fun h => ⟨rfl, h⟩⟩
  constructor
  · intro hagree
    refine (haligned (aligned_of_countP ?_)).mp hagree
    have hlength := congrArg List.length hagree.2
    rw [parseV4aPatch_eq h, parseV4APatch_eq h, length_map, length_map,
      (EngineParser.flushOp_spec _).1, (V4aParser.flushOp_spec _).1, EngineParser.count_flushOp,
      count_foldl EngineParser.count_read, count_foldl V4aParser.count_read] at hlength
    exact Nat.add_left_cancel hlength
  · intro hclean
    exact (haligned fun s hs => aligned_of_clean (hclean s hs)).mpr hclean

/-- An update of two hunks, with a separator between them. -/
def twoHunks (hint : Option Text) : PatchSection :=
  .update ⟨text "a.ts", by decide⟩
    [.line ⟨.minus, text "x"⟩, .line ⟨.plus, text "y"⟩, .separator hint, .line ⟨.space, text "z"⟩]

theorem hinted_hunks_agree :
    splitBreaks (joinLines (patchLines [twoHunks (some (text "f"))]))
        = patchLines [twoHunks (some (text "f"))] ∧
      (Agree (joinLines (patchLines [twoHunks (some (text "f"))])) ↔
        ∀ s ∈ [twoHunks (some (text "f"))], s.Clean) ∧
      Agree (joinLines (patchLines [twoHunks (some (text "f"))])) :=
  ⟨by decide +kernel, agree_iff_clean (by decide +kernel), by decide +kernel⟩

/-- A separator without a hint is none to `DeterministicV4aPatch`. -/
theorem bare_separator_disagrees :
    ¬ ∀ (patch : Text) (sections : List PatchSection),
      splitBreaks patch = patchLines sections → Agree patch := fun h => by
  have hagree := h (joinLines (patchLines [twoHunks none])) [twoHunks none] (by decide +kernel)
  have hno : ¬ Agree (joinLines (patchLines [twoHunks none])) := by decide +kernel
  exact hno hagree

end Lumi.V4a
