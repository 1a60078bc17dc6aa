import Lumi.V4a.Runs

/-!
# The hunks of an update

The engine and `DeterministicV4aPatch` cut the body of an update into the same hunks just where
no context line is a marker to the engine, and lines with separators between them have one with
a hint there.  A line that the engine drops is missing from its hunks; a hunk that only one of
them closes is a proper beginning of the other's.
-/

namespace Lumi.V4a

open Js Unified List

/-! ## Hinted separators -/

theorem hintOf_bare : hintOf (HunkPart.separator none).encode = none := by decide +kernel

theorem isHinted_separator {hint : Text} :
    isHinted (.separator (some hint)) = true ↔ InLine (trim hint) := by
  have hshape : (HunkPart.separator (some hint)).encode
      = 0x40 :: 0x40 :: ((0x20 :: (hint ++ [0x20])) ++ [0x40, 0x40]) := by
    show text "@@ " ++ (hint ++ text " @@") = _
    rw [cons_append, append_assoc]
    rfl
  have hends : endsWith (HunkPart.separator (some hint)).encode (text "@@") = true := by
    rw [hshape]
    exact isSuffixOf_iff_suffix.mpr ⟨0x40 :: 0x40 :: (0x20 :: (hint ++ [0x20])), rfl⟩
  have hlength : (HunkPart.separator (some hint)).encode.length = hint.length + 6 := by
    rw [hshape]
    simp
  have hbetween : ((HunkPart.separator (some hint)).encode.drop 2).take (hint.length + 6 - 4)
      = 0x20 :: (hint ++ [0x20]) := by
    have hcount : hint.length + 6 - 4 = (0x20 :: (hint ++ [0x20])).length := by simp
    rw [hshape, hcount]
    exact take_left
  have htrim : trim (0x20 :: (hint ++ [0x20])) = trim hint :=
    trim_between isWhite_space isWhite_space hint
  have hread : hintOf (HunkPart.separator (some hint)).encode
      = if trim hint = [] then
          ((0x20 :: (hint ++ [0x20])).reverse.find? isInLine).map fun c => [c]
        else if (trim hint).all isInLine then some (trim hint) else none := by
    have hstarts : startsWith (HunkPart.separator (some hint)).encode (text "@@") = true := rfl
    rw [hintOf, hstarts, hends, hlength, hbetween]
    dsimp only
    rw [htrim, if_pos (by simp)]
  rw [isHinted, hread]
  by_cases hblank : trim hint = []
  · rw [if_pos hblank, hblank]
    refine iff_of_true ?_ fun c hc => absurd hc not_mem_nil
    rw [Option.isSome_map, find?_isSome]
    exact ⟨0x20, by simp, by decide⟩
  · rw [if_neg hblank]
    by_cases hall : (trim hint).all isInLine = true
    · rw [if_pos hall]
      exact iff_of_true rfl (all_eq_true.mp hall)
    · rw [if_neg hall]
      exact iff_of_false (by simp) fun h => hall (all_eq_true.mpr h)

theorem isHinted_iff {part : HunkPart} : isHinted part = true ↔ part.Hinted := by
  rcases part with l | _ | hint
  · rw [isHinted, hintOf_line]
    exact iff_of_false (by decide) id
  · rw [isHinted, hintOf_bare]
    exact iff_of_false (by decide) id
  · exact isHinted_separator

/-! ## Lines that the engine drops -/

theorem flatten_hunksOf (cuts : HunkPart → Bool) (lines : List PatchHunkLine)
    (body : List HunkPart) :
    (hunksOf cuts lines body).flatten = lines ++ body.filterMap HunkPart.line? := by
  have hclose : ∀ lines : List PatchHunkLine, (closeHunk lines).flatten = lines := by
    intro lines
    cases lines with
    | nil => rfl
    | cons l rest => exact append_nil _
  induction body generalizing lines with
  | nil => rw [hunksOf, hclose, filterMap_nil, append_nil]
  | cons part rest ih =>
    cases part with
    | line l =>
      rw [hunksOf, ih, append_assoc]
      rfl
    | separator hint =>
      rw [hunksOf]
      split
      · rw [flatten_append, hclose, ih, nil_append]
        rfl
      · rw [ih]
        rfl

theorem exists_line_of_marker {part : HunkPart} {marker : Marker}
    (h : marker? (trim part.encode) = some marker) : ∃ l, part = .line l := by
  cases part with
  | line l => exact ⟨l, rfl⟩
  | separator hint =>
    have hnone := (marker?_encode (.separator hint)).mpr trivial
    rw [hnone] at h
    cases h

theorem length_filterMap_seenBody_le (body : List HunkPart) :
    ((seenBody body).filterMap HunkPart.line?).length
      ≤ (body.filterMap HunkPart.line?).length := by
  have hsub : (seenBody body).Sublist body := by
    induction body with
    | nil => exact List.Sublist.refl _
    | cons part rest ih =>
      rw [seenBody]
      split
      · exact nil_sublist _
      · exact ih.cons part
      · exact ih.cons_cons part
      · exact ih.cons_cons part
  exact (hsub.filterMap HunkPart.line?).length_le

variable {body : List HunkPart}

/-- Where the engine sees all lines, none is a marker. -/
theorem unmarked_of_seenBody (hbody : ∀ part ∈ body, opensOperation part.encode = false)
    (h : (seenBody body).filterMap HunkPart.line? = body.filterMap HunkPart.line?) :
    ∀ part ∈ body, part.Unmarked := by
  induction body with
  | nil => exact fun part hpart => absurd hpart not_mem_nil
  | cons part rest ih =>
    have hrest := fun part hmem => hbody part (mem_cons_of_mem _ hmem)
    cases hmarker : marker? (trim part.encode) with
    | some marker =>
      obtain ⟨l, rfl⟩ := exists_line_of_marker hmarker
      have hlength := congrArg List.length h
      have hle := length_filterMap_seenBody_le rest
      cases marker with
      | beginPatch =>
        simp only [seenBody, hmarker, filterMap_cons, HunkPart.line?,
          length_cons] at hlength
        omega
      | endPatch =>
        simp only [seenBody, hmarker, filterMap_cons, HunkPart.line?, filterMap_nil,
          length_cons, length_nil] at hlength
        omega
      | operation op =>
        have hpart := hbody (.line l) mem_cons_self
        rw [opensOperation, hmarker] at hpart
        cases hpart
    | none =>
      simp only [seenBody, hmarker, filterMap_cons] at h
      have htail : (seenBody rest).filterMap HunkPart.line?
          = rest.filterMap HunkPart.line? := by
        cases part with
        | line l => exact (List.cons.inj h).2
        | separator hint => exact h
      intro other hother
      rcases mem_cons.mp hother with rfl | hother
      · exact (marker?_encode other).mp hmarker
      · exact ih hrest htail other hother

theorem seenBody_of_unmarked (h : ∀ part ∈ body, part.Unmarked) : seenBody body = body := by
  induction body with
  | nil => rfl
  | cons part rest ih =>
    have hmarker := (marker?_encode part).mpr (h part mem_cons_self)
    rw [seenBody, hmarker]
    simp only
    rw [ih fun part hmem => h part (mem_cons_of_mem _ hmem)]

/-! ## Hunks that only one of the two closes -/

/-- Before the first line there is a hinted separator. -/
def CutBefore (body : List HunkPart) : Prop :=
  ∀ gap back l, body = gap ++ .line l :: back → (∀ part ∈ gap, part.line? = none) →
    ∃ part ∈ gap, part.Hinted

/-- What comes is cut off from a line before it, if a separator comes first. -/
def GapCut : List HunkPart → Prop
  | .separator hint :: rest => CutBefore (.separator hint :: rest)
  | _ => True

variable {rest : List HunkPart}

theorem not_cutBefore_line {l : PatchHunkLine} :
    ¬ CutBefore (.line l :: rest) := fun h => by
  obtain ⟨part, hpart, -⟩ := h [] rest l rfl fun _ hpart => absurd hpart not_mem_nil
  exact absurd hpart not_mem_nil

theorem cutBefore_nil : CutBefore [] := fun gap back l h => by
  cases gap <;> cases h

theorem cutBefore_separator {hint : Option Text} :
    CutBefore (.separator hint :: rest) ↔ HunkPart.Hinted (.separator hint) ∨ CutBefore rest := by
  constructor
  · intro h
    refine or_iff_not_imp_left.mpr fun hno gap back l hrest hgap => ?_
    obtain ⟨part, hpart, hhinted⟩ := h (.separator hint :: gap) back l (by rw [hrest]; rfl)
      (fun part hpart => (mem_cons.mp hpart).elim (fun h => h ▸ rfl) (hgap part))
    rcases mem_cons.mp hpart with rfl | hpart
    · exact absurd hhinted hno
    · exact ⟨part, hpart, hhinted⟩
  · intro h gap back l hrest hgap
    cases gap with
    | nil => cases hrest
    | cons part gap =>
      obtain ⟨hpart, htail⟩ := List.cons.inj hrest
      rcases h with hhinted | h
      · exact ⟨part, mem_cons_self, hpart ▸ hhinted⟩
      · obtain ⟨part, hpart, hhinted⟩ := h gap back l htail
          fun part hpart => hgap part (mem_cons_of_mem _ hpart)
        exact ⟨part, mem_cons_of_mem _ hpart, hhinted⟩

theorem separated_nil : Separated [] := fun front gap back l l' h => by
  cases front <;> cases h

theorem separated_separator {hint : Option Text} :
    Separated (.separator hint :: rest) ↔ Separated rest := by
  constructor
  · intro h front gap back l l' hrest
    exact h (.separator hint :: front) gap back l l' (by rw [hrest]; rfl)
  · intro h front gap back l l' hrest
    cases front with
    | nil => cases hrest
    | cons part front => exact h front gap back l l' (List.cons.inj hrest).2

theorem separated_line {l : PatchHunkLine} :
    Separated (.line l :: rest) ↔ Separated rest ∧ GapCut rest := by
  constructor
  · intro h
    refine ⟨fun front gap back l l' hrest => ?_, ?_⟩
    · exact h (.line _ :: front) gap back l l' (by rw [hrest]; rfl)
    · cases rest with
      | nil => trivial
      | cons part rest =>
        cases part with
        | line l' => trivial
        | separator hint =>
          intro gap back l' hrest hgap
          refine h [] gap back l l' (by rw [hrest]; rfl) hgap ?_
          rintro rfl
          cases hrest
  · rintro ⟨hrest, hcut⟩ front gap back l₁ l₂ hbody hgap hne
    cases front with
    | cons part front => exact hrest front gap back l₁ l₂ (List.cons.inj hbody).2 hgap hne
    | nil =>
      obtain ⟨-, hbody⟩ := List.cons.inj hbody
      obtain ⟨part, gap, rfl⟩ := exists_cons_of_ne_nil hne
      cases part with
      | line l => exact absurd (hgap _ mem_cons_self) (by simp [HunkPart.line?])
      | separator hint =>
        rw [hbody] at hcut
        exact hcut _ back l₂ rfl hgap

/-- The first hunk has all lines that were read already. -/
theorem exists_hunksOf_eq_cons (cuts : HunkPart → Bool) {lines : List PatchHunkLine}
    (hne : lines ≠ []) (body : List HunkPart) :
    ∃ more others, hunksOf cuts lines body = (lines ++ more) :: others := by
  have hclose : ∀ {lines : List PatchHunkLine}, lines ≠ [] → closeHunk lines = [lines] :=
    fun hne => if_pos (length_pos_of_ne_nil hne)
  induction body generalizing lines with
  | nil => exact ⟨[], [], by rw [hunksOf, hclose hne, append_nil]⟩
  | cons part rest ih =>
    cases part with
    | line l =>
      obtain ⟨more, others, heq⟩ := @ih (lines ++ [l]) (by simp)
      exact ⟨l :: more, others, by rw [hunksOf, heq, append_assoc]; rfl⟩
    | separator hint =>
      rw [hunksOf]
      split
      · exact ⟨[], hunksOf cuts [] rest, by rw [hclose hne, append_nil]; rfl⟩
      · exact ih hne

/-- The engine has closed a hunk that the other still adds lines to. -/
theorem hunksOf_line_ne {lines : List PatchHunkLine} (hne : lines ≠ []) (l : PatchHunkLine)
    (rest : List HunkPart) :
    lines :: hunksOf (fun _ => true) [] (.line l :: rest)
      ≠ hunksOf isHinted lines (.line l :: rest) := fun heq => by
  obtain ⟨more, others, hcons⟩ := exists_hunksOf_eq_cons isHinted
    (append_ne_nil_of_left_ne_nil hne [l]) rest
  have hother : hunksOf isHinted lines (.line l :: rest) = (lines ++ [l] ++ more) :: others := hcons
  rw [hother] at heq
  have hlength := congrArg List.length (List.cons.inj heq).1
  rw [length_append, length_append, length_singleton] at hlength
  omega

/-- Both at the same hunk, and the engine one hunk ahead. -/
theorem hunksOf_eq_iff (body : List HunkPart) :
    (∀ lines, hunksOf (fun _ => true) lines body = hunksOf isHinted lines body ↔
      Separated body ∧ (lines ≠ [] → GapCut body)) ∧
    ∀ lines, lines ≠ [] →
      (lines :: hunksOf (fun _ => true) [] body = hunksOf isHinted lines body ↔
        Separated body ∧ CutBefore body) := by
  have hclose : ∀ {lines : List PatchHunkLine}, lines ≠ [] → closeHunk lines = [lines] :=
    fun hne => if_pos (length_pos_of_ne_nil hne)
  induction body with
  | nil =>
    refine ⟨fun lines => iff_of_true rfl ⟨separated_nil, fun _ => trivial⟩, fun lines hne => ?_⟩
    exact iff_of_true (hclose hne).symm ⟨separated_nil, cutBefore_nil⟩
  | cons part rest ih =>
    obtain ⟨hsame, hahead⟩ := ih
    cases part with
    | line l =>
      refine ⟨fun lines => ?_, fun lines hne => ?_⟩
      · have hnext : lines ++ [l] ≠ [] := by simp
        rw [separated_line]
        calc hunksOf (fun _ => true) (lines ++ [l]) rest = hunksOf isHinted (lines ++ [l]) rest
            ↔ Separated rest ∧ (lines ++ [l] ≠ [] → GapCut rest) := hsame _
          _ ↔ (Separated rest ∧ GapCut rest) ∧ (lines ≠ [] → GapCut (.line l :: rest)) :=
            ⟨fun h => ⟨⟨h.1, h.2 hnext⟩, fun _ => trivial⟩, fun h => ⟨h.1.1, fun _ => h.1.2⟩⟩
      · exact iff_of_false (hunksOf_line_ne hne l rest) fun h => not_cutBefore_line h.2
    | separator hint =>
      have hgap : GapCut (.separator hint :: rest)
          ↔ HunkPart.Hinted (.separator hint) ∨ CutBefore rest := cutBefore_separator
      rw [separated_separator, hgap]
      by_cases hhinted : isHinted (.separator hint) = true
      · have hyes := isHinted_iff.mp hhinted
        refine ⟨fun lines => ?_, fun lines hne => ?_⟩
        · rw [hunksOf, if_pos rfl, hunksOf, if_pos hhinted, append_cancel_left_eq,
            hsame []]
          exact ⟨fun h => ⟨h.1, fun _ => .inl hyes⟩, fun h => ⟨h.1, fun h => absurd rfl h⟩⟩
        · have hstep : lines :: hunksOf (fun _ => true) [] (.separator hint :: rest)
              = closeHunk lines ++ hunksOf (fun _ => true) [] rest := by
            rw [hclose hne]
            rfl
          rw [hstep, hunksOf, if_pos hhinted, append_cancel_left_eq, hsame [],
            cutBefore_separator]
          exact ⟨fun h => ⟨h.1, .inl hyes⟩, fun h => ⟨h.1, fun h => absurd rfl h⟩⟩
      · have hno : ¬ HunkPart.Hinted (.separator hint) := fun h => hhinted (isHinted_iff.mpr h)
        have hor : (HunkPart.Hinted (.separator hint) ∨ CutBefore rest) ↔ CutBefore rest :=
          or_iff_right hno
        rw [hor]
        refine ⟨fun lines => ?_, fun lines hne => ?_⟩
        · rw [hunksOf, if_pos rfl, hunksOf, if_neg hhinted]
          cases lines with
          | nil =>
            have hnil := hsame []
            exact ⟨fun h => ⟨(hnil.mp h).1, fun h => absurd rfl h⟩,
              fun h => hnil.mpr ⟨h.1, fun h => absurd rfl h⟩⟩
          | cons l tail =>
            have hcons := hahead (l :: tail) (cons_ne_nil l tail)
            exact ⟨fun h => ⟨(hcons.mp h).1, fun _ => (hcons.mp h).2⟩,
              fun h => hcons.mpr ⟨h.1, h.2 (cons_ne_nil l tail)⟩⟩
        · rw [hunksOf, if_pos rfl, hunksOf, if_neg hhinted, cutBefore_separator, hor]
          exact hahead lines hne

/-- The hunks of an update are the same just where its body is clean. -/
theorem hunks_agree_iff (hbody : ∀ part ∈ body, opensOperation part.encode = false) :
    hunksOf (fun _ => true) [] (seenBody body) = hunksOf isHinted [] body ↔
      (∀ part ∈ body, part.Unmarked) ∧ Separated body := by
  have hseparated : hunksOf (fun _ => true) [] body = hunksOf isHinted [] body ↔ Separated body :=
    ((hunksOf_eq_iff body).1 []).trans ⟨fun h => h.1, fun h => ⟨h, fun h => absurd rfl h⟩⟩
  constructor
  · intro heq
    have hflat := congrArg List.flatten heq
    rw [flatten_hunksOf, flatten_hunksOf, nil_append, nil_append] at hflat
    have hunmarked := unmarked_of_seenBody hbody hflat
    rw [seenBody_of_unmarked hunmarked] at heq
    exact ⟨hunmarked, hseparated.mp heq⟩
  · rintro ⟨hunmarked, hcut⟩
    rw [seenBody_of_unmarked hunmarked]
    exact hseparated.mpr hcut

end Lumi.V4a
