import Lumi.ApplyPatch.Parser

/-!
# When the parser of patches ends

Every action reads a line, and so does every pass through the loop of an update, with one exception:
at the start of the file a line that is no marker need not begin a section, and where the section
stops at once nothing is read.  The state is then what it was, and the loop goes on for ever.
-/

namespace Lumi.ApplyPatch

open Js List Option

/-! ## What is read of a section -/

theorem readSection_suffix {st st' : Section} {lines rest : List Text}
    (h : readSection st lines = .ok (st', rest)) : rest <:+ lines := by
  induction lines generalizing st with
  | nil =>
    obtain ⟨-, rfl⟩ := Prod.mk.inj (Except.ok.inj h)
    exact suffix_refl _
  | cons s others ih =>
    unfold readSection at h
    split_ifs at h with hmark hstars
    · obtain ⟨-, rfl⟩ := Prod.mk.inj (Except.ok.inj h)
      exact suffix_refl _
    · obtain ⟨-, rfl⟩ := Prod.mk.inj (Except.ok.inj h)
      exact suffix_refl _
    · exact (ih h).trans (suffix_cons _ _)

/-- The end marker is a line that is left. -/
def EndAhead (rest : List Text) : Prop := ∃ line ∈ rest, startsWith line Markers.endPatch = true

theorem readSection_endAhead {st st' : Section} {lines rest : List Text}
    (h : readSection st lines = .ok (st', rest)) (hend : EndAhead lines) : EndAhead rest := by
  induction lines generalizing st with
  | nil =>
    obtain ⟨line, hline, -⟩ := hend
    exact absurd hline not_mem_nil
  | cons s others ih =>
    unfold readSection at h
    split_ifs at h with hmark hstars
    · obtain ⟨-, rfl⟩ := Prod.mk.inj (Except.ok.inj h)
      exact hend
    · obtain ⟨-, rfl⟩ := Prod.mk.inj (Except.ok.inj h)
      exact hend
    · refine ih h ?_
      obtain ⟨line, hline, hmarker⟩ := hend
      rcases mem_cons.mp hline with rfl | hline
      · -- an end marker stops the section
        have hstop : startsWithAny peekStops line = true :=
          any_eq_true.mpr ⟨Markers.endPatch, by decide, hmarker⟩
        rw [hstop, Bool.or_true] at hmark
        exact absurd rfl hmark
      · exact ⟨line, hline, hmarker⟩

theorem EndAhead.tail {line : Text} {rest : List Text} (h : EndAhead (line :: rest))
    (hline : startsWith line Markers.endPatch = false) : EndAhead rest := by
  obtain ⟨marker, hmem, hmarker⟩ := h
  rcases mem_cons.mp hmem with rfl | hmem
  · rw [hline] at hmarker
    cases hmarker
  · exact ⟨marker, hmem, hmarker⟩

variable {lines : List Text}

/-- What `peek` leaves is what the loop leaves, but for the marker of the end of the file. -/
theorem peek_cases {next : Peek} (h : peek lines = .ok next) :
    ∃ st rest, readSection .start lines = .ok (st, rest) ∧
      next.context = st.old ∧ next.chunks = st.chunks ++ st.pending ∧
      (next.rest = rest ∨ rest.head? = some Markers.endFile ∧ next.rest = rest.tail) := by
  unfold peek at h
  cases hread : readSection .start lines with
  | error e =>
    rw [hread] at h
    cases h
  | ok r =>
    obtain ⟨st, rest⟩ := r
    rw [hread] at h
    refine ⟨st, rest, rfl, ?_⟩
    by_cases hfile : rest.head? = some Markers.endFile
    · have hnext : next = ⟨st.old, st.chunks ++ st.pending, rest.tail, true⟩ := by
        simpa [hfile, bind, Except.bind, pure, Except.pure] using h.symm
      rw [hnext]
      exact ⟨rfl, rfl, .inr ⟨hfile, rfl⟩⟩
    · have hnext : next = ⟨st.old, st.chunks ++ st.pending, rest, false⟩ := by
        simpa [hfile, bind, Except.bind, pure, Except.pure] using h.symm
      rw [hnext]
      exact ⟨rfl, rfl, .inl rfl⟩

theorem peek_suffix {next : Peek} (h : peek lines = .ok next) : next.rest <:+ lines := by
  obtain ⟨st, rest, hread, -, -, heq | ⟨-, heq⟩⟩ := peek_cases h
  · exact heq ▸ readSection_suffix hread
  · exact heq ▸ (tail_suffix _).trans (readSection_suffix hread)

theorem peek_endAhead {next : Peek} (h : peek lines = .ok next) (hend : EndAhead lines) :
    EndAhead next.rest := by
  obtain ⟨st, rest, hread, -, -, heq | ⟨hfile, heq⟩⟩ := peek_cases h
  · exact heq ▸ readSection_endAhead hread hend
  · obtain ⟨others, rfl⟩ := head?_eq_some_iff.mp hfile
    rw [heq]
    exact (readSection_endAhead hread hend).tail (by decide)

/-! ## One pass through the loop of an update -/

namespace Update

section

variable (st : Update)

/-- What follows the marker of a section with a definition. -/
def defStr : Option Text :=
  st.rest.head?.bind fun l => if startsWith l (text "@@ ") then some (l.drop 3) else none

/-- A section begins with the line, with a definition or without. -/
def isMarked : Bool :=
  st.defStr.isSome || decide (st.rest.head? = some Markers.sectionMark)

/-- The lines of the section, without its marker. -/
def afterMark : List Text := if st.isMarked then st.rest.tail else st.rest

/-- The next line stops the loop. -/
def stops : Bool := (st.rest.head?.map (startsWithAny updateStops)).getD false

/-- A line at which a section stops at once, and which begins none. -/
def IsBare (line : Text) : Prop :=
  line = [] ∨ line = text "***" ∨
    startsWith line Markers.sectionMark = true ∧ startsWith line (text "@@ ") = false ∧
      line ≠ Markers.sectionMark

instance (line : Text) : Decidable (IsBare line) := inferInstanceAs (Decidable (_ ∨ _ ∨ _ ∧ _ ∧ _))

/-- The pass is at the start of the file, on a line that is not read. -/
def Stuck : Prop := st.index = 0 ∧ ∃ line ∈ st.rest.head?, IsBare line

end

instance (st : Update) : Decidable st.Stuck := inferInstanceAs (Decidable (_ ∧ ∃ line ∈ _, _))

end Update

section

variable [Runtime] {fileLines : List Text} {path : Text} {st st' : Update}

section

variable (fileLines : List Text)

/-- The line in the file that the section names, if it is found. -/
def Update.named (st : Update) : Option (ℤ × Bool) :=
  ((st.defStr.map trim).filter (· ≠ [])).bind fun d =>
    findDefinition fileLines (canonicalize d) st.index

/-- Where the search for the section begins. -/
def Update.placed (st : Update) : ℤ :=
  ((st.named fileLines).map Prod.fst).getD st.index

/-- The state after a section that was read, by where it is found. -/
def Update.after (path : Text) (st : Update) (next : Peek) : Update :=
  let found := findContext fileLines next.context (st.placed fileLines) next.eof
  let fuzz := st.fuzz + if ((st.named fileLines).map Prod.snd).getD false then 1 else 0
  if found.1 = -1 then
    { st with
      rest := next.rest
      index := st.placed fileLines
      fuzz
      warnings := st.warnings ++
        [skippedWarning path st.chunks.length next.context found.2.2] }
  else
    { st with
      rest := next.rest
      index := found.1 + next.context.length
      chunks := st.chunks ++
        next.chunks.map fun chunk => { chunk with origIndex := chunk.origIndex + found.1 }
      fuzz := fuzz + found.2.1 }

/-- A pass throws, or goes on after the section. -/
theorem updateStep_eq (path : Text) (st : Update) :
    updateStep fileLines path st =
      if st.isMarked = false ∧ st.index ≠ 0 then
        .error (text "Invalid Line:\n" ++ st.rest.head?.getD (text "undefined"))
      else (peek st.afterMark).map (st.after fileLines path) := by
  have hmarked : (!st.defStr.isSome && !decide (st.rest.head? = some Markers.sectionMark) &&
      decide (st.index ≠ 0)) = decide (st.isMarked = false ∧ st.index ≠ 0) := by
    rw [Update.isMarked]
    cases st.defStr.isSome <;> simp
  unfold updateStep
  by_cases hbad : st.isMarked = false ∧ st.index ≠ 0
  · rw [if_pos hbad]
    exact if_pos (hmarked.trans (decide_eq_true hbad))
  · rw [if_neg hbad]
    refine (if_neg fun h => hbad (of_decide_eq_true (hmarked.symm.trans h))).trans ?_
    show (peek st.afterMark).bind _ = _
    cases peek st.afterMark with
    | error e => rfl
    | ok next =>
      by_cases hmiss :
          (findContext fileLines next.context (st.placed fileLines) next.eof).1 = -1
      · exact (if_pos hmiss).trans (congrArg Except.ok (if_pos hmiss).symm)
      · exact (if_neg hmiss).trans (congrArg Except.ok (if_neg hmiss).symm)

end

theorem updateStep_ok (h : updateStep fileLines path st = .ok st') :
    (st.isMarked = true ∨ st.index = 0) ∧
      ∃ next, peek st.afterMark = .ok next ∧ st' = st.after fileLines path next := by
  rw [updateStep_eq] at h
  split_ifs at h with hbad
  refine ⟨?_, ?_⟩
  · by_contra hnot
    obtain ⟨hmarked, hindex⟩ := not_or.mp hnot
    exact hbad ⟨Bool.eq_false_iff.mpr hmarked, hindex⟩
  · cases hpeek : peek st.afterMark with
    | error e =>
      rw [hpeek] at h
      cases h
    | ok next =>
      rw [hpeek] at h
      exact ⟨next, rfl, (Except.ok.inj h).symm⟩

theorem Update.after_rest (st : Update) (next : Peek) :
    (st.after fileLines path next).rest = next.rest := by
  unfold Update.after
  dsimp only
  split_ifs <;> rfl

section

omit [Runtime]

theorem Update.isMarked_cons {line : Text} {others : List Text} (hrest : st.rest = line :: others) :
    st.isMarked = (startsWith line (text "@@ ") || decide (line = Markers.sectionMark)) := by
  rw [isMarked, defStr, hrest]
  by_cases hline : startsWith line (text "@@ ") = true
  · simp [hline]
  · simp [hline]

theorem Update.afterMark_suffix (st : Update) : st.afterMark <:+ st.rest := by
  rw [afterMark]
  split_ifs
  · exact tail_suffix _
  · exact suffix_refl _

theorem startsWith_of_append {s front back : Text} (h : startsWith s (front ++ back) = true) :
    startsWith s front = true := by
  rw [startsWith, isPrefixOf_iff_prefix] at h ⊢
  exact (prefix_append _ _).trans h

/-- Which lines begin with a marker of a section. -/
theorem eq_cons_of_sectionMark {line : Text}
    (h : startsWith line Markers.sectionMark = true) : ∃ rest, line = 0x40 :: 0x40 :: rest := by
  rw [startsWith, isPrefixOf_iff_prefix] at h
  obtain ⟨rest, hrest⟩ := h
  exact ⟨rest, hrest.symm⟩

theorem Update.endAhead_afterMark (h : EndAhead st.rest) : EndAhead st.afterMark := by
  unfold afterMark
  split_ifs with hmarked
  · cases hrest : st.rest with
    | nil =>
      rw [hrest] at h
      exact h
    | cons line others =>
      rw [hrest] at h
      refine h.tail ?_
      have hsection : startsWith line Markers.sectionMark = true := by
        rw [isMarked_cons hrest, Bool.or_eq_true, decide_eq_true_iff] at hmarked
        rcases hmarked with hdef | rfl
        · exact @startsWith_of_append _ Markers.sectionMark (text " ") hdef
        · decide
      obtain ⟨rest, rfl⟩ := eq_cons_of_sectionMark hsection
      rfl
  · exact h

end

/-- What a pass leaves. -/
theorem updateStep_suffix (h : updateStep fileLines path st = .ok st') : st'.rest <:+ st.rest := by
  obtain ⟨-, next, hpeek, rfl⟩ := updateStep_ok h
  rw [st.after_rest]
  exact (peek_suffix hpeek).trans st.afterMark_suffix

theorem updateStep_endAhead (h : updateStep fileLines path st = .ok st') (hend : EndAhead st.rest) :
    EndAhead st'.rest := by
  obtain ⟨-, next, hpeek, rfl⟩ := updateStep_ok h
  rw [st.after_rest]
  exact peek_endAhead hpeek (Update.endAhead_afterMark hend)

omit [Runtime] in
/-- A section reads a line that does not stop it. -/
theorem peek_cons_suffix {line : Text} {others : List Text} {next : Peek}
    (hread : (line = [] || startsWithAny peekStops line) = false) (hstars : line ≠ text "***")
    (h : peek (line :: others) = .ok next) : next.rest <:+ others := by
  have hloop {st' : Section} {rest : List Text}
      (hloop : readSection .start (line :: others) = .ok (st', rest)) : rest <:+ others := by
    unfold readSection at hloop
    rw [hread, if_neg Bool.false_ne_true, if_neg hstars] at hloop
    split_ifs at hloop
    exact readSection_suffix hloop
  obtain ⟨st', rest, hrest, -, -, heq | ⟨-, heq⟩⟩ := peek_cases h
  · exact heq ▸ hloop hrest
  · exact heq ▸ (tail_suffix _).trans (hloop hrest)

/-- A pass that is not stuck reads a line. -/
theorem updateStep_lt (hend : EndAhead st.rest) (hgo : st.stops = false) (hstuck : ¬ st.Stuck)
    (h : updateStep fileLines path st = .ok st') : st'.rest.length < st.rest.length := by
  obtain ⟨hmark, next, hpeek, rfl⟩ := updateStep_ok h
  rw [st.after_rest]
  cases hrest : st.rest with
  | nil =>
    rw [hrest] at hend
    obtain ⟨line, hline, -⟩ := hend
    exact absurd hline not_mem_nil
  | cons line others =>
    suffices hsuffix : next.rest <:+ others from Nat.lt_succ_of_le hsuffix.length_le
    unfold Update.afterMark at hpeek
    by_cases hmarked : st.isMarked = true
    · rw [if_pos hmarked, hrest] at hpeek
      exact peek_suffix hpeek
    · rw [if_neg hmarked, hrest] at hpeek
      have hzero := hmark.resolve_left hmarked
      have hbare : ¬ Update.IsBare line := fun hbare => hstuck ⟨hzero, line, by rw [hrest]; rfl, hbare⟩
      rw [Update.isMarked_cons hrest, Bool.or_eq_true, not_or, Bool.not_eq_true,
        decide_eq_true_iff] at hmarked
      have hsection : startsWith line Markers.sectionMark = false :=
        Bool.eq_false_iff.mpr fun hsection =>
          hbare (.inr (.inr ⟨hsection, hmarked.1, hmarked.2⟩))
      have hstops : startsWithAny updateStops line = false := by
        rw [Update.stops, hrest] at hgo
        exact hgo
      refine peek_cons_suffix ?_ (fun hstars => hbare (.inr (.inl hstars))) hpeek
      have hpeekStops : startsWithAny peekStops line
          = (startsWith line Markers.sectionMark || startsWithAny updateStops line) := rfl
      rw [hpeekStops, hsection, hstops, Bool.or_false, Bool.or_false, decide_eq_false_iff_not]
      exact fun hempty => hbare (.inl hempty)

/-- A pass that is stuck leaves everything as it was. -/
theorem updateStep_of_stuck (h : st.Stuck) :
    st.stops = false ∧ updateStep fileLines path st = .ok st := by
  obtain ⟨hzero, line, hhead, hbare⟩ := h
  obtain ⟨others, hrest⟩ := head?_eq_some_iff.mp hhead
  have hline : startsWithAny updateStops line = false ∧
      (startsWith line (text "@@ ") || decide (line = Markers.sectionMark)) = false ∧
      ((line = [] || startsWithAny peekStops line) = true ∨ line = text "***") ∧
      line ≠ Markers.endFile := by
    rcases hbare with rfl | rfl | ⟨hsection, hdef, hne⟩
    · decide
    · decide
    · obtain ⟨rest, rfl⟩ := eq_cons_of_sectionMark hsection
      refine ⟨rfl, ?_, .inl rfl, fun h => ?_⟩
      · rw [hdef, decide_eq_false hne]
        rfl
      · have hhead : some 0x40 = Markers.endFile.head? := congrArg List.head? h
        exact absurd hhead (by decide)
  obtain ⟨hstops, hmarked, hsection, hfile⟩ := hline
  refine ⟨?_, ?_⟩
  · rw [Update.stops, hrest]
    exact hstops
  · have hunmarked : st.isMarked = false := (Update.isMarked_cons hrest).trans hmarked
    have hread : readSection .start (line :: others) = .ok (.start, line :: others) := by
      unfold readSection
      rcases hsection with hsection | hsection
      · rw [if_pos hsection]
      · by_cases hfirst : (line = [] || startsWithAny peekStops line) = true
        · rw [if_pos hfirst]
        · rw [if_neg hfirst, if_pos hsection]
    have hpeek : peek st.afterMark = .ok ⟨[], [], line :: others, false⟩ := by
      rw [Update.afterMark, if_neg (Bool.eq_false_iff.mp hunmarked), hrest, peek, hread]
      exact if_neg fun h => hfile (Option.some.inj h)
    have hnamed : st.named fileLines = none := by
      have hdef : st.defStr = none := by
        rw [Update.isMarked, Bool.or_eq_false_iff] at hunmarked
        exact not_isSome_iff_eq_none.mp (Bool.eq_false_iff.mp hunmarked.1)
      rw [Update.named, hdef]
      rfl
    rw [updateStep_eq, if_neg fun h => h.2 hzero, hpeek]
    have hplaced : st.placed fileLines = 0 := by
      rw [Update.placed, hnamed]
      exact hzero
    have hafter : st.after fileLines path ⟨[], [], line :: others, false⟩ = st := by
      unfold Update.after
      dsimp only
      have hfound : findContext fileLines [] 0 false = (0, 0, 1) := rfl
      rw [hplaced, hnamed, hfound, if_neg (by decide), ← hrest]
      obtain ⟨rest, index, chunks, fuzz, warnings⟩ := st
      obtain rfl : index = 0 := hzero
      simp
    exact congrArg Except.ok hafter

/-! ## The loop of an update -/

/-- One pass leads to another. -/
def Step (fileLines : List Text) (path : Text) (st st' : Update) : Prop :=
  st.stops = false ∧ updateStep fileLines path st = .ok st'

open Relation (ReflTransGen)

theorem updateLoop_step {steps : ℕ} (h : Step fileLines path st st') :
    updateLoop fileLines path (steps + 1) st = updateLoop fileLines path steps st' := by
  have hgo : (st.rest.head?.map (startsWithAny updateStops)).getD false = false := h.1
  rw [updateLoop, hgo, h.2]
  rfl

/-- Once a pass is stuck, no number of rounds is enough. -/
theorem updateLoop_of_stuck (hreach : ReflTransGen (Step fileLines path) st st')
    (hstuck : st'.Stuck) : ∀ steps, updateLoop fileLines path steps st = none := by
  induction hreach using ReflTransGen.head_induction_on with
  | refl =>
    intro steps
    induction steps with
    | zero => rfl
    | succ n ih => rw [updateLoop_step (updateStep_of_stuck hstuck), ih]
  | head hstep _ ih =>
    intro steps
    cases steps with
    | zero => rfl
    | succ n => rw [updateLoop_step hstep, ih]

theorem step_endAhead (hreach : ReflTransGen (Step fileLines path) st st')
    (hend : EndAhead st.rest) : EndAhead st'.rest := by
  induction hreach with
  | refl => exact hend
  | tail _ hstep ih => exact updateStep_endAhead hstep.2 ih

/-- Where no pass is stuck, a round for every line is enough. -/
theorem updateLoop_isSome (hend : EndAhead st.rest)
    (hfree : ∀ st', ReflTransGen (Step fileLines path) st st' → ¬ st'.Stuck) {steps : ℕ}
    (hsteps : st.rest.length < steps) : (updateLoop fileLines path steps st).isSome = true := by
  induction steps generalizing st with
  | zero => exact absurd hsteps (Nat.not_lt_zero _)
  | succ n ih =>
    by_cases hgo : st.stops = true
    · have hstop : (st.rest.head?.map (startsWithAny updateStops)).getD false = true := hgo
      rw [updateLoop, if_pos hstop]
      rfl
    · have hgo := Bool.eq_false_iff.mpr hgo
      cases hstep : updateStep fileLines path st with
      | error e =>
        have hstop : (st.rest.head?.map (startsWithAny updateStops)).getD false = false := hgo
        rw [updateLoop, hstop, hstep]
        rfl
      | ok mid =>
        rw [updateLoop_step ⟨hgo, hstep⟩]
        refine ih (updateStep_endAhead hstep hend)
          (fun st' hreach => hfree st' (hreach.head ⟨hgo, hstep⟩)) ?_
        have hlt := updateStep_lt hend hgo (hfree st .refl) hstep
        omega

/-- What the loop leaves. -/
theorem updateLoop_ok {steps : ℕ} (h : updateLoop fileLines path steps st = some (.ok st')) :
    st'.rest <:+ st.rest ∧ (EndAhead st.rest → EndAhead st'.rest) := by
  induction steps generalizing st with
  | zero => cases h
  | succ n ih =>
    by_cases hgo : (st.rest.head?.map (startsWithAny updateStops)).getD false = true
    · rw [updateLoop, if_pos hgo] at h
      obtain rfl := Except.ok.inj (Option.some.inj h)
      exact ⟨suffix_refl _, id⟩
    · cases hstep : updateStep fileLines path st with
      | error e =>
        rw [updateLoop, if_neg hgo, hstep] at h
        cases h
      | ok mid =>
        rw [updateLoop_step ⟨Bool.eq_false_iff.mpr hgo, hstep⟩] at h
        obtain ⟨hsuffix, hend⟩ := ih h
        exact ⟨hsuffix.trans (updateStep_suffix hstep),
          fun hahead => hend (updateStep_endAhead hstep hahead)⟩

/-! ## Actions -/

omit [Runtime] in
theorem readAdded_ok {lines added rest : List Text} (h : readAdded lines = .ok (added, rest)) :
    rest <:+ lines ∧ (EndAhead lines → EndAhead rest) := by
  induction lines generalizing added with
  | nil =>
    obtain ⟨-, rfl⟩ := Prod.mk.inj (Except.ok.inj h)
    exact ⟨suffix_refl _, id⟩
  | cons line others ih =>
    unfold readAdded at h
    split_ifs at h with hmark hplus
    · obtain ⟨-, rfl⟩ := Prod.mk.inj (Except.ok.inj h)
      exact ⟨suffix_refl _, id⟩
    · cases hread : readAdded others with
      | error e =>
        rw [hread] at h
        cases h
      | ok r =>
        rw [hread] at h
        obtain ⟨-, rfl⟩ := Prod.mk.inj (Except.ok.inj h)
        obtain ⟨hsuffix, hend⟩ := ih hread
        refine ⟨hsuffix.trans (suffix_cons _ _), fun hahead => hend (hahead.tail ?_)⟩
        refine Bool.eq_false_iff.mpr fun hline => hmark ?_
        exact any_eq_true.mpr ⟨Markers.endPatch, by decide, hline⟩

namespace Parser

/-- The lines after the header of an update, and after the path to move to. -/
def afterHeader (p : Parser) : List Text :=
  if (p.rest.tail.head?.filter fun l => startsWith l Markers.moveTo).isSome then p.rest.tail.tail
  else p.rest.tail

/-- The variables of the loop in `parseUpdateFile`, at its start. -/
def update (p : Parser) : Update := ⟨p.afterHeader, 0, [], p.fuzz, p.warnings⟩

end Parser

variable {currentFiles : InsertionMap Text Text} {p p' : Parser}

/-- What the file has, line by line. -/
def fileLinesOf (currentFiles : InsertionMap Text Text) (path : Text) : List Text :=
  splitLines ((currentFiles.get? path).getD [])

/-- The loop for an update is entered. -/
def Enters (currentFiles : InsertionMap Text Text) (p : Parser) (path : Text) : Prop :=
  checkDuplicate p path "update" = .ok () ∧ isIn currentFiles path = true

theorem parseUpdate_of_enters (h : Enters currentFiles p path) :
    parseUpdate currentFiles p path =
      (updateLoop (fileLinesOf currentFiles path) path (p.afterHeader.length + 1) p.update).map
        fun result => result.map fun st =>
          { rest := st.rest
            actions := p.actions.set path ⟨.update, none, st.chunks,
              (p.rest.tail.head?.filter fun l => startsWith l Markers.moveTo).map fun l =>
                trim (l.drop Markers.moveTo.length)⟩
            warnings := st.warnings
            fuzz := st.fuzz } := by
  rw [parseUpdate, h.1]
  simp only [h.2, Bool.not_true, Bool.false_eq_true, if_false]
  rfl

theorem parseUpdate_of_not_enters (h : ¬ Enters currentFiles p path) :
    ∃ message, parseUpdate currentFiles p path = some (.error message) := by
  unfold parseUpdate
  cases hdup : checkDuplicate p path "update" with
  | error message => exact ⟨message, rfl⟩
  | ok =>
    have hmissing : isIn currentFiles path = false :=
      Bool.eq_false_iff.mpr fun hin => h ⟨hdup, hin⟩
    simp only [hmissing, Bool.not_false, if_true]
    exact ⟨_, rfl⟩

section

omit [Runtime]

theorem Parser.afterHeader_ok {line : Text} {rest : List Text} (hrest : p.rest = line :: rest) :
    p.afterHeader <:+ rest ∧ (EndAhead rest → EndAhead p.afterHeader) := by
  unfold Parser.afterHeader
  rw [hrest, tail_cons]
  split_ifs with hmoved
  · refine ⟨tail_suffix _, fun hend => ?_⟩
    cases rest with
    | nil => exact hend
    | cons header others =>
      refine hend.tail ?_
      -- the line with the path to move to is no end marker
      rw [head?_cons, isSome_filter, any_some] at hmoved
      rw [startsWith, isPrefixOf_iff_prefix] at hmoved
      obtain ⟨after, rfl⟩ := hmoved
      rfl
  · exact ⟨suffix_refl _, id⟩

theorem parseDelete_ok (h : parseDelete currentFiles p path = .ok p') :
    checkDuplicate p path "delete" = .ok () ∧
      p' = { p with
        rest := p.rest.tail
        actions := p.actions.set path ⟨.delete, none, [], none⟩ } := by
  unfold parseDelete at h
  cases hdup : checkDuplicate p path "delete" with
  | error e =>
    rw [hdup] at h
    cases h
  | ok =>
    rw [hdup] at h
    by_cases hin : isIn currentFiles path = true
    · simp only [hin, Bool.not_true, Bool.false_eq_true, if_false] at h
      exact ⟨rfl, (Except.ok.inj h).symm⟩
    · simp only [Bool.eq_false_iff.mpr hin, Bool.not_false, if_true] at h
      cases h

theorem parseAdd_ok (h : parseAdd currentFiles p path = .ok p') :
    checkDuplicate p path "add" = .ok () ∧ ∃ added rest,
      readAdded p.rest.tail = .ok (added, rest) ∧
        p' = { p with
          rest
          actions := p.actions.set path ⟨.add, some (joinLines added), [], none⟩ } := by
  unfold parseAdd at h
  cases hdup : checkDuplicate p path "add" with
  | error e =>
    rw [hdup] at h
    cases h
  | ok =>
    rw [hdup] at h
    by_cases hin : isIn currentFiles path = true
    · simp only [hin, if_true] at h
      cases h
    · simp only [Bool.eq_false_iff.mpr hin, Bool.false_eq_true, if_false] at h
      cases hread : readAdded p.rest.tail with
      | error e =>
        rw [hread] at h
        cases h
      | ok r =>
        rw [hread] at h
        exact ⟨rfl, r.1, r.2, rfl, (Except.ok.inj h).symm⟩

end

/-- An action reads at least its first line. -/
theorem parseNextAction_ok {line : Text} {rest : List Text} (hrest : p.rest = line :: rest)
    (hline : startsWith line Markers.endPatch = false)
    (h : parseNextAction currentFiles p line = some (.ok p')) :
    p'.rest <:+ rest ∧ (EndAhead p.rest → EndAhead p'.rest) := by
  have hahead : EndAhead p.rest → EndAhead rest := fun hend => by
    rw [hrest] at hend
    exact hend.tail hline
  unfold parseNextAction at h
  split_ifs at h with hupdate hdelete hadd
  · by_cases henters : Enters currentFiles p (pathAfter Markers.updateFile line)
    · rw [parseUpdate_of_enters henters] at h
      obtain ⟨result, hloop, hresult⟩ := map_eq_some_iff.mp h
      cases result with
      | error e => cases hresult
      | ok st =>
        obtain rfl := Except.ok.inj hresult
        obtain ⟨hsuffix, hend⟩ := updateLoop_ok hloop
        obtain ⟨hheader, hendHeader⟩ := Parser.afterHeader_ok hrest
        exact ⟨hsuffix.trans hheader, fun hp => hend (hendHeader (hahead hp))⟩
    · obtain ⟨message, herror⟩ := parseUpdate_of_not_enters henters
      rw [herror] at h
      cases h
  · obtain ⟨-, rfl⟩ := parseDelete_ok (Option.some.inj h)
    show p.rest.tail <:+ rest ∧ (EndAhead p.rest → EndAhead p.rest.tail)
    rw [hrest] at hahead ⊢
    exact ⟨suffix_refl _, hahead⟩
  · obtain ⟨-, added, others, hread, rfl⟩ := parseAdd_ok (Option.some.inj h)
    rw [hrest] at hread
    obtain ⟨hsuffix, hend⟩ := readAdded_ok hread
    exact ⟨hsuffix, fun hp => hend (hahead hp)⟩
  · cases h

/-! ## Runs of the parser -/

/-- The parser before the first action. -/
def Parser.start (lines : List Text) : Parser :=
  ⟨if (lines.head?.map fun l => startsWith l Markers.beginPatch).getD false then lines.tail
    else lines, .empty, [], 0⟩

/-- The states in which `parse` looks for an action. -/
inductive Parses (currentFiles : InsertionMap Text Text) (lines : List Text) : Parser → Prop
  | start : Parses currentFiles lines (.start lines)
  | action {p p' : Parser} {line : Text} {rest : List Text} (h : Parses currentFiles lines p)
      (hrest : p.rest = line :: rest) (hline : startsWith line Markers.endPatch = false)
      (haction : parseNextAction currentFiles p line = some (.ok p')) :
      Parses currentFiles lines p'

/-- The states before a pass through the loop in `parseUpdateFile`. -/
structure Passes (currentFiles : InsertionMap Text Text) (lines : List Text) (path : Text)
    (p : Parser) (st : Update) : Prop where
  parses : Parses currentFiles lines p
  header : ∃ line rest, p.rest = line :: rest ∧ startsWith line Markers.endPatch = false ∧
    startsWith line Markers.updateFile = true ∧ path = pathAfter Markers.updateFile line
  enters : Enters currentFiles p path
  reach : ReflTransGen (Step (fileLinesOf currentFiles path) path) p.update st

/-- A pass stops the loop, throws, or moves on in the lines. -/
def Advances (fileLines : List Text) (path : Text) (st : Update) : Prop :=
  st.stops = true ∨ (∃ message, updateStep fileLines path st = .error message) ∨
    ∃ st', updateStep fileLines path st = .ok st' ∧ st'.rest.length < st.rest.length

theorem parse_eq (lines : List Text) (currentFiles : InsertionMap Text Text) :
    parse lines currentFiles =
      (parseLoop currentFiles (Parser.start lines).rest.length (.start lines)).map fun result =>
        result.map fun p =>
          (⟨p.actions, if p.warnings.length = 0 then none else some p.warnings⟩, p.fuzz) := rfl

variable {lines : List Text}

theorem Parses.endAhead (h : Parses currentFiles lines p)
    (hend : EndAhead (Parser.start lines).rest) : EndAhead p.rest := by
  induction h with
  | start => exact hend
  | action _ hrest hline haction ih => exact (parseNextAction_ok hrest hline haction).2 ih

/-- The loop of `parse` comes to every one of its states with enough rounds left. -/
theorem Parses.parseLoop (h : Parses currentFiles lines p) :
    ∃ steps, p.rest.length ≤ steps ∧
      parseLoop currentFiles (Parser.start lines).rest.length (.start lines)
        = parseLoop currentFiles steps p := by
  induction h with
  | start => exact ⟨_, Nat.le_refl _, rfl⟩
  | @action p p' line rest _ hrest hline haction ih =>
    obtain ⟨steps, hsteps, hloop⟩ := ih
    have hsuffix := (parseNextAction_ok hrest hline haction).1.length_le
    rw [hrest, length_cons] at hsteps
    cases steps with
    | zero => exact absurd hsteps (Nat.not_succ_le_zero _)
    | succ n =>
      refine ⟨n, by omega, hloop.trans ?_⟩
      simp only [ApplyPatch.parseLoop, hrest, hline, Bool.false_eq_true, if_false, haction]

/-- The parser that starts at a state ends if every action from there does. -/
theorem parseLoop_isSome (steps : ℕ) (h : Parses currentFiles lines p)
    (hactions : ∀ p line rest, Parses currentFiles lines p → p.rest = line :: rest →
      startsWith line Markers.endPatch = false →
      (parseNextAction currentFiles p line).isSome = true) :
    (parseLoop currentFiles steps p).isSome = true := by
  induction steps generalizing p with
  | zero => rfl
  | succ n ih =>
    unfold parseLoop
    cases hrest : p.rest with
    | nil => rfl
    | cons line rest =>
      by_cases hline : startsWith line Markers.endPatch = true
      · simp only [hline, if_true, isSome_some]
      · have hline := Bool.eq_false_iff.mpr hline
        simp only [hline, Bool.false_eq_true, if_false]
        have hsome := hactions p line rest h hrest hline
        cases haction : parseNextAction currentFiles p line with
        | none =>
          rw [haction] at hsome
          cases hsome
        | some result =>
          cases result with
          | error e => rfl
          | ok p' => exact ih (h.action hrest hline haction)

/-- The parser ends and every pass gets on, just if no pass is stuck: at the start of the file, on
an empty line, a line `***` or one that begins like a section and is none. -/
theorem parse_ends_iff {first last : Text} {middle : List Text}
    (hbegin : startsWith first Markers.beginPatch = true)
    (hend : startsWith last Markers.endPatch = true) :
    ((parse (first :: (middle ++ [last])) currentFiles).isSome = true ∧
        ∀ path p st, Passes currentFiles (first :: (middle ++ [last])) path p st →
          Advances (fileLinesOf currentFiles path) path st) ↔
      ∀ path p st, Passes currentFiles (first :: (middle ++ [last])) path p st → ¬ st.Stuck := by
  have hstart : (Parser.start (first :: (middle ++ [last]))).rest = middle ++ [last] := by
    rw [Parser.start, head?_cons, map_some, hbegin]
    rfl
  have hahead : EndAhead (Parser.start (first :: (middle ++ [last]))).rest := by
    rw [hstart]
    exact ⟨last, mem_append_right _ mem_cons_self, hend⟩
  have hpassEnd : ∀ {path p st}, Passes currentFiles (first :: (middle ++ [last])) path p st →
      EndAhead st.rest := by
    intro path p st hpass
    obtain ⟨line, rest, hrest, hline, -, -⟩ := hpass.header
    have hp := hpass.parses.endAhead hahead
    rw [hrest] at hp
    exact step_endAhead hpass.reach ((Parser.afterHeader_ok hrest).2 (hp.tail hline))
  constructor
  · rintro ⟨-, hadvances⟩ path p st hpass hstuck
    obtain ⟨hgo, hstep⟩ := @updateStep_of_stuck _ (fileLinesOf currentFiles path) path _ hstuck
    rcases hadvances path p st hpass with hstops | ⟨message, herror⟩ | ⟨st', hok, hlt⟩
    · rw [hgo] at hstops
      cases hstops
    · rw [hstep] at herror
      cases herror
    · obtain rfl := Except.ok.inj (hstep.symm.trans hok)
      exact absurd hlt (Nat.lt_irrefl _)
  · intro hfree
    constructor
    · rw [parse_eq, isSome_map]
      refine parseLoop_isSome _ .start fun p line rest hparses hrest hline => ?_
      unfold parseNextAction
      split_ifs with hupdate
      · by_cases henters : Enters currentFiles p (pathAfter Markers.updateFile line)
        · have hpass {st : Update} (hreach : ReflTransGen (Step (fileLinesOf currentFiles
              (pathAfter Markers.updateFile line)) (pathAfter Markers.updateFile line)) p.update st) :
              Passes currentFiles (first :: (middle ++ [last])) (pathAfter Markers.updateFile line)
                p st :=
            ⟨hparses, ⟨line, rest, hrest, hline, hupdate, rfl⟩, henters, hreach⟩
          rw [parseUpdate_of_enters henters, isSome_map]
          exact updateLoop_isSome (hpassEnd (hpass .refl))
            (fun st hreach => hfree _ _ _ (hpass hreach)) (Nat.lt_succ_self _)
        · obtain ⟨message, herror⟩ := parseUpdate_of_not_enters henters
          rw [herror]
          rfl
      · rfl
      · rfl
      · rfl
    · intro path p st hpass
      by_cases hgo : st.stops = true
      · exact Or.inl hgo
      · cases hstep : updateStep (fileLinesOf currentFiles path) path st with
        | error message => exact Or.inr (Or.inl ⟨message, hstep⟩)
        | ok st' =>
          exact Or.inr (Or.inr ⟨st', hstep, updateStep_lt (hpassEnd hpass)
            (Bool.eq_false_iff.mpr hgo) (hfree path p st hpass) hstep⟩)

end

section

open Plain

def smallFiles : InsertionMap Text Text := InsertionMap.empty.set (text "a") (text "x\ny")

/-- One line is deleted. -/
def deletion : List Text := [text "*** Update File: a", text "@@", text "-x"]

/-- The parser ends on a well-formed update, as none of its passes is stuck. -/
theorem deletion_ends_iff :
    ((parse (Markers.beginPatch :: (deletion ++ [Markers.endPatch])) smallFiles).isSome = true ∧
        ∀ path p st, Passes smallFiles (Markers.beginPatch :: (deletion ++ [Markers.endPatch]))
          path p st → Advances (fileLinesOf smallFiles path) path st) ↔
      ∀ path p st, Passes smallFiles (Markers.beginPatch :: (deletion ++ [Markers.endPatch]))
        path p st → ¬ st.Stuck :=
  parse_ends_iff (by decide) (by decide)

/-- The parser does not end at an empty line after the header. -/
theorem empty_line_does_not_end :
    parse (Markers.beginPatch :: ([text "*** Update File: a", text "", text "-x"]
      ++ [Markers.endPatch])) smallFiles = none ∧
      ∀ steps, updateLoop (fileLinesOf smallFiles (text "a")) (text "a") steps
        ⟨[text "", text "-x", Markers.endPatch], 0, [], 0, []⟩ = none :=
  ⟨by decide +kernel, updateLoop_of_stuck .refl (by decide)⟩

end

end Lumi.ApplyPatch
