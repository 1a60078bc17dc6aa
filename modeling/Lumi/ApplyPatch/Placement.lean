import Lumi.ApplyPatch.Exact
import Lumi.ApplyPatch.Termination

/-!
# Where the chunks of an update lie

The chunks of one section lie one after the other within its context.  Where a section is found from
the last place on, with all of its old lines in the file, its chunks follow those before.  A section
at the end of the file is looked for from the end first, and by similarity a section is also found
where fewer lines are left than it has; only there a chunk can lie before the one before it, or past
the end of the file.
-/

namespace Lumi.ApplyPatch

open Js List InsertionMap

/-! ## Chunks in order -/

/-- The index after the lines that a chunk deletes. -/
def PatchChunk.stop (c : PatchChunk) : ℤ := c.origIndex + c.delLines.length

theorem PatchChunk.le_stop (c : PatchChunk) : c.origIndex ≤ c.stop := by
  unfold stop
  omega

/-- The chunks lie one after the other, from `start` up to `stop`. -/
def InRange : ℤ → List PatchChunk → ℤ → Prop
  | start, [], stop => start ≤ stop
  | start, c :: rest, stop => start ≤ c.origIndex ∧ InRange c.stop rest stop

/-- The index after the last of the chunks. -/
def lastStop : ℤ → List PatchChunk → ℤ
  | start, [] => start
  | _, c :: rest => lastStop c.stop rest

section

variable {start stop : ℤ} {chunks more : List PatchChunk}

theorem InRange.le (h : InRange start chunks stop) : start ≤ stop := by
  induction chunks generalizing start with
  | nil => exact h
  | cons c rest ih => exact h.1.trans (c.le_stop.trans (ih h.2))

theorem inRange_append : InRange start (chunks ++ more) stop ↔
    InRange start chunks (lastStop start chunks) ∧ InRange (lastStop start chunks) more stop := by
  induction chunks generalizing start with
  | nil => exact (and_iff_right (Int.le_refl start)).symm
  | cons c rest ih =>
    show start ≤ c.origIndex ∧ InRange c.stop (rest ++ more) stop ↔
      (start ≤ c.origIndex ∧ InRange c.stop rest (lastStop c.stop rest)) ∧ _
    rw [ih, and_assoc]
    rfl

theorem inRange_iff_lastStop : InRange start chunks stop ↔
    InRange start chunks (lastStop start chunks) ∧ lastStop start chunks ≤ stop := by
  have happend := @inRange_append start stop chunks []
  rw [append_nil] at happend
  exact happend

/-- The same chunks, further down in the file. -/
def shift (n : ℤ) (chunks : List PatchChunk) : List PatchChunk :=
  chunks.map fun c => { c with origIndex := c.origIndex + n }

theorem inRange_shift (n : ℤ) : InRange (start + n) (shift n chunks) (stop + n) ↔
    InRange start chunks stop := by
  induction chunks generalizing start with
  | nil => exact Int.add_le_add_iff_right n
  | cons c rest ih =>
    have hstop : c.origIndex + n + c.delLines.length = c.stop + n := by
      unfold PatchChunk.stop
      omega
    show start + n ≤ c.origIndex + n ∧ InRange (c.origIndex + n + c.delLines.length) (shift n rest)
      (stop + n) ↔ _
    rw [hstop, ih, Int.add_le_add_iff_right]
    rfl

/-- Where chunks lie in order, only their ends count. -/
theorem inRange_cons_iff {c : PatchChunk} {start' stop' : ℤ}
    (h : InRange start' (c :: more) stop') : InRange start (c :: more) stop ↔
      start ≤ c.origIndex ∧ lastStop c.stop more ≤ stop :=
  and_congr_right fun _ => inRange_iff_lastStop.trans
    (and_iff_right (inRange_iff_lastStop.mp h.2).1)

/-- Every chunk lies in the file, and each starts at or after the end of the one before. -/
def Applicable (size : ℕ) (chunks : List PatchChunk) : Prop :=
  (∀ c ∈ chunks, 0 ≤ c.origIndex ∧ c.stop ≤ size) ∧
    chunks.Pairwise fun a b => a.stop ≤ b.origIndex

theorem InRange.mem (h : InRange start chunks stop) :
    ∀ c ∈ chunks, start ≤ c.origIndex ∧ c.stop ≤ stop := by
  induction chunks generalizing start with
  | nil => exact fun c hc => absurd hc not_mem_nil
  | cons d rest ih =>
    intro c hc
    rcases mem_cons.mp hc with rfl | hc
    · exact ⟨h.1, h.2.le⟩
    · obtain ⟨hstart, hstop⟩ := ih h.2 c hc
      exact ⟨h.1.trans (d.le_stop.trans hstart), hstop⟩

theorem applicable_iff {size : ℕ} : Applicable size chunks ↔ InRange 0 chunks size := by
  constructor
  · rintro ⟨hbound, hpairwise⟩
    -- the start may be any index before all chunks
    have hrange : ∀ (start : ℤ), start ≤ size → (∀ c ∈ chunks, start ≤ c.origIndex) →
        InRange start chunks size := by
      induction chunks with
      | nil => exact fun start hstart _ => hstart
      | cons c rest ih =>
        intro start hstart hfirst
        obtain ⟨hnext, hrest⟩ := pairwise_cons.mp hpairwise
        exact ⟨hfirst c mem_cons_self, ih (fun d hd => hbound d (mem_cons_of_mem _ hd))
          hrest c.stop (hbound c mem_cons_self).2 hnext⟩
    exact hrange 0 (Int.natCast_nonneg _) fun c hc => (hbound c hc).1
  · intro h
    refine ⟨h.mem, ?_⟩
    have hpairwise : ∀ start : ℤ, InRange start chunks size →
        chunks.Pairwise fun a b => a.stop ≤ b.origIndex := by
      clear h
      induction chunks with
      | nil => exact fun _ _ => List.Pairwise.nil
      | cons c rest ih =>
        exact fun start h => pairwise_cons.mpr ⟨fun d hd => (h.2.mem d hd).1, ih _ h.2⟩
    exact hpairwise 0 h

/-- Chunks in order are edits in order. -/
theorem InRange.inOrder {size cursor : ℕ} (h : InRange cursor chunks size) :
    (∀ c ∈ chunks, 0 ≤ c.origIndex) ∧
      Edit.InOrder size cursor (chunks.map PatchChunk.edit) := by
  induction chunks generalizing cursor with
  | nil =>
    have hle : (cursor : ℤ) ≤ size := h
    exact ⟨fun c hc => absurd hc not_mem_nil, by show cursor ≤ size; omega⟩
  | cons c rest ih =>
    obtain ⟨hstart, hrest⟩ := h
    obtain ⟨n, hn⟩ := Int.eq_ofNat_of_zero_le (show 0 ≤ c.origIndex by omega)
    have hstop : c.stop = ((n + c.delLines.length : ℕ) : ℤ) := by
      rw [PatchChunk.stop, hn]
      rfl
    have hedit : c.edit.stop = n + c.delLines.length := by
      show c.origIndex.toNat + _ = _
      rw [hn]
      rfl
    rw [hstop] at hrest
    obtain ⟨hnonneg, horder⟩ := ih hrest
    refine ⟨fun d hd => ?_, ?_, ?_⟩
    · rcases mem_cons.mp hd with rfl | hd
      · omega
      · exact hnonneg d hd
    · show cursor ≤ c.origIndex.toNat
      omega
    · rw [hedit]
      exact horder

/-- The loop in `applyChunks` does not throw on chunks in order. -/
theorem InRange.applyLoop {path : Text} {lines : List Text}
    (h : InRange start chunks lines.length) (tryPreserveEscaping : Bool) :
    ∃ result, applyLoop path tryPreserveEscaping lines start chunks = .ok result := by
  induction chunks generalizing start with
  | nil => exact ⟨_, rfl⟩
  | cons c rest ih =>
    obtain ⟨hstart, hrest⟩ := h
    obtain ⟨result, hresult⟩ := ih hrest
    have hover : ¬ c.origIndex > lines.length := by
      have hle := c.le_stop.trans hrest.le
      omega
    have hback : ¬ start > c.origIndex := by omega
    have hresult : ApplyPatch.applyLoop path tryPreserveEscaping lines
        (c.origIndex + c.delLines.length) rest = .ok result := hresult
    simp only [ApplyPatch.applyLoop, if_neg hover, if_neg hback, hresult]
    exact ⟨_, rfl⟩

end

/-! ## The chunks of a section -/

/-- Every line reads as one that is kept, deleted or inserted. -/
theorem exists_encode (s : Text) :
    ∃ l : HunkLine Text, ∀ st : Section, st.read s = st.read l.encode := by
  cases s with
  | nil => exact ⟨.context [], fun _ => rfl⟩
  | cons c rest =>
    by_cases hadd : c = 0x2B
    · exact ⟨.insert rest, fun _ => hadd ▸ rfl⟩
    by_cases hdelete : c = 0x2D
    · exact ⟨.delete rest, fun _ => hdelete ▸ rfl⟩
    by_cases hkeep : c = 0x20
    · exact ⟨.context rest, fun _ => hkeep ▸ rfl⟩
    · -- a context line without its blank
      refine ⟨.context (c :: rest), fun st => ?_⟩
      have hmode : Section.modeOf (c :: rest) = (.keep, c :: rest) := by
        rw [Section.modeOf, if_neg hadd, if_neg hdelete, if_neg hkeep]
      unfold Section.read
      rw [hmode]
      rfl

namespace Section

/-- The chunks lie in order before the lines that are pending. -/
structure Placed (st : Section) : Prop where
  valid : st.Valid
  inRange : InRange 0 st.chunks (st.old.length - st.delLines.length)

theorem Placed.flush {st : Section} (h : st.Placed) :
    InRange 0 (st.chunks ++ st.pending) st.old.length := by
  have hdeleted := h.valid.deleted
  obtain ⟨hchunks, hlast⟩ := inRange_iff_lastStop.mp h.inRange
  refine inRange_append.mpr ⟨hchunks, ?_⟩
  unfold pending
  split_ifs
  · refine ⟨hlast, ?_⟩
    show (st.old.length : ℤ) - st.delLines.length + st.delLines.length ≤ st.old.length
    omega
  · show lastStop 0 st.chunks ≤ st.old.length
    omega

theorem Placed.read {st : Section} (h : st.Placed) (s : Text) : (st.read s).Placed := by
  obtain ⟨l, hl⟩ := exists_encode s
  rw [hl]
  refine ⟨h.valid.read l, ?_⟩
  cases l with
  | context line =>
    rw [read_context h.valid]
    obtain ⟨hchunks, hlast⟩ := inRange_iff_lastStop.mp h.flush
    refine inRange_iff_lastStop.mpr ⟨hchunks, ?_⟩
    show _ ≤ ((st.old ++ [line]).length : ℤ) - (0 : ℕ)
    rw [length_append]
    push_cast
    omega
  | delete line =>
    rw [read_delete]
    have hsame : ((st.old ++ [line]).length : ℤ) - (st.delLines ++ [line]).length
        = st.old.length - st.delLines.length := by
      rw [length_append, length_append]
      push_cast
      omega
    show InRange 0 st.chunks (((st.old ++ [line]).length : ℤ) - (st.delLines ++ [line]).length)
    rw [hsame]
    exact h.inRange
  | insert line =>
    rw [read_insert]
    exact h.inRange

theorem Placed.start : Section.start.Placed := ⟨Valid.start, Int.le_refl 0⟩

theorem Placed.readSection {st st' : Section} (h : st.Placed) {lines rest : List Text}
    (hread : readSection st lines = .ok (st', rest)) : st'.Placed := by
  induction lines generalizing st with
  | nil =>
    obtain ⟨rfl, -⟩ := Prod.mk.inj (Except.ok.inj hread)
    exact h
  | cons s others ih =>
    unfold ApplyPatch.readSection at hread
    split_ifs at hread with hmark hstars
    · obtain ⟨rfl, -⟩ := Prod.mk.inj (Except.ok.inj hread)
      exact h
    · obtain ⟨rfl, -⟩ := Prod.mk.inj (Except.ok.inj hread)
      exact h
    · exact ih (h.read s) hread

end Section

/-- The chunks of a section lie in its context. -/
theorem peek_inRange {lines : List Text} {next : Peek} (h : peek lines = .ok next) :
    InRange 0 next.chunks next.context.length := by
  obtain ⟨st, rest, hread, hcontext, hchunks, -⟩ := peek_cases h
  rw [hcontext, hchunks]
  exact (Section.Placed.start.readSection hread).flush

/-! ## The chunks of an update -/

section

variable [Runtime] {fileLines : List Text} {path : Text} {st st' final : Update}

/-- Where the section is found. -/
def Update.foundAt (fileLines : List Text) (st : Update) (next : Peek) : ℤ :=
  (findContext fileLines next.context (st.placed fileLines) next.eof).1

/-- A section that changes something and is found before the end of the last chunk changes nothing
before it, and one that reaches past the end of the file changes nothing there. -/
def Update.Fits (fileLines : List Text) (st : Update) : Prop :=
  st.stops = false → ∀ next, peek st.afterMark = .ok next → ∀ c rest, next.chunks = c :: rest →
    st.foundAt fileLines next ≠ -1 →
      (st.foundAt fileLines next < lastStop 0 st.chunks →
        lastStop 0 st.chunks ≤ c.origIndex + st.foundAt fileLines next) ∧
      ((fileLines.length : ℤ) < st.foundAt fileLines next + next.context.length →
        lastStop 0 (shift (st.foundAt fileLines next) next.chunks) ≤ fileLines.length)

theorem Update.after_chunks (st : Update) (next : Peek) :
    (st.after fileLines path next).chunks =
      if st.foundAt fileLines next = -1 then st.chunks
      else st.chunks ++ shift (st.foundAt fileLines next) next.chunks := by
  unfold Update.after Update.foundAt
  dsimp only
  split_ifs <;> rfl

/-- **Step lemma.**  A pass keeps the chunks in order just if its section fits. -/
theorem Step.inRange_iff (h : Step fileLines path st st') :
    InRange 0 st'.chunks fileLines.length ↔
      InRange 0 st.chunks fileLines.length ∧ st.Fits fileLines := by
  obtain ⟨hgo, hstep⟩ := h
  obtain ⟨-, next, hpeek, rfl⟩ := updateStep_ok hstep
  have hfits : st.Fits fileLines ↔ ∀ c rest, next.chunks = c :: rest →
      st.foundAt fileLines next ≠ -1 →
        (st.foundAt fileLines next < lastStop 0 st.chunks →
          lastStop 0 st.chunks ≤ c.origIndex + st.foundAt fileLines next) ∧
        ((fileLines.length : ℤ) < st.foundAt fileLines next + next.context.length →
          lastStop 0 (shift (st.foundAt fileLines next) next.chunks) ≤ fileLines.length) := by
    constructor
    · exact fun hall => hall hgo next hpeek
    · intro hall _ next' hpeek'
      obtain rfl := Except.ok.inj (hpeek.symm.trans hpeek')
      exact hall
  rw [st.after_chunks, hfits]
  by_cases hmiss : st.foundAt fileLines next = -1
  · rw [if_pos hmiss]
    exact (and_iff_left fun _ _ _ hfound => absurd hmiss hfound).symm
  rw [if_neg hmiss]
  have hsection := peek_inRange hpeek
  cases hchunks : next.chunks with
  | nil =>
    show InRange 0 (st.chunks ++ []) _ ↔ _
    rw [append_nil]
    exact (and_iff_left fun c rest hcons => absurd hcons (by simp)).symm
  | cons c rest =>
    rw [hchunks] at hsection
    have hrange := (@inRange_shift 0 next.context.length (c :: rest)
      (st.foundAt fileLines next)).mpr hsection
    rw [Int.zero_add] at hrange
    have hfirst : st.foundAt fileLines next ≤ c.origIndex + st.foundAt fileLines next := hrange.1
    have hlast : lastStop 0 (shift (st.foundAt fileLines next) (c :: rest))
        ≤ next.context.length + st.foundAt fileLines next := (inRange_iff_lastStop.mp hrange).2
    have hinside : c.origIndex + st.foundAt fileLines next
        ≤ lastStop 0 (shift (st.foundAt fileLines next) (c :: rest)) :=
      (PatchChunk.le_stop _).trans (inRange_iff_lastStop.mp hrange.2).1.le
    have hcons : InRange (lastStop 0 st.chunks) (shift (st.foundAt fileLines next) (c :: rest))
          fileLines.length ↔
        lastStop 0 st.chunks ≤ c.origIndex + st.foundAt fileLines next ∧
          lastStop 0 (shift (st.foundAt fileLines next) (c :: rest)) ≤ fileLines.length :=
      inRange_cons_iff hrange
    have hchunks := @inRange_iff_lastStop 0 fileLines.length st.chunks
    rw [inRange_append, hcons, hchunks]
    constructor
    · rintro ⟨hordered, hstart, hstop⟩
      refine ⟨⟨hordered, by omega⟩, fun d others hd _ => ?_⟩
      obtain ⟨rfl, -⟩ := List.cons.inj hd
      exact ⟨fun _ => hstart, fun _ => hstop⟩
    · rintro ⟨⟨hordered, hend⟩, hall⟩
      obtain ⟨hbefore, hpast⟩ := hall c rest rfl hmiss
      refine ⟨hordered, ?_, ?_⟩
      · by_cases hback : st.foundAt fileLines next < lastStop 0 st.chunks
        · exact hbefore hback
        · omega
      · by_cases hover : (fileLines.length : ℤ)
            < st.foundAt fileLines next + next.context.length
        · exact hpast hover
        · omega

open Relation (ReflTransGen)

/-- **Run lemma.**  The chunks of an update lie in order just if every section fits. -/
theorem inRange_iff_fits (h : ReflTransGen (Step fileLines path) st final)
    (hstop : final.stops = true) :
    InRange 0 final.chunks fileLines.length ↔ InRange 0 st.chunks fileLines.length ∧
      ∀ st', ReflTransGen (Step fileLines path) st st' → st'.Fits fileLines := by
  induction h using ReflTransGen.head_induction_on with
  | refl =>
    refine (and_iff_left fun st' hreach => ?_).symm
    rcases hreach.cases_head with rfl | ⟨mid, hstep, -⟩
    · intro hgo
      rw [hstop] at hgo
      cases hgo
    · exact absurd (hstep.1.symm.trans hstop) Bool.false_ne_true
  | @head st mid hstep _ ih =>
    rw [ih, hstep.inRange_iff, and_assoc]
    refine and_congr_right fun _ => ?_
    constructor
    · rintro ⟨hfits, hrest⟩ st' hreach
      rcases hreach.cases_head with rfl | ⟨mid', hstep', hreach⟩
      · exact hfits
      · obtain rfl := Except.ok.inj (hstep.2.symm.trans hstep'.2)
        exact hrest st' hreach
    · exact fun hall => ⟨hall st .refl, fun st' hreach => hall st' (hreach.head hstep)⟩

variable {steps : ℕ}

/-- Where the loop ends it has come to a marker. -/
theorem updateLoop_reaches (h : updateLoop fileLines path steps st = some (.ok final)) :
    ReflTransGen (Step fileLines path) st final ∧ final.stops = true := by
  induction steps generalizing st with
  | zero => cases h
  | succ n ih =>
    by_cases hgo : (st.rest.head?.map (startsWithAny updateStops)).getD false = true
    · rw [updateLoop, if_pos hgo] at h
      obtain rfl := Except.ok.inj (Option.some.inj h)
      exact ⟨.refl, hgo⟩
    · cases hstep : updateStep fileLines path st with
      | error e =>
        rw [updateLoop, if_neg hgo, hstep] at h
        cases h
      | ok mid =>
        have hfirst : Step fileLines path st mid := ⟨Bool.eq_false_iff.mpr hgo, hstep⟩
        rw [updateLoop_step hfirst] at h
        obtain ⟨hreach, hstop⟩ := ih h
        exact ⟨hreach.head hfirst, hstop⟩

/-! ## The actions of a patch -/

variable {currentFiles : InsertionMap Text Text} {p p' : Parser}

/-- An action is set under a path that had none. -/
theorem parseNextAction_actions {line : Text}
    (h : parseNextAction currentFiles p line = some (.ok p')) :
    ∃ path action, p'.actions = p.actions.set path action ∧ p.actions.get? path = none ∧
      ((startsWith line Markers.updateFile = true ∧ path = pathAfter Markers.updateFile line ∧
          Enters currentFiles p path ∧ action.type = .update ∧ ∃ final,
            updateLoop (fileLinesOf currentFiles path) path (p.afterHeader.length + 1) p.update
                = some (.ok final) ∧ action.chunks = final.chunks) ∨
        startsWith line Markers.updateFile = false ∧ action.type ≠ .update) := by
  have hnew {path : Text} {operation : String}
      (hdup : checkDuplicate p path operation = .ok ()) : p.actions.get? path = none := by
    unfold checkDuplicate at hdup
    split_ifs at hdup with hin
    rw [isIn, Bool.or_eq_true, not_or] at hin
    exact Option.not_isSome_iff_eq_none.mp hin.1
  unfold parseNextAction at h
  split_ifs at h with hupdate hdelete hadd
  · by_cases henters : Enters currentFiles p (pathAfter Markers.updateFile line)
    · rw [parseUpdate_of_enters henters] at h
      obtain ⟨result, hloop, hresult⟩ := Option.map_eq_some_iff.mp h
      cases result with
      | error e => cases hresult
      | ok final =>
        obtain rfl := Except.ok.inj hresult
        exact ⟨_, _, rfl, hnew henters.1, .inl ⟨hupdate, rfl, henters, rfl, final, hloop, rfl⟩⟩
    · obtain ⟨message, herror⟩ := parseUpdate_of_not_enters henters
      rw [herror] at h
      cases h
  · obtain ⟨hdup, rfl⟩ := parseDelete_ok (Option.some.inj h)
    exact ⟨_, _, rfl, hnew hdup, .inr ⟨Bool.eq_false_iff.mpr hupdate, by decide⟩⟩
  · obtain ⟨hdup, added, rest, -, rfl⟩ := parseAdd_ok (Option.some.inj h)
    exact ⟨_, _, rfl, hnew hdup, .inr ⟨Bool.eq_false_iff.mpr hupdate, by simp⟩⟩
  · cases h

/-- A round of the parser that has a result: there is nothing to read but the end, or an action
that is followed by the other rounds. -/
theorem parseLoop_ok_cases (h : ApplyPatch.parseLoop currentFiles (steps + 1) p = some (.ok p')) :
    (p' = p ∧ ∀ line rest, p.rest = line :: rest → startsWith line Markers.endPatch = true) ∨
    ∃ line rest mid, p.rest = line :: rest ∧ startsWith line Markers.endPatch = false ∧
      parseNextAction currentFiles p line = some (.ok mid) ∧
      ApplyPatch.parseLoop currentFiles steps mid = some (.ok p') := by
  unfold ApplyPatch.parseLoop at h
  cases hrest : p.rest with
  | nil =>
    rw [hrest] at h
    exact .inl ⟨(Except.ok.inj (Option.some.inj h)).symm, fun _ _ hnil => by cases hnil⟩
  | cons line rest =>
    rw [hrest] at h
    by_cases hline : startsWith line Markers.endPatch = true
    · simp only [hline, if_true] at h
      refine .inl ⟨(Except.ok.inj (Option.some.inj h)).symm, fun _ _ hcons => ?_⟩
      rw [← (cons_eq_cons.mp hcons).1]
      exact hline
    · have hline := Bool.eq_false_iff.mpr hline
      simp only [hline, Bool.false_eq_true, if_false] at h
      cases haction : parseNextAction currentFiles p line with
      | none =>
        rw [haction] at h
        cases h
      | some result =>
        rw [haction] at h
        cases result with
        | error e => cases h
        | ok mid => exact .inr ⟨line, rest, mid, rfl, hline, haction, h⟩

/-- Later actions leave the earlier ones. -/
theorem parseLoop_get? (h : parseLoop currentFiles steps p = some (.ok p')) {path : Text}
    {action : PatchAction} (hget : p.actions.get? path = some action) :
    p'.actions.get? path = some action := by
  induction steps generalizing p with
  | zero =>
    obtain rfl := Except.ok.inj (Option.some.inj h)
    exact hget
  | succ n ih =>
    rcases parseLoop_ok_cases h with ⟨rfl, -⟩ | ⟨line, rest, mid, -, -, haction, hrun⟩
    · exact hget
    · obtain ⟨path', action', hset, hnone, -⟩ := parseNextAction_actions haction
      have hne : path ≠ path' := by
        rintro rfl
        rw [hget] at hnone
        cases hnone
      apply ih hrun
      rw [hset, get?_set_of_ne _ _ hne, hget]

/-- The parser that the loop ends with is one of its states. -/
theorem Parses.of_parseLoop {lines : List Text} (hparses : Parses currentFiles lines p)
    (h : ApplyPatch.parseLoop currentFiles steps p = some (.ok p')) :
    Parses currentFiles lines p' := by
  induction steps generalizing p with
  | zero => exact Except.ok.inj (Option.some.inj h) ▸ hparses
  | succ n ih =>
    rcases parseLoop_ok_cases h with ⟨rfl, -⟩ | ⟨line, rest, mid, hrest, hline, haction, hrun⟩
    · exact hparses
    · exact ih (hparses.action hrest hline haction) hrun

/-- Every update of a patch was read by a loop that ended. -/
theorem Parses.exists_loop {lines : List Text} (h : Parses currentFiles lines p) {path : Text}
    {action : PatchAction} (hget : p.actions.get? path = some action)
    (htype : action.type = .update) :
    ∃ p₀ final, Passes currentFiles lines path p₀ p₀.update ∧
      updateLoop (fileLinesOf currentFiles path) path (p₀.afterHeader.length + 1) p₀.update
          = some (.ok final) ∧ action.chunks = final.chunks := by
  induction h with
  | start => cases hget
  | @action p p' line rest hparses hrest hline haction ih =>
    obtain ⟨path', action', hset, hnone, hcases⟩ := parseNextAction_actions haction
    by_cases hpath : path = path'
    · subst hpath
      rw [hset, get?_set_self] at hget
      obtain rfl := Option.some.inj hget
      rcases hcases with ⟨hupdate, hafter, henters, -, final, hloop, hchunks⟩ | ⟨-, hother⟩
      · exact ⟨p, final, ⟨hparses, ⟨line, rest, hrest, hline, hupdate, hafter⟩, henters, .refl⟩,
          hloop, hchunks⟩
      · exact absurd htype hother
    · rw [hset, get?_set_of_ne _ _ hpath] at hget
      exact ih hget

/-- The chunks of an update can be applied, and rewrite ranges of lines that do not meet. -/
def Applies (content path : Text) (chunks : List PatchChunk) : Prop :=
  Applicable (splitLines content).length chunks ∧
    (∀ tryPreserveEscaping, ∃ result,
      applyChunks content chunks path tryPreserveEscaping = .ok result) ∧
    applyChunks content chunks path false
      = .ok (joinLines (Edit.splice (splitLines content) 0 (chunks.map PatchChunk.edit)))

omit [Runtime] in
theorem applies_iff {content path : Text} {chunks : List PatchChunk} :
    Applies content path chunks ↔ InRange 0 chunks (splitLines content).length := by
  rw [Applies, applicable_iff]
  refine ⟨And.left, fun h => ⟨h, fun tryPreserveEscaping => ?_, ?_⟩⟩
  · unfold applyChunks
    split_ifs
    · exact ⟨content, rfl⟩
    · obtain ⟨result, hresult⟩ : ∃ result,
          applyLoop path tryPreserveEscaping (splitLines content) 0 chunks = .ok result :=
        h.applyLoop tryPreserveEscaping
      rw [hresult]
      exact ⟨_, rfl⟩
  · unfold applyChunks
    split_ifs with hnone
    · rw [length_eq_zero_iff.mp hnone]
      exact congrArg Except.ok (joinLines_splitLines content).symm
    · obtain ⟨hnonneg, horder⟩ := @InRange.inOrder chunks _ 0 h
      have hloop : applyLoop path false (splitLines content) 0 chunks = _ :=
        applyLoop_eq path (splitLines content) hnonneg horder
      rw [hloop]
      rfl

end

section

open Plain

def deletionLines : List Text := Markers.beginPatch :: (deletion ++ [Markers.endPatch])

def deletionChunks : List PatchChunk := [⟨0, [text "x"], []⟩]

/-- The last line is deleted, and then deleted once more as the end of the file. -/
def deletedTwice : List Text :=
  [text "*** Update File: a", text "@@", text "-y", text "@@", text "-y", Markers.endFile]

end

end Lumi.ApplyPatch
