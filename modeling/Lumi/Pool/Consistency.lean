import Lumi.Lib.Run
import Lumi.Pool.BufferPool

/-!
# When the buffer pool stays consistent

The page table and the frames describe each other (`Inv.table_iff`), a frame id is
free exactly if nothing is in the frame and no load has it, and what was evicted was
neither pinned nor dirty.  Everything but the end of a load keeps this.

A victim is chosen when the fetch is made and evicted when its loader has delivered,
and nothing reserves it in between: another load may have been given the same victim
and be done first, or the victim may have been pinned or dirtied again.  At its end
the load has to find the frame with the page it saw there, unpinned and clean
(`VictimUntouched`); where it does not, the pool is inconsistent from then on or has
evicted a page that was in use.
-/

namespace Lumi.Pool

open Js Run InsertionMap Option

variable {δ : Type*}

namespace BufferPool

/-- The page in a frame. -/
def pageAt (s : BufferPool δ) (frameId : ℕ) : Option Text := (s.frames frameId).map (·.pageId)

/-- A page is in the frame, or a load has been given it. -/
def Occupied (s : BufferPool δ) (frameId : ℕ) : Prop :=
  s.pageAt frameId ≠ none ∨ ∃ p load, s.loadingPages.get? p = some load ∧ load.frameId = frameId

end BufferPool

/-- **A consistent pool.** -/
structure PoolSound (s : BufferPool δ) : Prop where
  resident : ∀ p f, s.pageTable.get? p = some f →
    ∃ frame, s.frames f = some frame ∧ frame.pageId = p
  injective : ∀ p q f, s.pageTable.get? p = some f → s.pageTable.get? q = some f → p = q
  free_iff : ∀ f, f < s.totalFrames → (f ∈ s.freeFrameIds ↔ ¬ s.Occupied f)
  evicted_unused : ∀ frame ∈ s.evicted, frame.pinCount = 0 ∧ frame.isDirty = false

/-- A load that ends finds the frame with the page it saw there, unpinned and clean. -/
def VictimUntouched (s : BufferPool δ) (e : PoolEvent δ) : Prop :=
  ∀ p data frameId oldPageId now, e = .loaded p data →
    s.loadingPages.get? p = some ⟨frameId, some (some oldPageId), now⟩ →
      ∃ frame, s.frames frameId = some frame ∧ frame.pageId = oldPageId ∧
        frame.pinCount = 0 ∧ frame.isDirty = false

namespace BufferPool

/-- What a run keeps as long as the victims stay untouched. -/
structure Inv (s : BufferPool δ) : Prop where
  table_iff : ∀ p f, s.pageTable.get? p = some f ↔ s.pageAt f = some p
  free_iff : ∀ f, f ∈ s.freeFrameIds ↔ f < s.totalFrames ∧ ¬ s.Occupied f
  free_nodup : s.freeFrameIds.Nodup
  evicted_unused : ∀ frame ∈ s.evicted, frame.pinCount = 0 ∧ frame.isDirty = false
  load_absent : ∀ p load, s.loadingPages.get? p = some load → s.pageTable.get? p = none
  load_lt : ∀ p load, s.loadingPages.get? p = some load → load.frameId < s.totalFrames
  load_alone : ∀ p load, s.loadingPages.get? p = some load → s.pageAt load.frameId = none →
    ∀ q load', s.loadingPages.get? q = some load' → load'.frameId = load.frameId → q = p
  load_saw : ∀ p load oldFrame, s.loadingPages.get? p = some load →
    load.oldFrame = some oldFrame → (oldFrame = none ↔ s.pageAt load.frameId = none)

theorem inv_new (totalFrames k : ℕ) : Inv (new totalFrames k : BufferPool δ) := by
  constructor <;> simp [new, pageAt, Occupied, List.nodup_range]

variable {s : BufferPool δ}

theorem Inv.sound (h : s.Inv) : PoolSound s where
  resident p f hp := by
    have hpage := (h.table_iff p f).mp hp
    rw [pageAt, map_eq_some_iff] at hpage
    exact hpage
  injective p q f hp hq := by
    have hpage := (h.table_iff p f).mp hp
    rw [(h.table_iff q f).mp hq] at hpage
    exact (Option.some.inj hpage).symm
  free_iff f hf := (h.free_iff f).trans (and_iff_right hf)
  evicted_unused := h.evicted_unused

/-! ## Steps that keep the pages where they are -/

variable {s s' : BufferPool δ}

theorem Inv.congr (h : s.Inv) (hpage : ∀ f, s'.pageAt f = s.pageAt f)
    (htotal : s'.totalFrames = s.totalFrames) (htable : s'.pageTable = s.pageTable)
    (hfree : s'.freeFrameIds = s.freeFrameIds) (hload : s'.loadingPages = s.loadingPages)
    (hevicted : s'.evicted = s.evicted) : s'.Inv := by
  obtain ⟨h₁, h₂, h₃, h₄, h₅, h₆, h₇, h₈⟩ := h
  constructor <;> simpa only [hpage, htotal, htable, hfree, hload, hevicted, Occupied]

theorem Inv.touch (h : s.Inv) (frameId : ℕ) {f : PageFrame δ → PageFrame δ}
    (hf : ∀ frame, (f frame).pageId = frame.pageId) : (s.touch frameId f).Inv := by
  refine h.congr (fun i => ?_) rfl rfl rfl rfl rfl
  by_cases hi : i = frameId
  · subst hi
    simp [pageAt, BufferPool.touch, map_map, Function.comp_def, hf]
  · simp [pageAt, BufferPool.touch, Function.update_of_ne hi]

theorem Inv.touchRef (h : s.Inv) (ref : ℕ) {f : PageFrame δ → PageFrame δ}
    (hf : ∀ frame, (f frame).pageId = frame.pageId) : (s.touchRef ref f).Inv := by
  refine h.congr (fun i => ?_) rfl rfl rfl rfl rfl
  show ((s.frames i).map _).map _ = (s.frames i).map _
  rw [map_map]
  congr 1
  funext frame
  show (if frame.ref = ref then f frame else frame).pageId = frame.pageId
  split_ifs
  · exact hf frame
  · rfl

/-- Bookkeeping that no part of the invariant reads. -/
theorem Inv.of_eq (h : s.Inv) (hframes : s'.frames = s.frames)
    (htotal : s'.totalFrames = s.totalFrames) (htable : s'.pageTable = s.pageTable)
    (hfree : s'.freeFrameIds = s.freeFrameIds) (hload : s'.loadingPages = s.loadingPages)
    (hevicted : s'.evicted = s.evicted) : s'.Inv :=
  h.congr (fun f => by rw [pageAt, hframes, pageAt]) htotal htable hfree hload hevicted

theorem pageId_pin (frame : PageFrame δ) (k now : ℕ) : (frame.pin k now).pageId = frame.pageId :=
  rfl

theorem Inv.unpinPage (h : s.Inv) (pageId : Text) (isDirty : Bool) :
    (s.unpinPage pageId isDirty).Inv := by
  unfold BufferPool.unpinPage
  split
  · exact h
  · exact h.touch _ fun _ => rfl

theorem Inv.flushPage (h : s.Inv) (pageId : Text) (hasWriter : Bool) :
    (s.flushPage pageId hasWriter).Inv := by
  unfold BufferPool.flushPage
  split
  · exact h
  · split
    · exact h
    · split_ifs
      · exact h.of_eq rfl rfl rfl rfl rfl rfl
      · exact h.touch _ fun _ => rfl
      · exact h

theorem Inv.flushed (h : s.Inv) (ref : ℕ) : (s.flushed ref).Inv := by
  unfold BufferPool.flushed
  split_ifs
  · refine Inv.touchRef ?_ ref fun _ => rfl
    exact h.of_eq rfl rfl rfl rfl rfl rfl
  · exact h

theorem Inv.joined (h : s.Inv) (ref now : ℕ) : (s.joined ref now).Inv := by
  unfold BufferPool.joined
  split_ifs
  · refine Inv.touchRef ?_ ref fun frame => pageId_pin frame _ now
    exact h.of_eq rfl rfl rfl rfl rfl rfl
  · exact h

/-! ## Taking a frame -/

/-- There is a page in the frame of a victim. -/
theorem selectFrom_spec (s : BufferPool δ) (now : ℕ) (frameIds : List ℕ) {victim : ℕ}
    (h : (s.selectFrom now frameIds).2 = some victim) :
    victim ∈ frameIds ∧ s.pageAt victim ≠ none := by
  revert h
  unfold selectFrom
  apply List.foldlRecOn (motive := fun best : Option ℤ × Option ℕ =>
    best.2 = some victim → victim ∈ frameIds ∧ s.pageAt victim ≠ none) frameIds
  · intro h
    cases h
  · rintro ⟨distance, best⟩ ih i hi h
    dsimp only at h ih
    split at h
    · exact ih h
    · next frame hframe =>
      split_ifs at h
      · exact ih h
      · obtain rfl := Option.some.inj h
        exact ⟨hi, by simp [pageAt, hframe]⟩
      · exact ih h

/-- What `allocateFrame` returns: a frame that was free, or one with a page in it. -/
inductive Allocated (s : BufferPool δ) : ℕ → BufferPool δ → Prop
  | free (frameId : ℕ) (rest : List ℕ) (h : s.freeFrameIds = frameId :: rest) :
      Allocated s frameId { s with freeFrameIds := rest }
  | victim (frameId : ℕ) (hlt : frameId < s.totalFrames) (h : s.pageAt frameId ≠ none) :
      Allocated s frameId s

theorem allocated_of_allocateFrame {now frameId : ℕ} (h : s.allocateFrame now = .ok (frameId, s')) :
    s.Allocated frameId s' := by
  unfold allocateFrame at h
  split at h
  · next rest hfree =>
    obtain ⟨rfl, rfl⟩ := Prod.mk.inj (Except.ok.inj h)
    exact .free _ rest hfree
  · split at h
    · next victim hvictim =>
      obtain ⟨rfl, rfl⟩ := Prod.mk.inj (Except.ok.inj h)
      obtain ⟨hmem, hpage⟩ := s.selectFrom_spec now _ hvictim
      exact .victim _ (List.mem_range.mp hmem) hpage
    · cases h

variable {p : Text}

/-- A load is entered, or changed without a change of its frame. -/
theorem Inv.setLoad (h : s.Inv) {load : Load} {free : List ℕ} (hp : s.pageTable.get? p = none)
    (hlt : load.frameId < s.totalFrames)
    (hfree : ∀ f, f ∈ free ↔ f ∈ s.freeFrameIds ∧ f ≠ load.frameId) (hnodup : free.Nodup)
    (hsame : ∀ load', s.loadingPages.get? p = some load' → load'.frameId = load.frameId)
    (halone : s.pageAt load.frameId = none → ∀ q load', s.loadingPages.get? q = some load' →
      load'.frameId = load.frameId → q = p)
    (hsaw : ∀ oldFrame, load.oldFrame = some oldFrame →
      (oldFrame = none ↔ s.pageAt load.frameId = none)) :
    { s with freeFrameIds := free, loadingPages := s.loadingPages.set p load }.Inv := by
  have hget : ∀ {q load'}, (s.loadingPages.set p load).get? q = some load' →
      (q = p ∧ load' = load) ∨ (q ≠ p ∧ s.loadingPages.get? q = some load') := by
    intro q load' hq
    rw [get?_set] at hq
    split_ifs at hq with heq
    · exact .inl ⟨heq, (Option.some.inj hq).symm⟩
    · exact .inr ⟨heq, hq⟩
  have hoccupied : ∀ f, ({ s with
      freeFrameIds := free, loadingPages := s.loadingPages.set p load } : BufferPool δ).Occupied f ↔
        s.Occupied f ∨ f = load.frameId := by
    intro f
    constructor
    · rintro (hpage | ⟨q, load', hq, rfl⟩)
      · exact .inl (.inl hpage)
      · rcases hget hq with ⟨-, rfl⟩ | ⟨-, hq⟩
        · exact .inr rfl
        · exact .inl (.inr ⟨q, load', hq, rfl⟩)
    · rintro ((hpage | ⟨q, load', hq, rfl⟩) | rfl)
      · exact .inl hpage
      · by_cases heq : q = p
        · subst heq
          exact .inr ⟨q, load, get?_set_self _ _ _, (hsame load' hq).symm⟩
        · exact .inr ⟨q, load', by rw [get?_set_of_ne _ _ heq]; exact hq, rfl⟩
      · exact .inr ⟨p, load, get?_set_self _ _ _, rfl⟩
  exact
    { table_iff := h.table_iff
      free_iff := by
        intro f
        rw [hoccupied, hfree, h.free_iff]
        tauto
      free_nodup := hnodup
      evicted_unused := h.evicted_unused
      load_absent := by
        intro q load' hq
        rcases hget hq with ⟨rfl, -⟩ | ⟨-, hq⟩
        · exact hp
        · exact h.load_absent q load' hq
      load_lt := by
        intro q load' hq
        rcases hget hq with ⟨-, rfl⟩ | ⟨-, hq⟩
        · exact hlt
        · exact h.load_lt q load' hq
      load_alone := by
        intro q load' hq hpage q' load'' hq' heq
        rcases hget hq with ⟨rfl, rfl⟩ | ⟨hne, hold⟩
        · rcases hget hq' with ⟨rfl, -⟩ | ⟨-, hold'⟩
          · rfl
          · exact halone hpage q' load'' hold' heq
        · rcases hget hq' with ⟨rfl, rfl⟩ | ⟨-, hold'⟩
          · exact absurd (halone (heq ▸ hpage) q load' hold heq.symm) hne
          · exact h.load_alone q load' hold hpage q' load'' hold' heq
      load_saw := by
        intro q load' oldFrame hq hold
        rcases hget hq with ⟨-, rfl⟩ | ⟨-, hq⟩
        · exact hsaw oldFrame hold
        · exact h.load_saw q load' oldFrame hq hold }

/-- A load of a page that is neither resident nor being loaded gets its frame. -/
theorem Inv.startLoad (h : s.Inv) {frameId : ℕ} (halloc : s.Allocated frameId s')
    (hp : s.pageTable.get? p = none) (hload : s.loadingPages.get? p = none) (now : ℕ) :
    { s' with loadingPages := s'.loadingPages.set p ⟨frameId, none, now⟩ }.Inv := by
  have hsame : ∀ load', s.loadingPages.get? p = some load' → load'.frameId = frameId := by
    intro load' hget
    rw [hload] at hget
    cases hget
  cases halloc with
  | free rest hfree =>
    obtain ⟨hlt, hvacant⟩ := (h.free_iff frameId).mp (by rw [hfree]; exact List.mem_cons_self)
    have hnodup := h.free_nodup
    rw [hfree, List.nodup_cons] at hnodup
    refine h.setLoad hp hlt (fun f => ?_) hnodup.2 hsame (fun _ q load' hq heq => ?_)
      fun oldFrame hold => by cases hold
    · rw [hfree, List.mem_cons]
      constructor
      · intro hf
        refine ⟨.inr hf, fun heq => hnodup.1 ?_⟩
        rw [show f = frameId from heq] at hf
        exact hf
      · rintro ⟨heq | hf, hne⟩
        · exact absurd heq hne
        · exact hf
    · exact absurd (.inr ⟨q, load', hq, heq⟩) hvacant
  | victim hlt hpage =>
    refine h.setLoad hp hlt (fun f => ?_) h.free_nodup hsame
      (fun hnone => absurd hnone hpage) fun oldFrame hold => by cases hold
    constructor
    · intro hf
      refine ⟨hf, fun heq => ?_⟩
      exact ((h.free_iff f).mp hf).2 (.inl (heq ▸ hpage))
    · exact fun hf => hf.1

theorem Inv.fetchPage (h : s.Inv) (p : Text) (now : ℕ) : (s.fetchPage p now).2.Inv := by
  unfold BufferPool.fetchPage
  dsimp only
  split_ifs
  · exact h.of_eq rfl rfl rfl rfl rfl rfl
  · split
    · refine Inv.touch ?_ _ fun frame => pageId_pin frame _ now
      exact h.of_eq rfl rfl rfl rfl rfl rfl
    · next hp =>
      split
      · exact h.of_eq rfl rfl rfl rfl rfl rfl
      · next hload =>
        have hcounted : { s with
            totalReadsCount := s.totalReadsCount + 1
            cacheMissesCount := s.cacheMissesCount + 1 }.Inv :=
          h.of_eq rfl rfl rfl rfl rfl rfl
        split
        · next frameId s' halloc =>
          exact hcounted.startLoad (allocated_of_allocateFrame halloc) hp hload now
        · exact hcounted

theorem Inv.allocated (h : s.Inv) (p : Text) : (s.allocated p).Inv := by
  unfold BufferPool.allocated
  split
  · next frameId now hload =>
    have hlt : frameId < s.totalFrames := h.load_lt p _ hload
    refine h.setLoad (h.load_absent p _ hload) hlt (fun f => ?_) h.free_nodup
      (fun load' hget => ?_) (fun hpage => h.load_alone p ⟨frameId, none, now⟩ hload hpage)
      fun oldFrame hold => ?_
    · constructor
      · intro hf
        refine ⟨hf, fun heq => ?_⟩
        exact ((h.free_iff f).mp hf).2 (.inr ⟨p, _, hload, heq.symm⟩)
      · exact fun hf => hf.1
    · rw [hload] at hget
      rw [← Option.some.inj hget]
    · rw [← Option.some.inj hold]
      exact Iff.rfl
  · exact h

/-! ## The end of a load -/

theorem get?_delete_load {p q : Text} {load : Load}
    (hq : (s.loadingPages.delete p).get? q = some load) :
    q ≠ p ∧ s.loadingPages.get? q = some load := by
  rw [get?_delete] at hq
  split_ifs at hq with heq
  exact ⟨heq, hq⟩

/-- The end of a load leaves the other frames as occupied as they were. -/
theorem occupied_iff_of_delete {load : Load} {f : ℕ} (hload : s.loadingPages.get? p = some load)
    (hdelete : s'.loadingPages = s.loadingPages.delete p) (hpage : s'.pageAt f = s.pageAt f)
    (hf : f ≠ load.frameId) : s'.Occupied f ↔ s.Occupied f := by
  unfold Occupied
  rw [hpage, hdelete]
  refine or_congr_right ⟨?_, ?_⟩
  · rintro ⟨q, load', hq, heq⟩
    exact ⟨q, load', (get?_delete_load hq).2, heq⟩
  · rintro ⟨q, load', hq, rfl⟩
    refine ⟨q, load', ?_, rfl⟩
    rw [get?_delete_of_ne _ fun heq => ?_]
    · exact hq
    · rw [heq, hload] at hq
      exact hf (congrArg Load.frameId (Option.some.inj hq)).symm

theorem Inv.loadFailed (h : s.Inv) (p : Text) : (s.loadFailed p).Inv := by
  unfold BufferPool.loadFailed
  split
  · next frameId oldFrame now hload =>
    have hlt : frameId < s.totalFrames := h.load_lt p _ hload
    have hsaw := h.load_saw p ⟨frameId, some oldFrame, now⟩ oldFrame hload rfl
    have halone := h.load_alone p ⟨frameId, some oldFrame, now⟩ hload
    have hoccupied : s.Occupied frameId := Or.inr ⟨p, _, hload, rfl⟩
    refine
      { table_iff := h.table_iff
        free_iff := fun f => ?_
        free_nodup := ?_
        evicted_unused := h.evicted_unused
        load_absent := fun q load hq => h.load_absent q load (get?_delete_load hq).2
        load_lt := fun q load hq => h.load_lt q load (get?_delete_load hq).2
        load_alone := fun q load hq hpage q' load' hq' =>
          h.load_alone q load (get?_delete_load hq).2 hpage q' load' (get?_delete_load hq').2
        load_saw := fun q load oldFrame hq =>
          h.load_saw q load oldFrame (get?_delete_load hq).2 }
    · by_cases hf : f = frameId
      · subst hf
        cases oldFrame with
        | none =>
          -- the frame was reserved for this load alone
          have hnone : s.pageAt f = none := hsaw.mp rfl
          refine iff_of_true List.mem_cons_self ⟨hlt, ?_⟩
          rintro (hpage | ⟨q, load, hq, heq⟩)
          · exact hpage hnone
          · obtain ⟨hne, hq⟩ := get?_delete_load hq
            exact hne (halone hnone q load hq heq)
        | some oldPageId =>
          have hpage : s.pageAt f ≠ none := fun hnone => by
            have := hsaw.mpr hnone
            cases this
          refine iff_of_false (fun hmem => ?_) fun hfree => hfree.2 (.inl hpage)
          exact ((h.free_iff f).mp hmem).2 hoccupied
      · refine ((?_ : _ ↔ f ∈ s.freeFrameIds).trans (h.free_iff f)).trans
          (and_congr_right' (not_congr (Iff.symm ?_)))
        · show f ∈ (if oldFrame.isNone then frameId :: s.freeFrameIds else s.freeFrameIds) ↔ _
          split_ifs
          · rw [List.mem_cons, or_iff_right hf]
          · exact Iff.rfl
        · exact occupied_iff_of_delete hload rfl rfl hf
    · show (if oldFrame.isNone then frameId :: s.freeFrameIds else s.freeFrameIds).Nodup
      split_ifs
      · refine List.nodup_cons.mpr ⟨fun hmem => ?_, h.free_nodup⟩
        exact ((h.free_iff frameId).mp hmem).2 hoccupied
      · exact h.free_nodup
  · exact h

/-- The pool after a load that delivers, up to bookkeeping. -/
def replaced (s : BufferPool δ) (p : Text) (frameId : ℕ) (oldFrame : Option Text)
    (newFrame : PageFrame δ) : BufferPool δ :=
  { s with
    frames := Function.update s.frames frameId (some newFrame)
    pageTable := (match oldFrame with
      | some oldPageId => s.pageTable.delete oldPageId
      | none => s.pageTable).set p frameId
    loadingPages := s.loadingPages.delete p
    evicted := (s.frames frameId).toList ++ s.evicted }

section

variable {s : BufferPool δ} {p : Text} {frameId : ℕ} {oldFrame : Option Text}
  {newFrame : PageFrame δ}

theorem pageAt_replaced (hnew : newFrame.pageId = p) (f : ℕ) :
    (s.replaced p frameId oldFrame newFrame).pageAt f
      = if f = frameId then some p else s.pageAt f := by
  by_cases hf : f = frameId
  · subst hf
    simp [replaced, pageAt, hnew]
  · simp [replaced, pageAt, hf]

theorem table_replaced (q : Text) :
    (s.replaced p frameId oldFrame newFrame).pageTable.get? q
      = if q = p then some frameId else if oldFrame = some q then none
        else s.pageTable.get? q := by
  show ((match oldFrame with
    | some oldPageId => s.pageTable.delete oldPageId
    | none => s.pageTable).set p frameId).get? q = _
  rw [get?_set]
  by_cases hq : q = p
  · rw [if_pos hq, if_pos hq]
  · rw [if_neg hq, if_neg hq]
    cases oldFrame with
    | none => rfl
    | some oldPageId =>
      simp only [get?_delete, Option.some.injEq, eq_comm (a := q)]

/-- A load that finds its frame untouched replaces the page in it. -/
theorem Inv.replaced (h : s.Inv) {now : ℕ} (hnew : newFrame.pageId = p)
    (hload : s.loadingPages.get? p = some ⟨frameId, some oldFrame, now⟩)
    (hpage : s.pageAt frameId = oldFrame)
    (hunused : ∀ frame, s.frames frameId = some frame →
      frame.pinCount = 0 ∧ frame.isDirty = false) :
    (s.replaced p frameId oldFrame newFrame).Inv := by
  have hp : s.pageTable.get? p = none := h.load_absent p _ hload
  have halone := h.load_alone p ⟨frameId, some oldFrame, now⟩ hload
  refine
    { table_iff := fun q f => ?_
      free_iff := fun f => ?_
      free_nodup := h.free_nodup
      evicted_unused := fun frame hframe => ?_
      load_absent := fun q load hq => ?_
      load_lt := fun q load hq => h.load_lt q load (get?_delete_load hq).2
      load_alone := fun q load hq hvacant q' load' hq' heq => ?_
      load_saw := fun q load old hq hold => ?_ }
  · rw [table_replaced, pageAt_replaced hnew]
    by_cases hq : q = p
    · rw [if_pos hq]
      subst hq
      by_cases hf : f = frameId
      · rw [if_pos hf, hf]
        exact iff_of_true rfl rfl
      · rw [if_neg hf]
        refine iff_of_false (fun heq => hf (Option.some.inj heq).symm) fun heq => ?_
        rw [(h.table_iff q f).mpr heq] at hp
        cases hp
    · rw [if_neg hq]
      by_cases hf : f = frameId
      · rw [if_pos hf]
        refine iff_of_false (fun heq => ?_) fun heq => hq (Option.some.inj heq).symm
        split_ifs at heq with hold
        rw [h.table_iff q f, hf, hpage] at heq
        exact hold heq
      · rw [if_neg hf]
        split_ifs with hold
        · -- the old page stood in this frame and nowhere else
          refine iff_of_false (fun heq => by cases heq) fun heq => hf ?_
          rw [← hpage, ← h.table_iff] at hold
          rw [← h.table_iff, hold] at heq
          exact (Option.some.inj heq).symm
        · exact h.table_iff q f
  · have hoccupied : (s.replaced p frameId oldFrame newFrame).Occupied f ↔ s.Occupied f := by
      by_cases hf : f = frameId
      · refine iff_of_true (.inl ?_) (.inr ⟨p, _, hload, hf.symm⟩)
        rw [pageAt_replaced hnew, if_pos hf]
        exact some_ne_none p
      · exact occupied_iff_of_delete hload rfl ((pageAt_replaced hnew f).trans (if_neg hf)) hf
    rw [hoccupied]
    exact h.free_iff f
  · rcases List.mem_append.mp hframe with hframe | hframe
    · exact hunused frame (mem_toList.mp hframe)
    · exact h.evicted_unused frame hframe
  · obtain ⟨hne, hq⟩ := get?_delete_load hq
    rw [table_replaced, if_neg hne]
    split_ifs
    · rfl
    · exact h.load_absent q load hq
  · rw [pageAt_replaced hnew] at hvacant
    split_ifs at hvacant
    exact h.load_alone q load (get?_delete_load hq).2 hvacant q' load' (get?_delete_load hq').2 heq
  · obtain ⟨hne, hq⟩ := get?_delete_load hq
    rw [pageAt_replaced hnew]
    by_cases hf : load.frameId = frameId
    · -- two loads of one frame: it was a victim
      rw [if_pos hf]
      refine iff_of_false (fun hnone => ?_) (some_ne_none p)
      have hvacant := (h.load_saw q load old hq hold).mp hnone
      rw [hf] at hvacant
      exact hne (halone hvacant q load hq hf)
    · rw [if_neg hf]
      exact h.load_saw q load old hq hold

end

theorem loaded_of_load {frameId now : ℕ} {oldFrame : Option Text}
    (hload : s.loadingPages.get? p = some ⟨frameId, some oldFrame, now⟩) (data : δ) :
    (s.loaded p data).frames = (s.replaced p frameId oldFrame
        ⟨s.nextRef, p, frameId, data, false, 1, [now]⟩).frames ∧
      (s.loaded p data).pageTable = (s.replaced p frameId oldFrame
        ⟨s.nextRef, p, frameId, data, false, 1, [now]⟩).pageTable ∧
      (s.loaded p data).evicted = (s.frames frameId).toList ++ s.evicted ∧
      ((s.replaced p frameId oldFrame ⟨s.nextRef, p, frameId, data, false, 1, [now]⟩).Inv →
        (s.loaded p data).Inv) := by
  simp only [loaded, hload]
  exact ⟨rfl, rfl, rfl, fun h => h.of_eq rfl rfl rfl rfl rfl rfl⟩

theorem Inv.loaded (h : s.Inv) {data : δ} (huntouched : VictimUntouched s (.loaded p data)) :
    (s.loaded p data).Inv := by
  cases hload : s.loadingPages.get? p with
  | none =>
    simp only [BufferPool.loaded, hload]
    exact h
  | some load =>
    obtain ⟨frameId, oldFrame, now⟩ := load
    cases oldFrame with
    | none =>
      simp only [BufferPool.loaded, hload]
      exact h
    | some oldFrame =>
      apply (loaded_of_load hload data).2.2.2
      have hsaw := h.load_saw p ⟨frameId, some oldFrame, now⟩ oldFrame hload rfl
      cases oldFrame with
      | none =>
        have hnone : s.pageAt frameId = none := hsaw.mp rfl
        refine h.replaced rfl hload hnone fun frame hframe => ?_
        rw [pageAt, hframe] at hnone
        cases hnone
      | some oldPageId =>
        obtain ⟨frame, hframe, hpage, hunused⟩ :=
          huntouched p data frameId oldPageId now rfl hload
        refine h.replaced rfl hload (by rw [pageAt, hframe, ← hpage]; rfl) fun frame' hf => ?_
        rw [hframe] at hf
        rw [← Option.some.inj hf]
        exact hunused

/-- A load that does not find its victim untouched evicts a page in use, or leaves one in the
page table whose frame it has taken. -/
theorem Inv.not_sound_of_touched (h : s.Inv) {e : PoolEvent δ} (htouched : ¬ VictimUntouched s e) :
    ¬ PoolSound (s.step e) := by
  intro hsound
  apply htouched
  rintro p data frameId oldPageId now rfl hload
  obtain ⟨hframes, htable, hevicted, -⟩ := loaded_of_load hload data
  have hsaw := h.load_saw p ⟨frameId, some (some oldPageId), now⟩ (some oldPageId) hload rfl
  have hpage : s.pageAt frameId ≠ none := fun hnone => by
    have := hsaw.mpr hnone
    cases this
  obtain ⟨frame, hframe⟩ : ∃ frame, s.frames frameId = some frame := by
    rw [← ne_none_iff_exists']
    intro hnone
    exact hpage (by rw [pageAt, hnone]; rfl)
  obtain ⟨hpin, hclean⟩ := hsound.evicted_unused frame (by
    show frame ∈ (s.loaded p data).evicted
    rw [hevicted, hframe]
    exact List.mem_cons_self)
  refine ⟨frame, hframe, ?_, hpin, hclean⟩
  by_contra hne
  have hresident : s.pageTable.get? frame.pageId = some frameId :=
    (h.table_iff _ _).mpr (by rw [pageAt, hframe]; rfl)
  have hother : frame.pageId ≠ p := by
    intro heq
    have habsent := h.load_absent p _ hload
    rw [← heq, hresident] at habsent
    cases habsent
  -- the page is still listed for a frame that holds the new page
  obtain ⟨frame', hframe', hpage'⟩ := hsound.resident frame.pageId frameId (by
    show (s.loaded p data).pageTable.get? frame.pageId = some frameId
    rw [htable, table_replaced, if_neg hother, if_neg fun heq => hne (Option.some.inj heq).symm]
    exact hresident)
  have hnew : (s.loaded p data).frames frameId = some frame' := hframe'
  rw [hframes, BufferPool.replaced] at hnew
  simp only [Function.update_self, Option.some.injEq] at hnew
  rw [← hnew] at hpage'
  exact hother hpage'.symm

theorem Inv.step (h : s.Inv) {e : PoolEvent δ} (huntouched : VictimUntouched s e) :
    (s.step e).Inv := by
  cases e with
  | fetchPage p now => exact h.fetchPage p now
  | allocated p => exact h.allocated p
  | loaded p data => exact h.loaded huntouched
  | loadFailed p => exact h.loadFailed p
  | joined ref now => exact h.joined ref now
  | unpinPage p isDirty => exact h.unpinPage p isDirty
  | flushPage p hasWriter => exact h.flushPage p hasWriter
  | flushed ref => exact h.flushed ref
  | flushFailed ref => exact h.of_eq rfl rfl rfl rfl rfl rfl

end BufferPool

/-- **Consistency of the pool.**  In every interleaving from a new pool, all states are
consistent exactly if every load that ends finds its victim untouched. -/
theorem pool_sound_iff (totalFrames k : ℕ) (events : List (PoolEvent δ)) :
    Always BufferPool.step PoolSound (BufferPool.new totalFrames k) events ↔
      Guarded BufferPool.step VictimUntouched (BufferPool.new totalFrames k) events := by
  have htrivial : Guarded BufferPool.step (fun _ _ => True)
      (BufferPool.new totalFrames k : BufferPool δ) events :=
    guarded_of_forall_mem fun _ _ _ => trivial
  have hsafe : ∀ s : BufferPool δ, s.Inv → PoolSound s := fun s h => h.sound
  have hkeep : ∀ (s : BufferPool δ) (e : PoolEvent δ),
      s.Inv → True → VictimUntouched s e → (s.step e).Inv :=
    fun s e h _ huntouched => h.step huntouched
  have hbreak : ∀ (s : BufferPool δ) (e : PoolEvent δ),
      s.Inv → True → ¬ VictimUntouched s e → ¬ PoolSound (s.step e) :=
    fun s e h _ htouched => h.not_sound_of_touched htouched
  exact always_iff_guarded_of_invariant hsafe hkeep hbreak (BufferPool.inv_new totalFrames k)
    htrivial

/-- One frame, and two pages that share it: `a` is fetched again while `b` is being loaded
into its frame. -/
def evictionOfPinned : List (PoolEvent ℕ) :=
  [.fetchPage (text "a") 1, .allocated (text "a"), .loaded (text "a") 10,
    .unpinPage (text "a") false,
    .fetchPage (text "b") 2, .allocated (text "b"),
    .fetchPage (text "a") 3,
    .loaded (text "b") 20]

/-- The page that was fetched meanwhile is evicted with its holder still on it. -/
theorem pinned_page_is_evicted :
    ¬ Always BufferPool.step PoolSound (BufferPool.new 1 2) evictionOfPinned := by
  intro h
  have hlast := always_iff_forall_split.mp h evictionOfPinned [] (List.append_nil _).symm
  have hevicted := hlast.evicted_unused
  revert hevicted
  decide

end Lumi.Pool
