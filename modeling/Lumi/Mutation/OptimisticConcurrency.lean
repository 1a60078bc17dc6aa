import Lumi.Lib.Run
import Lumi.Mutation.NativeMutationManager

/-!
# Optimistic concurrency of governed patches

A patch is let through while the revision is the expected one, writes its file several steps
later, and raises the revision several steps after that.  The revision counts the patches, and no
two of them write for one expected revision, exactly where no step comes too late: a file is
written while the revision is still the expected one and every earlier writer has recorded its
patch, and a state is written over the revision that it was read at.
-/

namespace Lumi.Mutation

open Js List

/-! ## What a call has done -/

namespace PatchStage

/-- The patch has been let through. -/
def validated : PatchStage → Bool
  | hashingAnchors _ _ | readingFile | writingFile _ | readingRevision _ | readingRecord _ _
  | writingRecord _ _ | patched _ _ => true
  | _ => false

/-- The patch has written its file. -/
def hasWritten : PatchStage → Bool
  | readingRevision _ | readingRecord _ _ | writingRecord _ _ | patched _ _ => true
  | _ => false

/-- The patch has written its file and raised the revision: it is at its end. -/
def hasRecorded : PatchStage → Bool
  | patched _ _ => true
  | _ => false

end PatchStage

namespace Thread

def call? : Thread → Option PatchCall
  | patch call _ => some call
  | _ => none

def validated : Thread → Bool
  | patch _ stage => stage.validated
  | _ => false

def hasWritten : Thread → Bool
  | patch _ stage => stage.hasWritten
  | _ => false

def hasRecorded : Thread → Bool
  | patch _ stage => stage.hasRecorded
  | _ => false

/-- The state that the call has read and will write. -/
def pendingState : Thread → Option MutationState
  | patch _ (.writingRecord state _) => some state
  | issueGit _ _ state _ | issueHashing _ _ state | writing state => some state
  | _ => none

/-- The patch has written its file, and was let through at this revision. -/
def WroteFor (t : Thread) (revision : ℕ) : Prop :=
  t.hasWritten = true ∧ (t.call?.bind (·.expectedWorkspaceRevision)) = some revision

end Thread

namespace System

variable (h : MutationHost)

/-- No two patches have written their files for one expected revision, and since the start the
revision has been raised once by every patch that has written its file and is at its end, and by
nothing else. -/
structure Coherent (initial : ℕ) (s : System) : Prop where
  atMostOne : ∀ (i j : ℕ) (t t' : Thread) (revision : ℕ), s.calls[i]? = some t →
    s.calls[j]? = some t' → t.WroteFor revision → t'.WroteFor revision → i = j
  counted : s.revision h = initial + s.calls.countP Thread.hasRecorded

/-- Patches have tasks, and only the calls write the file of the state. -/
def Assumed (_ : System) : Action → Prop
  | .start (.applyPatch call) => call.taskId ≠ []
  | .edit file _ => file ≠ h.stateFile
  | _ => True

/-- The revision that a text is read as, where it becomes the file of the state. -/
def revisionOf (content : Text) : ℕ :=
  (h.readMutationState fun _ => some (.text content)).workspaceRevision

/-- The call does not come too late. -/
def InTime (s : System) : Thread → Prop
  | .patch call (.writingFile postContent) =>
    call.expectedWorkspaceRevision = some (s.revision h) ∧
      (∀ t ∈ s.calls, t.hasWritten = true → t.hasRecorded = true) ∧
      (h.fileAt call.filePath = h.stateFile → revisionOf h postContent = s.revision h)
  | .patch _ (.writingRecord state _) => state.workspaceRevision = s.revision h + 1
  | .writing state => state.workspaceRevision = s.revision h
  | _ => True

def Guard (s : System) : Action → Prop
  | .resume i _ => ∀ t, s.calls[i]? = some t → InTime h s t
  | _ => True

end System

/-! ## The revision on the disk -/

section

variable {h : MutationHost} {files : Files}

theorem readMutationState_pos : 1 ≤ (h.readMutationState files).workspaceRevision := by
  unfold MutationHost.readMutationState
  split
  · split_ifs with hzero
    · exact Nat.le_refl 1
    · exact Nat.one_le_iff_ne_zero.mpr hzero
  · exact Nat.le_refl 1

theorem readMutationState_congr {files' : Files} (heq : files' h.stateFile = files h.stateFile) :
    h.readMutationState files' = h.readMutationState files := by
  rw [MutationHost.readMutationState, heq]
  rfl

theorem readMutationState_write_of_ne {file : Text} (hne : file ≠ h.stateFile) (content : Content) :
    h.readMutationState (files.write file content) = h.readMutationState files :=
  readMutationState_congr (Function.update_of_ne (Ne.symm hne) _ _)

/-- A state with a revision is read as it was written. -/
theorem readMutationState_write_state {state : MutationState} (hpos : 1 ≤ state.workspaceRevision) :
    h.readMutationState (files.write h.stateFile (.state state)) = state := by
  rw [MutationHost.readMutationState, Files.write, Function.update_self]
  exact if_neg (by omega)

theorem readMutationState_write_text (content : Text) :
    (h.readMutationState (files.write h.stateFile (.text content))).workspaceRevision =
      System.revisionOf h content := by
  rw [MutationHost.readMutationState, Files.write, Function.update_self]
  rfl

end

/-! ## What a step of a call does -/

section

variable (state : MutationState)

@[simp] theorem workspaceRevision_setAnchor (tokenId relPath hash : Text) :
    (state.setAnchor tokenId relPath hash).workspaceRevision = state.workspaceRevision := by
  unfold MutationState.setAnchor
  split <;> rfl

@[simp] theorem workspaceRevision_issue (taskId : Text) (now : ℤ) :
    (state.issue taskId now).2.workspaceRevision = state.workspaceRevision := by
  unfold MutationState.issue
  dsimp only
  split <;> rfl

@[simp] theorem workspaceRevision_anchor (tokenId relPath hash : Text) :
    (state.anchor tokenId relPath hash).workspaceRevision = state.workspaceRevision := by
  unfold MutationState.anchor
  split
  · rfl
  · exact workspaceRevision_setAnchor state tokenId relPath hash

end

/-- A step that writes nothing of the protocol: what the call has written and recorded stays, it is
let through only at the revision that is read, and a state that it will write was read now or
before. -/
structure Quiet (revision : ℕ) (t t' : Thread) : Prop where
  call? : t'.call? = t.call?
  hasWritten : t'.hasWritten = t.hasWritten
  hasRecorded : t'.hasRecorded = t.hasRecorded
  validated : t'.validated = true → t.validated = true ∨
    ∃ call, t.call? = some call ∧
      (call.taskId = [] ∨ call.expectedWorkspaceRevision = some revision)
  pending : ∀ state', t'.pendingState = some state' → revision ≤ state'.workspaceRevision ∨
    ∃ state, t.pendingState = some state ∧ state'.workspaceRevision = state.workspaceRevision

theorem Quiet.refl (revision : ℕ) (t : Thread) : Quiet revision t t where
  call? := rfl
  hasWritten := rfl
  hasRecorded := rfl
  validated := Or.inl
  pending := fun state' hstate => .inr ⟨state', hstate, rfl⟩

/-- Stages before the patch has written anything. -/
structure Unwritten (stage : PatchStage) : Prop where
  hasWritten : stage.hasWritten = false
  hasRecorded : stage.hasRecorded = false
  pending : ∀ call : PatchCall, (Thread.patch call stage).pendingState = none

theorem unwritten_hashAnchors (anchors : List (Text × Text)) (changedPaths : List Text) :
    Unwritten (hashAnchors anchors changedPaths) := by
  unfold hashAnchors
  split_ifs <;> exact ⟨rfl, rfl, fun _ => rfl⟩

/-- The checks let a patch through only at the revision that it expects. -/
theorem validateCoherence_spec (call : PatchCall) (state : MutationState) (now : ℤ) :
    Unwritten (call.validateCoherence state now) ∧
      ((call.validateCoherence state now).validated = true →
        call.expectedWorkspaceRevision = some state.workspaceRevision) := by
  unfold PatchCall.validateCoherence
  split
  · next id expected _ hexpected =>
    split
    · exact ⟨⟨rfl, rfl, fun _ => rfl⟩, fun hno => by cases hno⟩
    · split_ifs with hexpired htask hrevision hverify
      · exact ⟨⟨rfl, rfl, fun _ => rfl⟩, fun hno => by cases hno⟩
      · exact ⟨⟨rfl, rfl, fun _ => rfl⟩, fun hno => by cases hno⟩
      · exact ⟨⟨rfl, rfl, fun _ => rfl⟩, fun hno => by cases hno⟩
      · exact ⟨⟨rfl, rfl, fun _ => rfl⟩, fun hno => by cases hno⟩
      · refine ⟨unwritten_hashAnchors _ _, fun _ => ?_⟩
        rw [hexpected, not_not.mp hrevision]
  · exact ⟨⟨rfl, rfl, fun _ => rfl⟩, fun hno => by cases hno⟩

section

variable {h : MutationHost} {files : Files} {o : Observation}

/-- A patch that has not written goes on to a stage before it writes. -/
theorem quiet_of_unwritten {revision : ℕ} {call : PatchCall} {stage stage' : PatchStage}
    (hstage : Unwritten stage) (hstage' : Unwritten stage')
    (hvalidated : stage'.validated = true → stage.validated = true ∨ call.taskId = [] ∨
      call.expectedWorkspaceRevision = some revision) :
    Quiet revision (.patch call stage) (.patch call stage') where
  call? := rfl
  hasWritten := hstage'.hasWritten.trans hstage.hasWritten.symm
  hasRecorded := hstage'.hasRecorded.trans hstage.hasRecorded.symm
  validated := fun h => (hvalidated h).imp_right fun h => ⟨call, rfl, h⟩
  pending := fun state' hpending => by
    rw [hstage'.pending] at hpending
    cases hpending

/-- **Step lemma.**  A patch that is resumed writes its file, records what it has written, or does
nothing that others see. -/
theorem PatchCall.resume_cases (call : PatchCall) (stage : PatchStage) :
    (∃ postContent, stage = .writingFile postContent ∧
      call.resume h files o stage =
        (.readingRevision postContent, .writeFile (h.fileAt call.filePath) postContent)) ∨
    (∃ state revisionBefore, stage = .writingRecord state revisionBefore ∧
      call.resume h files o stage =
        (.patched revisionBefore (revisionBefore + 1), .writeState state)) ∨
    ((call.resume h files o stage).2 = .none ∧
      Quiet (h.readMutationState files).workspaceRevision (.patch call stage)
        (.patch call (call.resume h files o stage).1)) := by
  have hearly : ∀ stage', Unwritten stage → Unwritten stage' →
      (stage'.validated = true → stage.validated = true ∨ call.taskId = [] ∨
        call.expectedWorkspaceRevision = some (h.readMutationState files).workspaceRevision) →
      Quiet (h.readMutationState files).workspaceRevision (.patch call stage)
        (.patch call stage') := fun _ hstage hstage' => quiet_of_unwritten hstage hstage'
  cases stage with
  | checkingPath =>
    refine .inr (.inr ⟨rfl, ?_⟩)
    refine hearly _ ⟨rfl, rfl, fun _ => rfl⟩ ?_ ?_
    · simp only [PatchCall.resume]
      split_ifs <;> exact ⟨rfl, rfl, fun _ => rfl⟩
    · simp only [PatchCall.resume]
      split_ifs <;> exact fun hno => by cases hno
  | checkingExistence =>
    refine .inr (.inr ⟨rfl, ?_⟩)
    simp only [PatchCall.resume]
    split
    · exact hearly _ ⟨rfl, rfl, fun _ => rfl⟩ ⟨rfl, rfl, fun _ => rfl⟩ fun hno => by cases hno
    · split_ifs with htask
      · exact hearly _ ⟨rfl, rfl, fun _ => rfl⟩ ⟨rfl, rfl, fun _ => rfl⟩
          fun _ => .inr (.inl htask)
      · exact hearly _ ⟨rfl, rfl, fun _ => rfl⟩ ⟨rfl, rfl, fun _ => rfl⟩ fun hno => by cases hno
  | validating =>
    have hspec := validateCoherence_spec call (h.readMutationState files) o.now
    exact .inr (.inr ⟨rfl, hearly _ ⟨rfl, rfl, fun _ => rfl⟩ hspec.1
      fun hvalidated => .inr (.inr (hspec.2 hvalidated))⟩)
  | hashingAnchors anchors changedPaths =>
    have hnext : ∃ anchors' changedPaths', call.resume h files o
        (.hashingAnchors anchors changedPaths) = (hashAnchors anchors' changedPaths', .none) := by
      cases anchors with
      | nil => exact ⟨_, _, rfl⟩
      | cons anchor anchors => exact ⟨_, _, rfl⟩
    obtain ⟨anchors', changedPaths', hresume⟩ := hnext
    rw [hresume]
    exact .inr (.inr ⟨rfl, hearly _ ⟨rfl, rfl, fun _ => rfl⟩ (unwritten_hashAnchors _ _)
      fun _ => .inl rfl⟩)
  | readingFile =>
    refine .inr (.inr ⟨rfl, hearly _ ⟨rfl, rfl, fun _ => rfl⟩ ?_ fun _ => .inl rfl⟩)
    simp only [PatchCall.resume]
    split
    · exact ⟨rfl, rfl, fun _ => rfl⟩
    · split <;> exact ⟨rfl, rfl, fun _ => rfl⟩
  | writingFile postContent => exact .inl ⟨postContent, rfl, rfl⟩
  | readingRevision postContent =>
    exact .inr (.inr ⟨rfl, rfl, rfl, rfl, fun _ => .inl rfl, fun _ hno => by cases hno⟩)
  | readingRecord postContent revisionBefore =>
    refine .inr (.inr ⟨rfl, rfl, rfl, rfl, fun _ => .inl rfl, fun state' hstate => ?_⟩)
    obtain rfl := Option.some.inj hstate
    exact .inl (Nat.le_succ _)
  | writingRecord state revisionBefore => exact .inr (.inl ⟨state, revisionBefore, rfl, rfl⟩)
  | refused error => exact .inr (.inr ⟨rfl, Quiet.refl _ _⟩)
  | unchanged => exact .inr (.inr ⟨rfl, Quiet.refl _ _⟩)
  | patched revisionBefore revisionAfter => exact .inr (.inr ⟨rfl, Quiet.refl _ _⟩)

/-- Another call goes on to a state that it has read, or to nothing. -/
theorem quiet_of_call? {revision : ℕ} {t t' : Thread} (hcall : t.call? = none)
    (hcall' : t'.call? = none)
    (hpending : ∀ state', t'.pendingState = some state' → revision ≤ state'.workspaceRevision ∨
      ∃ state, t.pendingState = some state ∧
        state'.workspaceRevision = state.workspaceRevision) : Quiet revision t t' := by
  have hnone : ∀ t : Thread, t.call? = none →
      t.validated = false ∧ t.hasWritten = false ∧ t.hasRecorded = false := by
    intro t ht
    cases t with
    | patch call stage => cases ht
    | _ => exact ⟨rfl, rfl, rfl⟩
  obtain ⟨-, hwritten, hrecorded⟩ := hnone t hcall
  obtain ⟨hvalidated', hwritten', hrecorded'⟩ := hnone t' hcall'
  exact ⟨hcall'.trans hcall.symm, hwritten'.trans hwritten.symm, hrecorded'.trans hrecorded.symm,
    fun h => absurd h (by simp [hvalidated']), hpending⟩

theorem call?_hashPaths (paths : List Text) (tokenId : Text) (state : MutationState) :
    (hashPaths paths tokenId state).call? = none ∧
      (hashPaths paths tokenId state).pendingState = some state := by
  unfold hashPaths
  split_ifs <;> exact ⟨rfl, rfl⟩

/-- **Step lemma.**  A call that is resumed writes the file of its patch, records it, writes a state
that it has read, or does nothing that others see. -/
theorem Thread.resume_cases (t : Thread) :
    (∃ call postContent, t = .patch call (.writingFile postContent) ∧
      t.resume h files o = (.patch call (.readingRevision postContent),
        .writeFile (h.fileAt call.filePath) postContent)) ∨
    (∃ call state revisionBefore, t = .patch call (.writingRecord state revisionBefore) ∧
      t.resume h files o = (.patch call (.patched revisionBefore (revisionBefore + 1)),
        .writeState state)) ∨
    (∃ state, t = .writing state ∧ t.resume h files o = (.finished, .writeState state)) ∨
    ((t.resume h files o).2 = .none ∧
      Quiet (h.readMutationState files).workspaceRevision t (t.resume h files o).1) := by
  have hother : ∀ t t' : Thread, t.call? = none → t'.call? = none → t'.pendingState = none →
      Quiet (h.readMutationState files).workspaceRevision t t' := fun t t' ht ht' hpending =>
    quiet_of_call? ht ht' fun state' hstate => by rw [hpending] at hstate; cases hstate
  have hpaths : ∀ (t : Thread) paths tokenId state, t.call? = none →
      ((h.readMutationState files).workspaceRevision ≤ state.workspaceRevision ∨
        ∃ state', t.pendingState = some state' ∧
          state.workspaceRevision = state'.workspaceRevision) →
      Quiet (h.readMutationState files).workspaceRevision t (hashPaths paths tokenId state) := by
    intro t paths tokenId state ht hstate
    obtain ⟨hcall, hpending⟩ := call?_hashPaths paths tokenId state
    refine quiet_of_call? ht hcall fun state' hstate' => ?_
    rw [hpending] at hstate'
    obtain rfl := Option.some.inj hstate'
    exact hstate
  cases t with
  | patch call stage =>
    rcases @PatchCall.resume_cases h files o call stage with
      ⟨postContent, rfl, hresume⟩ | ⟨state, revisionBefore, rfl, hresume⟩ | ⟨heffect, hquiet⟩
    · exact .inl ⟨call, postContent, rfl, rfl⟩
    · exact .inr (.inl ⟨call, state, revisionBefore, rfl, rfl⟩)
    · exact .inr (.inr (.inr ⟨heffect, hquiet⟩))
  | issueReading taskId paths =>
    refine .inr (.inr (.inr ?_))
    have hrevision := workspaceRevision_issue (h.readMutationState files) taskId o.now
    simp only [Thread.resume]
    split_ifs
    · refine ⟨rfl, quiet_of_call? rfl rfl fun state' hstate => ?_⟩
      obtain rfl := Option.some.inj hstate
      exact .inl hrevision.ge
    · exact ⟨rfl, hpaths _ _ _ _ rfl (.inl hrevision.ge)⟩
  | issueGit paths tokenId state now =>
    exact .inr (.inr (.inr ⟨rfl, hpaths _ _ _ _ rfl (.inr ⟨state, rfl, rfl⟩)⟩))
  | issueHashing paths tokenId state =>
    refine .inr (.inr (.inr ?_))
    cases paths with
    | nil => exact ⟨rfl, hpaths _ [] tokenId state rfl (.inr ⟨state, rfl, rfl⟩)⟩
    | cons relPath paths =>
      exact ⟨rfl, hpaths _ _ _ _ rfl
        (.inr ⟨state, rfl, workspaceRevision_anchor state _ _ _⟩)⟩
  | trackChecking filePath taskId =>
    refine .inr (.inr (.inr ⟨rfl, ?_⟩))
    simp only [Thread.resume]
    split_ifs <;> exact hother _ _ rfl rfl rfl
  | trackHashing filePath taskId =>
    refine .inr (.inr (.inr ⟨rfl, ?_⟩))
    simp only [Thread.resume]
    split_ifs <;> exact hother _ _ rfl rfl rfl
  | trackReading relPath taskId hash =>
    refine .inr (.inr (.inr ⟨rfl, quiet_of_call? rfl rfl fun state' hstate => ?_⟩))
    obtain rfl := Option.some.inj hstate
    exact .inl (Nat.le_refl _)
  | verifyChecking command =>
    refine .inr (.inr (.inr ⟨rfl, ?_⟩))
    simp only [Thread.resume]
    split_ifs <;> exact hother _ _ rfl rfl rfl
  | verifyRunning command => exact .inr (.inr (.inr ⟨rfl, hother _ _ rfl rfl rfl⟩))
  | verifyReading command passed =>
    refine .inr (.inr (.inr ⟨rfl, quiet_of_call? rfl rfl fun state' hstate => ?_⟩))
    obtain rfl := Option.some.inj hstate
    exact .inl (Nat.le_refl _)
  | writing state => exact .inr (.inr (.inl ⟨state, rfl, rfl⟩))
  | finished => exact .inr (.inr (.inr ⟨rfl, Quiet.refl _ _⟩))

end

/-! ## The invariant -/

theorem Thread.validated_of_hasWritten {t : Thread} (ht : t.hasWritten = true) :
    t.validated = true := by
  cases t with
  | patch call stage => cases stage <;> first | rfl | cases ht
  | _ => cases ht

theorem Thread.hasWritten_of_hasRecorded {t : Thread} (ht : t.hasRecorded = true) :
    t.hasWritten = true := by
  cases t with
  | patch call stage => cases stage <;> first | rfl | cases ht
  | _ => cases ht

/-- A patch that was let through expects a revision since the start.  What has been recorded was
expected below the revision, and what has only been written at the revision. -/
structure Standing (initial revision : ℕ) (t : Thread) (expected : ℕ) : Prop where
  initial_le : initial ≤ expected
  le_revision : expected ≤ revision
  recorded : t.hasRecorded = true → expected < revision
  written : t.hasWritten = true → t.hasRecorded = false → expected = revision

def Thread.expected (t : Thread) : Option ℕ := t.call?.bind (·.expectedWorkspaceRevision)

namespace System

variable (h : MutationHost)

structure Invariant (initial : ℕ) (s : System) : Prop extends Coherent h initial s where
  positive : ∀ t ∈ s.calls, ∀ state, t.pendingState = some state → 1 ≤ state.workspaceRevision
  tasked : ∀ t ∈ s.calls, ∀ call, t.call? = some call → call.taskId ≠ []
  validated : ∀ t ∈ s.calls, t.validated = true →
    ∃ expected, t.expected = some expected ∧ Standing initial (s.revision h) t expected
  covered : ∀ revision, initial ≤ revision → revision < s.revision h →
    ∃ t ∈ s.calls, t.WroteFor revision

variable {h} {initial : ℕ} {s : System}

/-- At the start, whatever stands on the disk. -/
theorem Invariant.start (files : Files) :
    Invariant h (revision h ⟨files, []⟩) ⟨files, []⟩ where
  atMostOne := fun i j t t' revision ht => by
    rw [getElem?_nil] at ht
    cases ht
  counted := rfl
  positive := fun t ht => absurd ht not_mem_nil
  tasked := fun t ht => absurd ht not_mem_nil
  validated := fun t ht => absurd ht not_mem_nil
  covered := fun v hge hlt => absurd hlt (Nat.not_lt.mpr hge)

/-- What the writer of a revision expects stands to the revision as the invariant says. -/
theorem Invariant.standing (hs : Invariant h initial s) {t : Thread} (ht : t ∈ s.calls) {v : ℕ}
    (hwrote : t.WroteFor v) : Standing initial (s.revision h) t v := by
  obtain ⟨expected, hexpected, hstanding⟩ :=
    hs.validated t ht (Thread.validated_of_hasWritten hwrote.1)
  have heq : some v = some expected := hwrote.2.symm.trans hexpected
  rwa [Option.some.inj heq]

end System

/-! ## What the actions keep -/

namespace System

variable {h : MutationHost} {initial : ℕ} {s : System}

/-- A call is replaced by one that has written and recorded the same, and the revision stays. -/
theorem Invariant.quiet (hs : Invariant h initial s) {i : ℕ} {t t' : Thread} {files : Files}
    (ht : s.calls[i]? = some t) (hquiet : Quiet (s.revision h) t t')
    (hrevision : revision h ⟨files, s.calls.set i t'⟩ = s.revision h) :
    Invariant h initial ⟨files, s.calls.set i t'⟩ := by
  have hmem : t ∈ s.calls := mem_of_getElem? ht
  have hexpected : t'.expected = t.expected := by rw [Thread.expected, hquiet.call?]; rfl
  have hwrote : ∀ v, t'.WroteFor v ↔ t.WroteFor v := fun v => by
    rw [Thread.WroteFor, Thread.WroteFor, hquiet.hasWritten, hquiet.call?]
  refine ⟨⟨?_, ?_⟩, ?_, ?_, ?_, ?_⟩
  · intro j k u u' v hu hu' hv hv'
    have hold : ∀ {j : ℕ} {u : Thread}, (s.calls.set i t')[j]? = some u → u.WroteFor v →
        ∃ u', s.calls[j]? = some u' ∧ u'.WroteFor v := by
      intro j u hu hv
      rcases ReplaceAt.getElem?_set_cases hu with ⟨rfl, rfl⟩ | ⟨-, hu⟩
      · exact ⟨t, ht, (hwrote v).mp hv⟩
      · exact ⟨u, hu, hv⟩
    obtain ⟨u, hu, hv⟩ := hold hu hv
    obtain ⟨u', hu', hv'⟩ := hold hu' hv'
    exact hs.atMostOne j k u u' v hu hu' hv hv'
  · rw [hrevision, hs.counted, ReplaceAt.countP_set_eq ht hquiet.hasRecorded]
  · intro u hu state hstate
    rcases mem_or_eq_of_mem_set hu with hu | rfl
    · exact hs.positive u hu state hstate
    · rcases hquiet.pending state hstate with hle | ⟨state', hstate', heq⟩
      · exact readMutationState_pos.trans hle
      · exact (hs.positive t hmem state' hstate').trans heq.ge
  · intro u hu call hcall
    rcases mem_or_eq_of_mem_set hu with hu | rfl
    · exact hs.tasked u hu call hcall
    · exact hs.tasked t hmem call (hquiet.call? ▸ hcall)
  · intro u hu hvalidated
    rw [hrevision]
    rcases mem_or_eq_of_mem_set hu with hu | rfl
    · exact hs.validated u hu hvalidated
    · rw [hexpected]
      rcases hquiet.validated hvalidated with hvalidated | ⟨call, hcall, htask | hexpects⟩
      · obtain ⟨expected, hexpects, hstanding⟩ := hs.validated t hmem hvalidated
        exact ⟨expected, hexpects, hstanding.initial_le, hstanding.le_revision,
          fun h => hstanding.recorded (hquiet.hasRecorded ▸ h),
          fun h h' => hstanding.written (hquiet.hasWritten ▸ h) (hquiet.hasRecorded ▸ h')⟩
      · exact absurd htask (hs.tasked t hmem call hcall)
      · refine ⟨s.revision h, by rw [Thread.expected, hcall]; exact hexpects, ?_, Nat.le_refl _,
          ?_, fun _ _ => rfl⟩
        · exact hs.counted.ge.trans' (Nat.le_add_right _ _)
        · intro hrecorded
          rw [hquiet.hasRecorded] at hrecorded
          -- what is recorded was let through before
          have hwritten := Thread.hasWritten_of_hasRecorded hrecorded
          obtain ⟨expected, hold, hstanding⟩ :=
            hs.validated t hmem (Thread.validated_of_hasWritten hwritten)
          rw [Thread.expected, hcall] at hold
          have heq : some (s.revision h) = some expected := hexpects.symm.trans hold
          rw [Option.some.inj heq]
          exact (Option.some.inj heq) ▸ hstanding.recorded hrecorded
  · intro v hge hlt
    rw [hrevision] at hlt
    exact ReplaceAt.exists_mem_set ht (hwrote v).mpr (hs.covered v hge hlt)

/-- A new call has written nothing, has read nothing, and is not let through. -/
theorem start_spec (request : Request) :
    request.start.hasWritten = false ∧ request.start.hasRecorded = false ∧
      request.start.validated = false ∧ request.start.pendingState = none ∧
      ∀ call, request.start.call? = some call → request = .applyPatch call := by
  cases request with
  | applyPatch call =>
    exact ⟨rfl, rfl, rfl, rfl, fun call' hcall => by rw [Option.some.inj hcall]⟩
  | issueCoherenceToken taskId paths =>
    exact ⟨rfl, rfl, rfl, rfl, fun call hcall => by cases hcall⟩
  | autoTrackFileRead filePath taskId =>
    unfold Request.start
    dsimp only
    split_ifs <;> exact ⟨rfl, rfl, rfl, rfl, fun call hcall => by cases hcall⟩
  | applyVerify command => exact ⟨rfl, rfl, rfl, rfl, fun call hcall => by cases hcall⟩

theorem Invariant.started (hs : Invariant h initial s) {request : Request}
    (hassumed : Assumed h s (.start request)) :
    Invariant h initial ⟨s.files, s.calls ++ [request.start]⟩ := by
  obtain ⟨hwritten, hrecorded, hvalidated, hpending, hcall⟩ := start_spec request
  have hmem : ∀ {t}, t ∈ s.calls ++ [request.start] → t ∈ s.calls ∨ t = request.start := fun ht =>
    (mem_append.mp ht).imp_right mem_singleton.mp
  refine ⟨⟨?_, ?_⟩, ?_, ?_, ?_, ?_⟩
  · intro i j t t' v ht ht' hv hv'
    have hold : ∀ {j : ℕ} {u : Thread}, (s.calls ++ [request.start])[j]? = some u →
        u.WroteFor v → s.calls[j]? = some u := by
      intro j u hu hv
      rw [getElem?_append] at hu
      split_ifs at hu with hlt
      · exact hu
      · obtain rfl := mem_singleton.mp (mem_of_getElem? hu)
        rw [Thread.WroteFor, hwritten] at hv
        cases hv.1
    exact hs.atMostOne i j t t' v (hold ht hv) (hold ht' hv') hv hv'
  · have hcount : (s.calls ++ [request.start]).countP Thread.hasRecorded
        = s.calls.countP Thread.hasRecorded := by
      rw [countP_append, countP_singleton, hrecorded]
      rfl
    rw [hcount]
    exact hs.counted
  · intro t ht state hstate
    rcases hmem ht with ht | rfl
    · exact hs.positive t ht state hstate
    · rw [hpending] at hstate
      cases hstate
  · intro t ht call ht'
    rcases hmem ht with ht | rfl
    · exact hs.tasked t ht call ht'
    · rw [hcall call ht'] at hassumed
      exact hassumed
  · intro t ht ht'
    rcases hmem ht with ht | rfl
    · exact hs.validated t ht ht'
    · rw [hvalidated] at ht'
      cases ht'
  · intro v hge hlt
    obtain ⟨t, ht, hwrote⟩ := hs.covered v hge hlt
    exact ⟨t, mem_append_left _ ht, hwrote⟩

theorem Invariant.of_revision (hs : Invariant h initial s) {files : Files}
    (hrevision : revision h ⟨files, s.calls⟩ = s.revision h) :
    Invariant h initial ⟨files, s.calls⟩ where
  atMostOne := hs.atMostOne
  counted := hrevision.trans hs.counted
  positive := hs.positive
  tasked := hs.tasked
  validated := by
    rw [hrevision]
    exact hs.validated
  covered := by
    rw [hrevision]
    exact hs.covered

section

variable {i : ℕ} {call : PatchCall} {postContent : Text} {files : Files}
  (ht : s.calls[i]? = some (.patch call (.writingFile postContent)))
include ht

/-- A patch writes its file: no other has written at the revision, if all writers have recorded. -/
theorem Invariant.wroteFile (hs : Invariant h initial s)
    (hexpected : call.expectedWorkspaceRevision = some (s.revision h))
    (hnone : ∀ t ∈ s.calls, t.hasWritten = true → t.hasRecorded = true)
    (hrevision : revision h ⟨files, s.calls.set i (.patch call (.readingRevision postContent))⟩ =
      s.revision h) :
    Invariant h initial ⟨files, s.calls.set i (.patch call (.readingRevision postContent))⟩ := by
  have hmem := mem_of_getElem? ht
  have hother : ∀ {j : ℕ} {u : Thread}, s.calls[j]? = some u → ¬u.WroteFor (s.revision h) := by
    intro j u hu hwrote
    have hu := mem_of_getElem? hu
    exact Nat.lt_irrefl _ ((hs.standing hu hwrote).recorded (hnone u hu hwrote.1))
  have hself : ∀ {v : ℕ}, (Thread.patch call (.readingRevision postContent)).WroteFor v →
      v = s.revision h := fun hv => Option.some.inj (hv.2.symm.trans hexpected)
  refine ⟨⟨?_, ?_⟩, ?_, ?_, ?_, ?_⟩
  · intro j k u u' v hu hu' hv hv'
    rcases ReplaceAt.getElem?_set_cases hu with ⟨rfl, rfl⟩ | ⟨hj, hu⟩ <;>
      rcases ReplaceAt.getElem?_set_cases hu' with ⟨hk, hu'⟩ | ⟨hk, hu'⟩
    · exact hk.symm
    · rw [hself hv] at hv'
      exact absurd hv' (hother hu')
    · rw [hu'] at hv'
      rw [hself hv'] at hv
      exact absurd hv (hother hu)
    · exact hs.atMostOne j k u u' v hu hu' hv hv'
  · have hcount : (s.calls.set i (.patch call (.readingRevision postContent))).countP
        Thread.hasRecorded = s.calls.countP Thread.hasRecorded := ReplaceAt.countP_set_eq ht rfl
    rw [hrevision, hs.counted, ← hcount]
  · intro u hu state hstate
    rcases mem_or_eq_of_mem_set hu with hu | rfl
    · exact hs.positive u hu state hstate
    · cases hstate
  · intro u hu call' hcall'
    rcases mem_or_eq_of_mem_set hu with hu | rfl
    · exact hs.tasked u hu call' hcall'
    · exact hs.tasked _ hmem call' hcall'
  · intro u hu hvalidated
    rw [hrevision]
    rcases mem_or_eq_of_mem_set hu with hu | rfl
    · exact hs.validated u hu hvalidated
    · exact ⟨s.revision h, hexpected, hs.counted.ge.trans' (Nat.le_add_right _ _), Nat.le_refl _,
        fun hno => absurd hno Bool.false_ne_true, fun _ _ => rfl⟩
  · intro v hge hlt
    rw [hrevision] at hlt
    exact ReplaceAt.exists_mem_set ht (fun hno => by cases hno.1) (hs.covered v hge hlt)

/-- A patch that writes later than that, at a revision that has gone on or while a writer has not
recorded, is the second for its revision. -/
theorem Invariant.wroteFile_late (hs : Invariant h initial s)
    (hlate : ¬(call.expectedWorkspaceRevision = some (s.revision h) ∧
      ∀ t ∈ s.calls, t.hasWritten = true → t.hasRecorded = true)) :
    ¬Coherent h initial ⟨files, s.calls.set i (.patch call (.readingRevision postContent))⟩ := by
  intro hcoherent
  obtain ⟨expected, hexpected, hstanding⟩ := hs.validated _ (mem_of_getElem? ht) rfl
  have hsecond : ∃ t ∈ s.calls, t.WroteFor expected := by
    by_cases heq : expected = s.revision h
    · have hno : ¬∀ t ∈ s.calls, t.hasWritten = true → t.hasRecorded = true :=
        fun hall => hlate ⟨heq ▸ hexpected, hall⟩
      push Not at hno
      obtain ⟨t, ht, hwritten, hrecorded⟩ := hno
      obtain ⟨expected', hexpected', hstanding'⟩ :=
        hs.validated t ht (Thread.validated_of_hasWritten hwritten)
      refine ⟨t, ht, hwritten, ?_⟩
      rw [heq, ← hstanding'.written hwritten (by simpa using hrecorded)]
      exact hexpected'
    · exact hs.covered expected hstanding.initial_le
        (Nat.lt_of_le_of_ne hstanding.le_revision heq)
  obtain ⟨t, htmem, hwrote⟩ := hsecond
  obtain ⟨j, hj⟩ := mem_iff_getElem?.mp htmem
  have hne : i ≠ j := by
    rintro rfl
    rw [← Option.some.inj (ht.symm.trans hj)] at hwrote
    cases hwrote.1
  have hlt := (List.getElem?_eq_some_iff.mp ht).1
  have heq := hcoherent.atMostOne i j _ t expected (getElem?_set_self hlt)
    (by rw [getElem?_set_ne hne, hj]) ⟨rfl, hexpected⟩ hwrote
  exact hne heq

end

section

variable {i : ℕ} {call : PatchCall} {state : MutationState} {revisionBefore revisionAfter : ℕ}
  {files : Files} (ht : s.calls[i]? = some (.patch call (.writingRecord state revisionBefore)))
include ht

/-- The writer at the revision raises it. -/
theorem Invariant.recorded (hs : Invariant h initial s)
    (hrevision : revision h ⟨files, s.calls.set i (.patch call
      (.patched revisionBefore revisionAfter))⟩ = s.revision h + 1) :
    Invariant h initial
      ⟨files, s.calls.set i (.patch call (.patched revisionBefore revisionAfter))⟩ := by
  have hmem := mem_of_getElem? ht
  obtain ⟨expected, hexpected, hstanding⟩ := hs.validated _ hmem rfl
  have heq : expected = s.revision h := hstanding.written rfl rfl
  have hself : (Thread.patch call (.writingRecord state revisionBefore)).WroteFor
      (s.revision h) := ⟨rfl, heq ▸ hexpected⟩
  have hsame : ∀ {v : ℕ}, (Thread.patch call (.patched revisionBefore revisionAfter)).WroteFor v →
      (Thread.patch call (.writingRecord state revisionBefore)).WroteFor v := id
  refine ⟨⟨?_, ?_⟩, ?_, ?_, ?_, ?_⟩
  · intro j k u u' v hu hu' hv hv'
    have hold : ∀ {j : ℕ} {u : Thread}, (s.calls.set i (.patch call
        (.patched revisionBefore revisionAfter)))[j]? = some u → u.WroteFor v →
        ∃ u', s.calls[j]? = some u' ∧ u'.WroteFor v := by
      intro j u hu hv
      rcases ReplaceAt.getElem?_set_cases hu with ⟨rfl, rfl⟩ | ⟨-, hu⟩
      · exact ⟨_, ht, hsame hv⟩
      · exact ⟨u, hu, hv⟩
    obtain ⟨u, hu, hv⟩ := hold hu hv
    obtain ⟨u', hu', hv'⟩ := hold hu' hv'
    exact hs.atMostOne j k u u' v hu hu' hv hv'
  · rw [hrevision, hs.counted, ReplaceAt.countP_set_succ ht rfl rfl]
    rfl
  · intro u hu state' hstate
    rcases mem_or_eq_of_mem_set hu with hu | rfl
    · exact hs.positive u hu state' hstate
    · cases hstate
  · intro u hu call' hcall'
    rcases mem_or_eq_of_mem_set hu with hu | rfl
    · exact hs.tasked u hu call' hcall'
    · exact hs.tasked _ hmem call' hcall'
  · intro u hu hvalidated
    rw [hrevision]
    obtain ⟨j, hj⟩ := mem_iff_getElem?.mp hu
    rcases ReplaceAt.getElem?_set_cases hj with ⟨-, rfl⟩ | ⟨hne, hj⟩
    · exact ⟨expected, hexpected, hstanding.initial_le, hstanding.le_revision.trans (Nat.le_succ _),
        fun _ => heq ▸ Nat.lt_succ_self _, fun _ hno => by cases hno⟩
    · obtain ⟨other, hother, hold⟩ := hs.validated u (mem_of_getElem? hj) hvalidated
      refine ⟨other, hother, hold.initial_le, hold.le_revision.trans (Nat.le_succ _),
        fun hrecorded => (hold.recorded hrecorded).trans (Nat.lt_succ_self _),
        fun hwritten hrecorded => absurd ?_ hne⟩
      -- another writer at the revision would be the second one
      have hsecond : u.WroteFor (s.revision h) :=
        ⟨hwritten, hold.written hwritten hrecorded ▸ hother⟩
      exact hs.atMostOne j i u _ _ hj ht hsecond hself
  · intro v hge hlt
    rw [hrevision] at hlt
    refine ReplaceAt.exists_mem_set ht id ?_
    rcases Nat.lt_or_eq_of_le (Nat.le_of_lt_succ hlt) with hlt | rfl
    · exact hs.covered v hge hlt
    · exact ⟨_, hmem, hself⟩

end

/-! ## Runs -/

/-- **Step lemma.**  A step that is in time keeps the invariant. -/
theorem Invariant.step (hs : Invariant h initial s) {a : Action} (hassumed : Assumed h s a)
    (hguard : Guard h s a) : Invariant h initial (s.step h a) := by
  cases a with
  | start request => exact hs.started hassumed
  | edit file content =>
    exact hs.of_revision
      (congrArg MutationState.workspaceRevision (readMutationState_write_of_ne hassumed _))
  | resume i o =>
    cases ht : s.calls[i]? with
    | none =>
      have hstep : s.step h (.resume i o) = s := by simp only [System.step, ht]
      rwa [hstep]
    | some t =>
      have htime : InTime h s t := hguard t ht
      have hmem := mem_of_getElem? ht
      simp only [System.step, ht]
      rcases @Thread.resume_cases h s.files o t with ⟨call, postContent, rfl, hresume⟩ |
        ⟨call, state, revisionBefore, rfl, hresume⟩ | ⟨state, rfl, hresume⟩ | ⟨hnone, hquiet⟩
      · rw [hresume]
        obtain ⟨hexpected, hrecorded, hread⟩ := htime
        refine hs.wroteFile ht hexpected hrecorded ?_
        by_cases hfile : h.fileAt call.filePath = h.stateFile
        · rw [← hread hfile, ← @readMutationState_write_text h s.files, ← hfile]
          rfl
        · exact congrArg MutationState.workspaceRevision (readMutationState_write_of_ne hfile _)
      · rw [hresume]
        refine hs.recorded ht ?_
        have hpos := hs.positive _ hmem state rfl
        exact (congrArg _ (readMutationState_write_state hpos)).trans htime
      · rw [hresume]
        have hpos := hs.positive _ hmem state rfl
        refine hs.quiet ht ?_ ((congrArg _ (readMutationState_write_state hpos)).trans htime)
        exact ⟨rfl, rfl, rfl, fun hno => absurd hno Bool.false_ne_true,
          fun _ hno => by cases hno⟩
      · rw [hnone]
        exact hs.quiet ht hquiet rfl

/-- A step that is too late is seen. -/
theorem Invariant.step_late (hs : Invariant h initial s) {a : Action} (hguard : ¬Guard h s a) :
    ¬Coherent h initial (s.step h a) := by
  cases a with
  | start request => exact absurd trivial hguard
  | edit file content => exact absurd trivial hguard
  | resume i o =>
    simp only [Guard, not_forall] at hguard
    obtain ⟨t, ht, hlate⟩ := hguard
    have hmem := mem_of_getElem? ht
    simp only [System.step, ht]
    intro hcoherent
    rcases @Thread.resume_cases h s.files o t with ⟨call, postContent, rfl, hresume⟩ |
      ⟨call, state, revisionBefore, rfl, hresume⟩ | ⟨state, rfl, hresume⟩ | ⟨hnone, hquiet⟩
    · rw [hresume] at hcoherent
      by_cases hfirst : call.expectedWorkspaceRevision = some (s.revision h) ∧
          ∀ t ∈ s.calls, t.hasWritten = true → t.hasRecorded = true
      · refine hlate ⟨hfirst.1, hfirst.2, fun hfile => ?_⟩
        -- the file of the state is read as another revision, and nothing has been recorded
        have hcount : (s.calls.set i (.patch call (.readingRevision postContent))).countP
            Thread.hasRecorded = s.calls.countP Thread.hasRecorded :=
          ReplaceAt.countP_set_eq ht rfl
        calc revisionOf h postContent
            = (h.readMutationState (s.files.write h.stateFile
                (.text postContent))).workspaceRevision := (readMutationState_write_text _).symm
          _ = initial + s.calls.countP Thread.hasRecorded := by
              rw [← hcount, ← hfile]
              exact hcoherent.counted
          _ = s.revision h := hs.counted.symm
      · exact hs.wroteFile_late ht hfirst hcoherent
    · rw [hresume] at hcoherent
      refine hlate ?_
      have hpos := hs.positive _ hmem state rfl
      have hcount : (s.calls.set i (.patch call (.patched revisionBefore
          (revisionBefore + 1)))).countP Thread.hasRecorded
            = s.calls.countP Thread.hasRecorded + 1 := ReplaceAt.countP_set_succ ht rfl rfl
      calc state.workspaceRevision
          = (h.readMutationState (s.files.write h.stateFile (.state state))).workspaceRevision :=
            (congrArg _ (readMutationState_write_state hpos)).symm
        _ = initial + (s.calls.countP Thread.hasRecorded + 1) := by
            rw [← hcount]
            exact hcoherent.counted
        _ = s.revision h + 1 := by
            rw [hs.counted]
            rfl
    · rw [hresume] at hcoherent
      refine hlate ?_
      have hpos := hs.positive _ hmem state rfl
      have hcount : (s.calls.set i .finished).countP Thread.hasRecorded
          = s.calls.countP Thread.hasRecorded := ReplaceAt.countP_set_eq ht rfl
      calc state.workspaceRevision
          = (h.readMutationState (s.files.write h.stateFile (.state state))).workspaceRevision :=
            (congrArg _ (readMutationState_write_state hpos)).symm
        _ = initial + s.calls.countP Thread.hasRecorded := by
            rw [← hcount]
            exact hcoherent.counted
        _ = s.revision h := hs.counted.symm
    · refine hlate ?_
      cases t with
      | patch call stage =>
        cases stage with
        | writingFile postContent => cases hnone
        | writingRecord state revisionBefore => cases hnone
        | _ => trivial
      | writing state => cases hnone
      | _ => trivial

/-- **In every run, on whatever stands on the disk, the revision counts the patches and no two of
them write for one expected revision, if and only if every step is in time.** -/
theorem coherent_iff_inTime (h : MutationHost) (files : Files) (actions : List Action)
    (hassumed : Run.Guarded (System.step h) (Assumed h) ⟨files, []⟩ actions) :
    Run.Always (System.step h) (Coherent h (revision h ⟨files, []⟩)) ⟨files, []⟩ actions ↔
      Run.Guarded (System.step h) (Guard h) ⟨files, []⟩ actions :=
  Run.always_iff_guarded_of_invariant (fun _ hs => hs.toCoherent)
    (fun _ _ hs hassumed hguard => hs.step hassumed hguard)
    (fun _ _ hs _ hlate => hs.step_late hlate) (Invariant.start files) hassumed

end System

namespace Sample

def host : MutationHost := ⟨text "/", text "/w", id, fun _ => [], fun _ => [], fun _ => none⟩

/-- A token of task `t` for the first revision. -/
def state : MutationState :=
  ⟨1, 0, 1, .empty, InsertionMap.empty.set (text "coh_1")
    ⟨text "coh_1", text "t", 1, 0, .empty, 0, 300000⟩, none, none, none, none, none⟩

def disk : Files := fun file =>
  if file = text "/w/.dietcode/mutation-state.json" then some (.state state)
  else if file = text "/w/f" then some (.text (text "a"))
  else none

/-- A patch of `f` at the first revision. -/
def patch (search replace : Text) : PatchCall :=
  ⟨text "f", ⟨[], search, replace⟩, text "t", some (text "coh_1"), some 1⟩

def observed : Observation := ⟨true, [], 0, 0⟩

theorem task_ne_nil : text "t" ≠ [] := cons_ne_nil _ _

end Sample

open Sample

namespace System
/-- One patch, from its checks to its record. -/
theorem one_patch_coherent :
    Run.Always (System.step host) (Coherent host 1) ⟨disk, []⟩
      (.start (.applyPatch (patch (text "a") (text "b"))) :: List.replicate 8 (.resume 0 observed)) := by
  have hrevision : revision host ⟨disk, []⟩ = 1 := rfl
  rw [← hrevision]
  refine (coherent_iff_inTime host disk _ ?_).mpr ?_
  · exact ⟨task_ne_nil, trivial, trivial, trivial, trivial, trivial, trivial, trivial, trivial, trivial⟩
  · have hother : ∀ {s : System} {t : Thread}, s.calls[0]? = some t → InTime host s t →
        Guard host s (.resume 0 observed) := by
      intro s t ht htime t' ht'
      rwa [← Option.some.inj (ht.symm.trans ht')]
    refine ⟨trivial, hother rfl trivial, hother rfl trivial, hother rfl trivial, hother rfl trivial,
      hother rfl ⟨rfl, ?_, ?_⟩, hother rfl trivial, hother rfl trivial, hother rfl rfl, trivial⟩
    · intro t ht hwritten
      obtain rfl := mem_singleton.mp ht
      cases hwritten
    · intro hfile
      exact absurd hfile (by decide +kernel)

/-- Both patches are let through before either of them writes, and both write. -/
theorem same_revision_twice :
    let actions : List Action := [.start (.applyPatch (patch (text "a") (text "b"))),
      .start (.applyPatch (patch (text "b") (text "c"))), .resume 0 observed, .resume 0 observed,
      .resume 0 observed, .resume 1 observed, .resume 1 observed, .resume 1 observed,
      .resume 0 observed, .resume 0 observed, .resume 1 observed, .resume 1 observed]
    Run.Guarded (System.step host) (Assumed host) ⟨disk, []⟩ actions ∧
      (Run.run (System.step host) ⟨disk, []⟩ actions).calls =
        [.patch (patch (text "a") (text "b")) (.readingRevision (text "b")),
          .patch (patch (text "b") (text "c")) (.readingRevision (text "c"))] ∧
      ¬Run.Always (System.step host) (Coherent host (revision host ⟨disk, []⟩)) ⟨disk, []⟩
        actions := by
  intro actions
  have hcalls : (Run.run (System.step host) ⟨disk, []⟩ actions).calls =
      [.patch (patch (text "a") (text "b")) (.readingRevision (text "b")),
        .patch (patch (text "b") (text "c")) (.readingRevision (text "c"))] := by rfl
  refine ⟨⟨task_ne_nil, task_ne_nil, trivial, trivial, trivial, trivial, trivial, trivial, trivial,
    trivial, trivial, trivial, trivial⟩, hcalls, fun halways => ?_⟩
  have hlast := Run.always_iff_forall_split.mp halways actions [] (append_nil _).symm
  have heq := hlast.atMostOne 0 1 _ _ 1 (by rw [hcalls]; rfl) (by rw [hcalls]; rfl) ⟨rfl, rfl⟩
    ⟨rfl, rfl⟩
  cases heq

end System

end Lumi.Mutation
