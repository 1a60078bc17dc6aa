import Lumi.Siblings.Invariant

/-!
# The turns of the scheduler of sibling tools

A turn that makes progress leaves fewer nodes pending, so the turns of a resumption end, with
nothing left, with a run to wait for or with a guard to wait for.  What is left to do is measured
by `weight`, which everything but a call from outside lowers.
-/

namespace Lumi.Siblings

namespace SiblingRun

open Js List

variable {τ : Type*}

/-- The running nodes without a result. -/
def unsettled (s : SiblingRun τ) : List ℕ := s.running.filter fun i => (s.results i).isNone

/-- What is left to do with the nodes.  A pending node still has to start, to settle and to be
taken out. -/
def load (s : SiblingRun τ) : ℕ := 5 * s.pending.length + 4 * s.running.length + s.unsettled.length

def phaseWeight : Phase → ℕ
  | .awake => 3
  | .stalled => 2
  | .timedOut => 1
  | .waiting => 0
  | .done => 0

def weight (s : SiblingRun τ) : ℕ := s.load + phaseWeight s.phase

section

variable (callbacks : Callbacks) (turn : ℕ) {nodes : List SiblingToolDependencyNode}
  {capacity : ℕ} {s s₀ : SiblingRun τ} {acc : SiblingRun τ × Bool} {i : ℕ}
  {node : SiblingToolDependencyNode}

theorem sequence_of_nodeAt (h : nodeAt nodes i = some node) : node.sequence = i := by
  rw [nodeAt] at h
  have hfound := find?_some h
  exact of_decide_eq_true hfound

theorem edgesOf_eq (h : nodeAt nodes i = some node) : edgesOf nodes i = node.dependencyEdges := by
  rw [edgesOf, h]
  rfl

/-- Everything a node depends on has a result, and has succeeded unless the two only conflict. -/
def Ready (nodes : List SiblingToolDependencyNode) (s : SiblingRun τ) (i : ℕ) : Prop :=
  ∀ edge ∈ edgesOf nodes i, ∃ envelope, s.results edge.sequence = some envelope
    ∧ (edge.kind ≠ .conflict → envelope.status = .succeeded)

theorem ready_of_checks (hnode : nodeAt nodes i = some node) (hfailed : ¬ s.prerequisiteFailed node)
    (hresults : node.dependencyEdges.all fun edge => (s.results edge.sequence).isSome) :
    Ready nodes s i := by
  intro edge hedge
  rw [edgesOf_eq hnode] at hedge
  obtain ⟨envelope, henvelope⟩ :=
    Option.isSome_iff_exists.mp (all_eq_true.mp hresults edge hedge)
  refine ⟨envelope, henvelope, fun hkind => ?_⟩
  by_contra hstatus
  apply hfailed
  refine any_eq_true.mpr ⟨edge, hedge, ?_⟩
  rw [henvelope]
  simp [hkind, hstatus]

/-- What a turn does with a node: nothing, it completes it without a run, or it starts it. -/
theorem admit_cases (nodes : List SiblingToolDependencyNode) (capacity : ℕ)
    (acc : SiblingRun τ × Bool) (i : ℕ) :
    (∃ aborted, admitNode callbacks turn nodes capacity acc i
        = ({ acc.1 with aborted := aborted }, acc.2)) ∨
      (∃ aborted node status error, nodeAt nodes i = some node
        ∧ admitNode callbacks turn nodes capacity acc i
          = ({ acc.1 with aborted := aborted }.completeWithoutRun callbacks turn node status error,
            true)) ∨
      (∃ aborted node, nodeAt nodes i = some node ∧ Ready nodes acc.1 i
        ∧ acc.1.running.length < capacity ∧ admitNode callbacks turn nodes capacity acc i
          = ({ acc.1 with aborted := aborted }.start callbacks turn node, true)) := by
  unfold admitNode
  split
  · exact .inl ⟨acc.1.aborted, rfl⟩
  next node hnode =>
    split
    · exact .inr (.inl ⟨acc.1.aborted, node, _, _, hnode, rfl⟩)
    split
    · exact .inr (.inl ⟨_, node, _, _, hnode, rfl⟩)
    · exact .inl ⟨_, rfl⟩
    dsimp only
    split
    · exact .inr (.inl ⟨_, node, _, _, hnode, rfl⟩)
    next hfailed =>
      split
      · next hstart =>
        have hready := ready_of_checks hnode hfailed hstart.1
        exact .inr (.inr ⟨_, node, hnode, hready, hstart.2, rfl⟩)
      · exact .inl ⟨_, rfl⟩

/-! ### What an operation does to the load -/

section

variable (h : s.Steady nodes capacity)
include h

theorem unsettled_complete (hpending : i ∈ s.pending)
    (envelope : Option (SiblingExecutionEnvelope τ)) :
    (s.running.filter fun j => (Function.update s.results i envelope j).isNone) = s.unsettled := by
  apply filter_congr
  intro j hj
  have hne : j ≠ i := fun heq => (h.pending_new i hpending).1 (heq ▸ hj)
  rw [Function.update_of_ne hne]

section

variable (hnode : nodeAt nodes i = some node)
include hnode

section

variable (hpending : i ∈ s.pending)
include hpending

theorem load_completeWithoutRun (status : SiblingExecutionStatus) (error : Text) :
    (s.completeWithoutRun callbacks turn node status error).load + 5 = s.load := by
  obtain rfl := sequence_of_nodeAt hnode
  have hlen := length_erase_of_mem hpending
  have hpos := length_pos_of_mem hpending
  have hunsettled : (s.completeWithoutRun callbacks turn node status error).unsettled
      = s.unsettled := unsettled_complete h hpending _
  rw [load, load, hunsettled]
  show 5 * (s.pending.erase node.sequence).length + 4 * s.running.length + _ + 5 = _
  omega

theorem load_start : (s.start callbacks turn node).load = s.load := by
  obtain rfl := sequence_of_nodeAt hnode
  have hlen := length_erase_of_mem hpending
  have hpos := length_pos_of_mem hpending
  have hnone := (h.pending_new _ hpending).2
  have hunsettled : (s.start callbacks turn node).unsettled = s.unsettled ++ [node.sequence] := by
    show (s.running ++ [node.sequence]).filter (fun j => (s.results j).isNone) = _
    rw [filter_append, filter_cons_of_pos (by rw [hnone]; rfl)]
    rfl
  rw [load, load, hunsettled, length_append]
  show 5 * (s.pending.erase node.sequence).length + 4 * (s.running ++ [node.sequence]).length + _
    = _
  rw [length_append]
  simp only [length_singleton]
  omega

theorem Steady.completeWithoutRun (status : SiblingExecutionStatus) (error : Text) :
    (s.completeWithoutRun callbacks turn node status error).Steady nodes capacity := by
  obtain rfl := sequence_of_nodeAt hnode
  exact (h.complete (h.pending_new _ hpending).2 hnode rfl rfl).mark _ _ _

theorem Steady.start (hroom : s.running.length < capacity) (hready : Ready nodes s i) :
    (s.start callbacks turn node).Steady nodes capacity := by
  obtain rfl := sequence_of_nodeAt hnode
  exact (h.begin hpending hroom hready).mark _ _ _

end

end

end

/-! ### A turn -/

/-- How far a turn that began in `s₀` has come. -/
structure Scanned (nodes : List SiblingToolDependencyNode) (capacity : ℕ) (s₀ : SiblingRun τ)
    (acc : SiblingRun τ × Bool) : Prop where
  steady : acc.1.Steady nodes capacity
  load_le : acc.1.load ≤ s₀.load
  idle : acc.2 = false → acc.1.pending = s₀.pending ∧ acc.1.running = s₀.running
  progress : acc.2 = true → acc.1.pending.length < s₀.pending.length

theorem Scanned.pending_le (h : Scanned nodes capacity s₀ acc) :
    acc.1.pending.length ≤ s₀.pending.length := by
  cases hprogress : acc.2 with
  | false => rw [(h.idle hprogress).1]
  | true => exact Nat.le_of_lt (h.progress hprogress)

/-- **Step lemma of a turn.** -/
theorem Scanned.admitNode (h : Scanned nodes capacity s₀ acc) (hpending : i ∈ acc.1.pending) :
    Scanned nodes capacity s₀ (admitNode callbacks turn nodes capacity acc i)
      ∧ ∀ j ∈ acc.1.pending, j ≠ i →
        j ∈ (SiblingRun.admitNode callbacks turn nodes capacity acc i).1.pending := by
  have hle := h.pending_le
  have hpos := length_pos_of_mem hpending
  have hlen := length_erase_of_mem hpending
  rcases admit_cases callbacks turn nodes capacity acc i with
    ⟨aborted, heq⟩ | ⟨aborted, node, status, error, hnode, heq⟩
      | ⟨aborted, node, hnode, hready, hroom, heq⟩
  · rw [heq]
    exact ⟨⟨h.steady.mark _ _ _, h.load_le, h.idle, h.progress⟩, fun j hj _ => hj⟩
  · have hsteady := h.steady.mark acc.1.refused aborted acc.1.phase
    have hload := load_completeWithoutRun callbacks turn hsteady hnode
      hpending status error
    rw [heq]
    obtain rfl := sequence_of_nodeAt hnode
    have hnext := hsteady.completeWithoutRun callbacks turn hnode hpending status error
    refine ⟨⟨hnext, ?_, fun hf => absurd hf (by simp), fun _ => ?_⟩,
      fun j hj hne => (mem_erase_of_ne hne).mpr hj⟩
    · exact Nat.le_trans (Nat.le_of_add_right_le (Nat.le_of_eq hload)) h.load_le
    · show (acc.1.pending.erase node.sequence).length < _
      omega
  · have hsteady := h.steady.mark acc.1.refused aborted acc.1.phase
    have hload := load_start callbacks turn hsteady hnode hpending
    rw [heq]
    obtain rfl := sequence_of_nodeAt hnode
    have hnext := hsteady.start callbacks turn hnode hpending hroom hready
    refine ⟨⟨hnext, ?_, fun hf => absurd hf (by simp), fun _ => ?_⟩,
      fun j hj hne => (mem_erase_of_ne hne).mpr hj⟩
    · exact Nat.le_trans (Nat.le_of_eq hload) h.load_le
    · show (acc.1.pending.erase node.sequence).length < _
      omega

theorem Scanned.foldl_admit {sequences : List ℕ} : ∀ {acc : SiblingRun τ × Bool},
    Scanned nodes capacity s₀ acc → sequences.Nodup → sequences ⊆ acc.1.pending →
      Scanned nodes capacity s₀
        (sequences.foldl (SiblingRun.admitNode callbacks turn nodes capacity) acc) := by
  induction sequences with
  | nil => exact fun h _ _ => h
  | cons i rest ih =>
    intro acc h hnodup hsub
    obtain ⟨hnotMem, hrest⟩ := nodup_cons.mp hnodup
    obtain ⟨hnext, hkeep⟩ := h.admitNode callbacks turn (hsub mem_cons_self)
    refine ih hnext hrest fun j hj => ?_
    exact hkeep j (hsub (mem_cons_of_mem _ hj)) fun heq => hnotMem (heq ▸ hj)

theorem Steady.scan (h : s.Steady nodes capacity) :
    Scanned nodes capacity s (s.scan callbacks turn nodes capacity) := by
  apply Scanned.foldl_admit callbacks turn _ h.pending_nodup (List.Subset.refl _)
  exact ⟨h, Nat.le_refl _, fun _ => ⟨rfl, rfl⟩, fun hf => absurd hf (by simp)⟩

/-! ### A resumption -/

/-- Where the turns of a resumption end. -/
def AtRest (s : SiblingRun τ) : Prop :=
  (s.phase = .done ∧ s.pending = [] ∧ s.running = []) ∨ (s.phase = .waiting ∧ s.running ≠ [])
    ∨ (s.phase = .stalled ∧ s.running = [])

/-- A turn without progress leaves what there was to do. -/
theorem Steady.advance {fuel : ℕ} (h : s.Steady nodes capacity) (hfuel : s.pending.length < fuel) :
    (s.advance callbacks nodes capacity fuel turn).Steady nodes capacity
      ∧ (s.advance callbacks nodes capacity fuel turn).load ≤ s.load
      ∧ (s.advance callbacks nodes capacity fuel turn).AtRest := by
  induction fuel generalizing turn s with
  | zero => exact absurd hfuel (Nat.not_lt_zero _)
  | succ fuel ih =>
    rw [SiblingRun.advance]
    split
    · next hempty => exact ⟨h.mark _ _ _, Nat.le_refl _, .inl ⟨rfl, hempty⟩⟩
    next hwork =>
      have hmarked := h.mark s.refused (s.aborted || callbacks.isCancelled turn) s.phase
      have hscan := hmarked.scan callbacks turn
      generalize { s with aborted := s.aborted || callbacks.isCancelled turn }.scan callbacks turn
        nodes capacity = next at hscan
      dsimp only
      split
      · refine ⟨hscan.steady.mark _ _ _, hscan.load_le, ?_⟩
        by_cases hrunning : next.1.running ≠ []
        · exact .inr (.inl ⟨if_pos hrunning, hrunning⟩)
        · exact .inr (.inr ⟨if_neg hrunning, Decidable.not_not.mp hrunning⟩)
      · next hgoOn =>
        have hprogress : next.2 = true := by
          by_contra hno
          have hidle := hscan.idle (Bool.eq_false_iff.mpr hno)
          have hleft : s.pending ≠ [] ∨ s.running ≠ [] := not_and_or.mp hwork
          exact hgoOn ⟨hno, by rw [hidle.1, hidle.2]; exact hleft⟩
        have hlt : next.1.pending.length < s.pending.length := hscan.progress hprogress
        obtain ⟨hsteady, hload, hrest⟩ := ih (turn + 1) hscan.steady (by omega)
        exact ⟨hsteady, hload.trans hscan.load_le, hrest⟩

/-- The nodes that are skipped when the loop has stalled. -/
theorem Steady.foldl_skip (hnodes : Connected nodes) (error : Text) {sequences : List ℕ} :
    ∀ {s : SiblingRun τ}, s.Steady nodes capacity → sequences.Nodup → sequences ⊆ s.pending →
      (sequences.foldl (skip callbacks nodes error) s).Steady nodes capacity
        ∧ (sequences.foldl (skip callbacks nodes error) s).load ≤ s.load
        ∧ (sequences.foldl (skip callbacks nodes error) s).running = s.running
        ∧ ∀ j ∈ (sequences.foldl (skip callbacks nodes error) s).pending,
          j ∈ s.pending ∧ j ∉ sequences := by
  induction sequences with
  | nil => exact fun h _ _ => ⟨h, Nat.le_refl _, rfl, fun j hj => ⟨hj, not_mem_nil⟩⟩
  | cons i rest ih =>
    intro s h hnodup hsub
    obtain ⟨hnotMem, hrest⟩ := nodup_cons.mp hnodup
    have hpending := hsub mem_cons_self
    have hlt := h.pending_lt i hpending
    have hnode : nodeAt nodes i = some nodes[i] := by
      rw [hnodes.nodeAt_eq]
      exact getElem?_eq_getElem hlt
    have hskip : s.skip callbacks nodes error i
        = s.completeWithoutRun callbacks 0 nodes[i] .skipped error := by
      rw [skip, hnode]
    have hload := load_completeWithoutRun callbacks 0 h hnode hpending .skipped error
    have hnext := h.completeWithoutRun callbacks 0 hnode hpending .skipped error
    have hmem : ∀ j, j ∈ (s.completeWithoutRun callbacks 0 nodes[i] .skipped error).pending ↔
        j ≠ i ∧ j ∈ s.pending := by
      intro j
      show j ∈ s.pending.erase nodes[i].sequence ↔ _
      rw [sequence_of_nodeAt hnode, h.pending_nodup.mem_erase_iff]
    obtain ⟨hsteady, hrestLoad, hrunning, hleft⟩ := ih hnext hrest fun j hj =>
      (hmem j).mpr ⟨fun heq => hnotMem (heq ▸ hj), hsub (mem_cons_of_mem _ hj)⟩
    rw [foldl_cons, hskip]
    refine ⟨hsteady, by omega, hrunning, fun j hj => ?_⟩
    obtain ⟨hin, hnot⟩ := hleft j hj
    obtain ⟨hne, hold⟩ := (hmem j).mp hin
    exact ⟨hold, fun hcons => (mem_cons.mp hcons).elim hne hnot⟩

theorem Steady.skipStalled (h : s.Steady nodes capacity) (hnodes : Connected nodes)
    (stallTimeout : Text) :
    (s.skipStalled callbacks nodes stallTimeout).Steady nodes capacity
      ∧ (s.skipStalled callbacks nodes stallTimeout).load ≤ s.load
      ∧ (s.skipStalled callbacks nodes stallTimeout).running = s.running
      ∧ (s.skipStalled callbacks nodes stallTimeout).pending = [] := by
  obtain ⟨hsteady, hload, hrunning, hleft⟩ :=
    Steady.foldl_skip callbacks hnodes _ h h.pending_nodup (List.Subset.refl _)
  refine ⟨hsteady, hload, hrunning, eq_nil_iff_forall_not_mem.mpr fun j hj => ?_⟩
  exact (hleft j hj).2 (hleft j hj).1

end

/-! ### The steps -/

/-- The loop waits for a run only with a run that is there, for a guard only without one, and is
at its end with nothing left. -/
structure Invariant (nodes : List SiblingToolDependencyNode) (capacity : ℕ) (s : SiblingRun τ) :
    Prop where
  steady : s.Steady nodes capacity
  waiting : s.phase = .waiting → s.running ≠ []
  stalled : s.phase = .stalled ∨ s.phase = .timedOut → s.running = []
  done : s.phase = .done → s.pending = [] ∧ s.running = []

/-- The calls from outside. -/
def isExternal : SiblingEvent τ → Bool
  | .cancel => true
  | .signalReady => true
  | _ => false

section

variable {nodes : List SiblingToolDependencyNode} {capacity : ℕ} {s : SiblingRun τ}

theorem Steady.atRest (h : s.Steady nodes capacity) (hrest : s.AtRest) :
    s.Invariant nodes capacity ∧ phaseWeight s.phase < 3 := by
  rcases hrest with ⟨hphase, hempty⟩ | ⟨hphase, hrunning⟩ | ⟨hphase, hrunning⟩
  · refine ⟨⟨h, ?_, ?_, fun _ => hempty⟩, ?_⟩ <;> simp [hphase, phaseWeight]
  · refine ⟨⟨h, fun _ => hrunning, ?_, ?_⟩, ?_⟩ <;> simp [hphase, phaseWeight]
  · refine ⟨⟨h, ?_, fun _ => hrunning, ?_⟩, ?_⟩ <;> simp [hphase, phaseWeight]

theorem Steady.awake (h : s.Steady nodes capacity) (hphase : s.phase = .awake) :
    s.Invariant nodes capacity := by
  constructor <;> simp [h, hphase]

/-- Whatever is left of a wake-up is a loop that is awake or was not waiting. -/
theorem Invariant.wake (h : s.Invariant nodes capacity) : s.wake.Invariant nodes capacity := by
  unfold SiblingRun.wake
  split
  · exact (h.steady.mark _ _ _).awake rfl
  · exact h

theorem weight_wake (s : SiblingRun τ) : s.wake.weight ≤ s.load + max 3 (phaseWeight s.phase) := by
  unfold SiblingRun.wake
  split
  · exact Nat.add_le_add_left (Nat.le_max_left ..) _
  · exact Nat.add_le_add_left (Nat.le_max_right ..) _

theorem phaseWeight_le (phase : Phase) : phaseWeight phase ≤ 3 := by cases phase <;> decide

theorem settled_spec (s : SiblingRun τ) (node : SiblingToolDependencyNode) (outcome : Outcome τ) :
    (s.settled node outcome).sequence = node.sequence ∧ (s.settled node outcome).id = node.id := by
  unfold settled
  generalize (if node.sequence ∈ s.refused then _ else outcome) = outcome
  cases outcome <;> exact ⟨rfl, rfl⟩

/-- The turns of a resumption. -/
theorem Invariant.resume (hnodes : Connected nodes) (h : s.Invariant nodes capacity)
    (stallTimeout : Text) (callbacks : Callbacks) :
    (s.step nodes capacity stallTimeout (.resume callbacks)).Invariant nodes capacity
      ∧ (s.Enabled (.resume callbacks) →
        (s.step nodes capacity stallTimeout (.resume callbacks)).weight < s.weight) := by
  cases hphase : s.phase with
  | awake =>
    have hstep : s.step nodes capacity stallTimeout (.resume callbacks)
        = s.advance callbacks nodes capacity (s.pending.length + 1) 0 := by
      simp only [step, hphase]
    obtain ⟨hsteady, hload, hrest⟩ := h.steady.advance callbacks 0 (Nat.lt_succ_self _)
    obtain ⟨hinvariant, hweight⟩ := hsteady.atRest hrest
    rw [hstep]
    refine ⟨hinvariant, fun _ => ?_⟩
    calc _ < (s.advance callbacks nodes capacity (s.pending.length + 1) 0).load + 3 :=
          Nat.add_lt_add_left hweight _
      _ ≤ s.load + 3 := Nat.add_le_add_right hload _
      _ = s.weight := by rw [weight, hphase, phaseWeight]
  | timedOut =>
    obtain ⟨hsteady, hload, hrunning, hpending⟩ :=
      h.steady.skipStalled callbacks hnodes stallTimeout
    rw [h.stalled (.inr hphase)] at hrunning
    have hstep : s.step nodes capacity stallTimeout (.resume callbacks)
        = { s.skipStalled callbacks nodes stallTimeout with phase := .done } := by
      simp only [step, hphase]
      rw [advance, if_pos ⟨hpending, hrunning⟩]
    rw [hstep]
    refine ⟨⟨hsteady.mark _ _ _, ?_, ?_, fun _ => ⟨hpending, hrunning⟩⟩, fun _ => ?_⟩
    · exact fun hf => absurd hf (by simp)
    · exact fun hf => absurd hf (by simp)
    · calc _ = (s.skipStalled callbacks nodes stallTimeout).load := Nat.add_zero _
        _ ≤ s.load := hload
        _ < s.weight := by rw [weight, hphase, phaseWeight]; omega
  | _ =>
    have hstep : s.step nodes capacity stallTimeout (.resume callbacks) = s := by
      simp only [step, hphase]
    exact ⟨hstep.symm ▸ h, fun henabled => absurd henabled (by simp [Enabled, hphase])⟩

theorem length_unsettled_settle (h : s.Steady nodes capacity) {i : ℕ} (hrunning : i ∈ s.running)
    (hnone : s.results i = none) (envelope : SiblingExecutionEnvelope τ) :
    (s.running.filter fun j => (Function.update s.results i (some envelope) j).isNone).length + 1
      = s.unsettled.length := by
  have hmem : i ∈ s.unsettled := mem_filter.mpr ⟨hrunning, by rw [hnone]; rfl⟩
  have heq : (s.running.filter fun j => (Function.update s.results i (some envelope) j).isNone)
      = s.unsettled.erase i := by
    rw [unsettled, (h.running_nodup.filter _).erase_eq_filter, filter_filter]
    apply filter_congr
    intro j _
    by_cases hj : j = i
    · rw [hj, Function.update_self]
      simp
    · rw [Function.update_of_ne hj]
      simp [hj]
  have hpos := length_pos_of_mem hmem
  rw [heq, length_erase_of_mem hmem]
  omega

/-- A run settles. -/
theorem Invariant.settle (h : s.Invariant nodes capacity) (stallTimeout : Text) (i : ℕ)
    (outcome : Outcome τ) :
    (s.step nodes capacity stallTimeout (.settle i outcome)).Invariant nodes capacity
      ∧ (Connected nodes → s.Enabled (.settle i outcome) →
        (s.step nodes capacity stallTimeout (.settle i outcome)).weight < s.weight) := by
  cases hnode : nodeAt nodes i with
  | none =>
    have hstep : s.step nodes capacity stallTimeout (.settle i outcome) = s := by
      simp only [step, hnode]
    refine ⟨hstep.symm ▸ h, fun hnodes henabled => ?_⟩
    have hlt := h.steady.running_lt i henabled.1
    rw [hnodes.nodeAt_eq, List.getElem?_eq_none_iff] at hnode
    omega
  | some node =>
    simp only [step, hnode]
    split
    · next henabled =>
      have hnone := Option.isNone_iff_eq_none.mp henabled.2
      have hnot : i ∉ s.pending := fun hmem => (h.steady.pending_new i hmem).1 henabled.1
      obtain ⟨hsequence, hid⟩ := s.settled_spec node outcome
      rw [sequence_of_nodeAt hnode] at hsequence
      have hsteady := h.steady.complete hnone hnode hsequence hid
      rw [erase_of_not_mem hnot] at hsteady
      refine ⟨⟨hsteady, h.waiting, h.stalled, h.done⟩, fun _ _ => ?_⟩
      have hlen := length_unsettled_settle h.steady henabled.1 hnone (s.settled node outcome)
      show 5 * s.pending.length + 4 * s.running.length + (s.running.filter fun j =>
          (Function.update s.results i (some (s.settled node outcome)) j).isNone).length
        + phaseWeight s.phase < s.weight
      rw [weight, load]
      omega
    · next hno => exact ⟨h, fun _ henabled => absurd henabled hno⟩

/-- A settled run is taken out. -/
theorem Invariant.drop (h : s.Invariant nodes capacity) (stallTimeout : Text) (i : ℕ) :
    (s.step nodes capacity stallTimeout (.drop i)).Invariant nodes capacity
      ∧ (s.Enabled (.drop i) →
        (s.step nodes capacity stallTimeout (.drop i)).weight < s.weight) := by
  simp only [step]
  split
  · next henabled =>
    have hsteady := h.steady.drop henabled.2
    have hlen := length_erase_of_mem henabled.1
    have hpos := length_pos_of_mem henabled.1
    have hunsettled : ({ s with running := s.running.erase i }.unsettled).length
        ≤ s.unsettled.length := (erase_sublist.filter _).length_le
    have hload : { s with running := s.running.erase i }.load + 4 ≤ s.load := by
      show 5 * s.pending.length + 4 * (s.running.erase i).length + _ + 4
        ≤ 5 * s.pending.length + 4 * s.running.length + s.unsettled.length
      omega
    constructor
    · unfold SiblingRun.wake
      split
      · exact (hsteady.mark _ _ _).awake rfl
      next hasleep =>
        have hdone : s.phase ≠ .done := by
          intro hdone
          rw [(h.done hdone).2] at henabled
          exact absurd henabled.1 not_mem_nil
        have htimedOut : s.phase ≠ .timedOut := by
          intro htimedOut
          rw [h.stalled (.inr htimedOut)] at henabled
          exact absurd henabled.1 not_mem_nil
        apply hsteady.awake
        cases hphase : s.phase with
        | awake => rfl
        | waiting => exact absurd (.inl hphase) hasleep
        | stalled => exact absurd (.inr hphase) hasleep
        | timedOut => exact absurd hphase htimedOut
        | done => exact absurd hphase hdone
    · intro _
      have hwake := weight_wake { s with running := s.running.erase i }
      have hphase := phaseWeight_le s.phase
      rw [Nat.max_eq_left hphase] at hwake
      have hle : s.load ≤ s.weight := Nat.le_add_right ..
      omega
  · next hno => exact ⟨h, fun henabled => absurd henabled hno⟩

/-- **Step lemma.** -/
theorem Invariant.step (hnodes : Connected nodes) (h : s.Invariant nodes capacity)
    (stallTimeout : Text) (event : SiblingEvent τ) :
    (s.step nodes capacity stallTimeout event).Invariant nodes capacity := by
  cases event with
  | resume callbacks => exact (h.resume hnodes stallTimeout callbacks).1
  | settle i outcome => exact (h.settle stallTimeout i outcome).1
  | drop i => exact (h.drop stallTimeout i).1
  | timeout =>
    simp only [SiblingRun.step]
    split
    · next hphase =>
      refine ⟨h.steady.mark _ _ _, fun hf => absurd hf (by simp), fun _ => ?_,
        fun hf => absurd hf (by simp)⟩
      exact h.stalled (.inl hphase)
    · exact h
  | cancel =>
    have hmarked : { s with aborted := true }.Invariant nodes capacity :=
      ⟨h.steady.mark _ _ _, h.waiting, h.stalled, h.done⟩
    exact hmarked.wake
  | signalReady => exact h.wake

/-- **Progress lemma.**  Every event but a call from outside lowers the weight. -/
theorem Invariant.weight_step (hnodes : Connected nodes) (h : s.Invariant nodes capacity)
    (stallTimeout : Text) {event : SiblingEvent τ} (henabled : s.Enabled event) :
    (s.step nodes capacity stallTimeout event).weight + 1
      ≤ s.weight + if isExternal event then 4 else 0 := by
  have houtside : s.load + max 3 (phaseWeight s.phase) + 1 ≤ s.weight + 4 := by
    rw [Nat.max_eq_left (phaseWeight_le _), weight]
    omega
  cases event with
  | resume callbacks => exact (h.resume hnodes stallTimeout callbacks).2 henabled
  | settle i outcome => exact (h.settle stallTimeout i outcome).2 hnodes henabled
  | drop i => exact (h.drop stallTimeout i).2 henabled
  | timeout =>
    have hphase : s.phase = .stalled := henabled
    simp only [SiblingRun.step, if_pos hphase]
    show s.load + 1 + 1 ≤ s.load + phaseWeight s.phase + 0
    rw [hphase, phaseWeight]
  | cancel => exact (Nat.add_le_add_right (weight_wake { s with aborted := true }) 1).trans houtside
  | signalReady => exact (Nat.add_le_add_right (weight_wake s) 1).trans houtside

end

end SiblingRun

end Lumi.Siblings
