import Lumi.Siblings.SiblingToolScheduler

/-!
# What the scheduler of sibling tools keeps

Every node is pending, running or has a result, and the trace says which.  A step changes this in
three ways only: a node gets a result, a pending node starts, a settled node is taken out of the
running ones; what else it changes is marks that the invariant does not read.
-/

namespace Lumi.Siblings

open Js List

/-- The nodes that were started, in their order. -/
def startedOf (trace : List SiblingSchedulerEvent) : List ℕ :=
  trace.filterMap fun | .started sequence => some sequence | _ => none

/-- Everything a node depends on has a result before the node starts, and has succeeded unless
the two only conflict. -/
def Ordered (nodes : List SiblingToolDependencyNode) (trace : List SiblingSchedulerEvent) : Prop :=
  ∀ before sequence after, trace = before ++ .started sequence :: after →
    ∀ edge ∈ edgesOf nodes sequence, ∃ status, .completed edge.sequence status ∈ before
      ∧ (edge.kind ≠ .conflict → status = .succeeded)

section

variable {nodes : List SiblingToolDependencyNode} {trace : List SiblingSchedulerEvent} {i : ℕ}

theorem startedOf_append (first second : List SiblingSchedulerEvent) :
    startedOf (first ++ second) = startedOf first ++ startedOf second := filterMap_append

theorem mem_startedOf : i ∈ startedOf trace ↔ .started i ∈ trace := by
  rw [startedOf, mem_filterMap]
  constructor
  · rintro ⟨event, hevent, heq⟩
    cases event with
    | started j => exact Option.some.inj heq ▸ hevent
    | queued j => cases heq
    | completed j status => cases heq
  · exact fun h => ⟨_, h, rfl⟩

theorem Ordered.concat (h : Ordered nodes trace) {event : SiblingSchedulerEvent}
    (hevent : ∀ i, event = .started i → ∀ edge ∈ edgesOf nodes i,
      ∃ status, .completed edge.sequence status ∈ trace
        ∧ (edge.kind ≠ .conflict → status = .succeeded)) :
    Ordered nodes (trace ++ [event]) := by
  intro before i after heq edge hedge
  rcases eq_nil_or_concat after with rfl | ⟨after, last, rfl⟩
  · obtain ⟨rfl, hlast⟩ := append_inj' heq rfl
    exact hevent i (singleton_inj.mp hlast) edge hedge
  · rw [concat_eq_append, ← cons_append, ← append_assoc] at heq
    exact h before i after (append_inj' heq rfl).1 edge hedge

end

namespace SiblingRun

variable {τ : Type*}

/-- Each node is pending, running or has a result. -/
structure Steady (nodes : List SiblingToolDependencyNode) (capacity : ℕ) (s : SiblingRun τ) :
    Prop where
  pending_nodup : s.pending.Nodup
  running_nodup : s.running.Nodup
  pending_lt : ∀ i ∈ s.pending, i < nodes.length
  running_lt : ∀ i ∈ s.running, i < nodes.length
  pending_new : ∀ i ∈ s.pending, i ∉ s.running ∧ s.results i = none
  covered : ∀ i < nodes.length, i ∈ s.pending ∨ i ∈ s.running ∨ (s.results i).isSome
  running_le : s.running.length ≤ capacity
  started_nodup : (startedOf s.trace).Nodup
  started_running : ∀ i ∈ startedOf s.trace, i ∉ s.pending ∧ (s.results i = none → i ∈ s.running)
  completed_iff : ∀ i status, .completed i status ∈ s.trace ↔
    ∃ envelope, s.results i = some envelope ∧ envelope.status = status
  envelope : ∀ i envelope, s.results i = some envelope →
    envelope.sequence = i ∧ ∃ node, nodeAt nodes i = some node ∧ envelope.id = node.id
  ordered : Ordered nodes s.trace

section

variable {nodes : List SiblingToolDependencyNode} {capacity : ℕ} {s : SiblingRun τ} {i : ℕ}
  {node : SiblingToolDependencyNode}

section

variable (h : s.Steady nodes capacity)
include h

theorem Steady.mark (refused : List ℕ) (aborted : Bool) (phase : Phase) :
    { s with refused := refused, aborted := aborted, phase := phase }.Steady nodes capacity :=
  ⟨h.pending_nodup, h.running_nodup, h.pending_lt, h.running_lt, h.pending_new, h.covered,
    h.running_le, h.started_nodup, h.started_running, h.completed_iff, h.envelope, h.ordered⟩

/-- A node gets its result. -/
theorem Steady.complete (hnew : s.results i = none) (hnode : nodeAt nodes i = some node)
    {envelope : SiblingExecutionEnvelope τ} (hsequence : envelope.sequence = i)
    (hid : envelope.id = node.id) :
    { s with
      pending := s.pending.erase i
      results := Function.update s.results i (some envelope)
      trace := s.trace ++ [SiblingSchedulerEvent.completed i envelope.status] }.Steady nodes
        capacity := by
  have hself : Function.update s.results i (some envelope) i = some envelope :=
    Function.update_self ..
  have hother : ∀ j, j ≠ i → Function.update s.results i (some envelope) j = s.results j :=
    fun j hne => Function.update_of_ne hne ..
  have hstarted : startedOf (s.trace ++ [.completed i envelope.status]) = startedOf s.trace := by
    rw [startedOf_append]
    exact append_nil _
  constructor
  · exact h.pending_nodup.erase i
  · exact h.running_nodup
  · exact fun j hj => h.pending_lt j (mem_of_mem_erase hj)
  · exact h.running_lt
  · intro j hj
    obtain ⟨hne, hmem⟩ := h.pending_nodup.mem_erase_iff.mp hj
    exact ⟨(h.pending_new j hmem).1, (hother j hne).trans (h.pending_new j hmem).2⟩
  · intro j hj
    show j ∈ s.pending.erase i ∨ j ∈ s.running ∨ (Function.update s.results i _ j).isSome
    by_cases heq : j = i
    · rw [heq, hself]
      exact .inr (.inr rfl)
    · rw [hother j heq, mem_erase_of_ne heq]
      exact h.covered j hj
  · exact h.running_le
  · exact hstarted ▸ h.started_nodup
  · intro j hj
    obtain ⟨hpending, hrunning⟩ := h.started_running j (hstarted ▸ hj)
    refine ⟨fun hmem => hpending (mem_of_mem_erase hmem), fun hnone => ?_⟩
    have hne : j ≠ i := by
      rintro rfl
      cases hself.symm.trans hnone
    apply hrunning
    exact (hother j hne).symm.trans hnone
  · intro j status
    show _ ∈ s.trace ++ [_] ↔ ∃ e, Function.update s.results i _ j = some e ∧ _
    rw [mem_append, mem_singleton, h.completed_iff]
    by_cases heq : j = i
    · rw [heq, hself, hnew]
      simp [eq_comm]
    · rw [hother j heq]
      simp [heq]
  · intro j e he
    by_cases heq : j = i
    · subst heq
      obtain rfl := Option.some.inj (hself.symm.trans he)
      exact ⟨hsequence, node, hnode, hid⟩
    · exact h.envelope j e ((hother j heq).symm.trans he)
  · exact h.ordered.concat fun _ heq => absurd heq (by simp)

/-- A pending node starts. -/
theorem Steady.begin (hpending : i ∈ s.pending) (hroom : s.running.length < capacity)
    (hready : ∀ edge ∈ edgesOf nodes i, ∃ envelope, s.results edge.sequence = some envelope
      ∧ (edge.kind ≠ .conflict → envelope.status = .succeeded)) :
    { s with
      pending := s.pending.erase i
      running := s.running ++ [i]
      trace := s.trace ++ [SiblingSchedulerEvent.started i] }.Steady nodes capacity := by
  have hnew := h.pending_new i hpending
  have hstarted : startedOf (s.trace ++ [.started i]) = startedOf s.trace ++ [i] :=
    startedOf_append _ _
  have hrunning : ∀ j, j ∈ s.running ++ [i] ↔ j ∈ s.running ∨ j = i := fun j => by
    rw [mem_append, mem_singleton]
  constructor
  · exact h.pending_nodup.erase i
  · refine nodup_append.mpr ⟨h.running_nodup, pairwise_singleton _ _, ?_⟩
    intro j hj k hk heq
    rw [mem_singleton.mp hk] at heq
    exact hnew.1 (heq ▸ hj)
  · exact fun j hj => h.pending_lt j (mem_of_mem_erase hj)
  · intro j hj
    rcases (hrunning j).mp hj with hold | rfl
    · exact h.running_lt j hold
    · exact h.pending_lt j hpending
  · intro j hj
    obtain ⟨hne, hmem⟩ := h.pending_nodup.mem_erase_iff.mp hj
    refine ⟨fun hin => ?_, (h.pending_new j hmem).2⟩
    exact ((hrunning j).mp hin).elim (h.pending_new j hmem).1 hne
  · intro j hj
    by_cases heq : j = i
    · exact .inr (.inl ((hrunning j).mpr (.inr heq)))
    · rcases h.covered j hj with hold | hold | hold
      · exact .inl ((mem_erase_of_ne heq).mpr hold)
      · exact .inr (.inl ((hrunning j).mpr (.inl hold)))
      · exact .inr (.inr hold)
  · show (s.running ++ [i]).length ≤ capacity
    rw [length_append, length_singleton]
    omega
  · rw [hstarted]
    refine nodup_append.mpr ⟨h.started_nodup, pairwise_singleton _ _, ?_⟩
    intro j hj k hk heq
    rw [mem_singleton.mp hk] at heq
    exact (h.started_running j hj).1 (heq ▸ hpending)
  · intro j hj
    rw [hstarted] at hj
    rcases mem_append.mp hj with hold | hlast
    · obtain ⟨hnot, hrun⟩ := h.started_running j hold
      refine ⟨fun hmem => hnot (mem_of_mem_erase hmem), fun hnone => ?_⟩
      exact (hrunning j).mpr (.inl (hrun hnone))
    · obtain rfl := mem_singleton.mp hlast
      refine ⟨fun hmem => ?_, fun _ => (hrunning j).mpr (.inr rfl)⟩
      exact (h.pending_nodup.mem_erase_iff.mp hmem).1 rfl
  · intro j status
    show _ ∈ s.trace ++ [_] ↔ _
    rw [mem_append, mem_singleton, ← h.completed_iff]
    simp
  · exact h.envelope
  · apply h.ordered.concat
    intro j heq edge hedge
    obtain rfl := SiblingSchedulerEvent.started.inj heq
    obtain ⟨envelope, hresult, hkind⟩ := hready edge hedge
    exact ⟨envelope.status, (h.completed_iff _ _).mpr ⟨envelope, hresult, rfl⟩, hkind⟩

/-- A settled node is taken out of the running ones. -/
theorem Steady.drop (hsettled : (s.results i).isSome) :
    { s with running := s.running.erase i }.Steady nodes capacity := by
  constructor
  · exact h.pending_nodup
  · exact h.running_nodup.erase i
  · exact h.pending_lt
  · exact fun j hj => h.running_lt j (mem_of_mem_erase hj)
  · intro j hj
    exact ⟨fun hmem => (h.pending_new j hj).1 (mem_of_mem_erase hmem), (h.pending_new j hj).2⟩
  · intro j hj
    by_cases heq : j = i
    · exact .inr (.inr (heq ▸ hsettled))
    · rcases h.covered j hj with hold | hold | hold
      · exact .inl hold
      · exact .inr (.inl ((mem_erase_of_ne heq).mpr hold))
      · exact .inr (.inr hold)
  · exact (length_erase_le ..).trans h.running_le
  · exact h.started_nodup
  · intro j hj
    obtain ⟨hnot, hrun⟩ := h.started_running j hj
    refine ⟨hnot, fun hnone => (mem_erase_of_ne ?_).mpr (hrun hnone)⟩
    rintro rfl
    have hresult : s.results j = none := hnone
    rw [hresult] at hsettled
    cases hsettled
  · exact h.completed_iff
  · exact h.envelope
  · exact h.ordered

end

theorem steady_new (h : Connected nodes) (capacity : ℕ) (aborted : Bool) :
    (new nodes aborted : SiblingRun τ).Steady nodes capacity := by
  have hpending : (new nodes aborted : SiblingRun τ).pending = List.range nodes.length :=
    h.sequences
  have hqueued : ∀ event ∈ (new nodes aborted : SiblingRun τ).trace,
      ∃ i, event = .queued i := by
    intro event hevent
    obtain ⟨node, -, rfl⟩ := mem_map.mp hevent
    exact ⟨node.sequence, rfl⟩
  have hstarted : startedOf (new nodes aborted : SiblingRun τ).trace = [] := by
    apply eq_nil_iff_forall_not_mem.mpr
    intro i hi
    obtain ⟨j, heq⟩ := hqueued _ (mem_startedOf.mp hi)
    cases heq
  constructor
  · exact hpending ▸ nodup_range
  · exact nodup_nil
  · exact fun i hi => mem_range.mp (hpending ▸ hi)
  · exact fun i hi => absurd hi not_mem_nil
  · exact fun i _ => ⟨not_mem_nil, rfl⟩
  · exact fun i hi => .inl (hpending ▸ mem_range.mpr hi)
  · exact Nat.zero_le _
  · exact hstarted ▸ nodup_nil
  · exact fun i hi => absurd hi (hstarted ▸ not_mem_nil)
  · intro i status
    constructor
    · intro hmem
      obtain ⟨j, heq⟩ := hqueued _ hmem
      cases heq
    · rintro ⟨envelope, hnone, -⟩
      cases hnone
  · exact fun i envelope hnone => absurd hnone (by simp [new])
  · intro before i after heq
    have hmem : .started i ∈ (new nodes aborted : SiblingRun τ).trace := by
      rw [heq]
      exact mem_append_right _ mem_cons_self
    obtain ⟨j, hqueue⟩ := hqueued _ hmem
    cases hqueue

end

end SiblingRun

end Lumi.Siblings
