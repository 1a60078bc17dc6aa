import Lumi.Subagent.WaitForGraph

/-!
# What the deadlock detector reports

The detector reports the components of the wait-for graph that have a cycle and no escape, each
once (`detectDeadlocks_exact`).  The escape is a matter of a single member: it waits for a resource
that a running lane outside owns, whatever else it waits for, and that lane has no wait of its own
that leads into the component at once.  So a cycle of dependencies is not reported if one of its
lanes also waits for such a resource (`cycle_with_running_owner`).
-/

namespace Lumi.Subagent

open Js List

namespace SchedulerSnapshot

section

variable (snapshot : SchedulerSnapshot)

/-- `y` waits, over others, for `x`, and `x` for `y`. -/
def SameComponent (x y : WaitNode) : Prop :=
  Relation.ReflTransGen snapshot.WaitsFor x y ∧ Relation.ReflTransGen snapshot.WaitsFor y x

/-- `x` waits, over others, for itself. -/
def OnCycle (x : WaitNode) : Prop :=
  Relation.TransGen snapshot.WaitsFor x x

/-- A lane waits for a lane of the component of `x`, for itself or for a resource of its. -/
def WaitsOnComponent (x : WaitNode) (index : ℕ) : Prop :=
  (∃ d ∈ snapshot.dependsOn index, snapshot.SameComponent x (.lane d))
    ∨ ∃ r o, snapshot.Requests index r ∧ snapshot.resourceOwnership r = some o
      ∧ snapshot.SameComponent x (.lane o)

/-- A lane of the component of `x` waits for a resource whose owner runs outside the component and
does not wait on it. -/
def Escapes (x : WaitNode) : Prop :=
  ∃ i r o, snapshot.Involved i ∧ snapshot.SameComponent x (.lane i) ∧ snapshot.Requests i r
    ∧ snapshot.resourceOwnership r = some o ∧ o ∈ snapshot.runningLaneIndices
    ∧ ¬ snapshot.SameComponent x (.lane o) ∧ ¬ snapshot.WaitsOnComponent x o

end

variable {snapshot : SchedulerSnapshot} {x : WaitNode} {component : List Text}

/-! ## Names and nodes -/

section

variable (h : snapshot.Quiet)
include h

theorem Quiet.successors_name (x : WaitNode) (b : Text) :
    b ∈ successors snapshot.buildWaitForGraph.1 x.name ↔
      ∃ y, snapshot.WaitsFor x y ∧ b = y.name := by
  rw [h.mem_successors_iff]
  constructor
  · rintro ⟨x', y, hwaits, hx, rfl⟩
    exact ⟨y, WaitNode.name_injective hx ▸ hwaits, rfl⟩
  · rintro ⟨y, hwaits, rfl⟩
    exact ⟨x, y, hwaits, rfl, rfl⟩

theorem Quiet.reach_name (x : WaitNode) (b : Text) :
    Tarjan.Reach (successors snapshot.buildWaitForGraph.1) x.name b ↔
      ∃ y, Relation.ReflTransGen snapshot.WaitsFor x y ∧ b = y.name := by
  constructor
  · intro hreach
    induction hreach with
    | refl => exact ⟨x, .refl, rfl⟩
    | tail _ hedge ih =>
      obtain ⟨y, hy, rfl⟩ := ih
      obtain ⟨z, hz, rfl⟩ := (h.successors_name y _).mp hedge
      exact ⟨z, hy.tail hz, rfl⟩
  · rintro ⟨y, hreach, rfl⟩
    induction hreach with
    | refl => exact .refl
    | tail _ hwaits ih => exact ih.tail ((h.successors_name _ _).mpr ⟨_, hwaits, rfl⟩)

theorem Quiet.mutual_name (x : WaitNode) (b : Text) :
    Tarjan.Mutual (successors snapshot.buildWaitForGraph.1) x.name b ↔
      ∃ y, snapshot.SameComponent x y ∧ b = y.name := by
  constructor
  · rintro ⟨hto, hfrom⟩
    obtain ⟨y, hy, rfl⟩ := (h.reach_name x b).mp hto
    obtain ⟨x', hx', heq⟩ := (h.reach_name y _).mp hfrom
    exact ⟨y, ⟨hy, WaitNode.name_injective heq ▸ hx'⟩, rfl⟩
  · rintro ⟨y, ⟨hto, hfrom⟩, rfl⟩
    exact ⟨(h.reach_name x _).mpr ⟨y, hto, rfl⟩, (h.reach_name y _).mpr ⟨x, hfrom, rfl⟩⟩

theorem Quiet.onCycle_name (x : WaitNode) :
    Tarjan.OnCycle (successors snapshot.buildWaitForGraph.1) x.name ↔ snapshot.OnCycle x := by
  rw [Tarjan.OnCycle, OnCycle, Relation.TransGen.head'_iff, Relation.TransGen.head'_iff]
  constructor
  · rintro ⟨b, hedge, hreach⟩
    obtain ⟨y, hy, rfl⟩ := (h.successors_name x b).mp hedge
    obtain ⟨x', hx', heq⟩ := (h.reach_name y _).mp hreach
    exact ⟨y, hy, WaitNode.name_injective heq ▸ hx'⟩
  · rintro ⟨y, hwaits, hreach⟩
    exact ⟨y.name, (h.successors_name x _).mpr ⟨y, hwaits, rfl⟩,
      (h.reach_name y _).mpr ⟨x, hreach, rfl⟩⟩

end

/-- The component of `x` in the graph is that of its name. -/
def IsComponent (snapshot : SchedulerSnapshot) (x : WaitNode) (component : List Text) : Prop :=
  ∀ b, b ∈ component ↔ ∃ y, snapshot.SameComponent x y ∧ b = y.name

theorem IsComponent.contains_lane (hclass : snapshot.IsComponent x component) (i : ℕ) :
    component.contains (laneId i) ↔ snapshot.SameComponent x (.lane i) := by
  rw [contains_iff_mem, hclass]
  constructor
  · rintro ⟨y, hsame, heq⟩
    have hname : WaitNode.name (.lane i) = y.name := heq
    exact WaitNode.name_injective hname ▸ hsame
  · exact fun hsame => ⟨_, hsame, rfl⟩

/-! ## Escapes -/

theorem ownerWaitsOnComponent_iff (hclass : snapshot.IsComponent x component) (index : ℕ) :
    snapshot.ownerWaitsOnComponent index component ↔ snapshot.WaitsOnComponent x index := by
  rw [ownerWaitsOnComponent, Bool.or_eq_true]
  apply or_congr
  · rw [any_eq_true]
    simp only [hclass.contains_lane]
  · cases hwaits : snapshot.laneWaitingForResource index with
    | none => simp [Requests, hwaits]
    | some r =>
      have hcontains := hclass.contains_lane
      cases howner : snapshot.resourceOwnership r with
      | none => simp_all [Requests]
      | some o =>
        dsimp only
        rw [howner, Option.any_some, Bool.and_eq_true, hcontains]
        constructor
        · rintro ⟨hne, hsame⟩
          exact ⟨r, o, ⟨hwaits, by simpa using hne⟩, howner, hsame⟩
        · rintro ⟨r', o', ⟨hr', hne⟩, ho', hsame⟩
          obtain rfl := Option.some.inj (hwaits.symm.trans hr')
          obtain rfl := Option.some.inj (howner.symm.trans ho')
          exact ⟨by simpa using hne, hsame⟩

theorem Quiet.isEscape_iff (h : snapshot.Quiet) (hclass : snapshot.IsComponent x component)
    (i : ℕ) (r : Text) :
    snapshot.isEscape component (.resourceOwnership (laneId i) (resourceNode r)) ↔
      snapshot.SameComponent x (.lane i) ∧ ∃ o, snapshot.resourceOwnership r = some o
        ∧ o ∈ snapshot.runningLaneIndices ∧ ¬ snapshot.SameComponent x (.lane o)
        ∧ ¬ snapshot.WaitsOnComponent x o := by
  have hdrop : (resourceNode r).drop (text "resource:").length = r := drop_left
  have hwaits := fun o => (ownerWaitsOnComponent_iff hclass o).not
  have hmem := fun o => (contains_iff_mem.symm.trans (hclass.contains_lane o)).not
  rw [isEscape, hdrop, h.leases, Bool.and_eq_true, hclass.contains_lane]
  apply and_congr_right'
  rw [Option.any_none, Bool.false_or, Option.any_eq_true]
  simp only [Bool.and_eq_true, Bool.not_eq_true', contains_iff_mem, ← Bool.not_eq_true, hwaits,
    hmem, and_assoc]

theorem Quiet.hasEscapeTransition_iff (h : snapshot.Quiet)
    (hclass : snapshot.IsComponent x component) :
    snapshot.hasEscapeTransition component snapshot.buildWaitForGraph.2 ↔ snapshot.Escapes x := by
  rw [hasEscapeTransition, h.edges, any_eq_true]
  constructor
  · rintro ⟨edge, hedge, hescape⟩
    obtain ⟨i, hi, hmem⟩ := mem_flatMap.mp hedge
    rcases mem_laneEdges.mp hmem with ⟨d, hd, hopen, rfl⟩ | ⟨r, hr, rfl | ⟨o, ho, rfl⟩⟩
    · exact absurd hescape (by simp [isEscape])
    · obtain ⟨hsame, o, ho, hrunning, hout, hwaits⟩ := (h.isEscape_iff hclass i r).mp hescape
      exact ⟨i, r, o, mem_laneIndices.mp hi, hsame, hr, ho, hrunning, hout, hwaits⟩
    · exact absurd hescape (by simp [isEscape])
  · rintro ⟨i, r, o, hi, hsame, hr, ho, hrunning, hout, hwaits⟩
    refine ⟨.resourceOwnership (laneId i) (resourceNode r), mem_flatMap.mpr
      ⟨i, mem_laneIndices.mpr hi, mem_laneEdges.mpr (.inr ⟨r, hr, .inl rfl⟩)⟩, ?_⟩
    exact (h.isEscape_iff hclass i r).mpr ⟨hsame, o, ho, hrunning, hout, hwaits⟩

/-! ## The report -/

theorem isCyclic_iff (graph : Graph) (component : List Text) : isCyclic graph component ↔
    1 < component.length ∨ ∃ a ∈ component.head?, a ∈ successors graph a := by
  rw [isCyclic, Bool.or_eq_true, decide_eq_true_eq, Option.any_eq_true]
  simp only [contains_iff_mem, Option.mem_def]

/-- A component of the graph with a cycle is that of a node. -/
theorem Quiet.isComponent_of_cyclic (h : snapshot.Quiet) (hnodup : component.Nodup) {a : Text}
    (hclass : ∀ b, b ∈ component ↔ Tarjan.Mutual (successors snapshot.buildWaitForGraph.1) a b)
    (hcyclic : isCyclic snapshot.buildWaitForGraph.1 component) :
    ∃ x, snapshot.IsComponent x component ∧ snapshot.OnCycle x := by
  have hcycle := (Tarjan.cyclic_iff hnodup hclass).mp ((isCyclic_iff _ _).mp hcyclic)
  obtain ⟨b, hedge, -⟩ := Relation.TransGen.head'_iff.mp hcycle
  obtain ⟨x, y, -, rfl, -⟩ := (h.mem_successors_iff a b).mp hedge
  exact ⟨x, fun b => (hclass b).trans (h.mutual_name x b), (h.onCycle_name x).mp hcycle⟩

theorem Quiet.mem_cycles_iff (h : snapshot.Quiet) (x : WaitNode)
    (hclass : snapshot.IsComponent x component) : component ∈ (detectDeadlocks snapshot).cycles ↔
      component ∈ Tarjan.components (successors snapshot.buildWaitForGraph.1)
          snapshot.buildWaitForGraph.1.keys
        ∧ isCyclic snapshot.buildWaitForGraph.1 component ∧ ¬ snapshot.Escapes x := by
  show component ∈ List.filter _ _ ↔ _
  rw [mem_filter, Bool.and_eq_true, Bool.not_eq_true', ← Bool.not_eq_true,
    h.hasEscapeTransition_iff hclass]

/-- Without timers, leases and a full pool the detector reports the components of the wait-for
graph that have a cycle and no escape, each once, and nothing else. -/
theorem detectDeadlocks_exact (snapshot : SchedulerSnapshot) (h : snapshot.Quiet) :
    (∀ cycle ∈ (detectDeadlocks snapshot).cycles, cycle.Nodup
        ∧ ∃ x, snapshot.IsComponent x cycle ∧ snapshot.OnCycle x ∧ ¬ snapshot.Escapes x)
      ∧ (detectDeadlocks snapshot).cycles.Pairwise List.Disjoint
      ∧ (∀ x, snapshot.OnCycle x → ¬ snapshot.Escapes x →
        ∃ cycle ∈ (detectDeadlocks snapshot).cycles, snapshot.IsComponent x cycle)
      ∧ ((detectDeadlocks snapshot).hasDeadlock ↔
        ∃ x, snapshot.OnCycle x ∧ ¬ snapshot.Escapes x) := by
  have hgraph := represents_buildWaitForGraph snapshot
  have hclosed : ∀ a ∈ snapshot.buildWaitForGraph.1.keys,
      ∀ b ∈ successors snapshot.buildWaitForGraph.1 a, b ∈ snapshot.buildWaitForGraph.1.keys :=
    fun a _ b hb => (hgraph.closed a b hb).2
  obtain ⟨hcomponents, hdisjoint, hall⟩ := Tarjan.components_spec hclosed
  have hsound : ∀ cycle ∈ (detectDeadlocks snapshot).cycles, cycle.Nodup
      ∧ ∃ x, snapshot.IsComponent x cycle ∧ snapshot.OnCycle x ∧ ¬ snapshot.Escapes x := by
    intro cycle hcycle
    obtain ⟨hmem, htest⟩ := mem_filter.mp hcycle
    obtain ⟨hnodup, a, -, hclass⟩ := hcomponents cycle hmem
    rw [Bool.and_eq_true] at htest
    obtain ⟨x, hx, honCycle⟩ := h.isComponent_of_cyclic hnodup hclass htest.1
    exact ⟨hnodup, x, hx, honCycle, ((h.mem_cycles_iff x hx).mp hcycle).2.2⟩
  have hcomplete : ∀ x, snapshot.OnCycle x → ¬ snapshot.Escapes x →
      ∃ cycle ∈ (detectDeadlocks snapshot).cycles, snapshot.IsComponent x cycle := by
    intro x honCycle hstuck
    have hcycle := (h.onCycle_name x).mpr honCycle
    obtain ⟨b, hedge, -⟩ := Relation.TransGen.head'_iff.mp hcycle
    obtain ⟨cycle, hmem, hx⟩ := hall x.name (hgraph.closed _ _ hedge).1
    obtain ⟨hnodup, a, -, hclass⟩ := hcomponents cycle hmem
    -- the component is the class of the name of `x` as well
    have hmutual := (hclass x.name).mp hx
    have hclass' : ∀ b, b ∈ cycle ↔
        Tarjan.Mutual (successors snapshot.buildWaitForGraph.1) x.name b := fun b =>
      (hclass b).trans ⟨fun hb => ⟨hmutual.2.trans hb.1, hb.2.trans hmutual.1⟩,
        fun hb => ⟨hmutual.1.trans hb.1, hb.2.trans hmutual.2⟩⟩
    have hcomponent : snapshot.IsComponent x cycle := fun b => (hclass' b).trans (h.mutual_name x b)
    have hcyclic := (isCyclic_iff snapshot.buildWaitForGraph.1 cycle).mpr
      ((Tarjan.cyclic_iff hnodup hclass').mpr hcycle)
    exact ⟨cycle, (h.mem_cycles_iff x hcomponent).mpr ⟨hmem, hcyclic, hstuck⟩, hcomponent⟩
  refine ⟨hsound, hdisjoint.filter _, hcomplete, ?_⟩
  have hreport : (detectDeadlocks snapshot).hasDeadlock ↔ (detectDeadlocks snapshot).cycles ≠ [] :=
    decide_eq_true_iff
  rw [hreport]
  constructor
  · intro hne
    obtain ⟨cycle, rest, hcons⟩ := exists_cons_of_ne_nil hne
    obtain ⟨-, x, -, hx⟩ := hsound cycle (hcons ▸ mem_cons_self)
    exact ⟨x, hx⟩
  · rintro ⟨x, honCycle, hstuck⟩
    obtain ⟨cycle, hmem, -⟩ := hcomplete x honCycle hstuck
    exact ne_nil_of_mem hmem

section

/-- Two lanes that depend on each other, and a running lane that owns the resources. -/
def twoLanes (laneWaitingForResource : ℕ → Option Text) : SchedulerSnapshot where
  pendingLanes := [0, 1]
  runningLaneIndices := [2]
  timersActive := []
  activeLaneExecutions := 1
  maxInFlightLanes := 3
  dag := [(0, ⟨text "pending", [1]⟩), (1, ⟨text "pending", [0]⟩), (2, ⟨text "running", []⟩)]
  stateVersion := 0
  laneStateVersion := none
  observedAt := 0
  resourceOwnership _ := some 2
  laneWaitingForResource
  timerDeadlines _ := none
  leaseExpirations _ := none

theorem twoLanes_quiet (waits : ℕ → Option Text) : (twoLanes waits).Quiet :=
  ⟨rfl, fun _ => rfl, .inl (show 1 < 3 by decide)⟩

theorem twoLanes_onCycle (waits : ℕ → Option Text) : (twoLanes waits).OnCycle (.lane 0) := by
  have hpending : ∀ i ∈ [0, 1], (twoLanes waits).Involved i := fun i hi => .pending hi
  have hopen : ¬ (text "pending" = text "sealed" : Bool) := by decide
  have hforth : (twoLanes waits).WaitsFor (.lane 0) (.lane 1) :=
    .dependency (hpending 0 (by decide)) (show 1 ∈ [1] by decide) hopen
  have hback : (twoLanes waits).WaitsFor (.lane 1) (.lane 0) :=
    .dependency (hpending 1 (by decide)) (show 0 ∈ [0] by decide) hopen
  exact .tail (.single hforth) hback

theorem two_lanes_reported :
    ∃ x, (twoLanes fun _ => none).OnCycle x ∧ ¬ (twoLanes fun _ => none).Escapes x :=
  (detectDeadlocks_exact (twoLanes fun _ => none) (twoLanes_quiet _)).2.2.2.mp (by decide +kernel)

/-- A cycle of dependencies is not reported if a lane of it also waits for a resource of a running
lane. -/
theorem cycle_with_running_owner :
    let snapshot := twoLanes fun index => if index = 0 then some (text "R") else none
    snapshot.Quiet ∧ (∀ r o, snapshot.resourceOwnership r = some o → ¬ snapshot.isSealed o)
      ∧ snapshot.OnCycle (.lane 0) ∧ (detectDeadlocks snapshot).hasDeadlock = false
      ∧ (detectDeadlocks snapshot).cycles = [] := by
  refine ⟨twoLanes_quiet _, ?_, twoLanes_onCycle _, by decide +kernel, by decide +kernel⟩
  rintro r o heq
  obtain rfl := Option.some.inj heq
  show ¬ (text "running" = text "sealed" : Bool)
  decide

end

end SchedulerSnapshot

end Lumi.Subagent
