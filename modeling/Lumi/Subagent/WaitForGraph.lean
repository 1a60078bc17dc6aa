import Lumi.Subagent.TarjanDeadlockDetector

/-!
# The wait-for graph of the lanes

The lanes of a snapshot are those that are pending or running and what they depend on.  A lane waits
for the lanes it depends on that are not sealed and for the resource it has asked for, and a
resource for the lane that owns it.  Without timers, leases and a full pool the graph of the
detector has these edges and no others (`mem_successors_iff`).
-/

namespace Lumi.Subagent

open Js List InsertionMap

/-- What waits and is waited for. -/
inductive WaitNode
  | lane (index : ℕ)
  | resource (resourceId : Text)

def WaitNode.name : WaitNode → Text
  | lane index => laneId index
  | resource resourceId => resourceNode resourceId

namespace SchedulerSnapshot

/-- The lanes that are pending or running, and what they depend on. -/
inductive Involved (snapshot : SchedulerSnapshot) : ℕ → Prop
  | pending {index : ℕ} (h : index ∈ snapshot.pendingLanes) : snapshot.Involved index
  | running {index : ℕ} (h : index ∈ snapshot.runningLaneIndices) : snapshot.Involved index
  | dependency {index dependency : ℕ} (h : snapshot.Involved index)
      (hdependency : dependency ∈ snapshot.dependsOn index) : snapshot.Involved dependency

/-- A lane waits for a resource. -/
def Requests (snapshot : SchedulerSnapshot) (index : ℕ) (resourceId : Text) : Prop :=
  snapshot.laneWaitingForResource index = some resourceId ∧ resourceId ≠ []

inductive WaitsFor (snapshot : SchedulerSnapshot) : WaitNode → WaitNode → Prop
  | dependency {index dependency : ℕ} (h : snapshot.Involved index)
      (hdependency : dependency ∈ snapshot.dependsOn index)
      (hopen : ¬ snapshot.isSealed dependency) :
      snapshot.WaitsFor (.lane index) (.lane dependency)
  | resource {index : ℕ} {resourceId : Text} (h : snapshot.Involved index)
      (hrequests : snapshot.Requests index resourceId) :
      snapshot.WaitsFor (.lane index) (.resource resourceId)
  | owner {index owner : ℕ} {resourceId : Text} (h : snapshot.Involved index)
      (hrequests : snapshot.Requests index resourceId)
      (howner : snapshot.resourceOwnership resourceId = some owner) :
      snapshot.WaitsFor (.resource resourceId) (.lane owner)

/-- No timers, no leases that expire, and room in the pool or nobody who waits for it. -/
structure Quiet (snapshot : SchedulerSnapshot) : Prop where
  timers : snapshot.timersActive = []
  leases : ∀ resourceId, snapshot.leaseExpirations resourceId = none
  room : snapshot.activeLaneExecutions < snapshot.maxInFlightLanes ∨ snapshot.pendingLanes = []

end SchedulerSnapshot

/-! ## The graph is that of the recorded edges -/

theorem mem_setAdd {α : Type*} [BEq α] [LawfulBEq α] {xs : List α} {x y : α} :
    y ∈ setAdd xs x ↔ y ∈ xs ∨ y = x := by
  unfold setAdd
  split
  · next hmem =>
    refine ⟨Or.inl, fun h => h.elim id ?_⟩
    rintro rfl
    exact contains_iff_mem.mp hmem
  · rw [mem_append, mem_singleton]

theorem keys_addNode (graph : Graph) (node a : Text) :
    a ∈ (addNode graph node).keys ↔ a ∈ graph.keys ∨ a = node := by
  unfold addNode
  split
  · rw [mem_keys_iff, mem_keys_iff]
    simp only [get?_set]
    split <;> simp_all
  · next hsome =>
    refine ⟨Or.inl, fun h => h.elim id ?_⟩
    rintro rfl
    rw [← not_not (a := a ∈ graph.keys), ← get?_eq_none_iff]
    simpa using hsome

theorem successors_addNode (graph : Graph) (node a : Text) :
    successors (addNode graph node) a = successors graph a := by
  unfold addNode
  split
  · next hnone =>
    rw [successors, successors, get?_set]
    split
    · next heq =>
      rw [heq, Option.isNone_iff_eq_none.mp hnone]
      rfl
    · rfl
  · rfl

theorem keys_addEdge (graph : Graph) (source target a : Text) :
    a ∈ (addEdge graph source target).keys ↔ a ∈ graph.keys ∨ a = source ∨ a = target := by
  have hset : ∀ (g : Graph) (xs : List Text), source ∈ g.keys →
      (a ∈ (g.set source xs).keys ↔ a ∈ g.keys) := by
    intro g xs hsource
    rw [mem_keys_iff, mem_keys_iff, get?_set]
    split
    · next heq =>
      have hkey := mem_keys_iff.mp hsource
      rw [heq]
      exact ⟨fun _ => hkey, fun _ => ⟨_, rfl⟩⟩
    · exact Iff.rfl
  have hsource : source ∈ (addNode (addNode graph source) target).keys :=
    (keys_addNode ..).mpr (.inl ((keys_addNode ..).mpr (.inr rfl)))
  rw [addEdge, hset _ _ hsource, keys_addNode, keys_addNode, or_assoc]

theorem mem_successors_addEdge (graph : Graph) (source target a b : Text) :
    b ∈ successors (addEdge graph source target) a ↔
      b ∈ successors graph a ∨ a = source ∧ b = target := by
  have hold : ∀ c, successors (addNode (addNode graph source) target) c = successors graph c :=
    fun c => by rw [successors_addNode, successors_addNode]
  rw [addEdge, successors, get?_set]
  split
  · next heq =>
    rw [Option.getD_some, mem_setAdd, hold, heq]
    simp
  · next hne =>
    show b ∈ successors (addNode (addNode graph source) target) a ↔ _
    rw [hold]
    simp [hne]

/-- The edges of a graph are those, and the nodes have all their ends. -/
structure Represents (graph : Graph) (edges : List WaitEdge) : Prop where
  edge_iff : ∀ a b, b ∈ successors graph a ↔ ∃ edge ∈ edges, edge.arc = some (a, b)
  closed : ∀ a b, b ∈ successors graph a → a ∈ graph.keys ∧ b ∈ graph.keys

theorem represents_empty : Represents .empty [] :=
  ⟨fun _ _ => ⟨fun h => absurd h not_mem_nil, fun ⟨_, h, _⟩ => absurd h not_mem_nil⟩,
    fun _ _ h => absurd h not_mem_nil⟩

variable {graph : Graph}

theorem Represents.addNode {edges : List WaitEdge} (h : Represents graph edges) (node : Text) :
    Represents (addNode graph node) edges := by
  constructor
  · intro a b
    rw [successors_addNode]
    exact h.edge_iff a b
  · intro a b hedge
    rw [successors_addNode] at hedge
    rw [keys_addNode, keys_addNode]
    exact ⟨.inl (h.closed a b hedge).1, .inl (h.closed a b hedge).2⟩

theorem Represents.addArc {edges : List WaitEdge} (h : Represents graph edges) (edge : WaitEdge) :
    Represents (addArc graph edge) (edges ++ [edge]) := by
  unfold Subagent.addArc
  cases harc : edge.arc with
  | none =>
    refine ⟨fun a b => ?_, h.closed⟩
    rw [h.edge_iff]
    simp [harc]
  | some arc =>
    obtain ⟨source, target⟩ := arc
    constructor
    · intro a b
      show b ∈ successors (addEdge graph source target) a ↔ _
      rw [mem_successors_addEdge, h.edge_iff]
      simp [harc, or_and_right, exists_or, eq_comm]
    · intro a b hedge
      rw [mem_successors_addEdge] at hedge
      show a ∈ (addEdge graph source target).keys ∧ b ∈ (addEdge graph source target).keys
      rw [keys_addEdge, keys_addEdge]
      rcases hedge with hold | ⟨rfl, rfl⟩
      · exact ⟨.inl (h.closed a b hold).1, .inl (h.closed a b hold).2⟩
      · exact ⟨.inr (.inl rfl), .inr (.inr rfl)⟩

theorem Represents.foldl_addArc {edges : List WaitEdge} (h : Represents graph edges)
    (more : List WaitEdge) : Represents (more.foldl Subagent.addArc graph) (edges ++ more) := by
  induction more generalizing graph edges with
  | nil => exact (append_nil edges).symm ▸ h
  | cons edge rest ih =>
    rw [foldl_cons, append_cons]
    exact ih (h.addArc edge)

theorem Represents.foldl_addLane (snapshot : SchedulerSnapshot) {edges : List WaitEdge}
    (h : Represents graph edges) (lanes : List ℕ) :
    Represents (lanes.foldl snapshot.addLane graph)
      (edges ++ lanes.flatMap snapshot.laneEdges) := by
  induction lanes generalizing graph edges with
  | nil => exact (append_nil edges).symm ▸ h
  | cons index rest ih =>
    rw [foldl_cons, flatMap_cons, ← append_assoc]
    exact ih ((h.addNode (laneId index)).foldl_addArc _)

/-! ## The lanes of the graph -/

namespace SchedulerSnapshot

variable {snapshot : SchedulerSnapshot}

/-- How many of the possible lanes are missing. -/
def missing (possible lanes : List ℕ) : ℕ := possible.countP fun index => !lanes.contains index

/-- The dependencies of a lane join the lanes and the queue, each once. -/
theorem foldl_enqueue {possible dependencies : List ℕ} (hsub : dependencies ⊆ possible)
    (lanes queue : List ℕ) :
    ∃ added, dependencies.foldl enqueue (lanes, queue) = (lanes ++ added, added.reverse ++ queue)
      ∧ added ⊆ dependencies ∧ dependencies ⊆ lanes ++ added
      ∧ missing possible (lanes ++ added) + added.length ≤ missing possible lanes := by
  induction dependencies generalizing lanes queue with
  | nil => exact ⟨[], by simp, List.Subset.refl _, nil_subset _, by simp⟩
  | cons dependency rest ih =>
    have hrest : rest ⊆ possible := fun i hi => hsub (mem_cons_of_mem _ hi)
    rw [foldl_cons]
    by_cases hmem : dependency ∈ lanes
    · have hsame : enqueue (lanes, queue) dependency = (lanes, queue) :=
        if_pos (contains_iff_mem.mpr hmem)
      rw [hsame]
      obtain ⟨added, heq, hadded, hall, hmissing⟩ := ih hrest lanes queue
      refine ⟨added, heq, fun i hi => mem_cons_of_mem _ (hadded hi), ?_, hmissing⟩
      exact cons_subset.mpr ⟨mem_append_left _ hmem, hall⟩
    · have hnew : enqueue (lanes, queue) dependency
          = (lanes ++ [dependency], dependency :: queue) :=
        if_neg fun hcontains => hmem (contains_iff_mem.mp hcontains)
      rw [hnew]
      obtain ⟨added, heq, hadded, hall, hmissing⟩ :=
        ih hrest (lanes ++ [dependency]) (dependency :: queue)
      have hless : missing possible (lanes ++ [dependency]) < missing possible lanes := by
        apply Tarjan.countP_lt_countP _ (hsub mem_cons_self)
        · simpa using hmem
        · simp
        · intro i _ hi
          simp only [contains_append, Bool.not_or, Bool.and_eq_true] at hi
          exact hi.1
      refine ⟨dependency :: added, ?_, ?_, ?_, ?_⟩
      · rw [heq]
        simp
      · refine cons_subset.mpr ⟨mem_cons_self, fun i hi => ?_⟩
        exact mem_cons_of_mem _ (hadded hi)
      · refine cons_subset.mpr ⟨by simp, ?_⟩
        rw [append_cons]
        exact hall
      · rw [append_cons, length_cons]
        omega

/-- **The loop over the queue** adds what the lanes depend on and nothing else. -/
theorem closeLanes_spec {possible : List ℕ} (hpossible : ∀ i, snapshot.dependsOn i ⊆ possible)
    {fuel : ℕ} : ∀ {lanes queue : List ℕ}, queue ⊆ lanes → (∀ i ∈ lanes, snapshot.Involved i) →
      (∀ i ∈ lanes, i ∉ queue → snapshot.dependsOn i ⊆ lanes) →
        missing possible lanes + queue.length ≤ fuel →
          lanes ⊆ snapshot.closeLanes fuel lanes queue
            ∧ (∀ i ∈ snapshot.closeLanes fuel lanes queue, snapshot.Involved i)
            ∧ ∀ i ∈ snapshot.closeLanes fuel lanes queue,
              snapshot.dependsOn i ⊆ snapshot.closeLanes fuel lanes queue := by
  induction fuel with
  | zero =>
    intro lanes queue _ hinvolved hclosed hfuel
    obtain rfl : queue = [] := length_eq_zero_iff.mp (by omega)
    exact ⟨List.Subset.refl _, hinvolved, fun i hi => hclosed i hi not_mem_nil⟩
  | succ fuel ih =>
    intro lanes queue hqueue hinvolved hclosed hfuel
    cases queue with
    | nil => exact ⟨List.Subset.refl _, hinvolved, fun i hi => hclosed i hi not_mem_nil⟩
    | cons index queue =>
      obtain ⟨added, heq, hadded, hall, hmissing⟩ :=
        foldl_enqueue (hpossible index) lanes queue
      have hindex := hinvolved index (hqueue mem_cons_self)
      have hqueued : added.reverse ++ queue ⊆ lanes ++ added := by
        intro i hi
        rcases mem_append.mp hi with hnew | hold
        · exact mem_append_right _ (mem_reverse.mp hnew)
        · exact mem_append_left _ (hqueue (mem_cons_of_mem _ hold))
      have hinvolved' : ∀ i ∈ lanes ++ added, snapshot.Involved i := by
        intro i hi
        rcases mem_append.mp hi with hold | hnew
        · exact hinvolved i hold
        · exact hindex.dependency (hadded hnew)
      have hclosed' : ∀ i ∈ lanes ++ added, i ∉ added.reverse ++ queue →
          snapshot.dependsOn i ⊆ lanes ++ added := by
        intro i hi hnot
        rw [mem_append, not_or] at hnot
        rcases mem_append.mp hi with hold | hnew
        · by_cases heq : i = index
          · exact heq ▸ hall
          · have hwaits : i ∉ index :: queue := fun hmem =>
              (mem_cons.mp hmem).elim heq hnot.2
            exact fun d hd => mem_append_left _ (hclosed i hold hwaits hd)
        · exact absurd (mem_reverse.mpr hnew) hnot.1
      have hfuel' :
          missing possible (lanes ++ added) + (added.reverse ++ queue).length ≤ fuel := by
        rw [length_append, length_reverse]
        rw [length_cons] at hfuel
        omega
      obtain ⟨hsub, hnext⟩ := ih hqueued hinvolved' hclosed' hfuel'
      rw [closeLanes, heq]
      exact ⟨fun i hi => hsub (mem_append_left _ hi), hnext⟩

theorem mem_foldl_setAdd {xs ys : List ℕ} {i : ℕ} : i ∈ ys.foldl setAdd xs ↔ i ∈ xs ∨ i ∈ ys := by
  induction ys generalizing xs with
  | nil => simp
  | cons y rest ih => rw [foldl_cons, ih, mem_setAdd, mem_cons, or_assoc]

/-- The lanes of the graph are those involved. -/
theorem mem_laneIndices {i : ℕ} : i ∈ snapshot.laneIndices ↔ snapshot.Involved i := by
  have hinitial : ∀ j, j ∈ (snapshot.pendingLanes ++ snapshot.runningLaneIndices).foldl setAdd [] ↔
      j ∈ snapshot.pendingLanes ∨ j ∈ snapshot.runningLaneIndices := fun j => by
    rw [mem_foldl_setAdd, mem_append]
    simp
  have hpossible : ∀ j,
      snapshot.dependsOn j ⊆ snapshot.dag.flatMap fun entry => entry.2.dependsOn := by
    intro j d hd
    rw [dependsOn, getNode] at hd
    cases hnode : snapshot.dag.lookup j with
    | none =>
      rw [hnode] at hd
      exact absurd hd not_mem_nil
    | some node =>
      rw [hnode] at hd
      obtain ⟨before, after, hsplit, -⟩ := List.lookup_eq_some_iff.mp hnode
      refine mem_flatMap.mpr ⟨(j, node), ?_, hd⟩
      rw [hsplit]
      exact mem_append_right _ mem_cons_self
  obtain ⟨hsub, hinvolved, hclosed⟩ := closeLanes_spec hpossible
    (fun j hj => mem_reverse.mp hj)
    (fun j hj => ((hinitial j).mp hj).elim .pending .running)
    (fun j hj hnot => absurd (mem_reverse.mpr hj) hnot)
    (show _ ≤ ((snapshot.pendingLanes ++ snapshot.runningLaneIndices).foldl setAdd []).length
        + (snapshot.dag.flatMap fun entry => entry.2.dependsOn).length + 1 by
      have hle : missing (snapshot.dag.flatMap fun entry => entry.2.dependsOn)
          ((snapshot.pendingLanes ++ snapshot.runningLaneIndices).foldl setAdd [])
            ≤ (snapshot.dag.flatMap fun entry => entry.2.dependsOn).length := countP_le_length
      rw [length_reverse]
      omega)
  refine ⟨hinvolved i, fun h => ?_⟩
  induction h with
  | pending h => exact hsub ((hinitial _).mpr (.inl h))
  | running h => exact hsub ((hinitial _).mpr (.inr h))
  | dependency _ hdependency ih => exact hclosed _ ih hdependency

/-! ## The edges of the graph -/

theorem mem_laneEdges {i : ℕ} {edge : WaitEdge} : edge ∈ snapshot.laneEdges i ↔
    (∃ d ∈ snapshot.dependsOn i, ¬ snapshot.isSealed d
        ∧ edge = .laneDependency (laneId i) (laneId d))
      ∨ ∃ r, snapshot.Requests i r ∧ (edge = .resourceOwnership (laneId i) (resourceNode r)
        ∨ ∃ o, snapshot.resourceOwnership r = some o
          ∧ edge = .ownedBy (resourceNode r) (laneId o)) := by
  rw [laneEdges, mem_append]
  apply or_congr
  · constructor
    · intro hmem
      obtain ⟨d, hd, rfl⟩ := mem_map.mp hmem
      obtain ⟨hin, hopen⟩ := mem_filter.mp hd
      exact ⟨d, hin, by simpa using hopen, rfl⟩
    · rintro ⟨d, hin, hopen, rfl⟩
      exact mem_map.mpr ⟨d, mem_filter.mpr ⟨hin, by simpa using hopen⟩, rfl⟩
  · cases hwaits : snapshot.laneWaitingForResource i with
    | none => simp [Requests, hwaits]
    | some r =>
      by_cases hr : r = []
      · simp [Requests, hwaits, hr]
      · simp [Requests, hwaits, hr, eq_comm]

theorem Quiet.capacityEdges (h : snapshot.Quiet) : snapshot.capacityEdges = [] := by
  apply if_neg
  rintro ⟨hfull, hpending⟩
  exact h.room.elim (fun hlt => by omega) hpending

theorem Quiet.edges (h : snapshot.Quiet) :
    snapshot.buildWaitForGraph.2 = snapshot.laneIndices.flatMap snapshot.laneEdges := by
  rw [buildWaitForGraph, h.capacityEdges, timerEdges, h.timers, filterMap_nil, append_nil,
    append_nil]

theorem represents_buildWaitForGraph (snapshot : SchedulerSnapshot) :
    Represents snapshot.buildWaitForGraph.1
      (snapshot.laneIndices.flatMap snapshot.laneEdges ++ snapshot.capacityEdges) := by
  have hlanes := represents_empty.foldl_addLane snapshot snapshot.laneIndices
  exact hlanes.foldl_addArc snapshot.capacityEdges

/-- The edges of the graph are the waits of the lanes. -/
theorem Quiet.mem_successors_iff (h : snapshot.Quiet) (a b : Text) :
    b ∈ successors snapshot.buildWaitForGraph.1 a ↔
      ∃ x y, snapshot.WaitsFor x y ∧ a = x.name ∧ b = y.name := by
  rw [(represents_buildWaitForGraph snapshot).edge_iff, h.capacityEdges, append_nil]
  constructor
  · rintro ⟨edge, hedge, harc⟩
    obtain ⟨i, hi, hmem⟩ := mem_flatMap.mp hedge
    have hinvolved := mem_laneIndices.mp hi
    rcases mem_laneEdges.mp hmem with ⟨d, hd, hopen, rfl⟩ | ⟨r, hr, rfl | ⟨o, ho, rfl⟩⟩
    · obtain ⟨rfl, rfl⟩ := Prod.mk.inj (Option.some.inj harc)
      exact ⟨.lane i, .lane d, .dependency hinvolved hd hopen, rfl, rfl⟩
    · obtain ⟨rfl, rfl⟩ := Prod.mk.inj (Option.some.inj harc)
      exact ⟨.lane i, .resource r, .resource hinvolved hr, rfl, rfl⟩
    · obtain ⟨rfl, rfl⟩ := Prod.mk.inj (Option.some.inj harc)
      exact ⟨.resource r, .lane o, .owner hinvolved hr ho, rfl, rfl⟩
  · rintro ⟨x, y, hwaits, rfl, rfl⟩
    cases hwaits with
    | dependency hinvolved hd hopen =>
      exact ⟨_, mem_flatMap.mpr ⟨_, mem_laneIndices.mpr hinvolved,
        mem_laneEdges.mpr (.inl ⟨_, hd, hopen, rfl⟩)⟩, rfl⟩
    | resource hinvolved hr =>
      exact ⟨_, mem_flatMap.mpr ⟨_, mem_laneIndices.mpr hinvolved,
        mem_laneEdges.mpr (.inr ⟨_, hr, .inl rfl⟩)⟩, rfl⟩
    | owner hinvolved hr ho =>
      exact ⟨_, mem_flatMap.mpr ⟨_, mem_laneIndices.mpr hinvolved,
        mem_laneEdges.mpr (.inr ⟨_, hr, .inr ⟨_, ho, rfl⟩⟩)⟩, rfl⟩

end SchedulerSnapshot

/-! ## Names -/

theorem WaitNode.name_injective : Function.Injective WaitNode.name := by
  have hapart : ∀ (i : ℕ) (r : Text), laneId i ≠ resourceNode r := by
    intro i r heq
    have hhead : (0x6C : UInt16) = 0x72 := Option.some.inj (congrArg List.head? heq)
    exact absurd hhead (by decide)
  intro x y heq
  cases x with
  | lane i =>
    cases y with
    | lane j => exact congrArg lane (decimal_injective (append_cancel_left heq))
    | resource r => exact absurd heq (hapart i r)
  | resource r =>
    cases y with
    | lane j => exact absurd heq.symm (hapart j r)
    | resource r' => exact congrArg resource (append_cancel_left heq)

end Lumi.Subagent
