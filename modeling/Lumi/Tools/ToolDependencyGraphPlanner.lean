import Mathlib.Algebra.GroupWithZero.Nat
import Lumi.Lib.InsertionMap
import Lumi.Lib.JsValue
import Lumi.Lib.Layers

/-!
# Planning a graph of tool calls in waves

`planDAG` counts for each node the dependencies that have not run, starting from the length of its
list; ids that no node has are taken off at once.  A wave are the nodes whose counter has just
become 0.  The counters speak of occurrences, so that an id that is repeated in a list counts as
often, and a node that names itself never runs.

A turn of the loop needs a wave with a node, and `turns` bounds the turns; one more than there are
nodes are enough.
-/

namespace Lumi.Tools

open Js List InsertionMap

structure DAGToolNode (ρ : Type*) where
  id : Text
  toolName : Text
  args : ρ
  dependencies : List Text

structure DAGExecutionPlan (ρ : Type*) where
  waves : List (List (DAGToolNode ρ))
  totalNodes : ℕ
  hasCycles : Bool

/-- The node stands in that wave of the plan. -/
def DAGExecutionPlan.InWave {ρ : Type*} (plan : DAGExecutionPlan ρ) (k : ℕ)
    (node : DAGToolNode ρ) : Prop :=
  ∃ wave, plan.waves[k]? = some wave ∧ node ∈ wave

namespace ToolDependencyGraphPlanner

/-- `inDegree`, and `graph` from a node to its dependents. -/
structure Counters where
  inDegree : InsertionMap Text ℕ
  graph : InsertionMap Text (List Text)

/-- `inDegree.get(id)`, with 0 for an id that is not there. -/
def degree (inDegree : InsertionMap Text ℕ) (id : Text) : ℕ := (inDegree.get? id).getD 0

/-- `(inDegree.get(id) || 1) - 1`. -/
def lessOne (inDegree : InsertionMap Text ℕ) (id : Text) : ℕ :=
  let deg := degree inDegree id
  (if deg = 0 then 1 else deg) - 1

/-- One dependency of a node: it is taken off, or the node is one of its dependents. -/
def link (c : Counters) (id depId : Text) : Counters :=
  match c.graph.get? depId with
  | none => { c with inDegree := c.inDegree.set id (lessOne c.inDegree id) }
  | some dependents => { c with graph := c.graph.set depId (dependents ++ [id]) }

section

variable {ρ : Type*}

def register (nodes : List (DAGToolNode ρ)) : Counters where
  inDegree := nodes.foldl (fun m node => m.set node.id node.dependencies.length) .empty
  graph := nodes.foldl (fun m node => m.set node.id []) .empty

def counters (nodes : List (DAGToolNode ρ)) : Counters :=
  nodes.foldl (fun c node => node.dependencies.foldl (fun c depId => link c node.id depId) c)
    (register nodes)

/-- One dependent of a node that has run. -/
def release (s : InsertionMap Text ℕ × List Text) (depId : Text) :
    InsertionMap Text ℕ × List Text :=
  let newDeg := lessOne s.1 depId
  (s.1.set depId newDeg, if newDeg = 0 then s.2 ++ [depId] else s.2)

/-- The counters after a wave, and the wave after it. -/
def nextWave (graph : InsertionMap Text (List Text)) (inDegree : InsertionMap Text ℕ)
    (currentWaveIds : List Text) : InsertionMap Text ℕ × List Text :=
  currentWaveIds.foldl (fun s id => ((graph.get? id).getD []).foldl release s) (inDegree, [])

/-- The waves from here on, if `turns` are enough for them. -/
def peel (graph : InsertionMap Text (List Text)) :
    ℕ → InsertionMap Text ℕ → List Text → Option (List (List Text))
  | 0, _, _ => none
  | turns + 1, inDegree, currentWaveIds =>
    if currentWaveIds = [] then some []
    else
      let next := nextWave graph inDegree currentWaveIds
      (peel graph turns next.1 next.2).map (currentWaveIds :: ·)

def planDAG (turns : ℕ) (nodes : List (DAGToolNode ρ)) : Option (DAGExecutionPlan ρ) :=
  let nodeMap : InsertionMap Text (DAGToolNode ρ) :=
    nodes.foldl (fun m node => m.set node.id node) .empty
  let c := counters nodes
  let first := (c.inDegree.entries.filter fun e => e.2 = 0).map Prod.fst
  (peel c.graph turns c.inDegree first).map fun waves => {
    waves := waves.map fun wave => wave.filterMap nodeMap.get?
    totalNodes := nodes.length
    hasCycles := (waves.map List.length).sum < nodes.length }

end

/-! ## Counters -/

@[simp] theorem lessOne_eq (inDegree : InsertionMap Text ℕ) (id : Text) :
    lessOne inDegree id = degree inDegree id - 1 := by
  unfold lessOne
  dsimp only
  split <;> omega

@[simp] theorem degree_set (inDegree : InsertionMap Text ℕ) (id other : Text) (n : ℕ) :
    degree (inDegree.set id n) other = if other = id then n else degree inDegree other := by
  unfold degree
  rw [get?_set]
  split <;> rfl

/-- What the dependents of a wave do, one occurrence after the other: each counter goes down by its
occurrences, and those that reach 0 are the next wave. -/
theorem foldl_release (dependents : List Text) : ∀ (inDegree : InsertionMap Text ℕ)
    (taken : List Text), (∀ id, dependents.count id ≤ degree inDegree id) →
      ∃ inDegree' next, dependents.foldl release (inDegree, taken) = (inDegree', taken ++ next)
        ∧ (∀ id, degree inDegree' id = degree inDegree id - dependents.count id)
        ∧ next.Nodup
        ∧ ∀ id, id ∈ next ↔ id ∈ dependents ∧ dependents.count id = degree inDegree id := by
  induction dependents with
  | nil =>
    intro inDegree taken _
    exact ⟨inDegree, [], by simp, by simp, nodup_nil, by simp⟩
  | cons depId rest ih =>
    intro inDegree taken hle
    have hself := hle depId
    rw [count_cons_self] at hself
    have hrest : ∀ id, rest.count id ≤ degree (inDegree.set depId (degree inDegree depId - 1)) id := by
      intro id
      have hid := hle id
      rw [degree_set]
      split
      · next heq =>
        subst heq
        rw [count_cons_self] at hid
        omega
      · next hne =>
        rwa [count_cons_of_ne (Ne.symm hne)] at hid
    obtain ⟨inDegree', next, hfold, hdegree, hnodup, hnext⟩ := ih _
      (if degree inDegree depId - 1 = 0 then taken ++ [depId] else taken) hrest
    have hstep : (depId :: rest).foldl release (inDegree, taken)
        = (inDegree', (if degree inDegree depId - 1 = 0 then taken ++ [depId] else taken)
          ++ next) := by
      rw [foldl_cons, ← hfold, release, lessOne_eq]
    have hcount : ∀ id, degree inDegree' id = degree inDegree id - (depId :: rest).count id := by
      intro id
      rw [hdegree, degree_set]
      split
      · next heq => subst heq; rw [count_cons_self]; omega
      · next hne => rw [count_cons_of_ne (Ne.symm hne)]
    -- the first occurrence takes the counter to 0 only if it is the last one
    have hmem : ∀ id, id ∈ next ↔ id ∈ rest
        ∧ (depId :: rest).count id = degree inDegree id := by
      intro id
      rw [hnext, degree_set]
      split
      · next heq =>
        subst heq
        rw [count_cons_self]
        exact and_congr_right fun _ => by omega
      · next hne => rw [count_cons_of_ne (Ne.symm hne)]
    by_cases hzero : degree inDegree depId - 1 = 0
    · rw [if_pos hzero] at hstep
      have hout : depId ∉ rest := by
        intro hin
        have hpos := count_pos_iff.mpr hin
        omega
      refine ⟨inDegree', depId :: next, by simpa using hstep, hcount, ?_, fun id => ?_⟩
      · exact nodup_cons.mpr ⟨fun hin => hout ((hmem depId).mp hin).1, hnodup⟩
      · rw [mem_cons, hmem, mem_cons]
        constructor
        · rintro (rfl | ⟨hin, hcnt⟩)
          · refine ⟨Or.inl rfl, ?_⟩
            rw [count_cons_self, count_eq_zero_of_not_mem hout]
            omega
          · exact ⟨Or.inr hin, hcnt⟩
        · rintro ⟨rfl | hin, hcnt⟩
          · exact Or.inl rfl
          · exact Or.inr ⟨hin, hcnt⟩
    · rw [if_neg hzero] at hstep
      refine ⟨inDegree', next, hstep, hcount, hnodup, fun id => ?_⟩
      rw [hmem, mem_cons]
      constructor
      · exact fun ⟨hin, hcnt⟩ => ⟨Or.inr hin, hcnt⟩
      · rintro ⟨rfl | hin, hcnt⟩
        · rw [count_cons_self] at hcnt
          exact ⟨count_pos_iff.mp (by omega), by rw [count_cons_self]; exact hcnt⟩
        · exact ⟨hin, hcnt⟩

section

variable {ρ : Type*} (nodes : List (DAGToolNode ρ))

/-- All dependencies, each with the node that has it. -/
def occurrences : List (Text × Text) :=
  nodes.flatMap fun node => node.dependencies.map fun depId => (node.id, depId)

/-- The dependencies on ids that some node has. -/
def needs : List (Text × Text) :=
  (occurrences nodes).filter fun o => o.2 ∈ nodes.map DAGToolNode.id

/-- The dependency relation, restricted to known ids. -/
def Needs (id depId : Text) : Prop :=
  depId ∈ nodes.map DAGToolNode.id ∧ ∃ node ∈ nodes, node.id = id ∧ depId ∈ node.dependencies

variable {nodes}

variable {id depId : Text}

theorem mem_occurrences : (id, depId) ∈ occurrences nodes
    ↔ ∃ node ∈ nodes, node.id = id ∧ depId ∈ node.dependencies := by
  simp [occurrences, and_comm]

theorem mem_needs : (id, depId) ∈ needs nodes ↔ Needs nodes id depId := by
  rw [needs, mem_filter, mem_occurrences, decide_eq_true_eq]
  exact and_comm

theorem Needs.mem_left (h : Needs nodes id depId) :
    id ∈ nodes.map DAGToolNode.id := by
  obtain ⟨-, node, hnode, rfl, -⟩ := h
  exact mem_map_of_mem hnode

/-- What linking some occurrences does to the counters and to the dependents. -/
theorem foldl_link {known : Text → Prop} [DecidablePred known] (occurrences : List (Text × Text)) :
    ∀ c : Counters, (∀ depId, c.graph.get? depId = none ↔ ¬ known depId) →
      (∀ o ∈ occurrences, o.1 ∈ c.inDegree.keys) →
      let linked := occurrences.foldl (fun c o => link c o.1 o.2) c
      linked.inDegree.keys = c.inDegree.keys
        ∧ (∀ id, degree linked.inDegree id
          = degree c.inDegree id - occurrences.countP fun o => o.1 = id ∧ ¬ known o.2)
        ∧ ∀ id depId, known depId → ((linked.graph.get? depId).getD []).count id
          = ((c.graph.get? depId).getD []).count id + occurrences.count (id, depId) := by
  induction occurrences with
  | nil => intro c _ _; simp
  | cons o rest ih =>
    obtain ⟨id₀, depId₀⟩ := o
    intro c hknown hkeys
    have hkey := hkeys _ mem_cons_self
    cases hget : c.graph.get? depId₀ with
    | none =>
      have hunknown := (hknown depId₀).mp hget
      have hlink : link c id₀ depId₀
          = { c with inDegree := c.inDegree.set id₀ (degree c.inDegree id₀ - 1) } := by
        rw [link, hget, lessOne_eq]
      have hsame : (c.inDegree.set id₀ (degree c.inDegree id₀ - 1)).keys = c.inDegree.keys := by
        rw [keys_set, if_pos hkey]
      obtain ⟨hkeys', hdegree, hcount⟩ := ih (link c id₀ depId₀) (by rw [hlink]; exact hknown)
        (by
          rw [hlink]
          exact fun o ho => hsame ▸ hkeys o (mem_cons_of_mem _ ho))
      rw [hlink] at hkeys' hdegree hcount
      dsimp only at hkeys' hdegree hcount
      rw [foldl_cons, hlink]
      refine ⟨hkeys'.trans hsame, fun id => ?_, fun id depId hdep => ?_⟩
      · rw [hdegree, degree_set, countP_cons]
        split
        · next heq => subst heq; simp [hunknown]; omega
        · next hne => simp [Ne.symm hne]
      · have hne : (id₀, depId₀) ≠ (id, depId) := fun heq => by
          injection heq with _ hdep'
          exact hunknown (hdep' ▸ hdep)
        rw [hcount id depId hdep, count_cons_of_ne hne]
    | some dependents =>
      have hin : known depId₀ := by
        by_contra hout
        rw [(hknown depId₀).mpr hout] at hget
        cases hget
      have hlink : link c id₀ depId₀
          = { c with graph := c.graph.set depId₀ (dependents ++ [id₀]) } := by
        rw [link, hget]
      obtain ⟨hkeys', hdegree, hcount⟩ := ih (link c id₀ depId₀)
        (by
          intro depId
          rw [hlink, get?_set]
          split
          · next heq => subst heq; simp [hin]
          · exact hknown depId)
        (by rw [hlink]; exact fun o ho => hkeys o (mem_cons_of_mem _ ho))
      rw [hlink] at hkeys' hdegree hcount
      dsimp only at hkeys' hdegree hcount
      rw [foldl_cons, hlink]
      refine ⟨hkeys', fun id => ?_, fun id depId hdep => ?_⟩
      · rw [hdegree, countP_cons, if_neg (by simp [hin]), Nat.add_zero]
      · rw [hcount id depId hdep, get?_set]
        by_cases heq : depId = depId₀
        · subst heq
          rw [if_pos rfl, hget, Option.getD_some, Option.getD_some, count_append]
          by_cases hid : id₀ = id
          · subst hid
            rw [count_cons_self, count_cons_self, count_nil]
            omega
          · rw [count_cons_of_ne hid, count_nil,
              count_cons_of_ne fun hpair => hid (Prod.mk.inj hpair).1]
            omega
        · rw [if_neg heq, count_cons_of_ne fun hpair => heq (Prod.mk.inj hpair).2.symm]

theorem counters_eq : counters nodes
    = (occurrences nodes).foldl (fun c o => link c o.1 o.2) (register nodes) := by
  rw [counters, occurrences, foldl_flatMap]
  simp only [foldl_map]

theorem register_eq : register nodes
    = ⟨.ofList (nodes.map fun node => (node.id, node.dependencies.length)),
      .ofList (nodes.map fun node => (node.id, []))⟩ := by
  rw [InsertionMap.ofList, InsertionMap.ofList, foldl_map, foldl_map]
  rfl

/-- A node starts with as many as its list is long. -/
theorem degree_register (hids : (nodes.map DAGToolNode.id).Nodup) (id : Text) :
    degree (register nodes).inDegree id = (occurrences nodes).countP fun o => o.1 = id := by
  have hlengths : ((nodes.map fun node => (node.id, node.dependencies.length)).map
      Prod.fst).Nodup := by
    rwa [map_map]
  have hentries : (register nodes).inDegree = ⟨_, hlengths⟩ := by
    rw [register_eq]
    exact ofList_entries ⟨_, hlengths⟩
  rw [hentries]
  clear hentries
  induction nodes with
  | nil => rfl
  | cons node rest ih =>
    rw [map_cons, nodup_cons] at hids
    have hcons : occurrences (node :: rest)
        = (node.dependencies.map fun depId => (node.id, depId)) ++ occurrences rest := rfl
    have hlookup := get?_cons hlengths id
    rw [hcons, countP_append, degree]
    refine (congrArg (Option.getD · 0) hlookup).trans ?_
    by_cases heq : id = node.id
    · subst heq
      have hall : (node.dependencies.map fun depId => (node.id, depId)).countP
          (fun o => o.1 = node.id) = node.dependencies.length := by
        rw [countP_map, countP_eq_length.mpr fun _ _ => by simp]
      have hrest : (occurrences rest).countP (fun o => o.1 = node.id) = 0 := by
        rw [countP_eq_zero]
        rintro ⟨id, depId⟩ ho heq
        obtain ⟨other, hother, hid, -⟩ := mem_occurrences.mp ho
        have hid' : other.id = node.id := hid.trans (of_decide_eq_true heq)
        exact hids.1 (hid' ▸ mem_map_of_mem hother)
      rw [if_pos rfl, hall, hrest]
      rfl
    · have hnone : (node.dependencies.map fun depId => (node.id, depId)).countP
          (fun o => o.1 = id) = 0 := by
        rw [countP_map, countP_eq_zero]
        exact fun _ _ h => heq (of_decide_eq_true h).symm
      rw [if_neg heq, hnone, Nat.zero_add]
      exact ih hids.2 (nodup_cons.mp hlengths).2

/-- The counters of a plan: an id has the number of its known dependencies, and its dependents as
often as they name it. -/
theorem counters_spec (hids : (nodes.map DAGToolNode.id).Nodup) :
    (counters nodes).inDegree.keys = nodes.map DAGToolNode.id
      ∧ (∀ id, degree (counters nodes).inDegree id = (needs nodes).countP fun o => o.1 = id)
      ∧ ∀ id, ∀ depId ∈ nodes.map DAGToolNode.id,
        (((counters nodes).graph.get? depId).getD []).count id
          = (needs nodes).count (id, depId) := by
  have hlengths : ((nodes.map fun node => (node.id, node.dependencies.length)).map
      Prod.fst).Nodup := by
    rwa [map_map]
  have hempty : ((nodes.map fun node => (node.id, ([] : List Text))).map Prod.fst).Nodup := by
    rwa [map_map]
  have hkeys : (register nodes).inDegree.keys = nodes.map DAGToolNode.id := by
    rw [register_eq]
    dsimp only
    rw [ofList_entries ⟨_, hlengths⟩, InsertionMap.keys, map_map]
    rfl
  have hgraph : ∀ depId ∈ nodes.map DAGToolNode.id,
      (register nodes).graph.get? depId = some [] := by
    intro depId hdep
    obtain ⟨node, hnode, rfl⟩ := mem_map.mp hdep
    rw [register_eq]
    dsimp only
    rw [get?_ofList_eq_some_iff hempty]
    exact mem_map_of_mem (f := fun node => (node.id, ([] : List Text))) hnode
  have hknown : ∀ depId, (register nodes).graph.get? depId = none
      ↔ ¬ depId ∈ nodes.map DAGToolNode.id := by
    intro depId
    constructor
    · intro hnone hdep
      rw [hgraph depId hdep] at hnone
      cases hnone
    · intro hout
      rw [get?_eq_none_iff, register_eq]
      rw [mem_keys_ofList, map_map]
      exact hout
  have hlisted : ∀ o ∈ occurrences nodes, o.1 ∈ (register nodes).inDegree.keys := by
    rintro ⟨id, depId⟩ ho
    obtain ⟨node, hnode, rfl, -⟩ := mem_occurrences.mp ho
    exact hkeys ▸ mem_map_of_mem hnode
  obtain ⟨hkeys', hdegree, hcount⟩ := foldl_link (occurrences nodes) (register nodes) hknown hlisted
  rw [counters_eq]
  refine ⟨hkeys'.trans hkeys, fun id => ?_, fun id depId hdep => ?_⟩
  · have hsplit := countP_eq_countP_filter_add (occurrences nodes) (fun o => decide (o.1 = id))
      fun o => decide (o.2 ∈ nodes.map DAGToolNode.id)
    have hunknown : ((occurrences nodes).filter fun o =>
          !decide (o.2 ∈ nodes.map DAGToolNode.id)).countP (fun o => decide (o.1 = id))
        = (occurrences nodes).countP fun o => o.1 = id ∧ ¬ o.2 ∈ nodes.map DAGToolNode.id := by
      rw [countP_filter]
      exact countP_congr fun o _ => by simp
    rw [hdegree, degree_register hids, needs]
    rw [hunknown] at hsplit
    omega
  · rw [hcount id depId hdep, hgraph depId hdep, needs, count_filter (by simpa using hdep)]
    exact Nat.zero_add _

/-! ## The loop -/

/-- After `k` waves: the wave is layer `k`, the layers before it have run, and the counters speak
of the dependencies that have not. -/
structure Peeled (nodes : List (DAGToolNode ρ)) (k : ℕ) (inDegree : InsertionMap Text ℕ)
    (wave ran : List Text) : Prop where
  nodup : wave.Nodup
  mem_wave : ∀ id, id ∈ wave ↔ id ∈ nodes.map DAGToolNode.id ∧ Layers.At (Needs nodes) k id
  mem_ran : ∀ id, id ∈ ran ↔ id ∈ nodes.map DAGToolNode.id ∧ ∃ j < k, Layers.At (Needs nodes) j id
  degree_eq : ∀ id, degree inDegree id = (needs nodes).countP fun o => o.1 = id ∧ o.2 ∉ ran

theorem Peeled.notMem_ran {k : ℕ} {inDegree : InsertionMap Text ℕ} {wave ran : List Text}
    (h : Peeled nodes k inDegree wave ran) {id : Text} (hid : id ∈ wave) : id ∉ ran := by
  intro hran
  obtain ⟨-, j, hlt, hj⟩ := (h.mem_ran id).mp hran
  have heq := hj.unique ((h.mem_wave id).mp hid).2
  omega

/-- Layer 0 needs nothing. -/
theorem peeled_first (hids : (nodes.map DAGToolNode.id).Nodup) :
    Peeled nodes 0 (counters nodes).inDegree
      (((counters nodes).inDegree.entries.filter fun e => e.2 = 0).map Prod.fst) [] := by
  obtain ⟨hkeys, hdegree, -⟩ := counters_spec hids
  refine ⟨?_, fun id => ?_, fun id => by simp, fun id => by simp [hdegree]⟩
  · exact (counters nodes).inDegree.nodup.sublist ((filter_sublist).map Prod.fst)
  · have hzero : id ∈ ((counters nodes).inDegree.entries.filter fun e => e.2 = 0).map Prod.fst
        ↔ id ∈ nodes.map DAGToolNode.id ∧ degree (counters nodes).inDegree id = 0 := by
      rw [← hkeys, mem_keys_iff, degree]
      constructor
      · intro hid
        obtain ⟨⟨id, n⟩, hentry, rfl⟩ := mem_map.mp hid
        obtain ⟨hentry, hn⟩ := mem_filter.mp hentry
        obtain rfl : n = 0 := of_decide_eq_true hn
        rw [mem_entries_iff] at hentry
        exact ⟨⟨0, hentry⟩, by rw [hentry]; rfl⟩
      · rintro ⟨⟨n, hn⟩, hdeg⟩
        rw [hn, Option.getD_some] at hdeg
        refine mem_map.mpr ⟨(id, n), mem_filter.mpr ⟨?_, decide_eq_true hdeg⟩, rfl⟩
        rwa [mem_entries_iff]
    rw [hzero, hdegree, countP_eq_zero]
    refine and_congr_right fun _ => ⟨fun hnone => ⟨trivial, ?_⟩, ?_⟩
    · rintro ⟨depId, hneeds, -⟩
      exact hnone _ (mem_needs.mpr hneeds) (decide_eq_true rfl)
    · rintro ⟨-, hno⟩ ⟨other, depId⟩ ho heq
      obtain rfl : other = id := of_decide_eq_true heq
      exact hno ⟨depId, mem_needs.mp ho, trivial⟩

/-- The dependents of a wave are the dependencies on it. -/
theorem count_dependents (hids : (nodes.map DAGToolNode.id).Nodup) {wave : List Text}
    (hnodup : wave.Nodup) (hwave : ∀ depId ∈ wave, depId ∈ nodes.map DAGToolNode.id) (id : Text) :
    (wave.flatMap fun depId => ((counters nodes).graph.get? depId).getD []).count id
      = (needs nodes).countP fun o => o.1 = id ∧ o.2 ∈ wave := by
  obtain ⟨-, -, hcount⟩ := counters_spec hids
  induction wave with
  | nil => simp
  | cons depId rest ih =>
    obtain ⟨hnew, hrest⟩ := nodup_cons.mp hnodup
    have hdep := hwave depId mem_cons_self
    rw [flatMap_cons, count_append, hcount id depId hdep,
      ih hrest fun other hother => hwave other (mem_cons_of_mem _ hother), List.count]
    have hsplit := countP_eq_countP_filter_add (needs nodes)
      (fun o => decide (o.1 = id ∧ o.2 ∈ depId :: rest)) fun o => decide (o.2 = depId)
    rw [countP_filter, countP_filter] at hsplit
    rw [hsplit]
    congr 1
    · apply countP_congr
      rintro ⟨other, otherDep⟩ -
      simp
      tauto
    · apply countP_congr
      rintro ⟨other, otherDep⟩ -
      by_cases heq : otherDep = depId
      · simp [heq, hnew]
      · simp [heq]

theorem nextWave_eq (graph : InsertionMap Text (List Text)) (inDegree : InsertionMap Text ℕ)
    (wave : List Text) : nextWave graph inDegree wave
      = (wave.flatMap fun id => (graph.get? id).getD []).foldl release (inDegree, []) := by
  rw [nextWave, foldl_flatMap]

/-- **Step lemma.**  A wave takes the counters to the next layer. -/
theorem Peeled.next (hids : (nodes.map DAGToolNode.id).Nodup) {k : ℕ}
    {inDegree : InsertionMap Text ℕ} {wave ran : List Text} (h : Peeled nodes k inDegree wave ran) :
    let next := nextWave (counters nodes).graph inDegree wave
    Peeled nodes (k + 1) next.1 next.2 (ran ++ wave) := by
  have hwave : ∀ depId ∈ wave, depId ∈ nodes.map DAGToolNode.id := fun depId hdep =>
    ((h.mem_wave depId).mp hdep).1
  have hcount := count_dependents hids h.nodup hwave
  -- what has not run is in the wave, or it comes later
  have hsplit : ∀ id, degree inDegree id
      = (needs nodes).countP (fun o => o.1 = id ∧ o.2 ∈ wave)
        + (needs nodes).countP fun o => o.1 = id ∧ o.2 ∉ ran ++ wave := by
    intro id
    have hfilter := countP_eq_countP_filter_add (needs nodes)
      (fun o => decide (o.1 = id ∧ o.2 ∉ ran)) fun o => decide (o.2 ∈ wave)
    rw [countP_filter, countP_filter] at hfilter
    rw [h.degree_eq, hfilter]
    congr 1
    · apply countP_congr
      rintro ⟨other, depId⟩ -
      by_cases hin : depId ∈ wave
      · simp [hin, h.notMem_ran hin]
      · simp [hin]
    · apply countP_congr
      rintro ⟨other, depId⟩ -
      by_cases hin : depId ∈ wave <;> simp [hin]
  obtain ⟨inDegree', next, hfold, hdegree, hnodup, hnext⟩ := foldl_release
    (wave.flatMap fun id => ((counters nodes).graph.get? id).getD []) inDegree [] fun id => by
      have hid := hsplit id
      rw [hcount]
      omega
  intro result
  have hresult : result = (inDegree', next) := by
    show nextWave _ _ _ = _
    rw [nextWave_eq, hfold, nil_append]
  rw [hresult]
  have hran : ∀ depId, depId ∈ ran ++ wave
      ↔ depId ∈ nodes.map DAGToolNode.id ∧ ∃ j < k + 1, Layers.At (Needs nodes) j depId := by
    intro depId
    rw [mem_append, h.mem_ran, h.mem_wave, ← and_or_left]
    refine and_congr_right fun _ => ⟨?_, ?_⟩
    · rintro (⟨j, hlt, hj⟩ | hk)
      · exact ⟨j, by omega, hj⟩
      · exact ⟨k, by omega, hk⟩
    · rintro ⟨j, hlt, hj⟩
      rcases Nat.lt_succ_iff_lt_or_eq.mp hlt with hlt | rfl
      · exact Or.inl ⟨j, hlt, hj⟩
      · exact Or.inr hj
  refine ⟨hnodup, fun id => ?_, hran, fun id => ?_⟩
  · have hid := hsplit id
    rw [hnext, ← count_pos_iff, hcount]
    constructor
    · rintro ⟨hpos, heq⟩
      obtain ⟨⟨other, depId⟩, ho, hboth⟩ := countP_pos_iff.mp hpos
      obtain ⟨hself, hdep⟩ := of_decide_eq_true hboth
      obtain rfl : other = id := hself
      have hneeds := mem_needs.mp ho
      refine ⟨hneeds.mem_left, Layers.at_of_below (fun dep' hdep' => ?_)
        (Or.inr ⟨depId, hneeds, ((h.mem_wave depId).mp hdep).2⟩)⟩
      have hnone : (needs nodes).countP (fun o => o.1 = other ∧ o.2 ∉ ran ++ wave) = 0 := by omega
      have hin : dep' ∈ ran ++ wave := by
        by_contra hout
        exact countP_eq_zero.mp hnone _ (mem_needs.mpr hdep') (decide_eq_true ⟨rfl, hout⟩)
      exact ((hran dep').mp hin).2
    · rintro ⟨hid', hat⟩
      obtain ⟨depId, hneeds, hk⟩ := hat.tight
      have hpos : 0 < (needs nodes).countP fun o => o.1 = id ∧ o.2 ∈ wave := by
        refine countP_pos_iff.mpr ⟨(id, depId), mem_needs.mpr hneeds, decide_eq_true ⟨rfl, ?_⟩⟩
        exact (h.mem_wave depId).mpr ⟨hneeds.1, hk⟩
      have hnone : (needs nodes).countP (fun o => o.1 = id ∧ o.2 ∉ ran ++ wave) = 0 := by
        rw [countP_eq_zero]
        rintro ⟨other, dep'⟩ ho hlater
        obtain ⟨rfl, hout⟩ := of_decide_eq_true hlater
        have hneeds' := mem_needs.mp ho
        exact hout ((hran dep').mpr ⟨hneeds'.1, hat.below hneeds'⟩)
      exact ⟨hpos, by omega⟩
  · have hid := hsplit id
    rw [hdegree, hcount]
    omega

theorem length_ids : (nodes.map DAGToolNode.id).length = nodes.length := length_map ..

/-- **Run lemma.**  Turns that are more than the nodes are enough, and each wave is its layer. -/
theorem peel_spec (hids : (nodes.map DAGToolNode.id).Nodup) (turns : ℕ) : ∀ {k : ℕ}
    {inDegree : InsertionMap Text ℕ} {wave ran : List Text}, Peeled nodes k inDegree wave ran →
      k ≤ nodes.length → nodes.length < turns + k →
      ∃ waves, peel (counters nodes).graph turns inDegree wave = some waves
        ∧ (∀ w ∈ waves, w.Nodup)
        ∧ ∀ i id, (∃ w, waves[i]? = some w ∧ id ∈ w)
          ↔ id ∈ nodes.map DAGToolNode.id ∧ Layers.At (Needs nodes) (k + i) id := by
  induction turns with
  | zero =>
    intro k inDegree wave ran _ hle hlt
    omega
  | succ turns ih =>
    intro k inDegree wave ran h hle hlt
    rw [peel]
    by_cases hempty : wave = []
    · rw [if_pos hempty]
      refine ⟨[], rfl, fun w hw => absurd hw not_mem_nil, fun i id => ?_⟩
      refine iff_of_false (by simp) ?_
      rintro ⟨hid, hat⟩
      -- a later layer would have something of this one below it
      obtain ⟨other, hreach, hother⟩ := hat.exists_below (Nat.le_add_right k i)
      have hmem : other ∈ nodes.map DAGToolNode.id := by
        rcases Relation.ReflTransGen.cases_tail hreach with rfl | ⟨c, -, hneeds⟩
        · exact hid
        · exact hneeds.1
      have hin := (h.mem_wave other).mpr ⟨hmem, hother⟩
      rw [hempty] at hin
      cases hin
    · obtain ⟨id₀, hid₀⟩ := exists_mem_of_ne_nil wave hempty
      obtain ⟨hmem₀, hat₀⟩ := (h.mem_wave id₀).mp hid₀
      have hmore : k + 1 ≤ nodes.length := by
        have hcard := hat₀.lt_card (fun _ _ hneeds => mem_toFinset.mpr hneeds.1)
          (mem_toFinset.mpr hmem₀)
        rw [toFinset_card_of_nodup hids, length_ids] at hcard
        omega
      obtain ⟨waves, hpeel, hnodup, hwaves⟩ := ih (h.next hids) hmore (by omega)
      rw [if_neg hempty]
      dsimp only
      rw [hpeel]
      refine ⟨wave :: waves, rfl, ?_, fun i id => ?_⟩
      · intro w hw
        rcases mem_cons.mp hw with rfl | hw
        · exact h.nodup
        · exact hnodup w hw
      · cases i with
        | zero =>
          rw [getElem?_cons_zero, Nat.add_zero, ← h.mem_wave]
          exact ⟨fun ⟨w, hw, hid⟩ => Option.some.inj hw ▸ hid, fun hid => ⟨wave, rfl, hid⟩⟩
        | succ i =>
          have hlayer := hwaves i id
          rwa [getElem?_cons_succ, show k + (i + 1) = k + 1 + i by omega]

/-! ## The plan -/

/-- What a wave stands for: the nodes with its ids. -/
theorem mem_resolve (hids : (nodes.map DAGToolNode.id).Nodup) {wave : List Text}
    {node : DAGToolNode ρ} :
    let nodeMap : InsertionMap Text (DAGToolNode ρ) :=
      nodes.foldl (fun m node => m.set node.id node) .empty
    node ∈ wave.filterMap nodeMap.get? ↔ node ∈ nodes ∧ node.id ∈ wave := by
  intro nodeMap
  have hmap : nodeMap = .ofList (nodes.map fun node => (node.id, node)) := by
    rw [InsertionMap.ofList, foldl_map]
  have hkeys : ((nodes.map fun node => (node.id, node)).map Prod.fst).Nodup := by
    rwa [map_map]
  have hget : ∀ id, nodeMap.get? id = some node ↔ node ∈ nodes ∧ node.id = id := by
    intro id
    rw [hmap, get?_ofList_eq_some_iff hkeys, mem_map]
    constructor
    · rintro ⟨other, hother, heq⟩
      obtain ⟨rfl, rfl⟩ := Prod.mk.inj heq
      exact ⟨hother, rfl⟩
    · rintro ⟨hnode, rfl⟩
      exact ⟨node, hnode, rfl⟩
  rw [mem_filterMap]
  constructor
  · rintro ⟨id, hid, hsome⟩
    obtain ⟨hnode, rfl⟩ := (hget id).mp hsome
    exact ⟨hnode, hid⟩
  · rintro ⟨hnode, hid⟩
    exact ⟨node.id, hid, (hget node.id).mpr ⟨hnode, rfl⟩⟩

/-- Layers share no node. -/
theorem nodup_flatten_layers {waves : List (List Text)} (hnodup : ∀ w ∈ waves, w.Nodup)
    (hwaves : ∀ i id, (∃ w, waves[i]? = some w ∧ id ∈ w)
      ↔ id ∈ nodes.map DAGToolNode.id ∧ Layers.At (Needs nodes) i id) : waves.flatten.Nodup := by
  refine nodup_flatten.mpr ⟨hnodup, pairwise_iff_getElem.mpr fun i j hi hj hij => ?_⟩
  intro id hleft hright
  have hati := ((hwaves i id).mp ⟨_, getElem?_eq_getElem hi, hleft⟩).2
  have hatj := ((hwaves j id).mp ⟨_, getElem?_eq_getElem hj, hright⟩).2
  exact absurd (hati.unique hatj) (Nat.ne_of_lt hij)

/-- With enough turns there is a plan, its waves are the layers, and it has cycles exactly if some
node has no layer. -/
theorem planDAG_spec (hids : (nodes.map DAGToolNode.id).Nodup) {turns : ℕ}
    (hturns : nodes.length < turns) :
    ∃ plan, planDAG turns nodes = some plan ∧ plan.totalNodes = nodes.length
      ∧ plan.waves.flatten.Nodup
      ∧ (∀ k node, plan.InWave k node ↔ node ∈ nodes ∧ Layers.At (Needs nodes) k node.id)
      ∧ (plan.hasCycles = true
        ↔ ∃ id ∈ nodes.map DAGToolNode.id, ∀ k, ¬ Layers.At (Needs nodes) k id) := by
  obtain ⟨waves, hpeel, hnodup, hwaves⟩ := peel_spec hids turns (peeled_first hids)
    (Nat.zero_le _) (by omega)
  simp only [Nat.zero_add] at hwaves
  rw [planDAG, hpeel]
  have hflat := nodup_flatten_layers hnodup hwaves
  have hresolved := @mem_resolve _ nodes hids
  generalize nodes.foldl (fun m node => m.set node.id node) InsertionMap.empty = nodeMap
    at hresolved ⊢
  refine ⟨_, rfl, rfl, ?_, fun k node => ?_, ?_⟩
  · have hone : ∀ id node, nodeMap.get? id = some node → node.id = id := by
      intro id node hget
      exact mem_singleton.mp (hresolved.mp (mem_filterMap.mpr
        ⟨id, mem_singleton_self id, hget⟩)).2
    rw [← filterMap_flatten]
    exact hflat.filterMap fun id id' node hid hid' => (hone id node hid).symm.trans (hone id' node hid')
  · dsimp only [DAGExecutionPlan.InWave]
    rw [getElem?_map]
    constructor
    · rintro ⟨wave, hwave, hnode⟩
      obtain ⟨ids, hget, rfl⟩ := Option.map_eq_some_iff.mp hwave
      obtain ⟨hnode, hid⟩ := hresolved.mp hnode
      exact ⟨hnode, ((hwaves k node.id).mp ⟨ids, hget, hid⟩).2⟩
    · rintro ⟨hnode, hat⟩
      obtain ⟨ids, hget, hid⟩ := (hwaves k node.id).mpr ⟨mem_map_of_mem hnode, hat⟩
      exact ⟨_, Option.map_eq_some_iff.mpr ⟨ids, hget, rfl⟩, hresolved.mpr ⟨hnode, hid⟩⟩
  · rw [decide_eq_true_eq, ← length_flatten, ← length_ids]
    have hmem : ∀ id, id ∈ waves.flatten
        ↔ id ∈ nodes.map DAGToolNode.id ∧ ∃ k, Layers.At (Needs nodes) k id := by
      intro id
      rw [mem_flatten]
      constructor
      · rintro ⟨w, hw, hid⟩
        obtain ⟨i, hi⟩ := getElem?_of_mem hw
        obtain ⟨hknown, hat⟩ := (hwaves i id).mp ⟨w, hi, hid⟩
        exact ⟨hknown, i, hat⟩
      · rintro ⟨hknown, k, hat⟩
        obtain ⟨w, hw, hid⟩ := (hwaves k id).mpr ⟨hknown, hat⟩
        exact ⟨w, mem_of_getElem? hw, hid⟩
    have hsub := hflat.subperm fun id hid => ((hmem id).mp hid).1
    constructor
    · intro hlt
      by_contra hall
      push Not at hall
      have hback := hids.subperm fun id hid => (hmem id).mpr ⟨hid, hall id hid⟩
      have hle := hback.length_le
      omega
    · rintro ⟨id, hid, hnone⟩
      by_contra hge
      have hperm := hsub.perm_of_length_le (by omega)
      obtain ⟨-, k, hat⟩ := (hmem id).mp (hperm.mem_iff.mpr hid)
      exact hnone k hat

/-- **Planning is exact.**  A plan is made, it has cycles exactly if the dependency relation
between known ids has one, and otherwise each node stands in it once, in the first wave that comes
after all its known dependencies. -/
theorem planDAG_exact (nodes : List (DAGToolNode ρ)) (hids : (nodes.map DAGToolNode.id).Nodup)
    {turns : ℕ} (hturns : nodes.length < turns) :
    ∃ plan, planDAG turns nodes = some plan ∧ plan.totalNodes = nodes.length
      ∧ (plan.hasCycles = true ↔ ∃ id, Relation.TransGen (Needs nodes) id id)
      ∧ (plan.hasCycles = false → plan.waves.flatten.Perm nodes
        ∧ ∀ k node, plan.InWave k node →
          (∀ dep ∈ nodes, dep.id ∈ node.dependencies → ∃ j < k, plan.InWave j dep)
          ∧ ∀ k', (∀ dep ∈ nodes, dep.id ∈ node.dependencies → ∃ j < k', plan.InWave j dep) →
            k ≤ k') := by
  obtain ⟨plan, hplan, htotal, hnodup, hwave, hcycles⟩ := planDAG_spec hids hturns
  refine ⟨plan, hplan, htotal, ?_, fun hacyclic => ⟨?_, fun k node hnode => ?_⟩⟩
  · rw [hcycles, Layers.exists_cycle_iff fun _ _ hneeds => mem_toFinset.mpr hneeds.1]
    constructor
    · rintro ⟨id, -, hnone⟩
      exact ⟨id, hnone⟩
    · rintro ⟨id, hnone⟩
      -- what has no layer rests on something, so it is known
      have hsome : Layers.Chain (Needs nodes) 1 id := by
        by_contra hno
        exact hnone 0 ⟨trivial, hno⟩
      obtain ⟨depId, hneeds, -⟩ := hsome
      exact ⟨id, hneeds.mem_left, hnone⟩
  · refine (perm_ext_iff_of_nodup hnodup hids.of_map).mpr fun node => ?_
    have hlayer : ∀ node ∈ nodes, ∃ k, Layers.At (Needs nodes) k node.id := by
      by_contra hnone
      push Not at hnone
      obtain ⟨node, hnode, hnone⟩ := hnone
      have hcyclic := hcycles.mpr ⟨node.id, mem_map_of_mem hnode, hnone⟩
      rw [hacyclic] at hcyclic
      cases hcyclic
    rw [mem_flatten]
    constructor
    · rintro ⟨wave, hmem, hnode⟩
      obtain ⟨k, hk⟩ := getElem?_of_mem hmem
      exact ((hwave k node).mp ⟨wave, hk, hnode⟩).1
    · intro hnode
      obtain ⟨k, hk⟩ := hlayer node hnode
      obtain ⟨wave, hget, hmem⟩ := (hwave k node).mpr ⟨hnode, hk⟩
      exact ⟨wave, mem_of_getElem? hget, hmem⟩
  · obtain ⟨hmem, hat⟩ := (hwave k node).mp hnode
    have hneeds : ∀ dep ∈ nodes, dep.id ∈ node.dependencies → Needs nodes node.id dep.id :=
      fun dep hdep hin => ⟨mem_map_of_mem hdep, node, hmem, rfl, hin⟩
    constructor
    · intro dep hdep hin
      obtain ⟨j, hlt, hj⟩ := hat.below (hneeds dep hdep hin)
      exact ⟨j, hlt, (hwave j dep).mpr ⟨hdep, hj⟩⟩
    · intro k' hafter
      by_contra hlt
      -- a chain of `k` steps begins with a dependency in wave `k - 1`
      obtain ⟨depId, hneed, hdep⟩ := (show Layers.At (Needs nodes) (k - 1 + 1) node.id by
        rwa [Nat.sub_add_cancel (by omega)]).tight
      obtain ⟨hknown, other, hother, hsame, hin⟩ := hneed
      obtain rfl : other = node := inj_on_of_nodup_map hids hother hmem hsame
      obtain ⟨dep, hdepmem, rfl⟩ := mem_map.mp hknown
      obtain ⟨j, hj, hwavej⟩ := hafter dep hdepmem hin
      have heq := hdep.unique ((hwave j dep).mp hwavej).2
      omega

/-- **No schedule is faster.**  If the calls can be run in rounds at all, each after its known
dependencies, then the plan has no cycle and runs every call, none in a later round. -/
theorem planDAG_fastest (nodes : List (DAGToolNode ρ)) (hids : (nodes.map DAGToolNode.id).Nodup)
    {turns : ℕ} (hturns : nodes.length < turns) (start : Text → ℕ)
    (hstart : ∀ node ∈ nodes, ∀ dep ∈ nodes, dep.id ∈ node.dependencies →
      start dep.id < start node.id) :
    ∃ plan, planDAG turns nodes = some plan ∧ plan.hasCycles = false
      ∧ ∀ node ∈ nodes, ∃ k ≤ start node.id, plan.InWave k node := by
  obtain ⟨plan, hplan, -, -, hwave, hcycles⟩ := planDAG_spec hids hturns
  have hlayer : ∀ id, ∃ k ≤ start id, Layers.At (Needs nodes) k id := by
    intro id
    have hchain : ¬ Layers.Chain (Needs nodes) (start id + 1) id := by
      intro hlong
      have hle := hlong.le_start fun id depId ⟨hknown, node, hnode, hid, hin⟩ => by
        obtain ⟨dep, hdep, rfl⟩ := mem_map.mp hknown
        exact hid ▸ hstart node hnode dep hdep hin
      omega
    obtain ⟨k, hlt, hk⟩ := Layers.exists_at_of_not_chain hchain
    exact ⟨k, Nat.le_of_lt_succ hlt, hk⟩
  refine ⟨plan, hplan, ?_, fun node hnode => ?_⟩
  · rw [Bool.eq_false_iff, Ne, hcycles]
    rintro ⟨id, -, hnone⟩
    obtain ⟨k, -, hk⟩ := hlayer id
    exact hnone k hk
  · obtain ⟨k, hle, hk⟩ := hlayer node.id
    exact ⟨k, hle, (hwave k node).mpr ⟨hnode, hk⟩⟩

end

/-- Two calls that wait for the first, one of them twice, the other also for an id that no call
has, and a call that waits for both. -/
def diamond : List (DAGToolNode Unit) :=
  let node (id : String) (dependencies : List String) : DAGToolNode Unit :=
    ⟨text id, text "read_file", (), dependencies.map text⟩
  [node "d" ["b", "c"], node "b" ["a", "a"], node "c" ["a", "lost"], node "a" []]

theorem planDAG_diamond : ∃ plan, planDAG 5 diamond = some plan ∧ plan.totalNodes = 4
    ∧ (plan.hasCycles = true ↔ ∃ id, Relation.TransGen (Needs diamond) id id) := by
  obtain ⟨plan, hplan, htotal, hcycles, -⟩ := planDAG_exact diamond (by decide +kernel)
    (show 4 < 5 by decide)
  exact ⟨plan, hplan, htotal, hcycles⟩

theorem planDAG_diamond_fastest : ∃ plan, planDAG 5 diamond = some plan ∧ plan.hasCycles = false
    ∧ ∀ node ∈ diamond, ∃ k ≤ if node.id = text "a" then 0 else if node.id = text "d" then 2 else 1,
      plan.InWave k node :=
  planDAG_fastest diamond (by decide +kernel) (by decide : 4 < 5)
    (fun id => if id = text "a" then 0 else if id = text "d" then 2 else 1) (by decide +kernel)

example : (planDAG 5 diamond).map (fun plan => (plan.waves.map List.length, plan.hasCycles))
    = some ([1, 2, 1], false) := by decide +kernel

end ToolDependencyGraphPlanner

end Lumi.Tools
