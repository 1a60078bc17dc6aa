import Lumi.Substrate.BroccoliConsistentHashRing

/-!
# The history of a hash ring

As long as no node is given a token of another one, and none is added again with fewer tokens, the
ring holds exactly the tokens of the nodes, each by its node.  Then it does not matter by which calls
the nodes came there.  A node that is added takes keys only to itself, and when it is removed again
the ring is as it was.
-/

namespace Lumi.Substrate

open Js InsertionMap Option

variable {μ : Type*}

namespace BroccoliConsistentHashRing

variable {s s' : BroccoliConsistentHashRing μ}

/-- No token of another node is taken, and no old token of the node is left behind. -/
def Undisturbed (s : BroccoliConsistentHashRing μ) : RingCall μ → Prop
  | .addNode node =>
    ∀ other ∈ s.nodes.values,
      if other.nodeId = node.nodeId then
        ∀ token ∈ other.tokens s.vnodesPerNode, token ∈ node.tokens s.vnodesPerNode
      else ∀ token ∈ node.tokens s.vnodesPerNode, token ∉ other.tokens s.vnodesPerNode
  | .removeNode _ => True

instance (s : BroccoliConsistentHashRing μ) : (call : RingCall μ) → Decidable (s.Undisturbed call)
  | .addNode _ => inferInstanceAs (Decidable (∀ _ ∈ _, _))
  | .removeNode _ => isTrue trivial

theorem Undisturbed.of_other {node other : HashRingNode μ} (h : s.Undisturbed (.addNode node))
    (hother : s.nodes.get? other.nodeId = some other) (hne : other.nodeId ≠ node.nodeId) {token : ℕ}
    (hmem : token ∈ node.tokens s.vnodesPerNode) : token ∉ other.tokens s.vnodesPerNode := by
  have hentry := h other (List.mem_map_of_mem (mem_entries_iff.mpr hother))
  rw [if_neg hne] at hentry
  exact hentry token hmem

theorem Undisturbed.of_old {node old : HashRingNode μ} (h : s.Undisturbed (.addNode node))
    (hold : s.nodes.get? old.nodeId = some old) (heq : old.nodeId = node.nodeId) {token : ℕ}
    (hmem : token ∈ old.tokens s.vnodesPerNode) : token ∈ node.tokens s.vnodesPerNode := by
  have hentry := h old (List.mem_map_of_mem (mem_entries_iff.mpr hold))
  rw [if_pos heq] at hentry
  exact hentry token hmem

/-- A token is held by the node that it is a token of. -/
def HoldsTokens (s : BroccoliConsistentHashRing μ) : Prop :=
  ∀ token node, s.ring.get? token = some node ↔
    s.nodes.get? node.nodeId = some node ∧ token ∈ node.tokens s.vnodesPerNode

/-- The nodes are the same, with the same weights. -/
def SameNodes (s s' : BroccoliConsistentHashRing μ) : Prop :=
  ∀ nodeId, (s.nodes.get? nodeId).map (fun node => node.weight.getD 1) =
    (s'.nodes.get? nodeId).map fun node => node.weight.getD 1

theorem holdsTokens_new (vnodesPerNode : ℕ) :
    (new vnodesPerNode : BroccoliConsistentHashRing μ).HoldsTokens := by
  intro token node
  simp [new]

theorem vnodesPerNode_step (s : BroccoliConsistentHashRing μ) (call : RingCall μ) :
    (s.step call).vnodesPerNode = s.vnodesPerNode := by
  cases call with
  | addNode node => rfl
  | removeNode nodeId =>
    rw [step, removeNode]
    split <;> rfl

theorem vnodesPerNode_run (vnodesPerNode : ℕ) (calls : List (RingCall μ)) :
    (Run.run step (new vnodesPerNode) calls).vnodesPerNode = vnodesPerNode :=
  Run.run_invariant (P := fun s : BroccoliConsistentHashRing μ => s.vnodesPerNode = vnodesPerNode)
    (fun s call h => (s.vnodesPerNode_step call).trans h) rfl calls

theorem HoldsTokens.addNode (h : s.HoldsTokens) {node : HashRingNode μ}
    (hcall : s.Undisturbed (.addNode node)) : (s.addNode node).HoldsTokens := by
  intro token other
  change _ ↔ (s.nodes.set node.nodeId node).get? other.nodeId = some other ∧
    token ∈ other.tokens s.vnodesPerNode
  rw [get?_ring_addNode, get?_set]
  by_cases hid : other.nodeId = node.nodeId
  · rw [if_pos hid]
    constructor
    · split
      · next hmem =>
        intro heq
        obtain rfl := Option.some.inj heq
        exact ⟨rfl, hmem⟩
      · next hnot =>
        -- an old token of the node is one of the new ones
        intro heq
        obtain ⟨hother, hmem⟩ := (h token other).mp heq
        exact absurd (hcall.of_old hother hid hmem) hnot
    · rintro ⟨heq, hmem⟩
      obtain rfl := Option.some.inj heq
      rw [if_pos hmem]
  · rw [if_neg hid]
    constructor
    · split
      · exact fun heq => absurd (congrArg HashRingNode.nodeId (Option.some.inj heq)).symm hid
      · exact (h token other).mp
    · rintro ⟨hother, hmem⟩
      rw [if_neg fun hnode => hcall.of_other hother hid hnode hmem]
      exact (h token other).mpr ⟨hother, hmem⟩

theorem HoldsTokens.removeNode (h : s.HoldsTokens) (nodeId : Text) :
    (s.removeNode nodeId).2.HoldsTokens := by
  by_cases hsome : (s.nodes.get? nodeId).isSome
  · intro token node
    have hvnodes := s.vnodesPerNode_step (.removeNode nodeId)
    rw [step] at hvnodes
    rw [s.get?_ring_removeNode hsome, nodes_removeNode, hvnodes, filter_eq_some_iff, h token,
      get?_delete, decide_eq_true_eq]
    by_cases hid : node.nodeId = nodeId
    · simp [hid]
    · simp [hid]
  · have hnone := not_isSome_iff_eq_none.mp hsome
    rw [BroccoliConsistentHashRing.removeNode, if_pos (isNone_iff_eq_none.mpr hnone)]
    exact h

/-- **Step lemma.** -/
theorem HoldsTokens.step (h : s.HoldsTokens) {call : RingCall μ} (hcall : s.Undisturbed call) :
    (s.step call).HoldsTokens := by
  cases call with
  | addNode node => exact h.addNode hcall
  | removeNode nodeId => exact h.removeNode nodeId

theorem holdsTokens_run {vnodesPerNode : ℕ} {calls : List (RingCall μ)}
    (hcalls : Run.Guarded BroccoliConsistentHashRing.step Undisturbed (new vnodesPerNode) calls) :
    (Run.run BroccoliConsistentHashRing.step (new vnodesPerNode) calls).HoldsTokens :=
  Run.run_preserves (fun _ _ h hcall => h.step hcall) (holdsTokens_new vnodesPerNode) hcalls

/-! ## What the ring answers -/

/-- The answers depend on who holds which token. -/
theorem getNode_congr {β : Type*} {f : HashRingNode μ → β}
    (h : ∀ token, (s.ring.get? token).map f = (s'.ring.get? token).map f) (key : Text) :
    (s.getNode key).map f = (s'.getNode key).map f := by
  have htokens : s.sortedTokens = s'.sortedTokens := by
    refine s.sorted_sortedTokens.eq_of_mem_iff s'.sorted_sortedTokens fun token => ?_
    have hsome := congrArg Option.isSome (h token)
    rw [isSome_map, isSome_map] at hsome
    rw [mem_sortedTokens, mem_sortedTokens, mem_keys_iff, mem_keys_iff,
      ← isSome_iff_exists, ← isSome_iff_exists, hsome]
  rw [getNode_eq, getNode_eq, htokens, Option.map_bind, Option.map_bind]
  exact Option.bind_congr fun token _ => h token

/-- Nodes with one id and one weight have the same tokens. -/
theorem tokens_congr {node node' : HashRingNode μ} (hid : node.nodeId = node'.nodeId)
    (hweight : node.weight.getD 1 = node'.weight.getD 1) (vnodesPerNode : ℕ) :
    node.tokens vnodesPerNode = node'.tokens vnodesPerNode := by
  rw [HashRingNode.tokens, HashRingNode.tokens, HashRingNode.count, HashRingNode.count, hid, hweight]

theorem holder_eq_some_iff (h : s.HoldsTokens) (hids : s.Registered) {token : ℕ} {nodeId : Text} :
    (s.ring.get? token).map HashRingNode.nodeId = some nodeId ↔
      ∃ node, s.nodes.get? nodeId = some node ∧ token ∈ node.tokens s.vnodesPerNode := by
  rw [map_eq_some_iff]
  constructor
  · rintro ⟨node, hnode, rfl⟩
    exact ⟨node, (h token node).mp hnode⟩
  · rintro ⟨node, hnode, hmem⟩
    obtain rfl := hids.ids nodeId node hnode
    exact ⟨node, (h token node).mpr ⟨hnode, hmem⟩, rfl⟩

theorem getNode_eq_of_sameNodes (h : s.HoldsTokens) (hids : s.Registered) (h' : s'.HoldsTokens)
    (hids' : s'.Registered) (hvnodes : s.vnodesPerNode = s'.vnodesPerNode) (hsame : s.SameNodes s')
    (key : Text) :
    (s.getNode key).map HashRingNode.nodeId = (s'.getNode key).map HashRingNode.nodeId := by
  refine getNode_congr (fun token => Option.ext fun nodeId => ?_) key
  rw [holder_eq_some_iff h hids, holder_eq_some_iff h' hids']
  have hweights := hsame nodeId
  cases hnode : s.nodes.get? nodeId with
  | none =>
    rw [hnode, map_none, eq_comm, map_eq_none_iff] at hweights
    simp [hweights]
  | some node =>
    rw [hnode, map_some, eq_comm, map_eq_some_iff] at hweights
    obtain ⟨node', hnode', hweight⟩ := hweights
    have htokens :=
      tokens_congr ((hids'.ids nodeId node' hnode').trans (hids.ids nodeId node hnode).symm)
      hweight s'.vnodesPerNode
    rw [hnode', hvnodes]
    simp only [Option.some.injEq, exists_eq_left', htokens]

/-- A node that is added takes keys only to itself. -/
theorem getNode_addNode (s : BroccoliConsistentHashRing μ) (node : HashRingNode μ) (key : Text) :
    (s.addNode node).getNode key = s.getNode key ∨ (s.addNode node).getNode key = some node := by
  have hsub : ∀ token, token ∈ s.sortedTokens → token ∈ (s.addNode node).sortedTokens := by
    intro token htoken
    obtain ⟨other, hother⟩ := isSome_iff_exists.mp (isSome_get?_of_mem htoken)
    rw [mem_sortedTokens, mem_keys_iff]
    by_cases hmem : token ∈ node.tokens s.vnodesPerNode
    · exact ⟨node, by rw [get?_ring_addNode, if_pos hmem]⟩
    · exact ⟨other, by rw [get?_ring_addNode, if_neg hmem, hother]⟩
  rw [getNode_eq (s.addNode node)]
  cases hhead : (Clockwise.clockwise (hash key) (s.addNode node).sortedTokens).head? with
  | none =>
    have hnil : (s.addNode node).sortedTokens = [] := by
      have hperm := Clockwise.perm_clockwise (hash key) (s.addNode node).sortedTokens
      rw [List.head?_eq_none_iff.mp hhead] at hperm
      exact hperm.nil_eq.symm
    have hnone : s.sortedTokens = [] :=
      List.eq_nil_iff_forall_not_mem.mpr fun token htoken =>
        absurd (hsub token htoken) (hnil ▸ List.not_mem_nil)
    refine .inl ?_
    rw [getNode_eq, hnone]
    rfl
  | some token =>
    have hfirst := (Clockwise.head?_clockwise_iff (s.addNode node).sorted_sortedTokens).mp hhead
    have hheld := isSome_get?_of_mem hfirst.mem
    rw [bind_some, get?_ring_addNode]
    split
    · exact .inr rfl
    · next hmem =>
      -- the token was there before, and it was met first then, too
      rw [get?_ring_addNode, if_neg hmem, isSome_iff_exists,
        ← mem_keys_iff] at hheld
      have hbefore := (Clockwise.head?_clockwise_iff s.sorted_sortedTokens).mpr
        (hfirst.mono hsub (mem_sortedTokens.mpr hheld))
      refine .inl ?_
      rw [getNode_eq, hbefore]
      rfl

/-- When it is removed again, everything is as it was. -/
theorem getNode_removeNode_addNode (h : s.HoldsTokens) (hids : s.Registered) {node : HashRingNode μ}
    (hfresh : s.nodes.get? node.nodeId = none) (hcall : s.Undisturbed (.addNode node)) (key : Text) :
    ((s.addNode node).removeNode node.nodeId).2.getNode key = s.getNode key := by
  have hsome : ((s.addNode node).nodes.get? node.nodeId).isSome := by
    change ((s.nodes.set node.nodeId node).get? node.nodeId).isSome
    rw [get?_set_self]
    rfl
  have hring : ∀ token, (((s.addNode node).removeNode node.nodeId).2.ring.get? token).map id =
      (s.ring.get? token).map id := by
    intro token
    rw [map_id, id, id, get?_ring_removeNode _ hsome, get?_ring_addNode]
    split
    · next hmem =>
      rw [filter_some_neg (by simp)]
      refine (eq_none_iff_forall_ne_some.mpr fun other hother => ?_).symm
      obtain ⟨hregistered, htoken⟩ := (h token other).mp hother
      have hne : other.nodeId ≠ node.nodeId := by
        intro heq
        rw [heq, hfresh] at hregistered
        cases hregistered
      exact hcall.of_other hregistered hne hmem htoken
    · cases hother : s.ring.get? token with
      | none => rfl
      | some other =>
        refine filter_some_pos ?_
        have hholder := hids.holders token other hother
        rw [decide_eq_true_eq]
        intro heq
        rw [heq, hfresh] at hholder
        cases hholder
  have hanswer := getNode_congr hring key
  rwa [map_id, id, id] at hanswer

end BroccoliConsistentHashRing

open BroccoliConsistentHashRing

/-- **The ring is independent of its history** after calls that leave each other's tokens alone; then
a fresh node takes keys only to itself, and gives them back when it is removed. -/
theorem ring_history_independent {vnodesPerNode : ℕ} {calls calls' : List (RingCall μ)}
    (hcalls : Run.Guarded step Undisturbed (new vnodesPerNode) calls)
    (hcalls' : Run.Guarded step Undisturbed (new vnodesPerNode) calls')
    (hsame : (Run.run step (new vnodesPerNode) calls).SameNodes
      (Run.run step (new vnodesPerNode) calls')) :
    (∀ key, ((Run.run step (new vnodesPerNode) calls).getNode key).map HashRingNode.nodeId =
      ((Run.run step (new vnodesPerNode) calls').getNode key).map HashRingNode.nodeId) ∧
    ∀ node : HashRingNode μ,
      (Run.run step (new vnodesPerNode) calls).nodes.get? node.nodeId = none →
      (Run.run step (new vnodesPerNode) calls).Undisturbed (.addNode node) →
      let s := Run.run step (new vnodesPerNode) calls
      ∀ key, ((s.addNode node).getNode key = s.getNode key ∨
          (s.addNode node).getNode key = some node) ∧
        ((s.addNode node).removeNode node.nodeId).2.getNode key = s.getNode key := by
  have hholds := holdsTokens_run hcalls
  have hids := registered_run vnodesPerNode calls
  constructor
  · intro key
    refine getNode_eq_of_sameNodes hholds hids (holdsTokens_run hcalls')
      (registered_run vnodesPerNode calls') ?_ hsame key
    rw [vnodesPerNode_run, vnodesPerNode_run]
  · intro node hfresh hcall s key
    exact ⟨s.getNode_addNode node key, getNode_removeNode_addNode hholds hids hfresh hcall key⟩

section

/-- Two nodes are added in either order. -/
theorem history_of_two :
    (fun key => ((sampleRing ["A", "B"]).getNode key).map HashRingNode.nodeId) =
      fun key => ((sampleRing ["B", "A"]).getNode key).map HashRingNode.nodeId := by
  have hsame : (sampleRing ["A", "B"]).SameNodes (sampleRing ["B", "A"]) := by
    intro nodeId
    change (((InsertionMap.empty.set (text "A") (sampleNode "A")).set (text "B")
      (sampleNode "B")).get? nodeId).map _ = (((InsertionMap.empty.set (text "B")
      (sampleNode "B")).set (text "A") (sampleNode "A")).get? nodeId).map _
    simp only [get?_set]
    by_cases hB : nodeId = text "B"
    · rw [if_pos hB, if_neg (hB ▸ by decide), if_pos hB]
    · rw [if_neg hB, if_neg hB]
  exact funext (ring_history_independent (by decide +kernel) (by decide +kernel) hsame).1

def halfNode : HashRingNode Unit := ⟨text "A", some (1 / 2), none⟩

/-- A node is added again with half its weight, and keeps the token that it had for the other half. -/
def reweighted : BroccoliConsistentHashRing Unit :=
  Run.run step (new 2) [.addNode (sampleNode "A"), .addNode (sampleNode "B"), .addNode halfNode]

def reweightedOnly : BroccoliConsistentHashRing Unit :=
  Run.run step (new 2) [.addNode (sampleNode "B"), .addNode halfNode]

/-- Both rings have the same nodes with the same weights, but a key belongs to one or the other. -/
theorem old_tokens_remain : reweighted.SameNodes reweightedOnly ∧
    (reweighted.getNode (text "A#vnode_1")).map HashRingNode.nodeId ≠
      (reweightedOnly.getNode (text "A#vnode_1")).map HashRingNode.nodeId := by
  refine ⟨fun nodeId => ?_, by decide +kernel⟩
  change ((((InsertionMap.empty.set (text "A") (sampleNode "A")).set (text "B")
    (sampleNode "B")).set (text "A") halfNode).get? nodeId).map _ =
      (((InsertionMap.empty.set (text "B") (sampleNode "B")).set (text "A") halfNode).get?
        nodeId).map _
  simp only [get?_set]
  by_cases hA : nodeId = text "A"
  · rw [if_pos hA, if_pos hA]
  · rw [if_neg hA, if_neg hA, if_neg hA]

end

end Lumi.Substrate
