import Mathlib.Data.List.Dedup
import Mathlib.Data.Rat.Floor
import Lumi.Lib.Clockwise
import Lumi.Lib.Decimal
import Lumi.Lib.Distinct
import Lumi.Lib.InsertionMap
import Lumi.Lib.Run

/-!
# The consistent hash ring

`BroccoliConsistentHashRing` gives every node a number of tokens, the hashes of its virtual nodes, and
a key to the node whose token is met first on the way up from the hash of the key, round the end.  Two
nodes with one token overwrite each other; a node that is added again keeps the tokens that it had.

Tokens are the numbers below 2³² that the hash yields.
-/

namespace Lumi.Substrate

open Js List InsertionMap

variable {μ : Type*}

structure HashRingNode (μ : Type*) where
  nodeId : Text
  weight : Option ℚ
  metadata : Option μ
  deriving DecidableEq

/-- `hash`: FNV-1a, multiplied by shifts. -/
def hash (key : Text) : ℕ :=
  (key.foldl
    (fun (h : UInt32) c =>
      let h := h ^^^ c.toUInt32
      h + ((h <<< 1) + (h <<< 4) + (h <<< 7) + (h <<< 8) + (h <<< 24)))
    0x811c9dc5).toNat

/-- How many virtual nodes a node has. -/
def HashRingNode.count (vnodesPerNode : ℕ) (node : HashRingNode μ) : ℕ :=
  (max 1 ⌊(vnodesPerNode : ℚ) * node.weight.getD 1⌋).toNat

/-- The tokens of the virtual nodes. -/
def HashRingNode.tokens (vnodesPerNode : ℕ) (node : HashRingNode μ) : List ℕ :=
  (List.range (node.count vnodesPerNode)).map fun i =>
    hash (node.nodeId ++ text "#vnode_" ++ decimal i)

/-- `Array.from(ring.keys()).sort((a, b) => a - b)`. -/
def sortTokens (ring : InsertionMap ℕ (HashRingNode μ)) : List ℕ :=
  ring.keys.insertionSort (· ≤ ·)

/-- The sorted tokens are rebuilt whenever the ring has changed. -/
structure BroccoliConsistentHashRing (μ : Type*) where
  vnodesPerNode : ℕ
  ring : InsertionMap ℕ (HashRingNode μ)
  sortedTokens : List ℕ
  nodes : InsertionMap Text (HashRingNode μ)
  rebuilt : sortedTokens = sortTokens ring

namespace BroccoliConsistentHashRing

def new (vnodesPerNode : ℕ) : BroccoliConsistentHashRing μ := ⟨vnodesPerNode, .empty, [], .empty, rfl⟩

section

variable (s : BroccoliConsistentHashRing μ)

def addNode (node : HashRingNode μ) : BroccoliConsistentHashRing μ :=
  let ring := (node.tokens s.vnodesPerNode).foldl (fun ring token => ring.set token node) s.ring
  { s with
    nodes := s.nodes.set node.nodeId node
    ring
    sortedTokens := sortTokens ring
    rebuilt := rfl }

def removeNode (nodeId : Text) : Bool × BroccoliConsistentHashRing μ :=
  if (s.nodes.get? nodeId).isNone then (false, s)
  else
    let tokens := (s.ring.entries.filter fun e => e.2.nodeId = nodeId).map Prod.fst
    let ring := tokens.foldl InsertionMap.delete s.ring
    (true, { s with
      nodes := s.nodes.delete nodeId
      ring
      sortedTokens := sortTokens ring
      rebuilt := rfl })

/-- `findTokenIndex`, a binary search for the first token from the given one on. -/
def findTokenIndex (token : ℕ) : ℕ :=
  match s.sortedTokens.getLast? with
  | none => 0
  | some last =>
    if token > last then 0
    else Clockwise.lowerBound (fun mid => s.sortedTokens[mid]?.all (token ≤ ·))
      s.sortedTokens.length 0 (s.sortedTokens.length - 1)

/-- `getNode`, which makes the same search. -/
def getNode (key : Text) : Option (HashRingNode μ) :=
  if s.sortedTokens.length = 0 then none
  else s.sortedTokens[s.findTokenIndex (hash key)]?.bind s.ring.get?

def getNodesForKey (key : Text) (replicaCount : ℕ) : List (HashRingNode μ) :=
  if s.nodes.size = 0 then []
  else if s.nodes.size ≤ replicaCount then s.nodes.values
  else
    let idx := s.findTokenIndex (hash key)
    -- the loop takes a node unless it has one with its id, and ends when it has enough
    Distinct.collect HashRingNode.nodeId replicaCount [] <|
      (List.range s.sortedTokens.length).filterMap fun i =>
        s.sortedTokens[(idx + i) % s.sortedTokens.length]?.bind s.ring.get?

end

end BroccoliConsistentHashRing

inductive RingCall (μ : Type*)
  | addNode (node : HashRingNode μ)
  | removeNode (nodeId : Text)

def BroccoliConsistentHashRing.step (s : BroccoliConsistentHashRing μ) :
    RingCall μ → BroccoliConsistentHashRing μ
  | .addNode node => s.addNode node
  | .removeNode nodeId => (s.removeNode nodeId).2

/-! ## The tokens of the ring -/

namespace BroccoliConsistentHashRing

variable {s : BroccoliConsistentHashRing μ} {key : Text}

/-- The nodes of the tokens on the way from the hash of a key. -/
def nodesFrom (s : BroccoliConsistentHashRing μ) (key : Text) : List (HashRingNode μ) :=
  (Clockwise.clockwise (hash key) s.sortedTokens).filterMap s.ring.get?

/-- The same, each node once. -/
def nodesClockwise (s : BroccoliConsistentHashRing μ) (key : Text) : List (HashRingNode μ) :=
  Distinct.distinct HashRingNode.nodeId [] (s.nodesFrom key)

theorem mem_sortedTokens {token : ℕ} : token ∈ s.sortedTokens ↔ token ∈ s.ring.keys := by
  rw [s.rebuilt, sortTokens, mem_insertionSort]

theorem sorted_sortedTokens (s : BroccoliConsistentHashRing μ) : s.sortedTokens.Pairwise (· < ·) := by
  have hperm : s.sortedTokens.Perm s.ring.keys := s.rebuilt ▸ perm_insertionSort _ _
  have hnodup : s.sortedTokens.Nodup := hperm.nodup_iff.mpr s.ring.nodup
  have hle : s.sortedTokens.Pairwise (· ≤ ·) := s.rebuilt ▸ pairwise_insertionSort _ _
  exact hle.imp₂ (fun _ _ hle hne => Nat.lt_of_le_of_ne hle hne) hnodup

theorem findTokenIndex_eq (s : BroccoliConsistentHashRing μ) (token : ℕ) :
    s.findTokenIndex token = Clockwise.startIndex token s.sortedTokens := by
  unfold findTokenIndex Clockwise.startIndex
  cases s.sortedTokens.getLast? with
  | none => rfl
  | some last => rfl

/-- Every token of the ring is held by a node. -/
theorem isSome_get?_of_mem {token : ℕ} (h : token ∈ s.sortedTokens) :
    (s.ring.get? token).isSome := by
  obtain ⟨node, hnode⟩ := mem_keys_iff.mp (mem_sortedTokens.mp h)
  rw [hnode]
  rfl

section

variable (s : BroccoliConsistentHashRing μ)

theorem getNode_eq (key : Text) :
    s.getNode key =
      ((Clockwise.clockwise (hash key) s.sortedTokens).head?).bind s.ring.get? := by
  rw [getNode, findTokenIndex_eq]
  split
  · next hnil =>
    rw [length_eq_zero_iff.mp hnil]
    rfl
  · next hne =>
    have hlt : Clockwise.startIndex (hash key) s.sortedTokens < s.sortedTokens.length :=
      Clockwise.startIndex_lt fun hnil => hne (length_eq_zero_iff.mpr hnil)
    rw [← Clockwise.rotate_startIndex s.sorted_sortedTokens, head?_append,
      head?_drop, getElem?_eq_getElem hlt]
    rfl

/-- The primary is the first node on the way. -/
theorem head?_nodesClockwise (key : Text) : (s.nodesClockwise key).head? = s.getNode key := by
  rw [nodesClockwise, Distinct.head?_distinct, nodesFrom, getNode_eq]
  cases htokens : Clockwise.clockwise (hash key) s.sortedTokens with
  | nil => rfl
  | cons token rest =>
    have hmem : token ∈ s.sortedTokens := by
      apply Clockwise.mem_clockwise.mp
      rw [htokens]
      exact mem_cons_self
    obtain ⟨node, hnode⟩ := Option.isSome_iff_exists.mp (isSome_get?_of_mem hmem)
    rw [filterMap_cons, hnode, head?_cons, head?_cons, Option.bind_some, hnode]

/-- The walk of `getNodesForKey` goes that way. -/
theorem walk_eq_nodesFrom (key : Text) :
    ((List.range s.sortedTokens.length).filterMap fun i =>
        s.sortedTokens[(s.findTokenIndex (hash key) + i) % s.sortedTokens.length]?.bind s.ring.get?) =
      s.nodesFrom key := by
  have hstart : s.findTokenIndex (hash key) ≤ s.sortedTokens.length := by
    rw [findTokenIndex_eq]
    by_cases hnil : s.sortedTokens = []
    · rw [hnil]
      exact Nat.le_refl _
    · exact (Clockwise.startIndex_lt hnil).le
  rw [nodesFrom, ← Clockwise.rotate_startIndex s.sorted_sortedTokens, ← findTokenIndex_eq,
    ← Clockwise.filterMap_getElem?_add hstart, filterMap_filterMap]

end

variable {replicaCount : ℕ}

theorem getNodesForKey_of_lt (hpos : 0 < replicaCount) (h : replicaCount < s.nodes.size) :
    s.getNodesForKey key replicaCount = (s.nodesClockwise key).take replicaCount := by
  rw [getNodesForKey, if_neg (by omega), if_neg (by omega)]
  dsimp only
  rw [walk_eq_nodesFrom, Distinct.collect_eq_take hpos, nodesClockwise]

theorem getNodesForKey_of_ge (h : s.nodes.size ≤ replicaCount) :
    s.getNodesForKey key replicaCount = s.nodes.values := by
  rw [getNodesForKey, if_pos h]
  split
  · next hnone =>
    have hlength : s.nodes.values.length = 0 := by
      rw [InsertionMap.values, length_map]
      exact hnone
    exact (eq_nil_of_length_eq_zero hlength).symm
  · rfl

/-! ## The nodes of the ring -/

section

variable (s : BroccoliConsistentHashRing μ)

theorem get?_ring_addNode (node : HashRingNode μ) (token : ℕ) :
    (s.addNode node).ring.get? token =
      if token ∈ node.tokens s.vnodesPerNode then some node else s.ring.get? token :=
  get?_foldl_set_same ..

theorem get?_ring_removeNode {nodeId : Text} (h : (s.nodes.get? nodeId).isSome) (token : ℕ) :
    (s.removeNode nodeId).2.ring.get? token =
      (s.ring.get? token).filter fun node => node.nodeId ≠ nodeId := by
  have hsome : ¬ (s.nodes.get? nodeId).isNone = true := by
    rw [Option.isNone_iff_eq_none, ← Option.not_isSome_iff_eq_none, not_not]
    exact h
  rw [removeNode, if_neg hsome]
  dsimp only
  rw [get?_foldl_delete]
  have hmem : token ∈ (s.ring.entries.filter fun e => e.2.nodeId = nodeId).map Prod.fst ↔
      ∃ node, s.ring.get? token = some node ∧ node.nodeId = nodeId := by
    simp only [mem_map, mem_filter, decide_eq_true_eq, Prod.exists, exists_and_right,
      exists_eq_right, mem_entries_iff]
  cases htoken : s.ring.get? token with
  | none =>
    split
    · rfl
    · rfl
  | some node =>
    rw [htoken] at hmem
    by_cases hnode : node.nodeId = nodeId
    · rw [if_pos (hmem.mpr ⟨node, rfl, hnode⟩), Option.filter_some_neg (by simp [hnode])]
    · rw [if_neg fun h => ?_, Option.filter_some_pos (by simp [hnode])]
      obtain ⟨node', hnode', hid⟩ := hmem.mp h
      exact hnode (Option.some.inj hnode' ▸ hid)

theorem nodes_removeNode (nodeId : Text) :
    (s.removeNode nodeId).2.nodes = s.nodes.delete nodeId := by
  rw [removeNode]
  split
  · next hnone =>
    exact (delete_eq_self_of_get?_eq_none (Option.isNone_iff_eq_none.mp hnone)).symm
  · rfl

end

/-- The nodes stand under their ids, and only they hold tokens. -/
structure Registered (s : BroccoliConsistentHashRing μ) : Prop where
  ids : ∀ nodeId node, s.nodes.get? nodeId = some node → node.nodeId = nodeId
  holders : ∀ token node, s.ring.get? token = some node → (s.nodes.get? node.nodeId).isSome

theorem registered_new (vnodesPerNode : ℕ) :
    (new vnodesPerNode : BroccoliConsistentHashRing μ).Registered :=
  ⟨fun _ _ h => absurd h (by simp [new]), fun _ _ h => absurd h (by simp [new])⟩

theorem Registered.step (h : s.Registered) (call : RingCall μ) : (s.step call).Registered := by
  cases call with
  | addNode node =>
    constructor
    · intro nodeId other hother
      change (s.nodes.set node.nodeId node).get? nodeId = some other at hother
      rw [get?_set] at hother
      split at hother
      · next hid =>
        rw [hid, ← Option.some.inj hother]
      · exact h.ids nodeId other hother
    · intro token other hother
      change ((s.nodes.set node.nodeId node).get? other.nodeId).isSome
      rw [BroccoliConsistentHashRing.step, get?_ring_addNode] at hother
      rw [get?_set]
      split
      · rfl
      · next hid =>
        split at hother
        · exact absurd (congrArg HashRingNode.nodeId (Option.some.inj hother)).symm hid
        · exact h.holders token other hother
  | removeNode nodeId =>
    have hnodes := s.nodes_removeNode nodeId
    rw [BroccoliConsistentHashRing.step]
    constructor
    · intro nodeId' other hother
      rw [hnodes, get?_delete] at hother
      split at hother
      · cases hother
      · exact h.ids nodeId' other hother
    · intro token other hother
      rw [hnodes, get?_delete]
      by_cases hsome : (s.nodes.get? nodeId).isSome
      · rw [s.get?_ring_removeNode hsome, Option.filter_eq_some_iff] at hother
        rw [if_neg (by simpa using hother.2)]
        exact h.holders token other hother.1
      · have hnone := Option.not_isSome_iff_eq_none.mp hsome
        rw [removeNode, if_pos (Option.isNone_iff_eq_none.mpr hnone)] at hother
        have hholder := h.holders token other hother
        split
        · next hid =>
          rw [hid, hnone] at hholder
          exact hholder
        · exact hholder

theorem registered_run (vnodesPerNode : ℕ) (calls : List (RingCall μ)) :
    (Run.run step (new vnodesPerNode) calls).Registered :=
  Run.run_invariant (fun _ call h => h.step call) (registered_new vnodesPerNode) calls

/-! ## Replicas -/

/-- How many nodes have a token on the ring. -/
def holderCount (s : BroccoliConsistentHashRing μ) : ℕ :=
  (s.ring.values.map HashRingNode.nodeId).dedup.length

theorem mem_nodesFrom {node : HashRingNode μ} : node ∈ s.nodesFrom key ↔ node ∈ s.ring.values := by
  simp only [nodesFrom, mem_filterMap, Clockwise.mem_clockwise, mem_sortedTokens,
    InsertionMap.values, mem_map, Prod.exists, exists_eq_right, mem_entries_iff]
  constructor
  · rintro ⟨token, -, htoken⟩
    exact ⟨token, htoken⟩
  · rintro ⟨token, htoken⟩
    exact ⟨token, mem_keys_iff.mpr ⟨node, htoken⟩, htoken⟩

/-- **Only registered nodes are routed to.**  After any additions and removals, a key has a node
just if some node has a token, and the node is a registered one. -/
theorem routes_to_registered (vnodesPerNode : ℕ) (calls : List (RingCall μ)) (key : Text) :
    let s := Run.run step (new vnodesPerNode) calls
    (s.getNode key = none ↔ s.ring.values = []) ∧
      ∀ node ∈ s.getNode key, (s.nodes.get? node.nodeId).isSome := by
  intro s
  have hregistered : s.Registered := registered_run vnodesPerNode calls
  have hhead : s.getNode key = (s.nodesFrom key).head? := by
    rw [← head?_nodesClockwise, nodesClockwise, Distinct.head?_distinct]
  rw [hhead, head?_eq_none_iff]
  constructor
  · simp only [eq_nil_iff_forall_not_mem, mem_nodesFrom]
  · intro node hnode
    obtain ⟨e, he, rfl⟩ := mem_map.mp (mem_nodesFrom.mp (mem_of_mem_head? hnode))
    exact hregistered.holders e.1 e.2 (mem_entries_iff.mp he)

theorem nodup_nodesClockwise (s : BroccoliConsistentHashRing μ) (key : Text) :
    ((s.nodesClockwise key).map HashRingNode.nodeId).Nodup :=
  Distinct.nodup_distinct (by simp) _

theorem length_nodesClockwise (s : BroccoliConsistentHashRing μ) (key : Text) :
    (s.nodesClockwise key).length = s.holderCount := by
  rw [holderCount, ← length_map (f := HashRingNode.nodeId)]
  refine List.Perm.length_eq ?_
  rw [perm_ext_iff_of_nodup (s.nodup_nodesClockwise key) (nodup_dedup _)]
  intro nodeId
  rw [nodesClockwise, Distinct.mem_keys_distinct, mem_dedup]
  simp only [map_nil, not_mem_nil, false_or, mem_map, mem_nodesFrom]

theorem Registered.holderCount_le (h : s.Registered) : s.holderCount ≤ s.nodes.size := by
  have hsub : (s.ring.values.map HashRingNode.nodeId).dedup ⊆ s.nodes.keys := by
    intro nodeId hid
    obtain ⟨node, hnode, rfl⟩ := mem_map.mp (mem_dedup.mp hid)
    obtain ⟨e, he, rfl⟩ := mem_map.mp hnode
    have hholder := h.holders e.1 e.2 (mem_entries_iff.mp he)
    exact mem_keys_iff.mpr (Option.isSome_iff_exists.mp hholder)
  have hlength := (subperm_of_subset (nodup_dedup _) hsub).length_le
  rwa [InsertionMap.keys, length_map] at hlength

theorem Registered.nodup_values (h : s.Registered) :
    (s.nodes.values.map HashRingNode.nodeId).Nodup := by
  have hkeys : s.nodes.values.map HashRingNode.nodeId = s.nodes.keys := by
    rw [InsertionMap.values, InsertionMap.keys, map_map]
    exact map_inj_left.mpr fun e he => h.ids e.1 e.2 (mem_entries_iff.mp he)
  rw [hkeys]
  exact s.nodes.nodup

/-- The replicas of a key are as many distinct nodes as there are, the primary first, and more of
them begin with fewer. -/
structure ExtendsPrimary (s : BroccoliConsistentHashRing μ) (key : Text) (replicaCount : ℕ) :
    Prop where
  length : (s.getNodesForKey key replicaCount).length = min replicaCount s.holderCount
  distinct : ((s.getNodesForKey key replicaCount).map HashRingNode.nodeId).Nodup
  primary : (s.getNodesForKey key replicaCount).head? = s.getNode key
  grows : s.getNodesForKey key replicaCount <+: s.getNodesForKey key (replicaCount + 1)

/-- The nodes that are returned in the order in which they were added, when as many are asked for as
there are, agree with those that are met on the way. -/
def AddedClockwise (s : BroccoliConsistentHashRing μ) (key : Text) (replicaCount : ℕ) : Prop :=
  replicaCount + 1 < s.nodes.size ∨
    (replicaCount + 1 = s.nodes.size ∧
      (s.nodesClockwise key).take replicaCount <+: s.nodes.values) ∨
    (s.nodes.size ≤ replicaCount ∧ s.holderCount = s.nodes.size ∧
      s.nodes.values.head? = (s.nodesClockwise key).head?)

theorem Registered.extendsPrimary_iff (h : s.Registered) (hpos : 0 < replicaCount) :
    s.ExtendsPrimary key replicaCount ↔ s.AddedClockwise key replicaCount := by
  have hlength := s.length_nodesClockwise key
  have hle := h.holderCount_le
  have hvalues : s.nodes.values.length = s.nodes.size := length_map _
  rcases Nat.lt_or_ge replicaCount s.nodes.size with hlt | hge
  · -- the walk decides about the replicas themselves
    have hlist : s.getNodesForKey key replicaCount = (s.nodesClockwise key).take replicaCount :=
      getNodesForKey_of_lt hpos hlt
    have hwalk : (s.getNodesForKey key replicaCount).length = min replicaCount s.holderCount ∧
        ((s.getNodesForKey key replicaCount).map HashRingNode.nodeId).Nodup ∧
        (s.getNodesForKey key replicaCount).head? = s.getNode key := by
      rw [hlist]
      refine ⟨by rw [length_take, hlength], ?_, ?_⟩
      · rw [map_take]
        exact (take_sublist _ _).nodup (s.nodup_nodesClockwise key)
      · rw [← head?_nodesClockwise, head?_take, if_neg hpos.ne']
    have hiff : s.ExtendsPrimary key replicaCount ↔
        s.getNodesForKey key replicaCount <+: s.getNodesForKey key (replicaCount + 1) :=
      ⟨fun hext => hext.grows, fun hgrows => ⟨hwalk.1, hwalk.2.1, hwalk.2.2, hgrows⟩⟩
    rw [hiff, hlist]
    rcases Nat.lt_or_ge (replicaCount + 1) s.nodes.size with hlt' | hge'
    · rw [getNodesForKey_of_lt (Nat.succ_pos _) hlt']
      exact iff_of_true (take_prefix_take_left (Nat.le_succ _)) (.inl hlt')
    · rw [getNodesForKey_of_ge hge', AddedClockwise]
      constructor
      · exact fun hgrows => .inr (.inl ⟨by omega, hgrows⟩)
      · rintro (hlt' | ⟨-, hgrows⟩ | ⟨hge, -⟩)
        · omega
        · exact hgrows
        · omega
  · have hlist : s.getNodesForKey key replicaCount = s.nodes.values := getNodesForKey_of_ge hge
    have hnext : s.getNodesForKey key (replicaCount + 1) = s.nodes.values :=
      getNodesForKey_of_ge (Nat.le_succ_of_le hge)
    constructor
    · intro hext
      have hcount := hext.length
      have hprimary := hext.primary
      rw [hlist, hvalues] at hcount
      rw [hlist, ← head?_nodesClockwise] at hprimary
      exact .inr (.inr ⟨hge, by omega, hprimary⟩)
    · rintro (hlt | ⟨heq, -⟩ | ⟨-, hcount, hprimary⟩)
      · omega
      · omega
      · refine ⟨?_, ?_, ?_, ?_⟩
        · rw [hlist, hvalues, hcount]
          omega
        · rw [hlist]
          exact h.nodup_values
        · rw [hlist, hprimary, head?_nodesClockwise]
        · rw [hlist, hnext]

end BroccoliConsistentHashRing

open BroccoliConsistentHashRing

/-- **Replicas extend the primary** exactly where the nodes that are returned without a walk were
added in the order of the walk. -/
theorem replicas_extend_primary_iff (vnodesPerNode : ℕ) (calls : List (RingCall μ)) (key : Text)
    {replicaCount : ℕ} (hpos : 1 ≤ replicaCount) :
    (Run.run step (new vnodesPerNode) calls).ExtendsPrimary key replicaCount ↔
      (Run.run step (new vnodesPerNode) calls).AddedClockwise key replicaCount :=
  (registered_run vnodesPerNode calls).extendsPrimary_iff hpos

section

def sampleNode (nodeId : String) : HashRingNode Unit := ⟨text nodeId, none, none⟩

/-- The nodes are added to a new ring, with two tokens each. -/
def sampleRing (nodeIds : List String) : BroccoliConsistentHashRing Unit :=
  Run.run step (new 2) (nodeIds.map fun nodeId => .addNode (sampleNode nodeId))

/-- One of three nodes is asked for. -/
theorem replica_of_three : (sampleRing ["A", "B", "C"]).ExtendsPrimary (text "user") 1 :=
  (replicas_extend_primary_iff 2 _ (text "user") (by decide)).mpr (Or.inl (by decide +kernel))

/-- The key belongs to the second node, but of two nodes the first one is listed first. -/
theorem replicas_begin_elsewhere : ¬ (sampleRing ["A", "B"]).ExtendsPrimary (text "orders") 2 :=
  fun h => absurd h.primary (by decide +kernel)

end

end Lumi.Substrate
