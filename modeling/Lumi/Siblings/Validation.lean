import Lumi.Siblings.Dependency

/-!
# Validation of a dependency graph

Before it runs anything, the scheduler of sibling tools refuses a graph with two nodes of one
sequence, with an edge to the node itself or to a node that is not there, and with a cycle, for
which it visits the nodes along their edges.  The graph of a message passes (`validate_connected`).
-/

namespace Lumi.Siblings

open Js List

section

variable (nodes : List SiblingToolDependencyNode)

/-- `nodesBySequence.get(sequence)`. -/
def nodeAt (sequence : ℕ) : Option SiblingToolDependencyNode :=
  nodes.reverse.find? fun node => node.sequence = sequence

def edgesOf (sequence : ℕ) : List SiblingDependencyEdge :=
  ((nodeAt nodes sequence).map SiblingToolDependencyNode.dependencyEdges).getD []

/-- The sequences met so far, and those that were met again. -/
def meet (met : List ℕ × List ℕ) (sequence : ℕ) : List ℕ × List ℕ :=
  if sequence ∈ met.1 then (met.1, if sequence ∈ met.2 then met.2 else met.2 ++ [sequence])
  else (met.1 ++ [sequence], met.2)

def duplicateSequences : List ℕ :=
  ((nodes.map SiblingToolDependencyNode.sequence).foldl meet ([], [])).2

def checkEdge (node : SiblingToolDependencyNode) (edge : SiblingDependencyEdge) :
    ExceptT Text Option Unit :=
  if edge.sequence = node.sequence then
    throw (text "Sibling dependency graph contains a self-dependency at sequence "
      ++ decimal node.sequence ++ text ".")
  else if (nodeAt nodes edge.sequence).isNone then
    throw (text "Sibling dependency graph references missing sequence " ++ decimal edge.sequence
      ++ text " from " ++ decimal node.sequence ++ text ".")
  else pure ()

/-- Visits a node.  The nodes that are being visited are those on the stack; it gives those that
have been visited, and nothing if the fuel runs out. -/
def visit : ℕ → List ℕ → List ℕ → ℕ → ExceptT Text Option (List ℕ)
  | 0, _, _, _ => ExceptT.mk none
  | fuel + 1, stack, visited, sequence =>
    if sequence ∈ visited then pure visited
    else if sequence ∈ stack then
      let cycle := stack.dropWhile (· ≠ sequence) ++ [sequence]
      throw (text "Sibling dependency graph contains a cycle: "
        ++ joinWith (text " -> ") (cycle.map decimal) ++ text ".")
    else
      (· ++ [sequence]) <$> (edgesOf nodes sequence).foldlM
        (fun visited edge => visit fuel (stack ++ [sequence]) visited edge.sequence) visited

def validateDependencyGraph : ExceptT Text Option Unit :=
  if duplicateSequences nodes ≠ [] then
    throw (text "Sibling dependency graph contains duplicate sequence(s): "
      ++ joinWith (text ", ") ((duplicateSequences nodes).map decimal) ++ text ".")
  else do
    nodes.forM fun node => node.dependencyEdges.forM (checkEdge nodes node)
    discard <| (nodes.map SiblingToolDependencyNode.sequence).foldlM
      (visit nodes (nodes.length + 2) []) []

end

/-! ## The graph of a message passes -/

variable {nodes : List SiblingToolDependencyNode}

theorem Connected.sequences (h : Connected nodes) :
    nodes.map SiblingToolDependencyNode.sequence = List.range nodes.length := by
  apply ext_getElem?
  intro i
  rw [getElem?_map]
  cases hi : nodes[i]? with
  | none =>
    have hlen := List.getElem?_eq_none_iff.mp hi
    rw [getElem?_eq_none (by rw [length_range]; exact hlen)]
    rfl
  | some node =>
    have hlen := (List.getElem?_eq_some_iff.mp hi).1
    rw [getElem?_range hlen, ← h.sequence i node hi]
    rfl

theorem Connected.nodeAt_eq (h : Connected nodes) (i : ℕ) : nodeAt nodes i = nodes[i]? := by
  cases hfind : nodeAt nodes i with
  | none =>
    refine (List.getElem?_eq_none_iff.mpr ?_).symm
    by_contra hlt
    have hi := getElem?_eq_getElem (Nat.lt_of_not_le hlt)
    have hmem := mem_reverse.mpr (mem_of_getElem? hi)
    exact find?_eq_none.mp hfind _ hmem (decide_eq_true (h.sequence i _ hi))
  | some node =>
    rw [nodeAt] at hfind
    have hmem := mem_reverse.mp (mem_of_find?_eq_some hfind)
    have hfound := find?_some hfind
    have hsequence : node.sequence = i := of_decide_eq_true hfound
    obtain ⟨k, hk⟩ := mem_iff_getElem?.mp hmem
    rw [← hsequence, h.sequence k node hk, hk]

theorem Connected.edgesOf_lt (h : Connected nodes) {i : ℕ} {edge : SiblingDependencyEdge}
    (hedge : edge ∈ edgesOf nodes i) : edge.sequence < i ∧ i < nodes.length := by
  rw [edgesOf, h.nodeAt_eq] at hedge
  cases hi : nodes[i]? with
  | none =>
    rw [hi] at hedge
    exact absurd hedge not_mem_nil
  | some node =>
    rw [hi] at hedge
    refine ⟨?_, (List.getElem?_eq_some_iff.mp hi).1⟩
    rw [← h.sequence i node hi]
    exact h.earlier node (mem_of_getElem? hi) edge hedge

theorem meet_range (n : ℕ) : (List.range n).foldl meet ([], []) = (List.range n, []) := by
  induction n with
  | zero => rfl
  | succ n ih =>
    rw [range_succ, foldl_append, ih]
    exact if_neg not_mem_range_self

theorem Connected.checkEdge (h : Connected nodes) {node : SiblingToolDependencyNode}
    (hnode : node ∈ nodes) {edge : SiblingDependencyEdge} (hedge : edge ∈ node.dependencyEdges) :
    checkEdge nodes node edge = pure () := by
  have hlt := h.earlier node hnode edge hedge
  obtain ⟨i, hi⟩ := mem_iff_getElem?.mp hnode
  have hsequence := h.sequence i node hi
  have hlen := (List.getElem?_eq_some_iff.mp hi).1
  have hsome : nodeAt nodes edge.sequence = some nodes[edge.sequence] := by
    rw [h.nodeAt_eq]
    exact getElem?_eq_getElem (by omega)
  rw [Siblings.checkEdge, if_neg (Nat.ne_of_lt hlt), hsome, if_neg (by simp)]

/-- A node all of whose edges lead to visited nodes. -/
theorem visit_eq {fuel : ℕ} (hfuel : 0 < fuel) {visited : List ℕ} {sequence : ℕ}
    (hnew : sequence ∉ visited)
    (hedges : ∀ edge ∈ edgesOf nodes sequence, edge.sequence ∈ visited) :
    visit nodes (fuel + 1) [] visited sequence = pure (visited ++ [sequence]) := by
  obtain ⟨fuel, rfl⟩ := Nat.exists_eq_succ_of_ne_zero (Nat.pos_iff_ne_zero.mp hfuel)
  have hfold : ∀ edges : List SiblingDependencyEdge, (∀ edge ∈ edges, edge.sequence ∈ visited) →
      edges.foldlM (fun visited edge => visit nodes (fuel + 1) ([] ++ [sequence]) visited
        edge.sequence) visited = pure visited := by
    intro edges hvisited
    induction edges with
    | nil => rfl
    | cons edge rest ih =>
      have hhead : visit nodes (fuel + 1) ([] ++ [sequence]) visited edge.sequence
          = pure visited := if_pos (hvisited edge mem_cons_self)
      rw [foldlM_cons, hhead, pure_bind]
      exact ih fun e he => hvisited e (mem_cons_of_mem _ he)
  rw [visit, if_neg hnew, if_neg not_mem_nil, hfold _ hedges, map_pure]

theorem Connected.visit_range (h : Connected nodes) {fuel k : ℕ} (hfuel : 0 < fuel) :
    (List.range k).foldlM (visit nodes (fuel + 1) []) [] = pure (List.range k) := by
  induction k with
  | zero => rfl
  | succ k ih =>
    have hlast : visit nodes (fuel + 1) [] (List.range k) k = pure (List.range k ++ [k]) :=
      visit_eq hfuel not_mem_range_self fun edge hedge =>
        mem_range.mpr (h.edgesOf_lt hedge).1
    rw [range_succ, foldlM_append, ih, pure_bind, foldlM_cons, hlast]
    rfl

theorem forM_pure {α : Type} {f : α → ExceptT Text Option Unit} {xs : List α}
    (h : ∀ x ∈ xs, f x = pure ()) : xs.forM f = pure () := by
  induction xs with
  | nil => rfl
  | cons x rest ih =>
    show (f x >>= fun _ => rest.forM f) = pure ()
    rw [h x mem_cons_self, pure_bind]
    exact ih fun y hy => h y (mem_cons_of_mem _ hy)

theorem validate_connected (h : Connected nodes) : validateDependencyGraph nodes = pure () := by
  have hduplicates : duplicateSequences nodes = [] := by
    rw [duplicateSequences, h.sequences, meet_range]
  have hedges : (nodes.forM fun node => node.dependencyEdges.forM (checkEdge nodes node))
      = pure () :=
    forM_pure fun _ hnode => forM_pure fun _ hedge => h.checkEdge hnode hedge
  rw [validateDependencyGraph, if_neg (fun hne => hne hduplicates), hedges, pure_bind, h.sequences,
    h.visit_range (Nat.succ_pos _)]
  rfl

end Lumi.Siblings
