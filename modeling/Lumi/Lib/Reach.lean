import Mathlib.Logic.Relation
import Mathlib.Data.List.Basic

/-!
# Reaching a node of an acyclic graph

A search that follows the successors of a node without marking what it has seen.  In an acyclic
graph whose nodes with successors are listed, as many rounds as there are nodes in the list are
enough, and the search finds exactly what can be reached.
-/

namespace Reach

open Relation

variable {ν : Type*} (succ : ν → List ν)

/-- One step down the graph. -/
def Edge (a b : ν) : Prop := b ∈ succ a

/-- The listed nodes at or below a node. -/
noncomputable def below (succ : ν → List ν) (nodes : List ν) (node : ν) : List ν :=
  open Classical in nodes.filter fun other => ReflTransGen (Edge succ) node other

variable {succ}

section

variable (hacyclic : ∀ node, ¬TransGen (Edge succ) node node) {nodes : List ν}
include hacyclic

/-- Fewer nodes lie below a successor. -/
theorem length_below_lt (hnodes : ∀ node, succ node ≠ [] → node ∈ nodes) {node next : ν}
    (h : Edge succ node next) : (below succ nodes next).length < (below succ nodes node).length := by
  classical
  have hnode : node ∈ nodes := hnodes node (List.ne_nil_of_mem h)
  have hsub : below succ nodes next = (below succ nodes node).filter fun other =>
      decide (ReflTransGen (Edge succ) next other) := by
    unfold below
    rw [List.filter_filter]
    refine List.filter_congr fun other _ => ?_
    by_cases hreach : ReflTransGen (Edge succ) next other
    · simp [hreach, ReflTransGen.head h hreach]
    · simp [hreach]
  rw [hsub]
  refine List.length_filter_lt_length_iff_exists.mpr ⟨node, ?_, ?_⟩
  · exact List.mem_filter.mpr ⟨hnode, decide_eq_true .refl⟩
  · -- the node does not lie below its own successor
    intro hback
    exact hacyclic node (TransGen.head' h (of_decide_eq_true hback))

end

/-- Whether the search finds `target` below `node`. -/
def reaches [DecidableEq ν] (succ : ν → List ν) : ℕ → ν → ν → Bool
  | 0, _, _ => false
  | rounds + 1, target, node =>
    if target = node then false
    else if (succ node).contains target then true
    else (succ node).any (reaches succ rounds target)

variable [DecidableEq ν]

theorem transGen_of_reaches {rounds : ℕ} {target node : ν}
    (h : reaches succ rounds target node = true) : TransGen (Edge succ) node target := by
  induction rounds generalizing node with
  | zero => cases h
  | succ rounds ih =>
    simp only [reaches] at h
    split_ifs at h with hself hdirect
    · exact .single (List.contains_iff_mem.mp hdirect)
    · obtain ⟨next, hnext, hbelow⟩ := List.any_eq_true.mp h
      exact .head hnext (ih hbelow)

section

variable (hacyclic : ∀ node, ¬TransGen (Edge succ) node node) {nodes : List ν}
include hacyclic

theorem reaches_of_transGen (hnodes : ∀ node, succ node ≠ [] → node ∈ nodes) {rounds : ℕ}
    {target node : ν} (hrounds : (below succ nodes node).length < rounds)
    (h : TransGen (Edge succ) node target) : reaches succ rounds target node = true := by
  induction rounds generalizing node with
  | zero => exact absurd hrounds (Nat.not_lt_zero _)
  | succ rounds ih =>
    have hne : target ≠ node := by
      rintro rfl
      exact hacyclic target h
    simp only [reaches, if_neg hne]
    split_ifs with hdirect
    · rfl
    · rcases TransGen.head'_iff.mp h with ⟨next, hnext, hrest⟩
      rcases hrest.cases_head with rfl | ⟨further, hfurther, hrest⟩
      · exact absurd (List.contains_iff_mem.mpr hnext) hdirect
      · refine List.any_eq_true.mpr ⟨next, hnext, ih ?_ (TransGen.head' hfurther hrest)⟩
        have := length_below_lt hacyclic hnodes hnext
        omega

/-- **The search finds what can be reached.** -/
theorem reaches_iff (hnodes : ∀ node, succ node ≠ [] → node ∈ nodes) {rounds : ℕ}
    (hrounds : nodes.length < rounds) {target node : ν} :
    reaches succ rounds target node = true ↔ TransGen (Edge succ) node target :=
  ⟨transGen_of_reaches, reaches_of_transGen hacyclic hnodes
    (Nat.lt_of_le_of_lt (List.length_filter_le _ _) hrounds)⟩

end

end Reach
