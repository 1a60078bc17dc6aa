import Mathlib.Data.List.Pairwise
import Mathlib.Data.List.Perm.Subperm

/-!
# Tarjan's strongly connected components

A depth first search gives each node an index and keeps on a stack the nodes whose component is not
complete.  The low link of a node is the least index on the stack that an edge from the part of the
search below the node leads to; where it is the index of the node itself, what stands on the stack
down to the node is a component.

The invariant is relative to the nodes whose visit has begun and not ended, the gray ones: from
each of them the search reaches all that stands above it on the stack, and all of the stack leads
back to one of them.
-/

open List Function

namespace Tarjan
variable {α : Type*}

/-- The state of the search; the top of the stack stands first. -/
structure State (α : Type*) where
  nextIndex : ℕ
  indices : α → Option ℕ
  lowLinks : α → ℕ
  stack : List α
  components : List (List α)

namespace State

def initial : State α := ⟨0, fun _ => none, fun _ => 0, [], []⟩

def index (s : State α) (x : α) : ℕ := (s.indices x).getD 0

/-- `x` is in a complete component. -/
def Finished (s : State α) (x : α) : Prop := ∃ component ∈ s.components, x ∈ component

variable [DecidableEq α]

def push (s : State α) (node : α) : State α where
  nextIndex := s.nextIndex + 1
  indices := Function.update s.indices node (some s.nextIndex)
  lowLinks := Function.update s.lowLinks node s.nextIndex
  stack := node :: s.stack
  components := s.components

def lower (s : State α) (node : α) (low : ℕ) : State α :=
  { s with lowLinks := Function.update s.lowLinks node (min (s.lowLinks node) low) }

/-- The end of a visit: the stack down to the node is a component, if the node is its root. -/
def pop (s : State α) (node : α) : State α :=
  if s.lowLinks node ≠ s.index node then s
  else
    let rest := s.stack.dropWhile (· ≠ node)
    { s with
      stack := rest.drop 1
      components := s.components ++ [s.stack.takeWhile (· ≠ node) ++ rest.take 1] }

end State

section

variable [DecidableEq α]

/-- A neighbor is visited, if it has not been. -/
def look (visit : α → State α → State α) (node : α) (s : State α) (neighbor : α) : State α :=
  match s.indices neighbor with
  | none => (visit neighbor s).lower node ((visit neighbor s).lowLinks neighbor)
  | some index => if neighbor ∈ s.stack then s.lower node index else s

def visit (succ : α → List α) : ℕ → α → State α → State α
  | 0, _, s => s
  | fuel + 1, node, s => ((succ node).foldl (look (visit succ fuel) node) (s.push node)).pop node

/-- The components of a graph with these nodes. -/
def components (succ : α → List α) (nodes : List α) : List (List α) :=
  (nodes.foldl (fun s node => if (s.indices node).isNone then visit succ (nodes.length + 1) node s
    else s) State.initial).components

end

/-! ## Reachability -/

section

variable (succ : α → List α)

def Reach (a b : α) : Prop := Relation.ReflTransGen (fun x y => y ∈ succ x) a b

/-- Each of the two nodes reaches the other. -/
def Mutual (a b : α) : Prop := Reach succ a b ∧ Reach succ b a

variable {succ}

theorem Reach.step {a b : α} (h : b ∈ succ a) : Reach succ a b := Relation.ReflTransGen.single h

/-- What is closed under the edges holds whatever is reached. -/
theorem Reach.closed {P : α → Prop} (hclosed : ∀ x, P x → ∀ y ∈ succ x, P y) {a b : α} (ha : P a)
    (h : Reach succ a b) : P b := by
  induction h with
  | refl => exact ha
  | tail _ hedge ih => exact hclosed _ ih _ hedge

end

/-- A node lies on a cycle of the graph. -/
def OnCycle (succ : α → List α) (x : α) : Prop := Relation.TransGen (fun a b => b ∈ succ a) x x

variable {x : α}

/-- A class of mutual reachability has a cycle if it has two nodes or an edge from a node to
itself. -/
theorem cyclic_iff {succ : α → List α} {c : List α} (hnodup : c.Nodup)
    (hclass : ∀ y, y ∈ c ↔ Mutual succ x y) :
    (1 < c.length ∨ ∃ y ∈ c.head?, y ∈ succ y) ↔ OnCycle succ x := by
  have hx : x ∈ c := (hclass x).mpr ⟨.refl, .refl⟩
  have hback : ∀ y ∈ c, ∀ z, z ∈ succ y → Reach succ z x → OnCycle succ x := fun y hy z hz hreach =>
    Relation.TransGen.trans_left (Relation.TransGen.tail' ((hclass y).mp hy).1 hz) hreach
  constructor
  · rintro (hlen | ⟨y, hy, hself⟩)
    · obtain ⟨y, hy, hne⟩ : ∃ y ∈ c, y ≠ x := by
        by_contra hall
        have hsub : c ⊆ [x] := fun y hy =>
          mem_singleton.mpr (by_contra fun hne => hall ⟨y, hy, hne⟩)
        have hle := (hnodup.subperm hsub).length_le
        rw [length_singleton] at hle
        omega
      obtain ⟨hto, hfrom⟩ := (hclass y).mp hy
      rcases Relation.ReflTransGen.cases_head hto with heq | ⟨z, hz, hreach⟩
      · exact absurd heq.symm hne
      · exact hback x hx z hz (hreach.trans hfrom)
    · have hmem := mem_of_mem_head? hy
      exact hback y hmem y hself ((hclass y).mp hmem).2
  · intro hcycle
    obtain ⟨y, hedge, hreach⟩ := Relation.TransGen.head'_iff.mp hcycle
    by_cases hlen : 1 < c.length
    · exact .inl hlen
    · have hy : y ∈ c := (hclass y).mpr ⟨.single hedge, hreach⟩
      obtain ⟨z, rfl⟩ : ∃ z, c = [z] := length_eq_one_iff.mp (by
        have := length_pos_of_mem hx
        omega)
      rw [mem_singleton.mp hx, mem_singleton.mp hy] at hedge
      exact .inr ⟨z, rfl, hedge⟩

/-! ## The invariant -/

variable {succ : α → List α} {gray : List α} {node : α} {s t : State α} {looked new : List α}

/-- What holds of the search while the visits of the gray nodes go on. -/
structure Inv (succ : α → List α) (gray : List α) (s : State α) : Prop where
  gray_stack : gray ⊆ s.stack
  index_lt : ∀ x k, s.indices x = some k → k < s.nextIndex
  sorted : s.stack.Pairwise fun x y => s.index y < s.index x
  placed : ∀ x, (s.indices x).isSome ↔ x ∈ s.stack ∨ s.Finished x
  apart : ∀ x, s.Finished x → x ∉ s.stack
  closed : ∀ x, s.Finished x → ∀ y ∈ succ x, s.Finished y
  seen : ∀ x ∈ s.stack, x ∉ gray → ∀ y ∈ succ x, (s.indices y).isSome
  reaches : ∀ g ∈ gray, ∀ x ∈ s.stack, s.index g ≤ s.index x → Reach succ g x
  leads : ∀ x ∈ s.stack, ∃ g ∈ gray, s.index g ≤ s.index x ∧ Reach succ x g
  component : ∀ c ∈ s.components, c.Nodup ∧ ∃ x ∈ c, ∀ y, y ∈ c ↔ Mutual succ x y
  disjoint : s.components.Pairwise List.Disjoint

theorem Inv.indexed (h : Inv succ gray s) (hx : x ∈ s.stack) : (s.indices x).isSome :=
  (h.placed x).mpr (.inl hx)

theorem Inv.index_stack (h : Inv succ gray s) (hx : x ∈ s.stack) : s.index x < s.nextIndex := by
  obtain ⟨k, hk⟩ := Option.isSome_iff_exists.mp (h.indexed hx)
  rw [State.index, hk]
  exact h.index_lt x k hk

theorem inv_initial : Inv succ [] (State.initial : State α) := by
  constructor <;> simp [State.initial, State.Finished]

/-- Outside any visit nothing is left on the stack. -/
theorem Inv.stack_eq_nil (h : Inv succ [] s) : s.stack = [] := by
  apply eq_nil_iff_forall_not_mem.mpr
  intro x hx
  obtain ⟨g, hg, -⟩ := h.leads x hx
  exact absurd hg not_mem_nil

/-- What the search has done since `s`: the nodes indexed then keep their index. -/
structure Later (s t : State α) : Prop where
  indices : ∀ x, (s.indices x).isSome → t.indices x = s.indices x
  lowLinks : ∀ x, (s.indices x).isSome → t.lowLinks x = s.lowLinks x

theorem Later.index (h : Later s t) (hx : (s.indices x).isSome) : t.index x = s.index x := by
  rw [State.index, State.index, h.indices x hx]

theorem Later.isSome (h : Later s t) (hx : (s.indices x).isSome) : (t.indices x).isSome := by
  rw [h.indices x hx]
  exact hx

theorem Later.isNone (h : Later s t) (hx : (t.indices x).isNone) : (s.indices x).isNone := by
  cases hs : s.indices x with
  | none => rfl
  | some k =>
    rw [h.indices x (by rw [hs]; rfl), hs] at hx
    cases hx

theorem Later.trans {u : State α} (h : Later s t) (h' : Later t u) : Later s u where
  indices x hx := (h'.indices x (h.isSome hx)).trans (h.indices x hx)
  lowLinks x hx := (h'.lowLinks x (h.isSome hx)).trans (h.lowLinks x hx)

/-- A visit of `node` from `s` to `t` has left `new` on the stack. -/
structure Visited (succ : α → List α) (gray : List α) (node : α) (new : List α) (s t : State α) :
    Prop where
  inv : Inv succ gray t
  later : Later s t
  nextIndex_le : s.nextIndex ≤ t.nextIndex
  indexed : (t.indices node).isSome
  stack : t.stack = new ++ s.stack
  new_index : ∀ x ∈ new, s.nextIndex ≤ t.index x
  low_le : ∀ x ∈ new, ∀ y ∈ s.stack, y ∈ succ x → t.lowLinks node ≤ s.index y
  low_reach : s.nextIndex ≤ t.lowLinks node ∨
    ∃ y ∈ s.stack, Reach succ node y ∧ s.index y = t.lowLinks node

/-- A visit of `node`, begun in `s`, has come to `t` and has looked at some of the neighbors. -/
structure Looking (succ : α → List α) (gray : List α) (node : α) (s : State α) (looked : List α)
    (new : List α) (t : State α) : Prop where
  base : Inv succ gray s
  inv : Inv succ (node :: gray) t
  later : Later s t
  nextIndex_lt : s.nextIndex < t.nextIndex
  node_index : t.indices node = some s.nextIndex
  stack : t.stack = new ++ node :: s.stack
  new_index : ∀ x ∈ new, s.nextIndex < t.index x
  indexed : ∀ x ∈ looked, (t.indices x).isSome
  low_self : t.lowLinks node ≤ s.nextIndex
  low_looked : ∀ x ∈ looked, x ∈ s.stack → t.lowLinks node ≤ s.index x
  low_le : ∀ x ∈ new, ∀ y ∈ s.stack, y ∈ succ x → t.lowLinks node ≤ s.index y
  low_reach : t.lowLinks node = s.nextIndex ∨
    ∃ y ∈ s.stack, Reach succ node y ∧ s.index y = t.lowLinks node

section

variable (h : Looking succ gray node s looked new t)
include h

theorem Looking.base_stack (hx : x ∈ s.stack) : x ∈ t.stack := by
  rw [h.stack]
  exact mem_append_right _ (mem_cons_of_mem _ hx)

theorem Looking.node_stack : node ∈ t.stack := by
  rw [h.stack]
  exact mem_append_right _ mem_cons_self

theorem Looking.index_node : t.index node = s.nextIndex := by
  rw [State.index, h.node_index]
  rfl

theorem Looking.index_base (hx : x ∈ s.stack) :
    t.index x = s.index x := h.later.index (h.base.indexed hx)

/-- What stands below the node on the stack has a smaller index, and nothing else has. -/
theorem Looking.mem_base (hx : x ∈ t.stack) (hlt : t.index x < s.nextIndex) : x ∈ s.stack := by
  rw [h.stack] at hx
  rcases mem_append.mp hx with hnew | hold
  · have := h.new_index x hnew
    omega
  rcases mem_cons.mp hold with rfl | hbase
  · rw [h.index_node] at hlt
    omega
  · exact hbase

/-- What the visit of a neighbor may assume. -/
theorem Looking.gray_reach {w : α} (hedge : w ∈ succ node) :
    ∀ g ∈ node :: gray, Reach succ g w := by
  intro g hg
  refine Relation.ReflTransGen.tail (h.inv.reaches g hg node h.node_stack ?_) hedge
  rcases mem_cons.mp hg with rfl | hold
  · exact Nat.le_refl _
  · have hbase := h.base.gray_stack hold
    rw [h.index_base hbase, h.index_node]
    exact Nat.le_of_lt (h.base.index_stack hbase)

/-- The node itself was not indexed when its visit began. -/
theorem Looking.ne_node (hx : (s.indices x).isSome) : x ≠ node := by
  rintro rfl
  have hindex := (h.later.indices x hx).symm.trans h.node_index
  exact Nat.lt_irrefl _ (h.base.index_lt x _ hindex)

/-- A neighbor that was looked at. -/
theorem Looking.concat {w : α} (hindexed : (t.indices w).isSome)
    (hlow : w ∈ s.stack → t.lowLinks node ≤ s.index w) :
    Looking succ gray node s (looked ++ [w]) new t := by
  refine ⟨h.base, h.inv, h.later, h.nextIndex_lt, h.node_index, h.stack, h.new_index,
    fun x hx => ?_, h.low_self, fun x hx => ?_, h.low_le, h.low_reach⟩
  · rcases mem_append.mp hx with hold | hw
    · exact h.indexed x hold
    · exact mem_singleton.mp hw ▸ hindexed
  · rcases mem_append.mp hx with hold | hw
    · exact h.low_looked x hold
    · exact mem_singleton.mp hw ▸ hlow

end

theorem countP_lt_countP {p q : α → Bool} {xs : List α} (hpq : ∀ x ∈ xs, p x → q x) (hx : x ∈ xs)
    (hq : q x) (hp : ¬ p x) : xs.countP p < xs.countP q := by
  obtain ⟨before, after, rfl⟩ := append_of_mem hx
  have hbefore := countP_mono_left fun y hy => hpq y (mem_append_left _ hy)
  have hafter := countP_mono_left fun y hy =>
    hpq y (mem_append_right _ (mem_cons_of_mem _ hy))
  rw [countP_append, countP_append, countP_cons, countP_cons, if_neg hp,
    if_pos hq]
  omega

/-- How many nodes have not been visited. -/
def unvisited (nodes : List α) (s : State α) : ℕ := nodes.countP fun x => (s.indices x).isNone

theorem unvisited_lt {nodes : List α} (hlater : Later s t) (hmem : node ∈ nodes)
    (hnone : s.indices node = none) (hsome : (t.indices node).isSome) :
    unvisited nodes t < unvisited nodes s := by
  apply countP_lt_countP (fun x _ hx => hlater.isNone hx) hmem
  · rw [hnone]
    rfl
  · rw [Option.isNone_iff_eq_none]
    exact fun heq => by rw [heq] at hsome; cases hsome

section

variable [DecidableEq α]

theorem Inv.lower (h : Inv succ gray s) (node : α) (low : ℕ) : Inv succ gray (s.lower node low) :=
  ⟨h.gray_stack, h.index_lt, h.sorted, h.placed, h.apart, h.closed, h.seen, h.reaches, h.leads,
    h.component, h.disjoint⟩

theorem lowLinks_lower (s : State α) (node : α) (low : ℕ) :
    (s.lower node low).lowLinks node = min (s.lowLinks node) low := update_self ..

theorem index_push (s : State α) (node : α) : (s.push node).index node = s.nextIndex := by
  have hself : (s.push node).indices node = some s.nextIndex := update_self ..
  rw [State.index, hself]
  rfl

theorem later_push (hnew : s.indices node = none) : Later s (s.push node) := by
  have hne : ∀ x, (s.indices x).isSome → x ≠ node := by
    rintro x hx rfl
    rw [hnew] at hx
    cases hx
  exact ⟨fun x hx => update_of_ne (hne x hx) .., fun x hx =>
    update_of_ne (hne x hx) ..⟩

theorem Inv.push (h : Inv succ gray s) (hnew : s.indices node = none)
    (hgray : ∀ g ∈ gray, Reach succ g node) : Inv succ (node :: gray) (s.push node) := by
  have hlater := later_push hnew
  have hindex : ∀ x ∈ s.stack, (s.push node).index x = s.index x := fun x hx =>
    hlater.index (h.indexed hx)
  constructor
  · exact cons_subset_cons node h.gray_stack
  · intro x k hk
    show k < s.nextIndex + 1
    by_cases hx : x = node
    · have hself : (s.push node).indices node = some s.nextIndex := update_self ..
      rw [hx, hself] at hk
      have := Option.some.inj hk
      omega
    · have hother : (s.push node).indices x = s.indices x := update_of_ne hx ..
      rw [hother] at hk
      have := h.index_lt x k hk
      omega
  · refine pairwise_cons.mpr ⟨fun x hx => ?_, ?_⟩
    · rw [index_push, hindex x hx]
      exact h.index_stack hx
    · refine h.sorted.imp_of_mem fun {x y} hx hy hlt => ?_
      rw [hindex x hx, hindex y hy]
      exact hlt
  · intro x
    show (Function.update s.indices node (some s.nextIndex) x).isSome ↔ x ∈ node :: s.stack ∨ _
    by_cases hx : x = node
    · rw [hx, update_self]
      exact ⟨fun _ => .inl mem_cons_self, fun _ => rfl⟩
    · rw [update_of_ne hx, h.placed x, mem_cons]
      exact ⟨fun hor => hor.imp Or.inr id, fun hor => hor.imp (fun hm => hm.resolve_left hx) id⟩
  · intro x hx hmem
    rcases mem_cons.mp hmem with rfl | hold
    · have hsome := (h.placed x).mpr (.inr hx)
      rw [hnew] at hsome
      cases hsome
    · exact h.apart x hx hold
  · exact h.closed
  · intro x hx hblack y hy
    rw [mem_cons, not_or] at hblack
    have hold : x ∈ s.stack := (mem_cons.mp hx).resolve_left hblack.1
    exact hlater.isSome (h.seen x hold hblack.2 y hy)
  · intro g hg x hx hle
    rcases mem_cons.mp hg with rfl | hg'
    · rcases mem_cons.mp hx with rfl | hx
      · exact Relation.ReflTransGen.refl
      · rw [index_push, hindex x hx] at hle
        have := h.index_stack hx
        omega
    · rcases mem_cons.mp hx with rfl | hx
      · exact hgray g hg'
      · rw [hindex g (h.gray_stack hg'), hindex x hx] at hle
        exact h.reaches g hg' x hx hle
  · intro x hx
    rcases mem_cons.mp hx with rfl | hx
    · exact ⟨x, mem_cons_self, Nat.le_refl _, Relation.ReflTransGen.refl⟩
    · obtain ⟨g, hg, hle, hreach⟩ := h.leads x hx
      refine ⟨g, mem_cons_of_mem _ hg, ?_, hreach⟩
      rw [hindex g (h.gray_stack hg), hindex x hx]
      exact hle
  · exact h.component
  · exact h.disjoint

/-- The start of a visit. -/
theorem looking_push (h : Inv succ gray s) (hnew : s.indices node = none)
    (hgray : ∀ g ∈ gray, Reach succ g node) : Looking succ gray node s [] [] (s.push node) := by
  have hlow : (s.push node).lowLinks node = s.nextIndex := update_self ..
  exact ⟨h, h.push hnew hgray, later_push hnew, Nat.lt_succ_self _, update_self .., rfl,
    fun x hx => absurd hx not_mem_nil, fun x hx => absurd hx not_mem_nil,
    Nat.le_of_eq hlow, fun x hx => absurd hx not_mem_nil,
    fun x hx => absurd hx not_mem_nil, .inl hlow⟩

section

variable (h : Looking succ gray node s looked new t)
include h

theorem later_lower {u : State α} (hlater : Later s u) (low : ℕ) : Later s (u.lower node low) :=
  ⟨hlater.indices, fun x hx =>
    (update_of_ne (h.ne_node hx) ..).trans (hlater.lowLinks x hx)⟩

/-- The low link of the node is lowered to that of something on the stack. -/
theorem Looking.lower {low : ℕ}
    (hlow : low < s.nextIndex → ∃ y ∈ s.stack, Reach succ node y ∧ s.index y = low) :
    Looking succ gray node s looked new (t.lower node low) := by
  have hmin := lowLinks_lower t node low
  have hle : (t.lower node low).lowLinks node ≤ t.lowLinks node := hmin ▸ Nat.min_le_left ..
  refine ⟨h.base, h.inv.lower node low, later_lower h h.later low, h.nextIndex_lt, h.node_index,
    h.stack, h.new_index, h.indexed, Nat.le_trans hle h.low_self,
    fun x hx hbase => Nat.le_trans hle (h.low_looked x hx hbase),
    fun x hx y hy hedge => Nat.le_trans hle (h.low_le x hx y hy hedge), ?_⟩
  rw [hmin]
  by_cases hlt : low < t.lowLinks node
  · obtain ⟨y, hy, hreach, hindex⟩ := hlow (Nat.lt_of_lt_of_le hlt h.low_self)
    exact .inr ⟨y, hy, hreach, by omega⟩
  · rw [Nat.min_eq_left (Nat.not_lt.mp hlt)]
    exact h.low_reach

/-- A neighbor that was not indexed has been visited. -/
theorem Looking.visited {w : α} (hedge : w ∈ succ node) (hnone : t.indices w = none)
    {above : List α} {u : State α} (hvisit : Visited succ (node :: gray) w above t u) :
    Looking succ gray node s (looked ++ [w]) (above ++ new) (u.lower node (u.lowLinks w)) := by
  have hnode := h.inv.indexed h.node_stack
  have hlow : (u.lower node (u.lowLinks w)).lowLinks node
      = min (t.lowLinks node) (u.lowLinks w) := by
    rw [lowLinks_lower, hvisit.later.lowLinks node hnode]
  have hle : (u.lower node (u.lowLinks w)).lowLinks node ≤ t.lowLinks node :=
    hlow ▸ Nat.min_le_left ..
  have hleft : (u.lower node (u.lowLinks w)).lowLinks node ≤ u.lowLinks w :=
    hlow ▸ Nat.min_le_right ..
  have hlt := h.nextIndex_lt
  constructor
  · exact h.base
  · exact hvisit.inv.lower node _
  · exact later_lower h (h.later.trans hvisit.later) _
  · exact Nat.lt_of_lt_of_le hlt hvisit.nextIndex_le
  · exact (hvisit.later.indices node hnode).trans h.node_index
  · show u.stack = _
    rw [hvisit.stack, h.stack, append_assoc]
  · intro x hx
    show s.nextIndex < u.index x
    rcases mem_append.mp hx with habove | hnew
    · exact Nat.lt_of_lt_of_le hlt (hvisit.new_index x habove)
    · have hstack : x ∈ t.stack := h.stack ▸ mem_append_left _ hnew
      rw [hvisit.later.index (h.inv.indexed hstack)]
      exact h.new_index x hnew
  · intro x hx
    show (u.indices x).isSome
    rcases mem_append.mp hx with hold | hw
    · exact hvisit.later.isSome (h.indexed x hold)
    · exact mem_singleton.mp hw ▸ hvisit.indexed
  · exact Nat.le_trans hle h.low_self
  · intro x hx hbase
    rcases mem_append.mp hx with hold | hw
    · exact Nat.le_trans hle (h.low_looked x hold hbase)
    · have hsome := h.inv.indexed (h.base_stack hbase)
      rw [mem_singleton.mp hw, hnone] at hsome
      cases hsome
  · intro x hx y hy hxy
    rcases mem_append.mp hx with habove | hnew
    · have := hvisit.low_le x habove y (h.base_stack hy) hxy
      rw [h.index_base hy] at this
      exact Nat.le_trans hleft this
    · exact Nat.le_trans hle (h.low_le x hnew y hy hxy)
  · rw [hlow]
    by_cases hlower : u.lowLinks w < t.lowLinks node
    · have hself := h.low_self
      rcases hvisit.low_reach with hroot | ⟨y, hy, hreach, hindex⟩
      · omega
      · have hbase : y ∈ s.stack := h.mem_base hy (by omega)
        refine .inr ⟨y, hbase, (Reach.step hedge).trans hreach, ?_⟩
        rw [← h.index_base hbase, hindex]
        omega
    · rw [Nat.min_eq_left (Nat.not_lt.mp hlower)]
      exact h.low_reach

/-- **Step lemma of the neighbors.** -/
theorem Looking.look {w : α} (hedge : w ∈ succ node) {search : α → State α → State α}
    (hvisit : t.indices w = none → ∃ above, Visited succ (node :: gray) w above t (search w t)) :
    ∃ new', Looking succ gray node s (looked ++ [w]) new' (Tarjan.look search node t w) := by
  unfold Tarjan.look
  cases hindex : t.indices w with
  | none =>
    obtain ⟨above, habove⟩ := hvisit hindex
    exact ⟨above ++ new, h.visited hedge hindex habove⟩
  | some k =>
    have hk : t.index w = k := by rw [State.index, hindex]; rfl
    have hsome : (t.indices w).isSome := by rw [hindex]; rfl
    dsimp only
    split
    · next hstack =>
      have hlower : Looking succ gray node s looked new (t.lower node k) := by
        apply h.lower
        intro hlt
        have hbase := h.mem_base hstack (by omega)
        exact ⟨w, hbase, Reach.step hedge, by rw [← h.index_base hbase, hk]⟩
      refine ⟨new, hlower.concat hsome fun hbase => ?_⟩
      rw [lowLinks_lower, ← h.index_base hbase, hk]
      exact Nat.min_le_right ..
    · next hnot => exact ⟨new, h.concat hsome fun hbase => absurd (h.base_stack hbase) hnot⟩

end

/-! ### The end of a visit -/

section

variable (h : Looking succ gray node s (succ node) new t)
include h

/-- All neighbors have been looked at, and the node is not the root of its component. -/
theorem Looking.notRoot (hlow : t.lowLinks node < s.nextIndex) :
    Visited succ gray node (new ++ [node]) s t := by
  obtain ⟨y, hy, hreach, hindex⟩ := h.low_reach.resolve_left (Nat.ne_of_lt hlow)
  obtain ⟨g, hg, hgle, hgreach⟩ := h.base.leads y hy
  have hinv : Inv succ gray t := by
    refine ⟨fun x hx => h.inv.gray_stack (mem_cons_of_mem _ hx), h.inv.index_lt, h.inv.sorted,
      h.inv.placed, h.inv.apart, h.inv.closed, fun x hx hblack z hz => ?_,
      fun x hx => h.inv.reaches x (mem_cons_of_mem _ hx), fun x hx => ?_, h.inv.component,
      h.inv.disjoint⟩
    · by_cases hnode : x = node
      · exact h.indexed z (hnode ▸ hz)
      · refine h.inv.seen x hx (fun hmem => ?_) z hz
        exact (mem_cons.mp hmem).elim hnode hblack
    · obtain ⟨r, hr, hrle, hrreach⟩ := h.inv.leads x hx
      rcases mem_cons.mp hr with rfl | hold
      · -- what led back to the node leads further down, along the low link
        refine ⟨g, hg, ?_, hrreach.trans (hreach.trans hgreach)⟩
        rw [h.index_node] at hrle
        rw [h.index_base (h.base.gray_stack hg)]
        omega
      · exact ⟨r, hold, hrle, hrreach⟩
  refine ⟨hinv, h.later, Nat.le_of_lt h.nextIndex_lt, by rw [h.node_index]; rfl, ?_, ?_, ?_,
    Or.inr ⟨y, hy, hreach, hindex⟩⟩
  · rw [h.stack, append_assoc]
    rfl
  · intro x hx
    rcases mem_append.mp hx with hnew | hlast
    · exact Nat.le_of_lt (h.new_index x hnew)
    · exact Nat.le_of_eq (mem_singleton.mp hlast ▸ h.index_node.symm)
  · intro x hx z hz hedge
    rcases mem_append.mp hx with hnew | hlast
    · exact h.low_le x hnew z hz hedge
    · exact h.low_looked z (mem_singleton.mp hlast ▸ hedge) hz

section

variable (hlow : t.lowLinks node = s.nextIndex)
include hlow

/-- What stands on the stack down to a root is closed, but for what is finished. -/
theorem Looking.root_closed {x : α} (hx : x ∈ new ++ [node]) {y : α} (hedge : y ∈ succ x) :
    y ∈ new ++ [node] ∨ t.Finished y := by
  have hindexed : (t.indices y).isSome := by
    rcases mem_append.mp hx with hnew | hlast
    · refine h.inv.seen x (h.stack ▸ mem_append_left _ hnew) (fun hgray => ?_) y hedge
      have hlt := h.new_index x hnew
      rcases mem_cons.mp hgray with rfl | hgray
      · rw [h.index_node] at hlt
        omega
      · have hbase := h.base.gray_stack hgray
        have := h.base.index_stack hbase
        rw [h.index_base hbase] at hlt
        omega
    · exact h.indexed y (mem_singleton.mp hlast ▸ hedge)
  refine ((h.inv.placed y).mp hindexed).imp_left fun hstack => ?_
  rw [h.stack] at hstack
  rcases mem_append.mp hstack with hnew | hold
  · exact mem_append_left _ hnew
  rcases mem_cons.mp hold with rfl | hbase
  · exact mem_append_right _ mem_cons_self
  · -- an edge further down would have lowered the low link
    have hlt := h.base.index_stack hbase
    have hle : t.lowLinks node ≤ s.index y := by
      rcases mem_append.mp hx with hnew | hlast
      · exact h.low_le x hnew y hbase hedge
      · exact h.low_looked y (mem_singleton.mp hlast ▸ hedge) hbase
    omega

/-- What stands on the stack down to a root is its component. -/
theorem Looking.root_component (y : α) : y ∈ new ++ [node] ↔ Mutual succ node y := by
  have hnode := h.node_stack
  constructor
  · intro hy
    have hstack : y ∈ t.stack := by
      rw [h.stack, ← singleton_append, ← append_assoc]
      exact mem_append_left _ hy
    have hle : t.index node ≤ t.index y := by
      rcases mem_append.mp hy with hnew | hlast
      · rw [h.index_node]
        exact Nat.le_of_lt (h.new_index y hnew)
      · exact Nat.le_of_eq (mem_singleton.mp hlast ▸ rfl)
    refine ⟨h.inv.reaches node mem_cons_self y hstack hle, ?_⟩
    obtain ⟨g, hg, hgle, hreach⟩ := h.inv.leads y hstack
    rcases mem_cons.mp hg with rfl | hgray
    · exact hreach
    · refine hreach.trans (h.inv.reaches g hg node hnode ?_)
      have hbase := h.base.gray_stack hgray
      rw [h.index_base hbase, h.index_node]
      exact Nat.le_of_lt (h.base.index_stack hbase)
  · rintro ⟨hto, hfrom⟩
    have hclosed : ∀ x, x ∈ new ++ [node] ∨ t.Finished x → ∀ z ∈ succ x,
        z ∈ new ++ [node] ∨ t.Finished z := by
      rintro x (hx | hx) z hz
      · exact h.root_closed hlow hx hz
      · exact .inr (h.inv.closed x hx z hz)
    have hself : node ∈ new ++ [node] := mem_append_right _ mem_cons_self
    refine (Reach.closed hclosed (.inl hself) hto).resolve_right fun hfinished => ?_
    exact h.inv.apart node (hfrom.closed h.inv.closed hfinished) hnode

/-- All neighbors have been looked at, and the node is the root of its component. -/
theorem Looking.root :
    Visited succ gray node [] s
      { t with stack := s.stack, components := t.components ++ [new ++ [node]] } := by
  have hsplit : t.stack = (new ++ [node]) ++ s.stack := by rw [h.stack, append_assoc]; rfl
  have hnodup : t.stack.Nodup := h.inv.sorted.imp fun {x y} hlt heq => by
    rw [heq] at hlt
    exact Nat.lt_irrefl _ hlt
  have hapart := nodup_append.mp (hsplit ▸ hnodup)
  have hmem : ∀ x, x ∈ t.stack ↔ x ∈ new ++ [node] ∨ x ∈ s.stack := fun x => by
    rw [hsplit, mem_append]
  have hfinished : ∀ x, State.Finished { t with
      stack := s.stack, components := t.components ++ [new ++ [node]] } x ↔
        t.Finished x ∨ x ∈ new ++ [node] := by
    intro x
    show (∃ c ∈ t.components ++ [new ++ [node]], x ∈ c) ↔ _
    simp [State.Finished, or_and_right, exists_or]
  have hinv : Inv succ gray
      { t with stack := s.stack, components := t.components ++ [new ++ [node]] } := by
    constructor
    · exact h.base.gray_stack
    · exact h.inv.index_lt
    · exact h.inv.sorted.sublist (hsplit ▸ sublist_append_right _ _)
    · intro x
      rw [hfinished]
      show (t.indices x).isSome ↔ x ∈ s.stack ∨ _
      rw [h.inv.placed x, hmem]
      exact or_assoc.trans (or_comm.trans or_assoc)
    · intro x hx hbase
      rcases (hfinished x).mp hx with hold | hnew
      · exact h.inv.apart x hold ((hmem x).mpr (.inr hbase))
      · exact hapart.2.2 x hnew x hbase rfl
    · intro x hx y hy
      rw [hfinished]
      rcases (hfinished x).mp hx with hold | hnew
      · exact .inl (h.inv.closed x hold y hy)
      · exact (h.root_closed hlow hnew hy).symm
    · intro x hx hblack
      refine h.inv.seen x (h.base_stack hx) fun hgray => ?_
      exact (mem_cons.mp hgray).elim (h.ne_node (h.base.indexed hx)) hblack
    · intro g hg x hx
      exact h.inv.reaches g (mem_cons_of_mem _ hg) x (h.base_stack hx)
    · intro x hx
      obtain ⟨g, hg, hle, hreach⟩ := h.inv.leads x (h.base_stack hx)
      rcases mem_cons.mp hg with rfl | hgray
      · have := h.base.index_stack hx
        rw [h.index_node, h.index_base hx] at hle
        omega
      · exact ⟨g, hgray, hle, hreach⟩
    · intro c hc
      rcases mem_append.mp hc with hold | hnew
      · exact h.inv.component c hold
      · rw [mem_singleton.mp hnew]
        exact ⟨hapart.1, node, mem_append_right _ mem_cons_self, h.root_component hlow⟩
    · refine pairwise_append.mpr ⟨h.inv.disjoint, pairwise_singleton _ _, ?_⟩
      intro c hc c' hc' x hx hx'
      rw [mem_singleton.mp hc'] at hx'
      exact h.inv.apart x ⟨c, hc, hx⟩ ((hmem x).mpr (.inl hx'))
  exact ⟨hinv, ⟨h.later.indices, h.later.lowLinks⟩, Nat.le_of_lt h.nextIndex_lt,
    by rw [h.node_index]; rfl, rfl,
    fun x hx => absurd hx not_mem_nil, fun x hx => absurd hx not_mem_nil,
    Or.inl (Nat.le_of_eq hlow.symm)⟩

end

theorem Looking.pop : ∃ left, Visited succ gray node left s (t.pop node) := by
  unfold State.pop
  split
  · next hne =>
    rw [h.index_node] at hne
    exact ⟨_, h.notRoot (Nat.lt_of_le_of_ne h.low_self hne)⟩
  · next heq =>
    rw [h.index_node, ne_eq, Decidable.not_not] at heq
    have habove : ∀ x ∈ new, decide (x ≠ node) = true := by
      intro x hx
      apply decide_eq_true
      rintro rfl
      have := h.new_index x hx
      rw [h.index_node] at this
      omega
    have htake : t.stack.takeWhile (· ≠ node) = new := by
      rw [h.stack, takeWhile_append_of_pos habove]
      simp
    have hdrop : t.stack.dropWhile (· ≠ node) = node :: s.stack := by
      rw [h.stack, dropWhile_append_of_pos habove]
      simp
    dsimp only
    rw [htake, hdrop]
    exact ⟨[], h.root heq⟩

end

/-! ### The search -/

/-- **Visits.**  With fuel for the nodes that have not been visited, a visit completes the
components it finds and leaves the rest on the stack. -/
theorem visit_spec {nodes : List α} (hclosed : ∀ x ∈ nodes, ∀ y ∈ succ x, y ∈ nodes) {fuel : ℕ} :
    ∀ {gray : List α} {node : α} {s : State α}, Inv succ gray s → node ∈ nodes →
      s.indices node = none → (∀ g ∈ gray, Reach succ g node) → unvisited nodes s ≤ fuel →
        ∃ new, Visited succ gray node new s (visit succ fuel node s) := by
  induction fuel with
  | zero =>
    intro gray node s _ hmem hnone _ hfuel
    have hpos : 0 < unvisited nodes s :=
      countP_pos_iff.mpr ⟨node, hmem, by rw [hnone]; rfl⟩
    omega
  | succ fuel ih =>
    intro gray node s h hmem hnone hgray hfuel
    have hfold : ∀ rest looked : List α, looked ++ rest = succ node → ∀ {new t},
        Looking succ gray node s looked new t →
          ∃ new', Looking succ gray node s (succ node) new'
            (rest.foldl (look (visit succ fuel) node) t) := by
      intro rest
      induction rest with
      | nil =>
        intro looked hsplit new t hlooking
        rw [append_nil] at hsplit
        exact ⟨new, hsplit ▸ hlooking⟩
      | cons w rest ihrest =>
        intro looked hsplit new t hlooking
        have hedge : w ∈ succ node := hsplit ▸ mem_append_right _ mem_cons_self
        have hless : unvisited nodes t < unvisited nodes s :=
          unvisited_lt hlooking.later hmem hnone (hlooking.inv.indexed hlooking.node_stack)
        obtain ⟨new', hnext⟩ := hlooking.look hedge fun hw =>
          ih hlooking.inv (hclosed node hmem w hedge) hw (hlooking.gray_reach hedge) (by omega)
        exact ihrest (looked ++ [w]) (by rw [← hsplit]; simp) hnext
    obtain ⟨new, hlooking⟩ := hfold (succ node) [] rfl (looking_push h hnone hgray)
    exact hlooking.pop

/-- **Tarjan's algorithm.**  The components are the classes of mutual reachability, each once. -/
theorem components_spec {nodes : List α} (hclosed : ∀ x ∈ nodes, ∀ y ∈ succ x, y ∈ nodes) :
    (∀ c ∈ components succ nodes, c.Nodup ∧ ∃ x ∈ c, ∀ y, y ∈ c ↔ Mutual succ x y)
      ∧ (components succ nodes).Pairwise List.Disjoint
      ∧ ∀ x ∈ nodes, ∃ c ∈ components succ nodes, x ∈ c := by
  have hfold : ∀ rest : List α, rest ⊆ nodes → ∀ {s : State α}, Inv succ [] s →
      ∃ t, rest.foldl (fun s node => if (s.indices node).isNone
          then visit succ (nodes.length + 1) node s else s) s = t
        ∧ Inv succ [] t ∧ Later s t ∧ ∀ x ∈ rest, (t.indices x).isSome := by
    intro rest
    induction rest with
    | nil =>
      intro _ s h
      exact ⟨s, rfl, h, ⟨fun _ _ => rfl, fun _ _ => rfl⟩, fun x hx => absurd hx not_mem_nil⟩
    | cons node rest ih =>
      intro hsub s h
      have hnext : ∃ u, (if (s.indices node).isNone then visit succ (nodes.length + 1) node s
          else s) = u ∧ Inv succ [] u ∧ Later s u ∧ (u.indices node).isSome := by
        split
        · next hnone =>
          obtain ⟨new, hvisited⟩ := visit_spec hclosed h (hsub mem_cons_self)
            (Option.isNone_iff_eq_none.mp hnone) (fun g hg => absurd hg not_mem_nil)
            (Nat.le_succ_of_le countP_le_length)
          exact ⟨_, rfl, hvisited.inv, hvisited.later, hvisited.indexed⟩
        · next hsome =>
          exact ⟨s, rfl, h, ⟨fun _ _ => rfl, fun _ _ => rfl⟩,
            Option.isSome_iff_ne_none.mpr fun heq => hsome (by rw [heq]; rfl)⟩
      obtain ⟨u, hu, hinv, hlater, hindexed⟩ := hnext
      obtain ⟨t, ht, htinv, htlater, hall⟩ :=
        ih (fun x hx => hsub (mem_cons_of_mem _ hx)) hinv
      refine ⟨t, by rw [foldl_cons, hu, ht], htinv, hlater.trans htlater, fun x hx => ?_⟩
      rcases mem_cons.mp hx with rfl | hrest
      · exact htlater.isSome hindexed
      · exact hall x hrest
  obtain ⟨t, ht, h, -, hall⟩ := hfold nodes (List.Subset.refl _) inv_initial
  have heq : components succ nodes = t.components := congrArg State.components ht
  rw [heq]
  refine ⟨h.component, h.disjoint, fun x hx => ?_⟩
  refine ((h.placed x).mp (hall x hx)).resolve_left fun hstack => ?_
  rw [h.stack_eq_nil] at hstack
  exact absurd hstack not_mem_nil

end

end Tarjan
