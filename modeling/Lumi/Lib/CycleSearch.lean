import Mathlib.Data.List.Chain
import Mathlib.Data.Finset.Card

/-!
# Searching a graph for a cycle

A depth-first search that keeps the nodes it has visited, and the path from the root to the node
that it visits.  An edge back to the path closes a cycle.  A node that the search has left leads to
such nodes only, and so lies on no cycle; as many rounds as there are nodes are enough.
-/

namespace CycleSearch

open Relation List

variable {α : Type*}

/-- `recStack` and `pathStack` hold the same nodes, the second in their order. -/
structure Search (α : Type*) where
  visited : List α
  recStack : List α
  pathStack : List α

def Search.initial : Search α := ⟨[], [], []⟩

/-- The nodes each lead to the next one, and the last one to the first. -/
structure IsCycle (r : α → α → Prop) (cycle : List α) : Prop where
  ne_nil : cycle ≠ []
  nodup : cycle.Nodup
  chain : cycle.IsChain r
  closes : ∀ last ∈ cycle.getLast?, ∀ first ∈ cycle.head?, r last first

variable {r : α → α → Prop}

/-- The first node of a cycle leads back to itself. -/
theorem IsCycle.exists_transGen {cycle : List α} (h : IsCycle r cycle) :
    ∃ node, TransGen r node node := by
  obtain ⟨first, rest, rfl⟩ := exists_cons_of_ne_nil h.ne_nil
  have hlast := getLast?_eq_some_getLast h.ne_nil
  have hreach := relationReflTransGen_of_exists_isChain_cons rest h.chain rfl
  exact ⟨first, TransGen.tail' hreach (h.closes _ hlast _ rfl)⟩

theorem eq_last_or_exists_next {l : List α} (hchain : l.IsChain r) {a : α} (ha : a ∈ l) :
    l.getLast? = some a ∨ ∃ b, r a b := by
  induction l with
  | nil => exact absurd ha not_mem_nil
  | cons first rest ih =>
    cases rest with
    | nil =>
      rw [mem_singleton.mp ha]
      exact .inl rfl
    | cons second rest =>
      rw [isChain_cons_cons] at hchain
      rcases mem_cons.mp ha with rfl | ha
      · exact .inr ⟨second, hchain.1⟩
      · rw [getLast?_cons_cons]
        exact ih hchain.2 ha

theorem IsCycle.exists_next {cycle : List α} (h : IsCycle r cycle) {a : α} (ha : a ∈ cycle) :
    ∃ b, r a b := by
  rcases eq_last_or_exists_next h.chain ha with hlast | hnext
  · obtain ⟨first, rest, rfl⟩ := exists_cons_of_ne_nil h.ne_nil
    exact ⟨first, h.closes a hlast first rfl⟩
  · exact hnext

def Edge (next : α → List α) (a b : α) : Prop := b ∈ next a

section

variable [DecidableEq α]

namespace Search

def push (s : Search α) (node : α) : Search α :=
  ⟨node :: s.visited, node :: s.recStack, s.pathStack ++ [node]⟩

def pop (s : Search α) (node : α) : Search α :=
  ⟨s.visited, s.recStack.filter (· ≠ node), s.pathStack.dropLast⟩

end Search

/-- The loop over the neighbors of a node; without an answer where a visit has none. -/
def loop (visit : α → Search α → Option (Option (List α) × Search α)) :
    List α → Search α → Option (Option (List α) × Search α)
  | [], s => some (none, s)
  | neighbor :: rest, s =>
    if s.visited.contains neighbor = false then
      match visit neighbor s with
      | none => none
      | some (some cycle, s) => some (some cycle, s)
      | some (none, s) => loop visit rest s
    else if s.recStack.contains neighbor ∧ s.pathStack.contains neighbor then
      some (some (s.pathStack.drop (s.pathStack.idxOf neighbor)), s)
    else loop visit rest s

/-- A visit of a node, in so many rounds. -/
def visit (next : α → List α) : ℕ → α → Search α → Option (Option (List α) × Search α)
  | 0, _, _ => none
  | rounds + 1, node, s =>
    match loop (visit next rounds) (next node) (s.push node) with
    | none => none
    | some (some cycle, s) => some (some cycle, s)
    | some (none, s) => some (none, s.pop node)

/-- The search from one root after the other. -/
def searchRoots (next : α → List α) (rounds : ℕ) : List α → Search α → Option (Option (List α))
  | [], _ => some none
  | root :: rest, s =>
    if s.visited.contains root = false then
      match visit next rounds root s with
      | none => none
      | some (some cycle, _) => some (some cycle)
      | some (none, s) => searchRoots next rounds rest s
    else searchRoots next rounds rest s

end

/-! ## The invariant -/

variable {next : α → List α}

/-- The path leads from node to node; a node that was left leads to such nodes only, and lies on no
cycle. -/
structure Inv (next : α → List α) (s : Search α) : Prop where
  nodup : s.pathStack.Nodup
  chain : s.pathStack.IsChain fun a b => b ∈ next a
  recStack : ∀ node, node ∈ s.recStack ↔ node ∈ s.pathStack
  visited : ∀ node ∈ s.pathStack, node ∈ s.visited
  closed : ∀ node ∈ s.visited, node ∉ s.pathStack → ∀ neighbor ∈ next node,
    neighbor ∈ s.visited ∧ neighbor ∉ s.pathStack
  acyclic : ∀ node ∈ s.visited, node ∉ s.pathStack → ¬TransGen (Edge next) node node

theorem inv_initial : Inv next (Search.initial : Search α) :=
  ⟨nodup_nil, List.IsChain.nil, fun _ => Iff.rfl, fun _ h => absurd h not_mem_nil,
    fun _ h => absurd h not_mem_nil, fun _ h => absurd h not_mem_nil⟩

/-- Whatever is reached from a node that was left was left. -/
theorem Inv.left {s : Search α} (hs : Inv next s) {a b : α} (h : ReflTransGen (Edge next) a b)
    (ha : a ∈ s.visited ∧ a ∉ s.pathStack) : b ∈ s.visited ∧ b ∉ s.pathStack := by
  induction h with
  | refl => exact ha
  | tail _ hedge ih => exact hs.closed _ ih.1 ih.2 _ hedge

section

variable [DecidableEq α]

variable {s : Search α}

variable {node : α}

omit [DecidableEq α] in
/-- A node is visited that the last one of the path leads to. -/
theorem Inv.push (hs : Inv next s) (hnew : node ∉ s.visited)
    (hedge : ∀ last ∈ s.pathStack.getLast?, node ∈ next last) : Inv next (s.push node) where
  nodup := by
    refine nodup_append.mpr ⟨hs.nodup, nodup_singleton node, ?_⟩
    rintro a ha b hb rfl
    rw [mem_singleton.mp hb] at ha
    exact hnew (hs.visited node ha)
  chain := by
    refine isChain_append.mpr ⟨hs.chain, isChain_singleton node, ?_⟩
    intro last hlast b hb
    obtain rfl := Option.some.inj hb
    exact hedge last hlast
  recStack := fun other => by
    show other ∈ node :: s.recStack ↔ other ∈ s.pathStack ++ [node]
    rw [mem_cons, mem_append, mem_singleton, hs.recStack, or_comm]
  visited := fun other hother => by
    rcases mem_append.mp hother with hother | hother
    · exact mem_cons_of_mem _ (hs.visited other hother)
    · rw [mem_singleton.mp hother]
      exact mem_cons_self
  closed := fun other hother hoff neighbor hneighbor => by
    have hne : other ≠ node := fun heq => hoff (heq ▸ mem_append_right _ mem_cons_self)
    obtain ⟨hmem, hout⟩ := hs.closed other ((mem_cons.mp hother).resolve_left hne)
      (fun h => hoff (mem_append_left _ h)) neighbor hneighbor
    refine ⟨mem_cons_of_mem _ hmem, fun hno => ?_⟩
    rcases mem_append.mp hno with hno | hno
    · exact hout hno
    · exact hnew (mem_singleton.mp hno ▸ hmem)
  acyclic := fun other hother hoff => by
    have hne : other ≠ node := fun heq => hoff (heq ▸ mem_append_right _ mem_cons_self)
    exact hs.acyclic other ((mem_cons.mp hother).resolve_left hne)
      fun h => hoff (mem_append_left _ h)

variable {path : List α}

/-- The node is left, when all that it leads to were left. -/
theorem Inv.pop (hs : Inv next s) (hpath : s.pathStack = path ++ [node])
    (hleft : ∀ neighbor ∈ next node, neighbor ∈ s.visited ∧ neighbor ∉ s.pathStack) :
    Inv next (s.pop node) ∧ (s.pop node).pathStack = path := by
  have hpop : (s.pop node).pathStack = path := by
    show s.pathStack.dropLast = path
    rw [hpath, dropLast_concat]
  have hnodup := hs.nodup
  rw [hpath] at hnodup
  have hnotin : node ∉ path := fun hin =>
    (nodup_append.mp hnodup).2.2 node hin node mem_cons_self rfl
  have hmem : ∀ {other}, other ∈ s.pathStack ↔ other ∈ path ∨ other = node := fun {other} => by
    rw [hpath, mem_append, mem_singleton]
  refine ⟨⟨?_, ?_, ?_, ?_, ?_, ?_⟩, hpop⟩
  · rw [hpop]
    exact (nodup_append.mp hnodup).1
  · rw [hpop]
    have hchain := hs.chain
    rw [hpath] at hchain
    exact (isChain_append.mp hchain).1
  · intro other
    rw [hpop]
    show other ∈ s.recStack.filter (· ≠ node) ↔ _
    rw [mem_filter, hs.recStack, hmem, decide_eq_true_eq]
    constructor
    · rintro ⟨hother, hne⟩
      exact hother.resolve_right hne
    · exact fun hother => ⟨.inl hother, fun heq => hnotin (heq ▸ hother)⟩
  · intro other hother
    rw [hpop] at hother
    exact hs.visited other (hmem.mpr (.inl hother))
  · intro other hother hoff neighbor hneighbor
    rw [hpop] at hoff ⊢
    have hnext : neighbor ∈ s.visited ∧ neighbor ∉ s.pathStack := by
      by_cases heq : other = node
      · exact hleft neighbor (heq ▸ hneighbor)
      · exact hs.closed other hother (fun h => (hmem.mp h).elim hoff heq) neighbor hneighbor
    exact ⟨hnext.1, fun hno => hnext.2 (hmem.mpr (.inl hno))⟩
  · intro other hother hoff hcycle
    rw [hpop] at hoff
    by_cases heq : other = node
    · subst heq
      obtain ⟨neighbor, hedge, hback⟩ := TransGen.head'_iff.mp hcycle
      exact (hs.left hback (hleft neighbor hedge)).2 (hmem.mpr (.inr rfl))
    · exact hs.acyclic other hother (fun h => (hmem.mp h).elim hoff heq) hcycle

/-- An edge from the last node of the path back to the path closes a cycle. -/
theorem Inv.isCycle (hs : Inv next s) {node neighbor : α} (hpath : s.pathStack = path ++ [node])
    (hedge : neighbor ∈ next node) (hback : neighbor ∈ s.pathStack) :
    IsCycle (Edge next) (s.pathStack.drop (s.pathStack.idxOf neighbor)) := by
  have hlt := idxOf_lt_length_iff.mpr hback
  have hcons : s.pathStack.drop (s.pathStack.idxOf neighbor) =
      neighbor :: s.pathStack.drop (s.pathStack.idxOf neighbor + 1) := by
    rw [drop_eq_getElem_cons hlt, getElem_idxOf]
  have hsuffix := drop_suffix (s.pathStack.idxOf neighbor) s.pathStack
  refine ⟨by rw [hcons]; exact cons_ne_nil _ _, hs.nodup.sublist hsuffix.sublist,
    hs.chain.suffix hsuffix, ?_⟩
  intro last hlast first hfirst
  have hlast' : s.pathStack.getLast? = some last := by
    rw [← take_append_drop (s.pathStack.idxOf neighbor) s.pathStack, getLast?_append,
      hlast]
    rfl
  rw [hpath, getLast?_concat] at hlast'
  rw [hcons] at hfirst
  rwa [← Option.some.inj hlast', ← Option.some.inj hfirst]

/-! ## Runs -/

/-- How many of the nodes have not been visited. -/
def unvisited (nodes : Finset α) (s : Search α) : ℕ := (nodes \ s.visited.toFinset).card

variable {nodes : Finset α}

theorem unvisited_lt {s t : Search α} (hsub : s.visited ⊆ t.visited) (hmem : node ∈ nodes)
    (hnew : node ∉ s.visited) (hnode : node ∈ t.visited) :
    unvisited nodes t < unvisited nodes s := by
  apply Finset.card_lt_card
  refine (Finset.ssubset_iff_of_subset ?_).mpr ⟨node, ?_, ?_⟩
  · intro other hother
    rw [Finset.mem_sdiff, mem_toFinset] at hother ⊢
    exact ⟨hother.1, fun h => hother.2 (hsub h)⟩
  · rw [Finset.mem_sdiff, mem_toFinset]
    exact ⟨hmem, hnew⟩
  · rw [Finset.mem_sdiff, mem_toFinset]
    exact fun h => h.2 hnode

/-- What a loop and a visit answer: a cycle, or a search whose path is what it was, and that has
left the given nodes. -/
def Answers (next : α → List α) (s : Search α) (left : List α) :
    Option (Option (List α) × Search α) → Prop
  | none => False
  | some (some cycle, _) => IsCycle (Edge next) cycle
  | some (none, t) => Inv next t ∧ t.pathStack = s.pathStack ∧ s.visited ⊆ t.visited ∧
      ∀ node ∈ left, node ∈ t.visited ∧ node ∉ t.pathStack

/-- One neighbor after the other. -/
theorem loop_spec {visit : α → Search α → Option (Option (List α) × Search α)} (rest : List α)
    (hs : Inv next s) (hpath : s.pathStack = path ++ [node]) (hrest : rest ⊆ next node)
    (hvisit : ∀ neighbor ∈ rest, ∀ t, Inv next t → t.pathStack = s.pathStack →
      s.visited ⊆ t.visited → neighbor ∉ t.visited → Answers next t [neighbor] (visit neighbor t)) :
    Answers next s rest (loop visit rest s) := by
  induction rest generalizing s with
  | nil => exact ⟨hs, rfl, List.Subset.refl _, fun node hnode => absurd hnode not_mem_nil⟩
  | cons neighbor rest ih =>
    have hedge : neighbor ∈ next node := hrest mem_cons_self
    have hrest' : rest ⊆ next node := fun other hother => hrest (mem_cons_of_mem _ hother)
    rw [loop, contains_eq_mem, contains_eq_mem, contains_eq_mem]
    split_ifs with hnew hback
    · -- the neighbor is visited, and then the rest
      rw [decide_eq_false_iff_not] at hnew
      have hanswer := hvisit neighbor mem_cons_self s hs rfl (List.Subset.refl _) hnew
      match hrun : visit neighbor s, hanswer with
      | some (some cycle, t), hanswer => exact hanswer
      | some (none, t), ⟨ht, hpath', hsub, hleft⟩ =>
        have hloop := ih ht (hpath'.trans hpath) hrest' fun other hother u hu hpathu hsubu =>
          hvisit other (mem_cons_of_mem _ hother) u hu (hpathu.trans hpath')
            (List.Subset.trans hsub hsubu)
        show Answers next s (neighbor :: rest) (loop visit rest t)
        match hrun' : loop visit rest t, hloop with
        | some (some cycle, u), hloop => exact hloop
        | some (none, u), ⟨hu, hpathu, hsubu, hleftu⟩ =>
          refine ⟨hu, hpathu.trans hpath', List.Subset.trans hsub hsubu, ?_⟩
          intro other hother
          rcases mem_cons.mp hother with rfl | hother
          · obtain ⟨hmem, hoff⟩ := hleft _ mem_cons_self
            exact ⟨hsubu hmem, hpathu ▸ hoff⟩
          · exact hleftu other hother
    · exact hs.isCycle hpath hedge (of_decide_eq_true hback.2)
    · -- the neighbor was left already
      have hmem : neighbor ∈ s.visited := by
        rw [decide_eq_false_iff_not] at hnew
        exact not_not.mp hnew
      have hoff : neighbor ∉ s.pathStack := fun hon =>
        hback ⟨decide_eq_true ((hs.recStack neighbor).mpr hon), decide_eq_true hon⟩
      have hloop := ih hs hpath hrest' fun other hother =>
        hvisit other (mem_cons_of_mem _ hother)
      match hrun' : loop visit rest s, hloop with
      | some (some cycle, u), hloop => exact hloop
      | some (none, u), ⟨hu, hpathu, hsubu, hleftu⟩ =>
        refine ⟨hu, hpathu, hsubu, fun other hother => ?_⟩
        rcases mem_cons.mp hother with rfl | hother
        · exact ⟨hsubu hmem, hpathu ▸ hoff⟩
        · exact hleftu other hother

section

variable (hclosed : ∀ node ∈ nodes, ∀ b ∈ next node, b ∈ nodes)
include hclosed

/-- **As many rounds as there are unvisited nodes are enough for a visit.** -/
theorem visit_spec (rounds : ℕ) (hs : Inv next s) (hmem : node ∈ nodes) (hnew : node ∉ s.visited)
    (hedge : ∀ last ∈ s.pathStack.getLast?, node ∈ next last) (hrounds : unvisited nodes s ≤ rounds) :
    Answers next s [node] (visit next rounds node s) := by
  induction rounds generalizing node s with
  | zero =>
    have hpos : 0 < unvisited nodes s := Finset.card_pos.mpr
      ⟨node, Finset.mem_sdiff.mpr ⟨hmem, fun h => hnew (mem_toFinset.mp h)⟩⟩
    omega
  | succ rounds ih =>
    have hpush := hs.push hnew hedge
    have hless : unvisited nodes (s.push node) < unvisited nodes s :=
      unvisited_lt (subset_cons_self _ _) hmem hnew mem_cons_self
    have hloop := loop_spec (next node) hpush rfl (List.Subset.refl _)
      fun neighbor hneighbor t ht hpath hsub hout => by
        have hmono : unvisited nodes t ≤ unvisited nodes (s.push node) := by
          apply Finset.card_le_card
          intro other hother
          rw [Finset.mem_sdiff, mem_toFinset] at hother ⊢
          exact ⟨hother.1, fun h => hother.2 (hsub h)⟩
        refine ih ht (hclosed node hmem neighbor hneighbor) hout (fun last hlast => ?_) (by omega)
        rw [hpath, Search.push, getLast?_concat] at hlast
        rwa [← Option.some.inj hlast]
    rw [visit]
    match hrun : loop (visit next rounds) (next node) (s.push node), hloop with
    | some (some cycle, t), hloop => exact hloop
    | some (none, t), ⟨ht, hpath, hsub, hleft⟩ =>
      obtain ⟨hpop, hpath'⟩ := ht.pop hpath hleft
      refine ⟨hpop, hpath', fun other hother => hsub (mem_cons_of_mem _ hother), ?_⟩
      intro other hother
      rw [mem_singleton.mp hother]
      refine ⟨hsub mem_cons_self, fun hon => ?_⟩
      rw [hpath'] at hon
      exact hnew (hs.visited node hon)

/-- **The search finds a cycle, or none of the roots is on one.** -/
theorem searchRoots_spec {rounds : ℕ} (hrounds : nodes.card ≤ rounds) (roots : List α)
    (hroots : ∀ root ∈ roots, root ∈ nodes) (hs : Inv next s) (hpath : s.pathStack = []) :
    ∃ answer, searchRoots next rounds roots s = some answer ∧
      (∀ cycle, answer = some cycle → IsCycle (Edge next) cycle) ∧
      (answer = none → ∀ root ∈ roots, ¬TransGen (Edge next) root root) := by
  induction roots generalizing s with
  | nil =>
    exact ⟨none, rfl, fun cycle h => (nomatch h), fun _ root h => absurd h not_mem_nil⟩
  | cons root rest ih =>
    have hrest : ∀ other ∈ rest, other ∈ nodes := fun other hother =>
      hroots other (mem_cons_of_mem _ hother)
    -- what the rest of the search leaves, when the root was left
    have hnext : ∀ {t : Search α}, Inv next t → t.pathStack = [] → root ∈ t.visited →
        ∃ answer, searchRoots next rounds rest t = some answer ∧
          (∀ cycle, answer = some cycle → IsCycle (Edge next) cycle) ∧
          (answer = none → ∀ other ∈ root :: rest, ¬TransGen (Edge next) other other) := by
      intro t ht hpath' hmem
      obtain ⟨answer, hanswer, hcycle, hnone⟩ := ih hrest ht hpath'
      refine ⟨answer, hanswer, hcycle, fun h other hother => ?_⟩
      rcases mem_cons.mp hother with rfl | hother
      · exact ht.acyclic _ hmem (by rw [hpath']; exact not_mem_nil)
      · exact hnone h other hother
    rw [searchRoots, contains_eq_mem]
    split_ifs with hnew
    · rw [decide_eq_false_iff_not] at hnew
      have hvisit := visit_spec hclosed rounds hs (hroots root mem_cons_self) hnew
        (by rw [hpath]; exact fun last h => nomatch h)
        ((Finset.card_le_card Finset.sdiff_subset).trans hrounds)
      match hrun : visit next rounds root s, hvisit with
      | some (some cycle, t), hcycle =>
        exact ⟨some cycle, rfl, fun other h => Option.some.inj h ▸ hcycle, fun h => nomatch h⟩
      | some (none, t), ⟨ht, hpath', _, hleft⟩ =>
        exact hnext ht (hpath'.trans hpath) (hleft root mem_cons_self).1
    · rw [decide_eq_false_iff_not] at hnew
      exact hnext hs hpath (not_not.mp hnew)

end

end

end CycleSearch
