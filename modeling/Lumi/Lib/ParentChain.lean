import Mathlib.Data.List.Perm.Subperm
import Mathlib.Data.List.Nodup

/-!
# Chains of parents

Nodes that name at most one parent each, as the commits of a history do.  A loop that
follows parents is a `walk` with a number of steps it may take; it ends at a node at
which `stop` holds or past the last one, and need not end where the parents form a cycle.

`walk_bound` says how many steps suffice: a walk that ends meets no node twice, and every
node it leaves has a parent.  `isLowest_walk` says where a walk stops: at the lowest of
the nodes at which `stop` holds.
-/

namespace ParentChain

open List Option

variable {κ : Type*} (parent : κ → Option κ)

/-- The parents from a node on come to an end. -/
inductive Ends : Option κ → Prop
  | done : Ends none
  | next {id : κ} (h : Ends (parent id)) : Ends (some id)

/-- The nodes from a node on. -/
inductive Ancestor (a : κ) : Option κ → Prop
  | refl : Ancestor a (some a)
  | parent {b : κ} (h : Ancestor a (parent b)) : Ancestor a (some b)

/-- The lowest common ancestor of two nodes, or that there is none. -/
def IsLowestCommonAncestor (a b : Option κ) : Option κ → Prop
  | some c => Ancestor parent c a ∧ Ancestor parent c b ∧
      ∀ d, Ancestor parent d a → Ancestor parent d b → Ancestor parent d (some c)
  | none => ∀ d, Ancestor parent d a → ¬ Ancestor parent d b

/-- The nodes passed on the way up, and the one at which the walk stopped. -/
def walk (stop : κ → Bool) : ℕ → Option κ → Option (List κ × Option κ)
  | 0, _ => none
  | _ + 1, none => some ([], none)
  | steps + 1, some id =>
    if stop id then some ([], some id)
    else (walk stop steps (parent id)).map fun r => (id :: r.1, r.2)

variable {parent} {stop : κ → Bool} {steps : ℕ} {curr : Option κ} {r : List κ × Option κ}

/-! ## Ancestors -/

theorem Ancestor.trans {a b : κ} (hab : Ancestor parent a (some b))
    (hb : Ancestor parent b curr) : Ancestor parent a curr := by
  induction hb with
  | refl => exact hab
  | parent _ ih => exact .parent ih

theorem ancestor_some_iff {a b : κ} :
    Ancestor parent a (some b) ↔ a = b ∨ Ancestor parent a (parent b) := by
  constructor
  · intro h
    cases h with
    | refl => exact .inl rfl
    | parent h => exact .inr h
  · intro h
    rcases h with rfl | h
    · exact .refl
    · exact .parent h

/-- Where parents come to an end, no node is above itself. -/
theorem Ends.not_ancestor_parent (h : Ends parent curr) {a : κ}
    (ha : Ancestor parent a curr) : ¬ Ancestor parent a (parent a) := by
  induction h with
  | done => cases ha
  | next _ ih =>
    rcases ancestor_some_iff.mp ha with rfl | ha
    · exact fun hself => ih hself hself
    · exact ih ha

theorem Ends.antisymm {a b : κ} (h : Ends parent (some a)) (hab : Ancestor parent a (some b))
    (hba : Ancestor parent b (some a)) : a = b := by
  rcases ancestor_some_iff.mp hba with rfl | hba
  · rfl
  · exact absurd (hab.trans hba) (h.not_ancestor_parent .refl)

theorem Ends.of_ancestor (h : Ends parent curr) {a : κ} (ha : Ancestor parent a curr) :
    Ends parent (some a) := by
  induction ha with
  | refl => exact h
  | parent _ ih =>
    cases h with
    | next h => exact ih h

theorem Ends.lowest_unique {a b c c' : Option κ} (h : Ends parent a)
    (hc : IsLowestCommonAncestor parent a b c) (hc' : IsLowestCommonAncestor parent a b c') :
    c = c' := by
  cases c with
  | none =>
    cases c' with
    | none => rfl
    | some c' => exact absurd hc'.2.1 (hc c' hc'.1)
  | some c =>
    cases c' with
    | none => exact absurd hc.2.1 (hc' c hc.1)
    | some c' =>
      exact congrArg some ((h.of_ancestor hc.1).antisymm (hc'.2.2 c hc.1 hc.2.1)
        (hc.2.2 c' hc'.1 hc'.2.1))

/-! ## Walks -/

theorem walk_mono {more : ℕ} (h : walk parent stop steps curr = some r) (hle : steps ≤ more) :
    walk parent stop more curr = some r := by
  induction steps generalizing curr r more with
  | zero => cases h
  | succ steps ih =>
    obtain ⟨more, rfl⟩ : ∃ n, more = n + 1 := ⟨more - 1, by omega⟩
    cases curr with
    | none => exact h
    | some id =>
      simp only [walk] at h ⊢
      split_ifs at h ⊢
      · exact h
      · obtain ⟨r', hr', rfl⟩ := map_eq_some_iff.mp h
        rw [ih hr' (by omega)]
        rfl

theorem walk_unique {steps' : ℕ} {r' : List κ × Option κ} (h : walk parent stop steps curr = some r)
    (h' : walk parent stop steps' curr = some r') : r = r' := by
  have hmax := walk_mono h (Nat.le_max_left steps steps')
  have hmax' := walk_mono h' (Nat.le_max_right steps steps')
  rw [hmax] at hmax'
  exact Option.some.inj hmax'

/-- Past the last node there is nothing to walk. -/
theorem walk_none (h : walk parent stop steps none = some r) : r = ([], none) := by
  cases steps with
  | zero => cases h
  | succ steps => exact (Option.some.inj h).symm

/-- A walk that ends can be retraced from any node it passed. -/
theorem walk_from (h : walk parent stop steps curr = some r) {id : κ} (hid : id ∈ r.1) :
    ∃ steps' ids, walk parent stop steps' (some id) = some (ids, r.2) ∧
      ids.length ≤ r.1.length := by
  induction steps generalizing curr r with
  | zero => cases h
  | succ steps ih =>
    cases curr with
    | none =>
      obtain rfl := Option.some.inj h
      cases hid
    | some start =>
      have hwalk := h
      simp only [walk] at h
      split_ifs at h
      · obtain rfl := Option.some.inj h
        cases hid
      · obtain ⟨r', hr', rfl⟩ := map_eq_some_iff.mp h
        rcases mem_cons.mp hid with rfl | hid
        · exact ⟨steps + 1, _, hwalk, Nat.le_refl _⟩
        · obtain ⟨steps', ids, hids, hlen⟩ := ih hr' hid
          exact ⟨steps', ids, hids, Nat.le_succ_of_le hlen⟩

theorem nodup_walk (h : walk parent stop steps curr = some r) : r.1.Nodup := by
  induction steps generalizing curr r with
  | zero => cases h
  | succ steps ih =>
    cases curr with
    | none =>
      obtain rfl := Option.some.inj h
      exact nodup_nil
    | some start =>
      have hwalk := h
      simp only [walk] at h
      split_ifs at h
      · obtain rfl := Option.some.inj h
        exact nodup_nil
      · obtain ⟨r', hr', rfl⟩ := map_eq_some_iff.mp h
        refine nodup_cons.mpr ⟨fun hmem => ?_, ih hr'⟩
        -- from its second visit on the walk would be shorter than from the first
        obtain ⟨steps', ids, hids, hlen⟩ := walk_from hr' hmem
        have heq := congrArg (fun r => r.1.length) (walk_unique hwalk hids)
        simp only [length_cons] at heq
        omega

/-- The nodes left behind have a parent each, with the possible exception of the last. -/
theorem dropLast_walk_subset {nodes : List κ} (hnodes : ∀ id, parent id ≠ none → id ∈ nodes)
    (h : walk parent stop steps curr = some r) : ∀ id ∈ r.1.dropLast, id ∈ nodes := by
  induction steps generalizing curr r with
  | zero => cases h
  | succ steps ih =>
    cases curr with
    | none =>
      obtain rfl := Option.some.inj h
      intro id hid
      cases hid
    | some start =>
      simp only [walk] at h
      split_ifs at h
      · obtain rfl := Option.some.inj h
        intro id hid
        cases hid
      · obtain ⟨⟨ids, last⟩, hr', rfl⟩ := map_eq_some_iff.mp h
        cases ids with
        | nil =>
          intro id hid
          cases hid
        | cons next rest =>
          intro id hid
          rw [dropLast_cons_cons] at hid
          rcases mem_cons.mp hid with rfl | hid
          · refine hnodes id fun hnone => ?_
            rw [hnone] at hr'
            cases steps with
            | zero => cases hr'
            | succ steps => cases hr'
          · exact ih hr' id hid

theorem walk_length (h : walk parent stop steps curr = some r) :
    walk parent stop (r.1.length + 1) curr = some r := by
  induction steps generalizing curr r with
  | zero => cases h
  | succ steps ih =>
    cases curr with
    | none =>
      obtain rfl := Option.some.inj h
      rfl
    | some start =>
      simp only [walk] at h
      split_ifs at h with hstop
      · obtain rfl := Option.some.inj h
        simp [walk, hstop]
      · obtain ⟨r', hr', rfl⟩ := map_eq_some_iff.mp h
        rw [length_cons, walk, if_neg hstop, ih hr']
        rfl

/-- **How many steps suffice.**  Two more than there are nodes with a parent. -/
theorem walk_bound {nodes : List κ} (hnodes : ∀ id, parent id ≠ none → id ∈ nodes)
    (h : walk parent stop steps curr = some r) :
    walk parent stop (nodes.length + 2) curr = some r := by
  have hnodup : r.1.dropLast.Nodup := (dropLast_sublist r.1).nodup (nodup_walk h)
  have hlen := (subperm_of_subset hnodup (dropLast_walk_subset hnodes h)).length_le
  rw [length_dropLast] at hlen
  exact walk_mono (walk_length h) (by omega)

theorem walk_of_ends (stop : κ → Bool) (h : Ends parent curr) :
    ∃ steps r, walk parent stop steps curr = some r := by
  induction h with
  | done => exact ⟨1, _, rfl⟩
  | @next id _ ih =>
    obtain ⟨steps, r, hr⟩ := ih
    refine ⟨steps + 1, ?_⟩
    rw [walk, hr]
    split_ifs
    · exact ⟨_, rfl⟩
    · exact ⟨_, rfl⟩

/-- A walk to the end: that it ends, and what it has passed. -/
theorem ends_of_walk (h : walk parent (fun _ => false) steps curr = some r) :
    Ends parent curr ∧ ∀ id, id ∈ r.1 ↔ Ancestor parent id curr := by
  induction steps generalizing curr r with
  | zero => cases h
  | succ steps ih =>
    cases curr with
    | none =>
      obtain rfl := Option.some.inj h
      refine ⟨.done, fun id => ⟨fun hid => (by cases hid), fun hid => (by cases hid)⟩⟩
    | some start =>
      obtain ⟨r', hr', rfl⟩ := map_eq_some_iff.mp h
      obtain ⟨hends, hmem⟩ := ih hr'
      refine ⟨.next hends, fun id => ?_⟩
      rw [mem_cons, hmem, ancestor_some_iff]

/-- Beyond the node at which a walk stops, the parents come to an end or not as before it. -/
theorem Ends.of_walk (h : walk parent stop steps curr = some r) (hlast : Ends parent r.2) :
    Ends parent curr := by
  induction steps generalizing curr r with
  | zero => cases h
  | succ steps ih =>
    cases curr with
    | none => exact .done
    | some start =>
      simp only [walk] at h
      split_ifs at h
      · obtain rfl := Option.some.inj h
        exact hlast
      · obtain ⟨r', hr', rfl⟩ := map_eq_some_iff.mp h
        exact .next (ih hr' hlast)

/-- The node at which a walk stops is the lowest at which it may. -/
theorem lowest_of_walk (h : walk parent stop steps curr = some r) :
    match r.2 with
    | some id => stop id = true ∧ Ancestor parent id curr ∧
        ∀ d, Ancestor parent d curr → stop d = true → Ancestor parent d (some id)
    | none => ∀ d, Ancestor parent d curr → stop d = false := by
  induction steps generalizing curr r with
  | zero => cases h
  | succ steps ih =>
    cases curr with
    | none =>
      obtain rfl := Option.some.inj h
      intro d hd
      cases hd
    | some start =>
      simp only [walk] at h
      split_ifs at h with hstop
      · obtain rfl := Option.some.inj h
        exact ⟨hstop, .refl, fun d hd _ => hd⟩
      · obtain ⟨⟨ids, last⟩, hr', rfl⟩ := map_eq_some_iff.mp h
        have hlast := ih hr'
        cases last with
        | none =>
          intro d hd
          rcases ancestor_some_iff.mp hd with rfl | hd
          · exact Bool.not_eq_true _ ▸ hstop
          · exact hlast d hd
        | some id =>
          obtain ⟨hid, hanc, hlowest⟩ := hlast
          refine ⟨hid, .parent hanc, fun d hd hstopd => ?_⟩
          rcases ancestor_some_iff.mp hd with rfl | hd
          · exact absurd hstopd hstop
          · exact hlowest d hd hstopd

/-- **Lowest common ancestors.**  The nodes above `a`, and then the first of them above `b`. -/
theorem isLowest_walk {a b : Option κ} {steps' : ℕ} {above : List κ} {last : Option κ}
    (ha : walk parent (fun _ => false) steps a = some (above, last))
    (hstop : ∀ id, stop id = true ↔ id ∈ above) (hb : walk parent stop steps' b = some r) :
    IsLowestCommonAncestor parent a b r.2 := by
  have habove := (ends_of_walk ha).2
  have hlowest := lowest_of_walk hb
  obtain ⟨passed, last'⟩ := r
  cases last' with
  | none =>
    intro d hda hdb
    have hd := (hstop d).mpr ((habove d).mpr hda)
    rw [hlowest d hdb] at hd
    cases hd
  | some c =>
    obtain ⟨hc, hcb, hmax⟩ := hlowest
    exact ⟨(habove c).mp ((hstop c).mp hc), hcb,
      fun d hda hdb => hmax d hdb ((hstop d).mpr ((habove d).mpr hda))⟩

end ParentChain
