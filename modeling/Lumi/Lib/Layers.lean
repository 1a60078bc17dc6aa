import Mathlib.Data.Fintype.Card

/-!
# Layers of a dependency relation

`r a b` says that `a` rests on `b`.  A node stands in layer `k` where the longest chain of nodes,
each resting on the next, that begins at it has `k` steps.  A node below which there are chains of
every length stands in no layer; if only finitely many nodes are rested on, that means that a cycle
lies below it.
-/

namespace Layers

open Relation

variable {ν : Type*} (r : ν → ν → Prop)

/-- A chain of `n` steps begins at the node. -/
def Chain : ℕ → ν → Prop
  | 0, _ => True
  | n + 1, a => ∃ b, r a b ∧ Chain n b

/-- The longest chain that begins at the node has `k` steps. -/
def At (k : ℕ) (a : ν) : Prop := Chain r k a ∧ ¬ Chain r (k + 1) a

variable {r} {a b : ν} {j k n : ℕ}

theorem Chain.pred (h : Chain r (n + 1) a) : Chain r n a := by
  induction n generalizing a with
  | zero => exact trivial
  | succ n ih =>
    obtain ⟨b, hab, hb⟩ := h
    exact ⟨b, hab, ih hb⟩

theorem Chain.mono (h : Chain r n a) (hle : k ≤ n) : Chain r k a := by
  induction hle with
  | refl => exact h
  | step _ ih => exact ih h.pred

theorem Chain.le_of_not (h : Chain r n a) (hk : ¬ Chain r (k + 1) a) : n ≤ k := by
  by_contra hlt
  exact hk (h.mono (by omega))

/-- Where every node starts after what it rests on, it starts no earlier than the chains are long. -/
theorem Chain.le_start {start : ν → ℕ} (hstart : ∀ a b, r a b → start b < start a)
    (h : Chain r n a) : n ≤ start a := by
  induction n generalizing a with
  | zero => exact Nat.zero_le _
  | succ n ih =>
    obtain ⟨b, hab, hb⟩ := h
    exact Nat.succ_le_of_lt (Nat.lt_of_le_of_lt (ih hb) (hstart a b hab))

theorem At.unique (hj : At r j a) (hk : At r k a) : j = k :=
  Nat.le_antisymm (hj.1.le_of_not hk.2) (hk.1.le_of_not hj.2)

/-- Where chains of some length do not begin, a layer below it is the node's. -/
theorem exists_at_of_not_chain (h : ¬ Chain r k a) : ∃ j < k, At r j a := by
  induction k with
  | zero => exact absurd trivial h
  | succ k ih =>
    by_cases hk : Chain r k a
    · exact ⟨k, by omega, hk, h⟩
    · obtain ⟨j, hlt, hj⟩ := ih hk
      exact ⟨j, by omega, hj⟩

theorem exists_at_iff : (∃ k, At r k a) ↔ ¬ ∀ n, Chain r n a := by
  constructor
  · rintro ⟨k, hk⟩ hall
    exact hk.2 (hall (k + 1))
  · intro h
    obtain ⟨n, hn⟩ := not_forall.mp h
    obtain ⟨j, -, hj⟩ := exists_at_of_not_chain hn
    exact ⟨j, hj⟩

/-- What a node rests on stands in an earlier layer. -/
theorem At.below (h : At r k a) (hab : r a b) : ∃ j < k, At r j b :=
  exists_at_of_not_chain fun hb => h.2 ⟨b, hab, hb⟩

/-- A node stands in the first layer after all that it rests on. -/
theorem At.tight (h : At r (k + 1) a) : ∃ b, r a b ∧ At r k b := by
  obtain ⟨b, hab, hb⟩ := h.1
  exact ⟨b, hab, hb, fun hlonger => h.2 ⟨b, hab, hlonger⟩⟩

theorem at_of_below (hbelow : ∀ b, r a b → ∃ j < k, At r j b)
    (htight : k = 0 ∨ ∃ b, r a b ∧ At r (k - 1) b) : At r k a := by
  constructor
  · cases k with
    | zero => exact trivial
    | succ k =>
      rcases htight with hzero | ⟨b, hab, hb⟩
      · omega
      · exact ⟨b, hab, hb.1⟩
  · rintro ⟨b, hab, hb⟩
    obtain ⟨j, hlt, hj⟩ := hbelow b hab
    have hle := hb.le_of_not hj.2
    omega

/-- Every layer before an inhabited one is inhabited, below the same node. -/
theorem At.exists_below (h : At r k a) (hle : j ≤ k) : ∃ b, ReflTransGen r a b ∧ At r j b := by
  induction k generalizing a with
  | zero =>
    obtain rfl : j = 0 := by omega
    exact ⟨a, .refl, h⟩
  | succ k ih =>
    rcases Nat.lt_or_eq_of_le hle with hlt | rfl
    · obtain ⟨b, hab, hb⟩ := h.tight
      obtain ⟨c, hbc, hc⟩ := ih hb (by omega)
      exact ⟨c, .head hab hbc, hc⟩
    · exact ⟨a, .refl, h⟩

/-- From a node on a cycle, chains of every length begin. -/
theorem chain_of_transGen (h : TransGen r a a) (n : ℕ) : Chain r n a := by
  induction n generalizing a with
  | zero => exact trivial
  | succ n ih =>
    obtain ⟨b, hab, hba⟩ := TransGen.head'_iff.mp h
    exact ⟨b, hab, ih (TransGen.tail' hba hab)⟩

/-- The nodes below a node. -/
noncomputable def below (r : ν → ν → Prop) (nodes : Finset ν) (a : ν) : Finset ν :=
  open Classical in nodes.filter fun b => TransGen r a b

variable {nodes : Finset ν}

theorem mem_below : b ∈ below r nodes a ↔ b ∈ nodes ∧ TransGen r a b := by
  classical
  exact Finset.mem_filter

section

variable (hnodes : ∀ a b, r a b → b ∈ nodes)
include hnodes

/-- In an acyclic relation, no chain is longer than there are nodes below its beginning. -/
theorem Chain.le_card_below (hacyclic : ∀ a, ¬ TransGen r a a) (h : Chain r n a) :
    n ≤ (below r nodes a).card := by
  induction n generalizing a with
  | zero => exact Nat.zero_le _
  | succ n ih =>
    obtain ⟨b, hab, hb⟩ := h
    have hsub : below r nodes b ⊂ below r nodes a := by
      refine (Finset.ssubset_iff_of_subset fun c hc => ?_).mpr ⟨b, ?_, ?_⟩
      · obtain ⟨hmem, hbc⟩ := mem_below.mp hc
        exact mem_below.mpr ⟨hmem, .head hab hbc⟩
      · exact mem_below.mpr ⟨hnodes a b hab, .single hab⟩
      · exact fun hself => hacyclic b (mem_below.mp hself).2
    exact Nat.lt_of_le_of_lt (ih hb) (Finset.card_lt_card hsub)

/-- There are at most as many layers as nodes. -/
theorem At.lt_card (h : At r k a) (ha : a ∈ nodes) : k < nodes.card := by
  have hevery : ∀ j : Fin (k + 1), ∃ b ∈ nodes, At r j b := by
    intro j
    obtain ⟨b, hab, hb⟩ := h.exists_below (Nat.lt_succ_iff.mp j.isLt)
    rcases ReflTransGen.cases_tail hab with rfl | ⟨c, -, hcb⟩
    · exact ⟨b, ha, hb⟩
    · exact ⟨b, hnodes c b hcb, hb⟩
  choose node hmem hat using hevery
  have hinj : Function.Injective node := by
    intro i j heq
    exact Fin.ext ((hat i).unique (heq ▸ hat j))
  have hle := Finset.card_le_card_of_injOn node (s := Finset.univ) (fun j _ => hmem j) hinj.injOn
  rw [Finset.card_univ, Fintype.card_fin] at hle
  omega

/-- If finitely many nodes are rested on, a cycle is what keeps a node out of the layers. -/
theorem exists_cycle_iff : (∃ a, TransGen r a a) ↔ ∃ a, ∀ k, ¬ At r k a := by
  constructor
  · rintro ⟨a, hcycle⟩
    exact ⟨a, fun k hk => hk.2 (chain_of_transGen hcycle (k + 1))⟩
  · rintro ⟨a, hnone⟩
    by_contra hacyclic
    have hall : ∀ n, Chain r n a := by
      by_contra hsome
      obtain ⟨k, hk⟩ := exists_at_iff.mpr hsome
      exact hnone k hk
    have hle := (hall ((below r nodes a).card + 1)).le_card_below hnodes (not_exists.mp hacyclic)
    omega

end

end Layers
