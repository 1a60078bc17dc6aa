import Mathlib.Data.Nat.Cast.Order.Ring
import Lumi.Lib.Run
import Lumi.BTree.Calls

/-!
# The index refines a sorted map

In a run that inserts no key unequal to itself, and deletes no key that an entry above
the leaves has, the tree stays well-formed, its contents stay sorted, and they are what
the map of the calls holds (`Holds`).  Search, size and range scan then read that map.

The other deletions take an entry out of a node above the leaves and leave its children
where they are: every search past the gap goes one child too far to the left.
-/

namespace Lumi.BTree

open Js Run List Function

variable {κ υ : Type*} {order : KeyOrder κ} [DecidableEq κ]

/-- What a call does to a map of keys to values. -/
def Op.apply (content : κ → Option υ) : Op κ υ → κ → Option υ
  | .insert key value => Function.update content key (some value)
  | .delete key => Function.update content key none
  | .clear => fun _ => none

/-- The map next to the index. -/
abbrev Both (κ υ : Type*) := (κ → Option υ) × BTreeIndexEngine κ υ

variable (order) in
def Both.step (s : Both κ υ) (op : Op κ υ) : Both κ υ := (op.apply s.1, s.2.step order op)

def Both.new (maxDegree : Number) : Both κ υ := (fun _ => none, .new maxDegree)

/-- **The index reads the map.** -/
structure Refines (order : KeyOrder κ) (s : Both κ υ) : Prop where
  search : ∀ key, s.2.search order key = s.1 key
  size : ∃ keys : List κ, keys.Nodup ∧ (∀ k, k ∈ keys ↔ s.1 k ≠ none) ∧ s.2.size = keys.length
  ascending : ∀ minKey maxKey,
    (s.2.rangeScan order minKey maxKey).Pairwise fun a b => order.Lt a.1 b.1
  listed : ∀ minKey maxKey k v, (k, v) ∈ s.2.rangeScan order minKey maxKey ↔
    s.1 k = some v ∧ order.Ge k minKey ∧ order.Le k maxKey

/-- The call inserts a key that is equal to itself, or deletes a key that no entry above the
leaves has. -/
def Clean (order : KeyOrder κ) (s : Both κ υ) : Op κ υ → Prop
  | .insert key _ => order.Self key
  | .delete key => ¬ HeldAbove s.2.root key
  | .clear => True

/-! ## Contents and the map -/

variable {old new : List (κ × υ)}

omit [DecidableEq κ] in
theorem Sorted.of_keys (h : Sorted order old) (hkeys : new.map Prod.fst = old.map Prod.fst) :
    Sorted order new where
  ascending := by
    have hold := pairwise_map.mpr h.ascending
    rw [← hkeys] at hold
    exact pairwise_map.mp hold
  self := by
    intro e he
    have hmem : e.1 ∈ old.map Prod.fst := hkeys ▸ mem_map_of_mem he
    obtain ⟨e', he', heq⟩ := mem_map.mp hmem
    rw [← heq]
    exact h.self e' he'

omit [DecidableEq κ] in
theorem Sorted.between {l l' : List (κ × υ)} {key : κ} {v : υ}
    (h : Sorted order (l ++ (key, v) :: l')) : Between order key l l' where
  below := fun _ he => h.lt_of_append he mem_cons_self
  above := fun e he => (pairwise_cons.mp h.right.ascending).1 e he

/-- The tree is well-formed, and its contents are the map. -/
structure Holds (order : KeyOrder κ) (content : κ → Option υ) (s : BTreeIndexEngine κ υ) :
    Prop where
  degree : ∀ k, isFull s.maxDegree k = true → 3 ≤ k
  wellFormed : WellFormed s.root
  sorted : Sorted order (contents s.root)
  count : s.totalEntriesCount = (contents s.root).length
  mem_iff : ∀ k v, (k, v) ∈ contents s.root ↔ content k = some v

omit [DecidableEq κ] in
/-- A degree below four counts as four. -/
theorem le_of_isFull {maxDegree : Number} {k : ℕ}
    (h : isFull (BTreeIndexEngine.new maxDegree : BTreeIndexEngine κ υ).maxDegree k = true) :
    3 ≤ k := by
  have hcast : ∀ q : ℚ, 4 ≤ q → ¬ (k : ℚ) < q → 3 ≤ k := by
    intro q hq hk
    have hle : ((4 : ℕ) : ℚ) ≤ (k : ℚ) := le_trans (by exact_mod_cast hq) (not_lt.mp hk)
    have := Nat.cast_le.mp hle
    omega
  unfold isFull BTreeIndexEngine.new at h
  dsimp only at h
  split_ifs at h with hfour
  · simp only [Number.less?, Option.some.injEq, decide_eq_false_iff_not, decide_eq_true_eq] at h
    exact hcast 4 le_rfl h
  · cases maxDegree with
    | nan => simp [Number.less?] at h
    | negInfinity => simp [Number.less?] at hfour
    | posInfinity => simp [Number.less?] at h
    | finite q =>
      simp only [Number.less?, Option.some.injEq, decide_eq_false_iff_not, not_not,
        decide_eq_true_eq] at h hfour
      exact hcast q hfour.le h

variable {content : κ → Option υ} {s : BTreeIndexEngine κ υ}

omit [DecidableEq κ] in
theorem holds_new (maxDegree : Number) :
    Holds order (fun _ => none) (.new maxDegree : BTreeIndexEngine κ υ) where
  degree := fun _ h => le_of_isFull h
  wellFormed := trivial
  sorted := ⟨List.Pairwise.nil, fun _ he => absurd he not_mem_nil⟩
  count := rfl
  mem_iff := fun _ _ => iff_of_false not_mem_nil (by simp)

/-! ## What a change of the contents is to the map -/

section

omit [DecidableEq κ]

theorem mem_middle_of_ne {l l' : List (κ × υ)} {k key : κ} (hk : k ≠ key) (v w : υ) :
    (k, v) ∈ l ++ (key, w) :: l' ↔ (k, v) ∈ l ++ l' := by
  rw [perm_middle.mem_iff, mem_cons]
  exact or_iff_right fun heq => hk (congrArg Prod.fst heq)

theorem mem_middle_self {l l' : List (κ × υ)} {key : κ} (h : ∀ e ∈ l ++ l', e.1 ≠ key) (v w : υ) :
    (key, v) ∈ l ++ (key, w) :: l' ↔ w = v := by
  rw [perm_middle.mem_iff, mem_cons, or_iff_left fun hmem => h _ hmem rfl,
    Prod.mk.injEq, and_iff_right rfl, eq_comm]

/-- The key of an entry is that of no other. -/
theorem Sorted.not_mem_rest {l l' : List (κ × υ)} {key : κ} {w : υ}
    (h : Sorted order (l ++ (key, w) :: l')) : ∀ e ∈ l ++ l', e.1 ≠ key :=
  h.between.not_mem (h.self (key, w) (mem_append_right _ mem_cons_self))

end

theorem mem_iff_of_adds {key : κ} {value : υ} (h : Adds order key value old new)
    (hself : order.Self key) (hold : ∀ k v, (k, v) ∈ old ↔ content k = some v) (k : κ) (v : υ) :
    (k, v) ∈ new ↔ Function.update content key (some value) k = some v := by
  obtain ⟨l, l', rfl, rfl, hbetween⟩ := h
  by_cases hk : k = key
  · subst hk
    rw [update_self, mem_middle_self (hbetween.not_mem hself), Option.some.injEq]
  · rw [update_of_ne hk, ← hold, mem_middle_of_ne hk]

theorem mem_iff_of_removes {key : κ} (h : Removes key old new) (hsorted : Sorted order old)
    (hold : ∀ k v, (k, v) ∈ old ↔ content k = some v) (k : κ) (v : υ) :
    (k, v) ∈ new ↔ Function.update content key none k = some v := by
  obtain ⟨l, l', w, rfl, rfl⟩ := h
  by_cases hk : k = key
  · subst hk
    rw [update_self]
    exact iff_of_false (fun hmem => hsorted.not_mem_rest _ hmem rfl) fun h => by cases h
  · rw [update_of_ne hk, ← hold, mem_middle_of_ne hk]

theorem mem_iff_of_replaces {key : κ} {value : υ} (h : Replaces key value old new)
    (hsorted : Sorted order old) (hold : ∀ k v, (k, v) ∈ old ↔ content k = some v) (k : κ) (v : υ) :
    (k, v) ∈ new ↔ Function.update content key (some value) k = some v := by
  obtain ⟨l, l', w, rfl, rfl⟩ := h
  by_cases hk : k = key
  · subst hk
    rw [update_self, mem_middle_self hsorted.not_mem_rest, Option.some.injEq]
  · rw [update_of_ne hk, ← hold, mem_middle_of_ne hk, mem_middle_of_ne hk]

/-! ## Steps -/

section

variable (h : Holds order content s)
include h

/-- An insertion of a new key into a tree with the contents of the index. -/
theorem Holds.adds {key : κ} {value : υ} (hself : order.Self key)
    (hnew : ∀ e ∈ contents s.root, e.1 ≠ key) {n : ℕ} {node : BTreeNode κ υ n}
    (hwf : WellFormed node) (hcontents : contents node = contents s.root) :
    Holds order (Function.update content key (some value))
      { s with
        depth := n
        root := insertNonFull order s.maxDegree node key value
        totalEntriesCount := s.totalEntriesCount + 1 } := by
  obtain ⟨hwf', hadds⟩ := insertNonFull_spec value h.degree hwf
    (hcontents ▸ h.sorted) hself (hcontents ▸ hnew)
  refine ⟨h.degree, hwf', ?_, ?_, fun k v => ?_⟩
  · obtain ⟨l, l', hold, hnew', hbetween⟩ := hadds
    rw [hnew']
    exact (hold ▸ hcontents ▸ h.sorted).insert hself hbetween.below hbetween.above value
  · obtain ⟨l, l', hold, hnew', -⟩ := hadds
    show s.totalEntriesCount + 1 = ((contents _).length : ℤ)
    rw [hnew', h.count, ← hcontents, hold]
    simp only [length_append, length_cons]
    omega
  · exact mem_iff_of_adds hadds hself (hcontents ▸ h.mem_iff) k v

theorem Holds.insert {key : κ} (hself : order.Self key) (value : υ) :
    Holds order (Function.update content key (some value)) (s.insert order key value) := by
  unfold BTreeIndexEngine.insert
  dsimp only
  rcases updateIfExists_spec value h.wellFormed h.sorted with
    ⟨htrue, hwf, hreplaces⟩ | ⟨hfalse, hnew⟩
  · rw [htrue, if_pos rfl]
    refine ⟨h.degree, hwf, ?_, ?_, mem_iff_of_replaces hreplaces h.sorted h.mem_iff⟩
    · obtain ⟨l, l', v, hold, hnew⟩ := hreplaces
      refine h.sorted.of_keys ?_
      rw [hnew, hold]
      simp
    · obtain ⟨l, l', v, hold, hnew⟩ := hreplaces
      show s.totalEntriesCount = ((contents _).length : ℤ)
      rw [hnew, h.count, hold]
      simp
  · rw [hfalse, if_neg Bool.false_ne_true]
    split_ifs with hfull
    · -- the root is split first
      obtain ⟨left, e, right, hsplit, hleft, hright, heq⟩ :=
        split_spec h.wellFormed (h.degree _ hfull)
      have hroot : splitChild ⟨[], [s.root]⟩ 0 s.root = ⟨[e], [left, right]⟩ := by
        have heq : splitChild ⟨[] ++ [], [] ++ s.root :: []⟩ ([] : List (κ × υ)).length s.root
            = ⟨[] ++ e :: [], [] ++ left :: right :: []⟩ := splitChild_eq rfl hsplit
        exact heq
      rw [hroot]
      have hwf : WellFormed (innerNode [e] [left, right]) := by
        refine ⟨cons_ne_nil _ _, rfl, fun c hc => ?_⟩
        rcases mem_cons.mp hc with rfl | hc
        · exact hleft
        · rw [mem_singleton.mp hc]
          exact hright
      exact h.adds hself hnew hwf heq.symm
    · exact h.adds hself hnew h.wellFormed rfl

theorem Holds.delete {key : κ} (hleaf : ¬ HeldAbove s.root key) :
    Holds order (Function.update content key none) (s.delete order key).2 := by
  unfold BTreeIndexEngine.delete
  dsimp only
  rcases deleteKeyFromNode_spec h.wellFormed h.sorted hleaf with
    ⟨htrue, hwf, hremoves⟩ | ⟨hfalse, hmissed⟩
  · refine ⟨h.degree, hwf, ?_, ?_, mem_iff_of_removes hremoves h.sorted h.mem_iff⟩
    · obtain ⟨l, l', v, hold, hnew⟩ := hremoves
      rw [hnew]
      exact (hold ▸ h.sorted).sublist ((sublist_cons_self _ _).append_left l)
    · obtain ⟨l, l', v, hold, hnew⟩ := hremoves
      rw [htrue, if_pos rfl, hnew, h.count, hold]
      simp only [length_append, length_cons]
      omega
  · have hnone : content key = none := by
      rw [Option.eq_none_iff_forall_ne_some]
      exact fun v hv => hmissed (key, v) ((h.mem_iff key v).mpr hv) rfl
    rw [hfalse, if_neg Bool.false_ne_true, update_eq_self_iff.mpr hnone.symm]
    exact h

theorem Holds.step {op : Op κ υ} (hop : Clean order (content, s) op) :
    Holds order (op.apply content) (s.step order op) := by
  cases op with
  | insert key value => exact h.insert hop value
  | delete key => exact h.delete hop
  | clear =>
    exact ⟨h.degree, trivial, ⟨List.Pairwise.nil, fun _ he => absurd he not_mem_nil⟩, rfl,
      fun _ _ => iff_of_false not_mem_nil (by simp [Op.apply])⟩

end

/-! ## Reading the map -/

omit [DecidableEq κ] in
theorem Holds.refines {s : Both κ υ} (h : Holds order s.1 s.2) : Refines order s where
  search := by
    intro key
    obtain ⟨hfound, hmissed⟩ := searchNode_spec order key h.wellFormed
    cases hsearch : s.2.search order key with
    | some v => exact ((h.mem_iff key v).mp (hfound v hsearch)).symm
    | none =>
      rw [eq_comm, Option.eq_none_iff_forall_ne_some]
      exact fun v hv => hmissed h.sorted hsearch (key, v) ((h.mem_iff key v).mpr hv) rfl
  size := by
    refine ⟨(contents s.2.root).map Prod.fst, ?_, fun k => ?_, ?_⟩
    · refine pairwise_map.mpr (h.sorted.ascending.imp_of_mem fun ha _ hlt => ?_)
      exact hlt.ne (h.sorted.self _ ha)
    · rw [mem_map, Option.ne_none_iff_exists']
      constructor
      · rintro ⟨⟨k', v⟩, hmem, rfl⟩
        exact ⟨v, (h.mem_iff k' v).mp hmem⟩
      · rintro ⟨v, hv⟩
        exact ⟨(k, v), (h.mem_iff k v).mpr hv, rfl⟩
    · rw [length_map]
      exact h.count
  ascending := by
    intro minKey maxKey
    rw [BTreeIndexEngine.rangeScan, collectRange_spec h.wellFormed h.sorted]
    exact h.sorted.ascending.filter _
  listed := by
    intro minKey maxKey k v
    rw [BTreeIndexEngine.rangeScan, collectRange_spec h.wellFormed h.sorted, mem_filter,
      h.mem_iff, inRange, decide_eq_true_eq]

/-- **The index refines a sorted map.**  In every run whose calls are clean the index reads, in
every state, the map of the calls. -/
theorem refines_of_clean (maxDegree : Number) {ops : List (Op κ υ)}
    (h : Guarded (Both.step order) (Clean order) (Both.new maxDegree) ops) :
    Always (Both.step order) (Refines order) (Both.new maxDegree) ops := by
  have hstep : ∀ (s : Both κ υ) (op : Op κ υ), Holds order s.1 s.2 → Clean order s op →
      Holds order (Both.step order s op).1 (Both.step order s op).2 :=
    fun s op hs hop => hs.step hop
  exact (always_of_guarded hstep (holds_new maxDegree) h).mono fun s hs => hs.refines

/-- Five insertions, which split the root, and a deletion in a leaf. -/
def cleanRun : List (Op Number ℕ) :=
  [.insert (.finite 0) 0, .insert (.finite 1) 10, .insert (.finite 2) 20, .insert (.finite 3) 30,
    .insert (.finite 4) 40, .delete (.finite 3)]

theorem clean_run_refines :
    Always (Both.step numbers) (Refines numbers) (Both.new (.finite 4)) cleanRun := by
  refine refines_of_clean (.finite 4) ⟨?_, ?_, ?_, ?_, ?_, ?_, trivial⟩
  · exact numbers_self_iff.mpr ⟨_, rfl⟩
  · exact numbers_self_iff.mpr ⟨_, rfl⟩
  · exact numbers_self_iff.mpr ⟨_, rfl⟩
  · exact numbers_self_iff.mpr ⟨_, rfl⟩
  · exact numbers_self_iff.mpr ⟨_, rfl⟩
  · show ¬ HeldAbove _ _
    decide

omit [DecidableEq κ] in
/-- With every level above the leaves the contents at least double. -/
theorem two_pow_le_of_wellFormed : {n : ℕ} → {node : BTreeNode κ υ n} → WellFormed node →
    2 ^ n ≤ (contents node).length + 1
  | 0, _, _ => Nat.le_add_left _ _
  | n + 1, ⟨entries, children⟩, ⟨hne, hcount, hchildren⟩ => by
      obtain ⟨e, es, rfl⟩ := exists_cons_of_ne_nil hne
      obtain ⟨c, d, cs, rfl⟩ : ∃ c d cs, children = c :: d :: cs := by
        match children, hcount with
        | c :: d :: cs, _ => exact ⟨c, d, cs, rfl⟩
      have hfirst := two_pow_le_of_wellFormed (hchildren c mem_cons_self)
      have hsecond := two_pow_le_of_wellFormed (hchildren d (mem_cons_of_mem _ mem_cons_self))
      have hrest : (contents d).length ≤ (interleave contents es (d :: cs)).length := by
        cases es with
        | nil => exact Nat.le_refl _
        | cons e' es => simp [interleave]
      have hlength : (contents (innerNode (e :: es) (c :: d :: cs))).length
          = (contents c).length + ((interleave contents es (d :: cs)).length + 1) :=
        length_append
      show 2 ^ (n + 1) ≤ (contents (innerNode (e :: es) (c :: d :: cs))).length + 1
      rw [pow_succ]
      omega

/-- **The tree stays low.**  In a clean run with `n` keys in the tree, no more than `log₂ (n + 1)`
levels are above its leaves. -/
theorem height_stays_logarithmic (maxDegree : Number) {ops : List (Op κ υ)}
    (h : Guarded (Both.step order) (Clean order) (Both.new maxDegree) ops) :
    Always (Both.step order) (fun s => (2 : ℤ) ^ s.2.depth ≤ s.2.size + 1)
      (Both.new maxDegree) ops := by
  have hstep : ∀ (s : Both κ υ) (op : Op κ υ), Holds order s.1 s.2 → Clean order s op →
      Holds order (Both.step order s op).1 (Both.step order s op).2 :=
    fun s op hs hop => hs.step hop
  refine (always_of_guarded hstep (holds_new maxDegree) h).mono fun s hs => ?_
  rw [BTreeIndexEngine.size, hs.count]
  exact_mod_cast two_pow_le_of_wellFormed hs.wellFormed

theorem clean_run_stays_low :
    Always (Both.step numbers) (fun s => (2 : ℤ) ^ s.2.depth ≤ s.2.size + 1)
      (Both.new (.finite 4)) cleanRun := by
  refine height_stays_logarithmic (.finite 4) ⟨?_, ?_, ?_, ?_, ?_, ?_, trivial⟩
  all_goals first
    | exact numbers_self_iff.mpr ⟨_, rfl⟩
    | show ¬ HeldAbove _ _
      decide

/-- The same insertions, and the deletion of the key that the split has moved to the root. -/
def unclean : List (Op Number ℕ) :=
  [.insert (.finite 0) 0, .insert (.finite 1) 10, .insert (.finite 2) 20, .insert (.finite 3) 30,
    .insert (.finite 4) 40, .delete (.finite 2)]

/-- A key to the right of the gap is not found any more. -/
theorem deletion_above_the_leaves_loses_keys :
    ¬ Always (Both.step numbers) (Refines numbers) (Both.new (.finite 4)) unclean := by
  intro h
  have hlast := always_iff_forall_split.mp h unclean [] (append_nil _).symm
  have hsearch := hlast.search (.finite 3)
  revert hsearch
  decide

end Lumi.BTree
