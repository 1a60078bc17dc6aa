import Mathlib.Data.List.Nodup
import Mathlib.Data.List.Perm.Subperm

/-!
# Insertion-ordered maps

The `Map` of ECMAScript iterates its entries in the order in which their keys
were first inserted: `set` on a present key overwrites the value in place, `set`
on an absent key appends, and `delete` closes the gap.  `InsertionMap` is that
data structure as a list of entries whose keys are distinct; distinctness is a
field, so a map with a repeated key cannot be built.

Two readings of a map are used downstream.  `get?` is the finite function the
map denotes, and two maps with the same `get?` hold the same records; `entries`
also fixes the iteration order, and equality of maps is equality of `entries`.
-/

/-- A finite map that remembers the order in which its keys were inserted. -/
structure InsertionMap (κ : Type*) (α : Type*) where
  entries : List (κ × α)
  nodup : (entries.map Prod.fst).Nodup

namespace InsertionMap

open List Option

variable {κ α β : Type*}

@[ext] theorem ext {m m' : InsertionMap κ α} (h : m.entries = m'.entries) : m = m' := by
  cases m
  cases m'
  simpa using h

instance [DecidableEq κ] [DecidableEq α] : DecidableEq (InsertionMap κ α) := fun m m' =>
  decidable_of_iff (m.entries = m'.entries) ⟨ext, congrArg entries⟩

def empty : InsertionMap κ α := ⟨[], List.nodup_nil⟩

def keys (m : InsertionMap κ α) : List κ := m.entries.map Prod.fst

def values (m : InsertionMap κ α) : List α := m.entries.map Prod.snd

def size (m : InsertionMap κ α) : ℕ := m.entries.length

variable [DecidableEq κ]

def get? (m : InsertionMap κ α) (k : κ) : Option α := m.entries.lookup k

/-- The entries after `set`: overwritten in place, or appended. -/
def setEntries (k : κ) (a : α) : List (κ × α) → List (κ × α)
  | [] => [(k, a)]
  | (k', a') :: rest => if k' = k then (k, a) :: rest else (k', a') :: setEntries k a rest

variable {l : List (κ × α)} {k : κ}

variable {a : α}

theorem mem_keys_setEntries {x : κ} :
    x ∈ (setEntries k a l).map Prod.fst ↔ x = k ∨ x ∈ l.map Prod.fst := by
  induction l with
  | nil => simp [setEntries]
  | cons e rest ih =>
    obtain ⟨k', a'⟩ := e
    by_cases hk : k' = k
    · subst hk
      simp [setEntries]
    · simp only [setEntries, if_neg hk, map_cons, mem_cons, ih]
      tauto

theorem nodup_setEntries (h : (l.map Prod.fst).Nodup) :
    ((setEntries k a l).map Prod.fst).Nodup := by
  induction l with
  | nil => simp [setEntries]
  | cons e rest ih =>
    obtain ⟨k', a'⟩ := e
    rw [map_cons, nodup_cons] at h
    by_cases hk : k' = k
    · subst hk
      simpa [setEntries] using h
    · simp only [setEntries, if_neg hk, map_cons, nodup_cons]
      refine ⟨fun hmem => ?_, ih h.2⟩
      rcases mem_keys_setEntries.mp hmem with heq | hmem
      · exact hk heq
      · exact h.1 hmem

def set (m : InsertionMap κ α) (k : κ) (a : α) : InsertionMap κ α :=
  ⟨setEntries k a m.entries, nodup_setEntries m.nodup⟩

def delete (m : InsertionMap κ α) (k : κ) : InsertionMap κ α :=
  ⟨m.entries.filter fun e => e.1 ≠ k,
    List.Nodup.sublist (List.filter_sublist.map Prod.fst) m.nodup⟩

/-- Rewrite every value, dropping the entries for which `f` answers `none`. -/
def filterMap (m : InsertionMap κ α) (f : κ → α → Option β) : InsertionMap κ β :=
  ⟨m.entries.filterMap fun e => (f e.1 e.2).map (e.1, ·), by
    have hkeys : ∀ l : List (κ × α),
        List.Sublist ((l.filterMap fun e => (f e.1 e.2).map (e.1, ·)).map Prod.fst)
          (l.map Prod.fst) := by
      intro l
      induction l with
      | nil => simp
      | cons e rest ih =>
        cases hf : f e.1 e.2 with
        | none => simpa [hf] using ih.cons _
        | some b => simpa [hf] using ih
    exact (hkeys m.entries).nodup m.nodup⟩

/-- Rewrite every value in place. -/
def map (m : InsertionMap κ α) (f : κ → α → β) : InsertionMap κ β :=
  ⟨m.entries.map fun e => (e.1, f e.1 e.2), by simpa [Function.comp_def] using m.nodup⟩

/-- The map with the given entries, a repeated key keeping its last value. -/
def ofList (l : List (κ × α)) : InsertionMap κ α :=
  l.foldl (fun m e => m.set e.1 e.2) empty

/-! ## Lookups -/

omit [DecidableEq κ] in
@[simp] theorem keys_empty : (empty : InsertionMap κ α).keys = [] := rfl

@[simp] theorem get?_empty (k : κ) : (empty : InsertionMap κ α).get? k = none := rfl

theorem lookup_setEntries (k k' : κ) (a : α) (l : List (κ × α)) :
    (setEntries k a l).lookup k' = if k' = k then some a else l.lookup k' := by
  induction l with
  | nil =>
    by_cases hk : k' = k
    · simp [setEntries, hk]
    · simp [setEntries, lookup_cons, beq_eq_false_iff_ne.mpr hk, hk]
  | cons e rest ih =>
    obtain ⟨k₀, a₀⟩ := e
    by_cases h₀ : k₀ = k
    · subst h₀
      by_cases hk : k' = k₀
      · simp [setEntries, hk]
      · simp [setEntries, lookup_cons, beq_eq_false_iff_ne.mpr hk, hk]
    · simp only [setEntries, if_neg h₀, lookup_cons, ih]
      by_cases hk : k' = k₀
      · subst hk
        simp [h₀]
      · simp [beq_eq_false_iff_ne.mpr hk]

section

variable (m : InsertionMap κ α)
include m

theorem get?_set (k k' : κ) (a : α) : (m.set k a).get? k' = if k' = k then some a else m.get? k' :=
  lookup_setEntries k k' a m.entries

@[simp] theorem get?_set_self (k : κ) (a : α) : (m.set k a).get? k = some a := by
  simp [get?_set]

theorem get?_set_of_ne {k k' : κ} (a : α) (h : k' ≠ k) : (m.set k a).get? k' = m.get? k' := by
  simp [get?_set, h]

theorem get?_delete (k k' : κ) : (m.delete k).get? k' = if k' = k then none else m.get? k' := by
  obtain ⟨l, hl⟩ := m
  simp only [get?, delete]
  clear hl
  induction l with
  | nil => simp
  | cons e rest ih =>
    obtain ⟨k₀, a₀⟩ := e
    by_cases h₀ : k₀ = k
    · subst h₀
      rw [filter_cons_of_neg (by simp), ih]
      by_cases hk : k' = k₀
      · simp [hk]
      · simp [lookup_cons, beq_eq_false_iff_ne.mpr hk, hk]
    · rw [filter_cons_of_pos (by simpa using h₀), lookup_cons, lookup_cons, ih]
      by_cases hk : k' = k₀
      · subst hk
        simp [h₀]
      · simp [beq_eq_false_iff_ne.mpr hk]

@[simp] theorem get?_delete_self (k : κ) : (m.delete k).get? k = none := by
  simp [get?_delete]

theorem get?_delete_of_ne {k k' : κ} (h : k' ≠ k) : (m.delete k).get? k' = m.get? k' := by
  simp [get?_delete, h]

theorem get?_filterMap (f : κ → α → Option β) (k : κ) :
    (m.filterMap f).get? k = (m.get? k).bind (f k) := by
  obtain ⟨l, hl⟩ := m
  simp only [get?, filterMap]
  induction l with
  | nil => simp
  | cons e rest ih =>
    obtain ⟨k₀, a₀⟩ := e
    rw [map_cons, nodup_cons] at hl
    have hrest := ih hl.2
    by_cases hk : k = k₀
    · subst hk
      cases hf : f k a₀ with
      | none =>
        have hnone : rest.lookup k = none := by
          rw [lookup_eq_none_iff]
          intro p hp
          simp only [bne_iff_ne, ne_eq]
          exact fun heq => hl.1 (mem_map.mpr ⟨p, hp, heq.symm⟩)
        simp [hf, hrest, hnone]
      | some b => simp [hf]
    · cases hf : f k₀ a₀ with
      | none => simp [hf, hrest, lookup_cons, beq_eq_false_iff_ne.mpr hk]
      | some b => simp [hf, hrest, lookup_cons, beq_eq_false_iff_ne.mpr hk]

theorem get?_map (f : κ → α → β) (k : κ) : (m.map f).get? k = (m.get? k).map (f k) := by
  obtain ⟨l, hl⟩ := m
  simp only [get?, map]
  clear hl
  induction l with
  | nil => rfl
  | cons e rest ih =>
    obtain ⟨k₀, a₀⟩ := e
    by_cases hk : k = k₀
    · simp [hk]
    · simp [lookup_cons, beq_eq_false_iff_ne.mpr hk, ih]

end

/-! ## Keys and entries -/

variable {m : InsertionMap κ α}

theorem mem_entries_iff : (k, a) ∈ m.entries ↔ m.get? k = some a := by
  obtain ⟨l, hl⟩ := m
  simp only [get?]
  induction l with
  | nil => simp
  | cons e rest ih =>
    obtain ⟨k₀, a₀⟩ := e
    rw [map_cons, nodup_cons] at hl
    by_cases hk : k = k₀
    · subst hk
      have hnot : (k, a) ∉ rest := fun hmem => hl.1 (mem_map.mpr ⟨_, hmem, rfl⟩)
      simp [hnot, eq_comm]
    · simp [lookup_cons, beq_eq_false_iff_ne.mpr hk, hk, ih hl.2]

theorem lookup_eq_some_iff (h : (l.map Prod.fst).Nodup) : l.lookup k = some a ↔ (k, a) ∈ l := by
  have hmem := mem_entries_iff (m := ⟨l, h⟩) (k := k) (a := a)
  exact hmem.symm

/-- Entries with distinct keys overwrite a map. -/
theorem get?_foldl_set (h : (l.map Prod.fst).Nodup) (m : InsertionMap κ α) (k : κ) :
    (l.foldl (fun m e => m.set e.1 e.2) m).get? k = (l.lookup k).or (m.get? k) := by
  induction l generalizing m with
  | nil => rfl
  | cons e rest ih =>
    obtain ⟨k', a⟩ := e
    rw [map_cons, nodup_cons] at h
    rw [foldl_cons, ih h.2, get?_set, lookup_cons]
    by_cases hk : k = k'
    · have hnone : rest.lookup k = none := by
        rw [eq_none_iff_forall_not_mem]
        intro b hb
        rw [mem_def, lookup_eq_some_iff h.2] at hb
        exact h.1 (mem_map.mpr ⟨(k, b), hb, hk⟩)
      rw [hnone, if_pos hk, beq_iff_eq.mpr hk]
      rfl
    · rw [if_neg hk, beq_eq_false_iff_ne.mpr hk]

theorem get?_ofList_eq_some_iff (h : (l.map Prod.fst).Nodup) :
    (ofList l).get? k = some a ↔ (k, a) ∈ l := by
  rw [ofList, get?_foldl_set h, get?_empty, or_none, lookup_eq_some_iff h]

theorem mem_keys_iff : k ∈ m.keys ↔ ∃ a, m.get? k = some a := by
  simp only [keys, List.mem_map, Prod.exists, exists_and_right, exists_eq_right, mem_entries_iff]

/-- A key is appended where it is new. -/
theorem keys_set (m : InsertionMap κ α) (k : κ) (a : α) :
    (m.set k a).keys = if k ∈ m.keys then m.keys else m.keys ++ [k] := by
  have hentries (l : List (κ × α)) : (setEntries k a l).map Prod.fst
      = if k ∈ l.map Prod.fst then l.map Prod.fst else l.map Prod.fst ++ [k] := by
    induction l with
    | nil => rfl
    | cons e rest ih =>
      obtain ⟨k', a'⟩ := e
      by_cases hk : k' = k
      · rw [setEntries, if_pos hk, if_pos (by simp [hk]), map_cons, map_cons, hk]
      · rw [setEntries, if_neg hk, map_cons, ih, map_cons]
        by_cases hmem : k ∈ rest.map Prod.fst
        · rw [if_pos hmem, if_pos (mem_cons_of_mem _ hmem)]
        · rw [if_neg hmem, if_neg (by simp [hmem, Ne.symm hk]), cons_append]
  exact hentries m.entries

theorem get?_eq_none_iff : m.get? k = none ↔ k ∉ m.keys := by
  rw [mem_keys_iff]
  cases m.get? k <;> simp

theorem entries_set_of_get?_eq_none (a : α) (h : m.get? k = none) :
    (m.set k a).entries = m.entries ++ [(k, a)] := by
  obtain ⟨l, hl⟩ := m
  simp only [get?, set] at h ⊢
  induction l with
  | nil => rfl
  | cons e rest ih =>
    obtain ⟨k₀, a₀⟩ := e
    rw [map_cons, nodup_cons] at hl
    have hk : k ≠ k₀ := by
      rintro rfl
      simp at h
    rw [lookup_cons, beq_eq_false_iff_ne.mpr hk] at h
    simp only [setEntries, if_neg (Ne.symm hk), cons_append]
    rw [ih hl.2 h]

/-- Writing what is there changes nothing. -/
theorem set_eq_self_of_get? (h : m.get? k = some a) : m.set k a = m := by
  have hentries : ∀ l : List (κ × α), l.lookup k = some a → setEntries k a l = l := by
    intro l hl
    induction l with
    | nil => cases hl
    | cons e rest ih =>
      obtain ⟨k', a'⟩ := e
      by_cases hk : k' = k
      · subst hk
        rw [lookup_cons_self, some_inj] at hl
        rw [setEntries, if_pos rfl, hl]
      · rw [lookup_cons, beq_eq_false_iff_ne.mpr (Ne.symm hk)] at hl
        rw [setEntries, if_neg hk, ih hl]
  exact ext (hentries m.entries h)

theorem delete_eq_self_of_get?_eq_none (h : m.get? k = none) : m.delete k = m := by
  apply ext
  rw [delete, filter_eq_self]
  intro e he
  have : e.1 ∈ m.keys := mem_map.mpr ⟨e, he, rfl⟩
  simp only [ne_eq, decide_not, Bool.not_eq_eq_eq_not, Bool.not_true, decide_eq_false_iff_not]
  rintro rfl
  exact get?_eq_none_iff.mp h this

/-- Rewriting the entries of a map one by one into an empty map gives it back. -/
theorem ofList_entries (m : InsertionMap κ α) : ofList m.entries = m := by
  have hgen : ∀ (l₂ l₁ : List (κ × α)) (h₁ : (l₁.map Prod.fst).Nodup)
      (h₂ : ((l₁ ++ l₂).map Prod.fst).Nodup),
      l₂.foldl (fun m e => m.set e.1 e.2) (⟨l₁, h₁⟩ : InsertionMap κ α) = ⟨l₁ ++ l₂, h₂⟩ := by
    intro l₂
    induction l₂ with
    | nil => intro l₁ h₁ h₂; simp
    | cons e rest ih =>
      intro l₁ h₁ h₂
      have hfresh : (⟨l₁, h₁⟩ : InsertionMap κ α).get? e.1 = none := by
        rw [get?_eq_none_iff, keys]
        intro hmem
        rw [map_append, map_cons] at h₂
        exact (nodup_append.mp h₂).2.2 e.1 hmem e.1 (mem_cons_self ..) rfl
      have hset : (⟨l₁, h₁⟩ : InsertionMap κ α).set e.1 e.2 =
          ⟨l₁ ++ [e], by
            have := ((⟨l₁, h₁⟩ : InsertionMap κ α).set e.1 e.2).nodup
            rwa [entries_set_of_get?_eq_none e.2 hfresh] at this⟩ :=
        ext (entries_set_of_get?_eq_none e.2 hfresh)
      rw [foldl_cons, hset, ih (l₁ ++ [e]) _ (by simpa using h₂)]
      apply ext
      simp
  exact hgen m.entries [] nodup_nil (by simpa using m.nodup)

/-! ## Lists of entries -/

theorem mem_keys_ofList : k ∈ (ofList l).keys ↔ k ∈ l.map Prod.fst := by
  have hgen : ∀ (l : List (κ × α)) (m : InsertionMap κ α),
      k ∈ (l.foldl (fun m e => m.set e.1 e.2) m).keys ↔ k ∈ m.keys ∨ k ∈ l.map Prod.fst := by
    intro l
    induction l with
    | nil => simp
    | cons e rest ih =>
      intro m
      have hset : k ∈ (m.set e.1 e.2).keys ↔ k = e.1 ∨ k ∈ m.keys := mem_keys_setEntries
      rw [foldl_cons, ih, hset, map_cons, mem_cons]
      tauto
  rw [ofList, hgen, keys_empty]
  simp

/-- The last of the entries of a key counts. -/
theorem get?_ofList_eq_find? {ι : Type*} (key : ι → κ) (value : ι → α) (l : List ι) (k : κ) :
    (ofList (l.map fun i => (key i, value i))).get? k
      = (l.reverse.find? fun i => key i = k).map value := by
  have hgen : ∀ (l : List ι) (m : InsertionMap κ α),
      ((l.map fun i => (key i, value i)).foldl (fun m e => m.set e.1 e.2) m).get? k
        = ((l.reverse.find? fun i => key i = k).map value).or (m.get? k) := by
    intro l
    induction l with
    | nil => exact fun m => rfl
    | cons i rest ih =>
      intro m
      rw [map_cons, foldl_cons, ih, get?_set, reverse_cons, find?_append,
        find?_singleton]
      by_cases hk : key i = k
      · rw [if_pos hk.symm, decide_eq_true hk]
        cases rest.reverse.find? fun i => key i = k <;> rfl
      · rw [if_neg (Ne.symm hk), decide_eq_false hk]
        cases rest.reverse.find? fun i => key i = k <;> rfl
  rw [ofList, hgen, get?_empty, or_none]

/-- Every pair is found again exactly where pairs with one key have one value. -/
theorem get?_ofList_self_iff :
    (∀ e ∈ l, (ofList l).get? e.1 = some e.2) ↔
      l.Pairwise fun e later => e.1 = later.1 → e.2 = later.2 := by
  constructor
  · intro h
    refine pairwise_of_forall_mem_list fun e he later hlater hkey => ?_
    have hvalue := (h e he).symm.trans (hkey ▸ h later hlater)
    exact Option.some.inj hvalue
  · intro h e he
    have hsame := List.Pairwise.forall_of_forall_of_flip (fun _ _ _ => rfl) h
      (h.imp fun hxy hkey => (hxy hkey.symm).symm)
    have hfind := get?_ofList_eq_find? Prod.fst Prod.snd l e.1
    have hmap : l.map (fun i => (i.1, i.2)) = l := map_id l
    rw [hmap] at hfind
    rw [hfind]
    have hsome : (l.reverse.find? fun i => i.1 = e.1).isSome :=
      find?_isSome.mpr ⟨e, mem_reverse.mpr he, decide_eq_true rfl⟩
    obtain ⟨found, hfound⟩ := isSome_iff_exists.mp hsome
    have hmem := mem_reverse.mp (mem_of_find?_eq_some hfound)
    have hkey : found.1 = e.1 := by simpa using find?_some hfound
    rw [hfound]
    exact congrArg some (hsame hmem he hkey)

theorem get?_foldl_set_same (m : InsertionMap κ α) (ks : List κ) (a : α) (k : κ) :
    (ks.foldl (fun m k => m.set k a) m).get? k = if k ∈ ks then some a else m.get? k := by
  induction ks generalizing m with
  | nil => rfl
  | cons k' rest ih =>
    rw [foldl_cons, ih, get?_set]
    by_cases hrest : k ∈ rest
    · rw [if_pos hrest, if_pos (mem_cons_of_mem _ hrest)]
    · by_cases hk : k = k'
      · rw [if_neg hrest, if_pos hk, if_pos (hk ▸ mem_cons_self)]
      · rw [if_neg hrest, if_neg hk, if_neg (by simp [hk, hrest])]

theorem get?_foldl_delete (m : InsertionMap κ α) (ks : List κ) (k : κ) :
    (ks.foldl delete m).get? k = if k ∈ ks then none else m.get? k := by
  induction ks generalizing m with
  | nil => rfl
  | cons k' rest ih =>
    rw [foldl_cons, ih, get?_delete]
    by_cases hrest : k ∈ rest
    · rw [if_pos hrest, if_pos (mem_cons_of_mem _ hrest)]
    · by_cases hk : k = k'
      · rw [if_neg hrest, if_pos hk, if_pos (hk ▸ mem_cons_self)]
      · rw [if_neg hrest, if_neg hk, if_neg (by simp [hk, hrest])]

/-- Rewriting the values of a list of entries. -/
theorem get?_ofList_map (f : α → β) (l : List (κ × α)) (k : κ) :
    (ofList (l.map fun e => (e.1, f e.2))).get? k = ((ofList l).get? k).map f := by
  have hgen : ∀ (l : List (κ × α)) (m : InsertionMap κ α) (m' : InsertionMap κ β),
      (∀ k, m'.get? k = (m.get? k).map f) →
      ((l.map fun e => (e.1, f e.2)).foldl (fun m e => m.set e.1 e.2) m').get? k
        = ((l.foldl (fun m e => m.set e.1 e.2) m).get? k).map f := by
    intro l
    induction l with
    | nil => exact fun m m' h => h k
    | cons e rest ih =>
      intro m m' h
      refine ih _ _ fun k => ?_
      rw [get?_set, get?_set, h]
      split_ifs <;> rfl
  exact hgen l empty empty fun _ => rfl

/-- As many entries as a map has are a listing of the map exactly if they are distinct entries
of it. -/
theorem get?_ofList_eq_iff (hlen : l.length = m.size) :
    (ofList l).get? = m.get? ↔
      (l.map Prod.fst).Nodup ∧ ∀ e ∈ l, m.get? e.1 = some e.2 := by
  have hkeys : m.keys.length = (l.map Prod.fst).length := by
    rw [length_map, hlen, keys, length_map, size]
  constructor
  · intro h
    have hmem : ∀ k, k ∈ m.keys ↔ k ∈ l.map Prod.fst := by
      intro k
      rw [← mem_keys_ofList, mem_keys_iff, mem_keys_iff, h]
    have hsub : List.Subperm m.keys (l.map Prod.fst) :=
      subperm_of_subset m.nodup fun k hk => (hmem k).mp hk
    have hnodup : (l.map Prod.fst).Nodup :=
      (hsub.perm_of_length_le (Nat.le_of_eq hkeys.symm)).nodup_iff.mp m.nodup
    refine ⟨hnodup, fun e he => ?_⟩
    rw [← h, get?_ofList_eq_some_iff hnodup]
    exact he
  · rintro ⟨hnodup, hentries⟩
    have hsub : List.Subperm (l.map Prod.fst) m.keys := by
      refine subperm_of_subset hnodup fun k hk => ?_
      obtain ⟨e, he, rfl⟩ := mem_map.mp hk
      exact mem_keys_iff.mpr ⟨e.2, hentries e he⟩
    have hperm : List.Perm (l.map Prod.fst) m.keys := hsub.perm_of_length_le (Nat.le_of_eq hkeys)
    funext k
    by_cases hk : k ∈ l.map Prod.fst
    · obtain ⟨e, he, rfl⟩ := mem_map.mp hk
      rw [hentries e he, get?_ofList_eq_some_iff hnodup]
      exact he
    · have hl : (ofList l).get? k = none := by
        rwa [get?_eq_none_iff, mem_keys_ofList]
      have hm : m.get? k = none := by
        rwa [get?_eq_none_iff, ← hperm.mem_iff]
      rw [hl, hm]

/-! ## Maps as functions -/

theorem get?_cons {e : κ × α} {rest : List (κ × α)} (h : ((e :: rest).map Prod.fst).Nodup)
    (k : κ) : (mk (e :: rest) h).get? k
      = if k = e.1 then some e.2 else (mk rest (List.nodup_cons.mp h).2).get? k := by
  show List.lookup k (e :: rest) = if k = e.1 then some e.2 else rest.lookup k
  rw [lookup_cons]
  by_cases hk : k = e.1
  · rw [if_pos hk, beq_iff_eq.mpr hk]
  · rw [if_neg hk, beq_eq_false_iff_ne.mpr hk]

theorem get?_set_eq_update (m : InsertionMap κ α) (k : κ) (a : α) :
    (m.set k a).get? = Function.update m.get? k (some a) := by
  funext k'
  rw [get?_set, Function.update_apply]

theorem get?_delete_eq_update (m : InsertionMap κ α) (k : κ) :
    (m.delete k).get? = Function.update m.get? k none := by
  funext k'
  rw [get?_delete, Function.update_apply]

theorem get?_eq_get?_empty_iff : m.get? = (empty : InsertionMap κ α).get? ↔ m = empty := by
  refine ⟨fun h => ext (eq_nil_iff_forall_not_mem.mpr fun e he => ?_), fun h => by rw [h]⟩
  have hentry : m.get? e.1 = some e.2 := mem_entries_iff.mp he
  rw [h] at hentry
  cases hentry

/-! ## Values in any order -/

theorem perm_values_set (m : InsertionMap κ α) (k : κ) (a : α) :
    (m.set k a).values.Perm (a :: (m.delete k).values) := by
  obtain ⟨l, hnodup⟩ := m
  change ((setEntries k a l).map Prod.snd).Perm (a :: (l.filter fun e => e.1 ≠ k).map Prod.snd)
  induction l with
  | nil => exact .refl _
  | cons e rest ih =>
    obtain ⟨hnot, hrest⟩ := nodup_cons.mp hnodup
    by_cases hk : e.1 = k
    · -- no other entry has the key
      have hsame : rest.filter (fun e => e.1 ≠ k) = rest := by
        refine filter_eq_self.mpr fun e' he' => decide_eq_true fun heq => hnot ?_
        exact mem_map.mpr ⟨e', he', heq.trans hk.symm⟩
      rw [setEntries, if_pos hk, filter_cons_of_neg (by simpa using hk), hsame]
      exact .refl _
    · rw [setEntries, if_neg hk, filter_cons_of_pos (by simpa using hk)]
      exact ((ih hrest).cons e.2).trans (.swap _ _ _)

theorem perm_values_delete (h : m.get? k = some a) : m.values.Perm (a :: (m.delete k).values) := by
  have hset := m.perm_values_set k a
  rwa [set_eq_self_of_get? h] at hset

end InsertionMap
