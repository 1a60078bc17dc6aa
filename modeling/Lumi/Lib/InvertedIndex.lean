import Lumi.Lib.InsertionMap

/-!
# Inverted indices

An inverted index lists, under each key, the ids that were posted there.  Posting
and unposting touch one key and one id; everything else stays as it was listed,
in the order in which it was posted.
-/

/-- A set that remembers the order in which its elements were added. -/
abbrev InsertionSet (ι : Type*) := InsertionMap ι Unit

/-- Ids by key. -/
abbrev InvertedIndex (κ ι : Type*) := InsertionMap κ (InsertionSet ι)

namespace InsertionSet

variable {ι : Type*} [DecidableEq ι]

def add (ids : InsertionSet ι) (i : ι) : InsertionSet ι := ids.set i ()

@[simp] theorem mem_keys_add {ids : InsertionSet ι} {i j : ι} :
    j ∈ (ids.add i).keys ↔ j = i ∨ j ∈ ids.keys :=
  InsertionMap.mem_keys_setEntries

@[simp] theorem mem_keys_delete {ids : InsertionSet ι} {i j : ι} :
    j ∈ (ids.delete i).keys ↔ j ∈ ids.keys ∧ j ≠ i := by
  simp only [InsertionMap.mem_keys_iff, InsertionMap.get?_delete]
  by_cases hj : j = i <;> simp [hj]

end InsertionSet

namespace InvertedIndex

variable {κ ι : Type*} [DecidableEq κ] [DecidableEq ι]

section

variable (m : InvertedIndex κ ι)

/-- The ids listed under a key. -/
def lookup (k : κ) : List ι :=
  ((m.get? k).map InsertionMap.keys).getD []

def post (k : κ) (i : ι) : InvertedIndex κ ι :=
  m.set k (InsertionSet.add ((m.get? k).getD InsertionMap.empty) i)

def unpost (k : κ) (i : ι) : InvertedIndex κ ι :=
  match m.get? k with
  | some ids => m.set k (ids.delete i)
  | none => m

def postAll (ks : List κ) (i : ι) : InvertedIndex κ ι :=
  ks.foldl (fun m k => post m k i) m

def unpostAll (ks : List κ) (i : ι) : InvertedIndex κ ι :=
  ks.foldl (fun m k => unpost m k i) m

end

variable {m : InvertedIndex κ ι}

theorem mem_lookup_post {k k' : κ} {i j : ι} :
    j ∈ lookup (post m k i) k' ↔ (k' = k ∧ j = i) ∨ j ∈ lookup m k' := by
  by_cases hk : k' = k
  · subst hk
    have hself : lookup (post m k' i) k' =
        (InsertionSet.add ((m.get? k').getD InsertionMap.empty) i).keys := by
      simp [lookup, post]
    rw [hself, InsertionSet.mem_keys_add]
    cases hm : m.get? k' <;> simp [lookup, hm]
  · simp [lookup, post, InsertionMap.get?_set_of_ne, hk]

theorem mem_lookup_unpost {k k' : κ} {i j : ι} :
    j ∈ lookup (unpost m k i) k' ↔ j ∈ lookup m k' ∧ ¬(k' = k ∧ j = i) := by
  unfold unpost
  cases hm : m.get? k with
  | none =>
    by_cases hk : k' = k
    · subst hk
      simp [lookup, hm]
    · simp [hk]
  | some ids =>
    by_cases hk : k' = k
    · subst hk
      simp [lookup, hm]
    · simp [lookup, InsertionMap.get?_set_of_ne, hk]

theorem mem_lookup_postAll {ks : List κ} {k' : κ} {i j : ι} :
    j ∈ lookup (postAll m ks i) k' ↔ (k' ∈ ks ∧ j = i) ∨ j ∈ lookup m k' := by
  unfold postAll
  induction ks generalizing m with
  | nil => simp
  | cons k ks ih =>
    rw [List.foldl_cons, ih, mem_lookup_post, List.mem_cons]
    tauto

theorem mem_lookup_unpostAll {ks : List κ} {k' : κ} {i j : ι} :
    j ∈ lookup (unpostAll m ks i) k' ↔ j ∈ lookup m k' ∧ ¬(k' ∈ ks ∧ j = i) := by
  unfold unpostAll
  induction ks generalizing m with
  | nil => simp
  | cons k ks ih =>
    rw [List.foldl_cons, ih, mem_lookup_unpost, List.mem_cons]
    tauto

end InvertedIndex
