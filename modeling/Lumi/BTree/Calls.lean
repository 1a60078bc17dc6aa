import Lumi.BTree.Contents

/-!
# What the calls do to the contents

Each call walks from the root to the position of its key and changes one node there,
apart from the splits on the way, which move entries and change no contents.  On a
well-formed node with sorted contents the search finds the key if it is there
(`searchNode_spec`), an update replaces its value (`updateIfExists_spec`), an insertion
adds it in its place (`insertNonFull_spec`), and a range scan lists the part of the
contents within the bounds (`collectRange_spec`).

A deletion takes the entry of the key out of the node that has it.  In a leaf that is
all there is to do (`deleteKeyFromNode_spec`); above the leaves the node is left with a
child too many, and is not well-formed any more.
-/

namespace Lumi.BTree

open Js List

variable {κ υ : Type*} {order : KeyOrder κ} {key : κ} {value : υ}

variable {l l' : List (κ × υ)}

/-- A key between the entries is none of theirs. -/
theorem Between.not_mem (h : Between order key l l') (hself : order.Self key) :
    ∀ e ∈ l ++ l', e.1 ≠ key := by
  rintro e he rfl
  rcases mem_append.mp he with he | he
  · exact (h.below e he).ne hself rfl
  · exact (h.above e he).ne hself rfl

/-- A key that is not at its position in a leaf is not in the leaf. -/
theorem Sorted.not_mem_of_missed (h : Sorted order (l ++ l'))
    (hbetween : Sorted order (l ++ l') → order.Self key → Between order key l l') :
    ∀ e ∈ l ++ l', e.1 ≠ key := by
  rintro e he rfl
  have hself := h.self e he
  exact (hbetween h hself).not_mem hself e he rfl

variable {n : ℕ} {c : BTreeNode κ υ n}

theorem contents_internal {cs cs' : List (BTreeNode κ υ n)} (hcs : cs.length = l.length)
    (hcs' : cs'.length = l'.length) :
    contents (innerNode (l ++ l') (cs ++ c :: cs'))
      = before contents l cs ++ (contents c ++ after contents l' cs') :=
  interleave_append hcs hcs'

theorem contents_at_entry {cs cs' : List (BTreeNode κ υ n)} (e : κ × υ) (hcs : cs.length = l.length)
    (hcs' : cs'.length = l'.length + 1) :
    contents (innerNode (l ++ e :: l') (cs ++ c :: cs'))
      = (before contents l cs ++ contents c) ++ e :: interleave contents l' cs' := by
  rw [contents_internal hcs hcs', append_assoc]
  cases cs' with
  | nil => cases hcs'
  | cons d cs' => rw [after, interleave_eq_after (Nat.succ.inj hcs')]

variable {es : List (κ × υ)}

theorem sorted_entries {cs : List (BTreeNode κ υ n)} (hcount : cs.length = es.length + 1)
    (h : Sorted order (contents (innerNode es cs))) :
    Sorted order es := h.sublist (entries_sublist hcount)

/-- A key that is not at its position and not in the child there is nowhere in the node. -/
theorem not_mem_of_missed {cs cs' : List (BTreeNode κ υ n)} (hcs : cs.length = l.length)
    (hcs' : cs'.length = l'.length)
    (hbetween : Sorted order (l ++ l') → order.Self key → Between order key l l')
    (hsorted : Sorted order (contents (innerNode (l ++ l') (cs ++ c :: cs'))))
    (hc : ∀ e ∈ contents c, e.1 ≠ key) :
    ∀ e ∈ contents (innerNode (l ++ l') (cs ++ c :: cs')), e.1 ≠ key := by
  rintro e he rfl
  have hself := hsorted.self e he
  have hentries : Sorted order (l ++ l') := sorted_entries (by simp [hcs, hcs']; omega) hsorted
  rw [contents_internal hcs hcs'] at he hsorted
  have hroute := (hbetween hentries hself).interleave hsorted
  rcases mem_append.mp he with he | he
  · exact (hroute.below e he).ne hself rfl
  · rcases mem_append.mp he with he | he
    · exact hc e he rfl
    · exact (hroute.above e he).ne hself rfl

/-! ## Search -/

theorem searchNode_leaf (es : List (κ × υ)) :
    searchNode order (leafNode es) key
      = if standsAt order key es (position order key es) then
          (es[position order key es]?).map (·.2) else none := rfl

section

variable {cs : List (BTreeNode κ υ n)}

theorem searchNode_hit (h : standsAt order key es (position order key es) = true) :
    searchNode order (innerNode es cs) key
      = (es[position order key es]?).map (·.2) := if_pos h

theorem searchNode_descend (h : standsAt order key es (position order key es) = false)
    (hc : cs[position order key es]? = some c) :
    searchNode order (innerNode es cs) key = searchNode order c key := by
  show (if standsAt order key es (position order key es) then _ else _) = _
  rw [if_neg (Bool.not_eq_true _ ▸ h), hc]

end

variable (order key) in
/-- **Search.**  What is found is in the tree, and what is not found is not. -/
theorem searchNode_spec {node : BTreeNode κ υ n} (hwf : WellFormed node) :
    (∀ v, searchNode order node key = some v → (key, v) ∈ contents node) ∧
      (Sorted order (contents node) → searchNode order node key = none →
        ∀ e ∈ contents node, e.1 ≠ key) := by
  induction n with
  | zero =>
    change List (κ × υ) at node
    obtain ⟨l, l', rfl, hlength, hspec⟩ := position_spec order key node
    rw [searchNode_leaf]
    rcases hspec with ⟨hat, v, rest, rfl⟩ | ⟨hat, hbetween⟩
    · rw [if_pos hat, ← hlength, getElem?_at, Option.map_some]
      refine ⟨fun w hw => ?_, fun _ h => by cases h⟩
      rw [← Option.some.inj hw]
      exact mem_append_right _ mem_cons_self
    · rw [if_neg (Bool.not_eq_true _ ▸ hat)]
      exact ⟨fun w hw => (by cases hw), fun hsorted _ => hsorted.not_mem_of_missed hbetween⟩
  | succ n ih =>
    obtain ⟨entries, children⟩ := node
    obtain ⟨-, hcount, hchildren⟩ := hwf
    obtain ⟨l, l', rfl, hlength, hspec⟩ := position_spec order key entries
    obtain ⟨cs, c, cs', rfl, hcs, hcs'⟩ := exists_child hcount
    rcases hspec with ⟨hat, v, rest, rfl⟩ | ⟨hat, hbetween⟩
    · rw [searchNode_hit hat, ← hlength, getElem?_at, Option.map_some]
      refine ⟨fun w hw => ?_, fun _ h => by cases h⟩
      rw [← Option.some.inj hw, contents_at_entry _ hcs (by simpa using hcs')]
      exact mem_append_right _ mem_cons_self
    · obtain ⟨hfound, hmissed⟩ := ih (hchildren c (mem_append_right _ mem_cons_self))
      rw [searchNode_descend hat (by rw [← hlength, ← hcs, getElem?_at])]
      refine ⟨fun v hv => ?_, fun hsorted hnone => ?_⟩
      · rw [contents_internal hcs hcs']
        exact mem_append_right _ (mem_append_left _ (hfound v hv))
      · refine not_mem_of_missed hcs hcs' hbetween hsorted (hmissed ?_ hnone)
        rw [contents_internal hcs hcs'] at hsorted
        exact hsorted.right.left

/-! ## What is changed in the contents -/

/-- The value of the key is replaced. -/
def Replaces (key : κ) (value : υ) (old new : List (κ × υ)) : Prop :=
  ∃ l l' v, old = l ++ (key, v) :: l' ∧ new = l ++ (key, value) :: l'

/-- The key is taken out. -/
def Removes (key : κ) (old new : List (κ × υ)) : Prop :=
  ∃ l l' v, old = l ++ (key, v) :: l' ∧ new = l ++ l'

variable (order) in
/-- The key is put between the smaller and the larger keys. -/
def Adds (key : κ) (value : υ) (old new : List (κ × υ)) : Prop :=
  ∃ l l', old = l ++ l' ∧ new = l ++ (key, value) :: l' ∧ Between order key l l'

variable {old new first last : List (κ × υ)}

theorem Replaces.frame (h : Replaces key value old new) :
    Replaces key value (first ++ (old ++ last)) (first ++ (new ++ last)) := by
  obtain ⟨l, l', v, rfl, rfl⟩ := h
  exact ⟨first ++ l, l' ++ last, v, by simp, by simp⟩

theorem Removes.frame (h : Removes key old new) :
    Removes key (first ++ (old ++ last)) (first ++ (new ++ last)) := by
  obtain ⟨l, l', v, rfl, rfl⟩ := h
  exact ⟨first ++ l, l' ++ last, v, by simp, by simp⟩

theorem Adds.frame (h : Adds order key value old new) (hbetween : Between order key first last) :
    Adds order key value (first ++ (old ++ last)) (first ++ (new ++ last)) := by
  obtain ⟨l, l', rfl, rfl, hl⟩ := h
  refine ⟨first ++ l, l' ++ last, by simp, by simp, fun e he => ?_, fun e he => ?_⟩
  · exact (mem_append.mp he).elim (hbetween.below e) (hl.below e)
  · exact (mem_append.mp he).elim (hl.above e) (hbetween.above e)

/-! ## Updates and deletions -/

theorem updateIfExists_leaf (es : List (κ × υ)) :
    updateIfExists order (leafNode es) key value
      = if standsAt order key es (position order key es) then
          (true, leafNode (es.modify (position order key es) fun e => (e.1, value)))
        else (false, leafNode es) := rfl

theorem deleteKeyFromNode_leaf (es : List (κ × υ)) :
    deleteKeyFromNode order (leafNode es) key
      = if standsAt order key es (position order key es) then
          (true, leafNode (es.eraseIdx (position order key es)))
        else (false, leafNode es) := rfl

section

variable {cs : List (BTreeNode κ υ n)}

theorem updateIfExists_hit (h : standsAt order key es (position order key es) = true) :
    updateIfExists order (innerNode es cs) key value
      = (true, innerNode (es.modify (position order key es) fun e => (e.1, value)) cs) := if_pos h

theorem updateIfExists_descend (h : standsAt order key es (position order key es) = false)
    (hc : cs[position order key es]? = some c) :
    updateIfExists order (innerNode es cs) key value
      = ((updateIfExists order c key value).1,
        innerNode es (cs.set (position order key es) (updateIfExists order c key value).2)) := by
  show (if standsAt order key es (position order key es) then _ else _) = _
  rw [if_neg (Bool.not_eq_true _ ▸ h), hc]

theorem deleteKeyFromNode_descend (h : standsAt order key es (position order key es) = false)
    (hc : cs[position order key es]? = some c) :
    deleteKeyFromNode order (innerNode es cs) key
      = ((deleteKeyFromNode order c key).1,
        innerNode es (cs.set (position order key es) (deleteKeyFromNode order c key).2)) := by
  show (if standsAt order key es (position order key es) then _ else _) = _
  rw [if_neg (Bool.not_eq_true _ ▸ h), hc]

end

theorem wellFormed_set {cs cs' : List (BTreeNode κ υ n)} {c c' : BTreeNode κ υ n}
    (h : WellFormed (innerNode es (cs ++ c :: cs'))) (hc' : WellFormed c') :
    WellFormed (innerNode es (cs ++ c' :: cs')) := by
  obtain ⟨hne, hcount, hchildren⟩ := h
  refine ⟨hne, by simpa using hcount, fun d hd => ?_⟩
  rcases mem_append.mp hd with hd | hd
  · exact hchildren d (mem_append_left _ hd)
  · rcases mem_cons.mp hd with rfl | hd
    · exact hc'
    · exact hchildren d (mem_append_right _ (mem_cons_of_mem _ hd))

variable (value) in
/-- **Update.**  It replaces the value of the key, or the key is not there. -/
theorem updateIfExists_spec {node : BTreeNode κ υ n} (hwf : WellFormed node)
    (hsorted : Sorted order (contents node)) :
    ((updateIfExists order node key value).1 = true ∧
      WellFormed (updateIfExists order node key value).2 ∧
        Replaces key value (contents node) (contents (updateIfExists order node key value).2)) ∨
    ((updateIfExists order node key value).1 = false ∧ ∀ e ∈ contents node, e.1 ≠ key) := by
  induction n with
  | zero =>
    change List (κ × υ) at node
    obtain ⟨l, l', rfl, hlength, hspec⟩ := position_spec order key node
    rw [updateIfExists_leaf]
    rcases hspec with ⟨hat, v, rest, rfl⟩ | ⟨hat, hbetween⟩
    · rw [if_pos hat, ← hlength, modify_at]
      exact .inl ⟨rfl, trivial, l, rest, v, rfl, rfl⟩
    · rw [if_neg (Bool.not_eq_true _ ▸ hat)]
      exact .inr ⟨rfl, hsorted.not_mem_of_missed hbetween⟩
  | succ n ih =>
    obtain ⟨entries, children⟩ := node
    obtain ⟨-, hcount, hchildren⟩ := id hwf
    obtain ⟨l, l', rfl, hlength, hspec⟩ := position_spec order key entries
    obtain ⟨cs, c, cs', rfl, hcs, hcs'⟩ := exists_child hcount
    rcases hspec with ⟨hat, v, rest, rfl⟩ | ⟨hat, hbetween⟩
    · rw [updateIfExists_hit hat, ← hlength, modify_at]
      have hrest : cs'.length = rest.length + 1 := hcs'
      refine .inl ⟨rfl, ⟨by simp, by simpa using hcount, hchildren⟩, _, _, v,
        contents_at_entry _ hcs hrest, contents_at_entry _ hcs hrest⟩
    · have hc := hchildren c (mem_append_right _ mem_cons_self)
      rw [updateIfExists_descend hat (by rw [← hlength, ← hcs, getElem?_at]), ← hlength, ← hcs,
        set_at]
      have hmiddle := contents_internal hcs hcs' ▸ hsorted
      rcases ih hc hmiddle.right.left with ⟨htrue, hwf', hreplaces⟩ | ⟨hfalse, hmissed⟩
      · refine .inl ⟨htrue, wellFormed_set hwf hwf', ?_⟩
        rw [contents_internal hcs hcs', contents_internal hcs hcs']
        exact hreplaces.frame
      · exact .inr ⟨hfalse, not_mem_of_missed hcs hcs' hbetween hsorted hmissed⟩

/-- The key is that of an entry above the leaves. -/
def HeldAbove : {n : ℕ} → BTreeNode κ υ n → κ → Prop
  | 0, _, _ => False
  | _ + 1, ⟨entries, children⟩, key =>
    (∃ e ∈ entries, e.1 = key) ∨ ∃ child ∈ children, HeldAbove child key

instance HeldAbove.decidable [DecidableEq κ] : {n : ℕ} → (node : BTreeNode κ υ n) → (key : κ) →
    Decidable (HeldAbove node key)
  | 0, _, _ => isFalse id
  | n + 1, ⟨entries, children⟩, key =>
    letI : ∀ child : BTreeNode κ υ n, Decidable (HeldAbove child key) :=
      fun child => HeldAbove.decidable child key
    inferInstanceAs
      (Decidable ((∃ e ∈ entries, e.1 = key) ∨ ∃ child ∈ children, HeldAbove child key))

/-- **Deletion.**  A key that no entry above the leaves has is taken out, or it is not there and
nothing changes. -/
theorem deleteKeyFromNode_spec {node : BTreeNode κ υ n} (hwf : WellFormed node)
    (hsorted : Sorted order (contents node)) (hleaf : ¬ HeldAbove node key) :
    ((deleteKeyFromNode order node key).1 = true ∧
      WellFormed (deleteKeyFromNode order node key).2 ∧
        Removes key (contents node) (contents (deleteKeyFromNode order node key).2)) ∨
    (deleteKeyFromNode order node key = (false, node) ∧ ∀ e ∈ contents node, e.1 ≠ key) := by
  induction n with
  | zero =>
    change List (κ × υ) at node
    obtain ⟨l, l', rfl, hlength, hspec⟩ := position_spec order key node
    rw [deleteKeyFromNode_leaf]
    rcases hspec with ⟨hat, v, rest, rfl⟩ | ⟨hat, hbetween⟩
    · rw [if_pos hat, ← hlength, eraseIdx_at]
      exact .inl ⟨rfl, trivial, l, rest, v, rfl, rfl⟩
    · rw [if_neg (Bool.not_eq_true _ ▸ hat)]
      exact .inr ⟨rfl, hsorted.not_mem_of_missed hbetween⟩
  | succ n ih =>
    obtain ⟨entries, children⟩ := node
    obtain ⟨-, hcount, hchildren⟩ := id hwf
    obtain ⟨l, l', rfl, hlength, hspec⟩ := position_spec order key entries
    obtain ⟨cs, c, cs', rfl, hcs, hcs'⟩ := exists_child hcount
    rcases hspec with ⟨hat, v, rest, rfl⟩ | ⟨hat, hbetween⟩
    · exact absurd (.inl ⟨_, mem_append_right _ mem_cons_self, rfl⟩) hleaf
    · have hmem : c ∈ cs ++ c :: cs' := mem_append_right _ mem_cons_self
      rw [deleteKeyFromNode_descend hat (by rw [← hlength, ← hcs, getElem?_at]), ← hlength, ← hcs,
        set_at]
      have hmiddle := contents_internal hcs hcs' ▸ hsorted
      rcases ih (hchildren c hmem) hmiddle.right.left (fun h => hleaf (.inr ⟨c, hmem, h⟩)) with
        ⟨htrue, hwf', hremoves⟩ | ⟨hfalse, hmissed⟩
      · refine .inl ⟨htrue, wellFormed_set hwf hwf', ?_⟩
        rw [contents_internal hcs hcs', contents_internal hcs hcs']
        exact hremoves.frame
      · refine .inr ⟨?_, not_mem_of_missed hcs hcs' hbetween hsorted hmissed⟩
        rw [hfalse]

/-! ## Splits -/

theorem split_leaf (es : List (κ × υ)) :
    split (leafNode es) = (es[es.length / 2]?).map fun e =>
      (leafNode (es.take (es.length / 2)), e, leafNode (es.drop (es.length / 2 + 1))) := rfl

theorem split_inner (es : List (κ × υ)) (cs : List (BTreeNode κ υ n)) :
    split (innerNode es cs) = (es[es.length / 2]?).map fun e =>
      (innerNode (es.take (es.length / 2)) (cs.take (es.length / 2 + 1)), e,
        innerNode (es.drop (es.length / 2 + 1)) (cs.drop (es.length / 2 + 1))) := rfl

theorem contents_split {cs cs' : List (BTreeNode κ υ n)} (e : κ × υ) (hcs : cs.length = l.length)
    (hcs' : cs'.length = l'.length + 1) :
    contents (innerNode (l ++ e :: l') (cs ++ c :: cs'))
      = contents (innerNode l (cs ++ [c])) ++ e :: contents (innerNode l' cs') := by
  have hleft : contents (innerNode (l ++ []) (cs ++ [c]))
      = before contents l cs ++ (contents c ++ []) := contents_internal hcs rfl
  rw [append_nil, append_nil] at hleft
  rw [contents_at_entry e hcs hcs', hleft]
  rfl

theorem exists_middle {α : Type*} {es : List α} (h : es ≠ []) :
    ∃ l e l', es = l ++ e :: l' ∧ l.length = es.length / 2 := by
  have hmid : es.length / 2 < es.length :=
    Nat.div_lt_self (length_pos_of_ne_nil h) (Nat.lt_succ_self 1)
  refine ⟨es.take (es.length / 2), es[es.length / 2], es.drop (es.length / 2 + 1), ?_, ?_⟩
  · rw [← drop_eq_getElem_cons hmid, take_append_drop]
  · rw [length_take, Nat.min_eq_left hmid.le]

/-- **Splits.**  A node with three entries or more falls into two well-formed halves with an entry
between them. -/
theorem split_spec {node : BTreeNode κ υ n} (hwf : WellFormed node)
    (hlength : 3 ≤ node.entries.length) :
    ∃ left e right, split node = some (left, e, right) ∧ WellFormed left ∧ WellFormed right ∧
      contents node = contents left ++ e :: contents right := by
  cases n with
  | zero =>
    change List (κ × υ) at node
    have hne : node ≠ [] := ne_nil_of_length_pos (Nat.lt_of_lt_of_le (by omega) hlength)
    obtain ⟨l, e, l', rfl, hmid⟩ := exists_middle hne
    refine ⟨leafNode l, e, leafNode l', ?_, trivial, trivial, rfl⟩
    rw [split_leaf, ← hmid, getElem?_at]
    simp
  | succ n =>
    obtain ⟨es, cs⟩ := node
    obtain ⟨hne, hcount, hchildren⟩ := hwf
    have hthree : 3 ≤ es.length := hlength
    obtain ⟨l, e, l', rfl, hmid⟩ := exists_middle hne
    obtain ⟨cs, c, cs', rfl, hcs, hcs'⟩ := exists_child hcount
    rw [length_append, length_cons] at hmid hthree
    refine ⟨innerNode l (cs ++ [c]), e, innerNode l' cs', ?_, ⟨?_, ?_, fun d hd => ?_⟩,
      ⟨?_, hcs', fun d hd => ?_⟩, contents_split e hcs hcs'⟩
    · have htake : (cs ++ c :: cs').take (l.length + 1) = cs ++ [c] := by
        rw [append_cons, take_left' (by simp [hcs])]
      have hdrop : (cs ++ c :: cs').drop (l.length + 1) = cs' := by
        rw [append_cons, drop_left' (by simp [hcs])]
      rw [split_inner, length_append, length_cons, ← hmid, getElem?_at, htake, hdrop]
      simp
    · exact ne_nil_of_length_pos (by omega)
    · rw [length_append, hcs, length_singleton]
    · apply hchildren
      rw [append_cons]
      exact mem_append_left _ hd
    · exact ne_nil_of_length_pos (by omega)
    · exact hchildren d (mem_append_right _ (mem_cons_of_mem _ hd))

theorem splitChild_eq {cs cs' : List (BTreeNode κ υ n)} {c left right : BTreeNode κ υ n} {e : κ × υ}
    (hcs : cs.length = l.length) (h : split c = some (left, e, right)) :
    splitChild ⟨l ++ l', cs ++ c :: cs'⟩ l.length c
      = ⟨l ++ e :: l', cs ++ left :: right :: cs'⟩ := by
  unfold splitChild
  rw [h]
  dsimp only
  have hchildren : ((cs ++ c :: cs').set cs.length left).insertIdx (cs.length + 1) right
      = cs ++ left :: right :: cs' := by
    have hright := insertIdx_at (cs ++ [left]) cs' right
    rw [length_append, length_singleton] at hright
    rw [set_at, append_cons, hright, append_assoc, singleton_append]
  rw [insertIdx_at, ← hcs, hchildren]

/-! ## Insertions -/

theorem insertNonFull_leaf {maxDegree : Number} (es : List (κ × υ)) :
    insertNonFull order maxDegree (leafNode es) key value
      = leafNode (es.insertIdx (insertPosition order key es) (key, value)) := rfl

section

variable {n : ℕ} {maxDegree : Number} {l l' : List (κ × υ)} {cs cs' : List (BTreeNode κ υ n)}
  {c left right : BTreeNode κ υ n} {e : κ × υ}

theorem insertIntoChild_room {insert : BTreeNode κ υ n → BTreeNode κ υ n}
    (hcs : cs.length = l.length) (h : Between order key l l')
    (hroom : isFull maxDegree c.entries.length = false) :
    insertIntoChild order maxDegree insert key ⟨l ++ l', cs ++ c :: cs'⟩
      = ⟨l ++ l', cs ++ insert c :: cs'⟩ := by
  unfold insertIntoChild
  dsimp only
  rw [insertPosition_eq h, ← hcs, getElem?_at]
  dsimp only
  rw [hroom, if_neg Bool.false_ne_true, modify_at]

/-- The child was full: the insertion goes on in the half that the entry between them sends it
to. -/
theorem insertIntoChild_split {insert : BTreeNode κ υ n → BTreeNode κ υ n}
    (hcs : cs.length = l.length) (h : Between order key l l')
    (hfull : isFull maxDegree c.entries.length = true) (hsplit : split c = some (left, e, right)) :
    insertIntoChild order maxDegree insert key ⟨l ++ l', cs ++ c :: cs'⟩
      = if order.compare key e.1 = some .gt then ⟨l ++ e :: l', cs ++ left :: insert right :: cs'⟩
        else ⟨l ++ e :: l', cs ++ insert left :: right :: cs'⟩ := by
  have hright := modify_at (cs ++ [left]) cs' right insert
  rw [append_assoc, append_assoc, length_append, length_singleton, hcs]
    at hright
  have hleft := modify_at cs (right :: cs') left insert
  rw [hcs] at hleft
  unfold insertIntoChild
  dsimp only
  rw [insertPosition_eq h, ← hcs, getElem?_at]
  dsimp only
  rw [hfull, if_pos rfl, hcs, splitChild_eq hcs hsplit]
  dsimp only
  rw [getElem?_at, Option.any_some]
  by_cases hgt : order.compare key e.1 = some .gt
  · rw [if_pos hgt, if_pos (decide_eq_true hgt)]
    exact congrArg _ hright
  · rw [if_neg hgt, if_neg (by simpa using hgt)]
    exact congrArg _ hleft

end

/-- A key that is not among sorted entries has its place between them. -/
theorem exists_between (hsorted : Sorted order es) (hself : order.Self key)
    (hnew : ∀ e ∈ es, e.1 ≠ key) : ∃ l l', es = l ++ l' ∧ Between order key l l' := by
  obtain ⟨l, l', rfl, -, hspec⟩ := position_spec order key es
  rcases hspec with ⟨-, v, rest, rfl⟩ | ⟨-, hbetween⟩
  · exact absurd rfl (hnew (key, v) (mem_append_right _ mem_cons_self))
  · exact ⟨l, l', rfl, hbetween hsorted hself⟩

/-- What is added to the child of its position is added to the node. -/
theorem adds_child {cs cs' : List (BTreeNode κ υ n)} {c c' : BTreeNode κ υ n}
    (hwf : WellFormed (innerNode (l ++ l') (cs ++ c :: cs'))) (hcs : cs.length = l.length)
    (hsorted : Sorted order (contents (innerNode (l ++ l') (cs ++ c :: cs'))))
    (hbetween : Between order key l l') (hwf' : WellFormed c')
    (h : Adds order key value (contents c) (contents c')) :
    WellFormed (innerNode (l ++ l') (cs ++ c' :: cs')) ∧
      Adds order key value (contents (innerNode (l ++ l') (cs ++ c :: cs')))
        (contents (innerNode (l ++ l') (cs ++ c' :: cs'))) := by
  have hcount := hwf.2.1
  have hcs' : cs'.length = l'.length := by
    simp only [length_append, length_cons] at hcount
    omega
  refine ⟨wellFormed_set hwf hwf', ?_⟩
  rw [contents_internal hcs hcs'] at hsorted ⊢
  rw [contents_internal hcs hcs']
  exact h.frame (hbetween.interleave hsorted)

variable (value) in
/-- **Insertion.**  A key that is not there is added in its place. -/
theorem insertNonFull_spec {maxDegree : Number} (hdegree : ∀ k, isFull maxDegree k = true → 3 ≤ k)
    {node : BTreeNode κ υ n} (hwf : WellFormed node) (hsorted : Sorted order (contents node))
    (hself : order.Self key) (hnew : ∀ e ∈ contents node, e.1 ≠ key) :
    WellFormed (insertNonFull order maxDegree node key value) ∧
      Adds order key value (contents node)
        (contents (insertNonFull order maxDegree node key value)) := by
  induction n with
  | zero =>
    change List (κ × υ) at node
    obtain ⟨l, l', rfl, hbetween⟩ := exists_between hsorted hself hnew
    rw [insertNonFull_leaf, insertPosition_eq hbetween, insertIdx_at]
    exact ⟨trivial, l, l', rfl, rfl, hbetween⟩
  | succ n ih =>
    obtain ⟨es, cs⟩ := node
    obtain ⟨-, hcount, hchildren⟩ := id hwf
    have hsub : es.Sublist (contents (innerNode es cs)) := entries_sublist hcount
    obtain ⟨l, l', rfl, hbetween⟩ :=
      exists_between (hsorted.sublist hsub) hself fun e he => hnew e (hsub.subset he)
    obtain ⟨cs, c, cs', rfl, hcs, hcs'⟩ := exists_child hcount
    have hc := hchildren c (mem_append_right _ mem_cons_self)
    have hmiddle := contents_internal hcs hcs' ▸ hsorted
    have hnewc : ∀ e ∈ contents c, e.1 ≠ key := by
      intro e he
      apply hnew
      show e ∈ contents (innerNode _ _)
      rw [contents_internal hcs hcs']
      exact mem_append_right _ (mem_append_left _ he)
    cases hfull : isFull maxDegree c.entries.length with
    | false =>
      have hinsert :
          insertNonFull order maxDegree (innerNode (l ++ l') (cs ++ c :: cs')) key value
            = innerNode (l ++ l') (cs ++ insertNonFull order maxDegree c key value :: cs') :=
        insertIntoChild_room hcs hbetween hfull
      obtain ⟨hwf', hadds⟩ := ih hc hmiddle.right.left hnewc
      rw [hinsert]
      exact adds_child hwf hcs hsorted hbetween hwf' hadds
    | true =>
      obtain ⟨left, e, right, hsplit, hwfLeft, hwfRight, heq⟩ := split_spec hc (hdegree _ hfull)
      have hsame : contents (innerNode (l ++ l') (cs ++ c :: cs'))
          = contents (innerNode (l ++ e :: l') (cs ++ left :: right :: cs')) := by
        rw [contents_internal hcs hcs', contents_internal hcs (by simp [hcs']), heq, after]
        simp
      have hwfSplit : WellFormed (innerNode (l ++ e :: l') (cs ++ left :: right :: cs')) := by
        refine ⟨by simp, by simp [hcs, hcs']; omega, fun d hd => ?_⟩
        rcases mem_append.mp hd with hd | hd
        · exact hchildren d (mem_append_left _ hd)
        · rcases mem_cons.mp hd with rfl | hd
          · exact hwfLeft
          · rcases mem_cons.mp hd with rfl | hd
            · exact hwfRight
            · exact hchildren d (mem_append_right _ (mem_cons_of_mem _ hd))
      have hsortedSplit := heq ▸ hmiddle.right.left
      have he : e ∈ contents c := by
        rw [heq]
        exact mem_append_right _ mem_cons_self
      rw [hsame] at hsorted ⊢
      by_cases hgt : order.compare key e.1 = some .gt
      · -- on to the right half
        have hinsert :
            insertNonFull order maxDegree (innerNode (l ++ l') (cs ++ c :: cs')) key value
              = innerNode (l ++ e :: l')
                  (cs ++ left :: insertNonFull order maxDegree right key value :: cs') :=
          (insertIntoChild_split hcs hbetween hfull hsplit).trans (if_pos hgt)
        have hbetween' : Between order key (l ++ [e]) l' := by
          refine ⟨fun x hx => ?_, hbetween.above⟩
          rcases mem_append.mp hx with hx | hx
          · exact hbetween.below x hx
          · rw [mem_singleton.mp hx]
            exact KeyOrder.compare_gt_iff.mp hgt
        have hnewr : ∀ x ∈ contents right, x.1 ≠ key := fun x hx => hnewc x (by
          rw [heq]
          exact mem_append_right _ (mem_cons_of_mem _ hx))
        obtain ⟨hwf', hadds⟩ := ih hwfRight
          (hsortedSplit.right.sublist (sublist_cons_self _ _)) hnewr
        rw [hinsert]
        rw [append_cons l e l', append_cons cs left (right :: cs')]
          at hsorted hwfSplit ⊢
        rw [append_cons cs left (_ :: cs')]
        exact adds_child hwfSplit (by simp [hcs]) hsorted hbetween' hwf' hadds
      · have hinsert :
            insertNonFull order maxDegree (innerNode (l ++ l') (cs ++ c :: cs')) key value
              = innerNode (l ++ e :: l')
                  (cs ++ insertNonFull order maxDegree left key value :: right :: cs') :=
          (insertIntoChild_split hcs hbetween hfull hsplit).trans (if_neg hgt)
        have hlt : order.Lt key e.1 :=
          KeyOrder.lt_of_not hself (hmiddle.right.left.self e he) hgt fun hcompare =>
            hnewc e he (order.eq_of_compare hcompare).symm
        have hbetween' : Between order key l (e :: l') := by
          refine ⟨hbetween.below, fun x hx => ?_⟩
          rcases mem_cons.mp hx with rfl | hx
          · exact hlt
          · exact hbetween.above x hx
        have hnewl : ∀ x ∈ contents left, x.1 ≠ key := fun x hx => hnewc x (by
          rw [heq]
          exact mem_append_left _ hx)
        obtain ⟨hwf', hadds⟩ := ih hwfLeft hsortedSplit.left hnewl
        rw [hinsert]
        exact adds_child hwfSplit hcs hsorted hbetween' hwf' hadds

/-! ## Range scans -/

variable (order) in
/-- What a range scan makes of an entry and the child before it. -/
def collectEntry {n : ℕ} (minKey maxKey : κ) (e : κ × υ) (c : BTreeNode κ υ n) : List (κ × υ) :=
  (if order.Ge e.1 minKey then collectRange order c minKey maxKey else []) ++
    if order.Ge e.1 minKey ∧ order.Le e.1 maxKey then [e] else []

section

variable {n : ℕ} {es : List (κ × υ)} {cs : List (BTreeNode κ υ n)} {c d : BTreeNode κ υ n}
  {e : κ × υ} {minKey maxKey : κ}

theorem collectRange_single :
    collectRange order (innerNode [e] [c, d]) minKey maxKey
      = collectEntry order minKey maxKey e c ++
          if order.Le e.1 maxKey then collectRange order d minKey maxKey else [] := by
  conv_lhs => unfold collectRange
  simp [collectEntry]

theorem collectRange_cons (hes : es ≠ []) :
    collectRange order (innerNode (e :: es) (c :: cs)) minKey maxKey
      = collectEntry order minKey maxKey e c ++
          collectRange order (innerNode es cs) minKey maxKey := by
  conv_lhs => unfold collectRange
  conv_rhs => rhs; unfold collectRange
  dsimp only
  rw [zip_cons_cons, flatMap_cons, append_assoc, getLast?_cons_of_ne_nil hes,
    length_cons, getElem?_cons_succ]
  rfl

end

variable (order) in
/-- The entry lies within the bounds. -/
def inRange (minKey maxKey : κ) (e : κ × υ) : Bool := order.Ge e.1 minKey ∧ order.Le e.1 maxKey

/-- **Range scans.**  They list the part of the contents within the bounds. -/
theorem collectRange_spec {node : BTreeNode κ υ n} (hwf : WellFormed node)
    (hsorted : Sorted order (contents node)) (minKey maxKey : κ) :
    collectRange order node minKey maxKey
      = (contents node).filter (inRange order minKey maxKey) := by
  induction n with
  | zero => rfl
  | succ n ih =>
    obtain ⟨es, cs⟩ := node
    obtain ⟨hne, hcount, hchildren⟩ := hwf
    have hentry : ∀ (e : κ × υ) (c : BTreeNode κ υ n) (rest : List (κ × υ)), WellFormed c →
        Sorted order (contents c ++ e :: rest) →
          collectEntry order minKey maxKey e c
            = (contents c ++ [e]).filter (inRange order minKey maxKey) := by
      intro e c rest hc hs
      rw [collectEntry, filter_append]
      congr 1
      · split_ifs with hge
        · exact ih hc hs.left
        · -- all keys of the child are below the entry
          rw [eq_comm, filter_eq_nil_iff]
          intro x hx hin
          exact hge ((of_decide_eq_true hin).1.of_lt (hs.lt_of_append hx mem_cons_self))
      · by_cases hin : order.Ge e.1 minKey ∧ order.Le e.1 maxKey
        · rw [if_pos hin, filter_singleton, inRange, decide_eq_true hin, cond_true]
        · rw [if_neg hin, filter_singleton, inRange, decide_eq_false hin, cond_false]
    -- entry by entry
    induction es generalizing cs with
    | nil => exact absurd rfl hne
    | cons e es ihes =>
      cases cs with
      | nil => cases hcount
      | cons c cs =>
        have hs : Sorted order (contents c ++ e :: interleave contents es cs) := hsorted
        have hc := hchildren c mem_cons_self
        show _ = (contents c ++ e :: interleave contents es cs).filter _
        rw [append_cons, filter_append, ← hentry e c _ hc hs]
        by_cases hes : es = []
        · subst hes
          obtain ⟨d, rfl⟩ := length_eq_one_iff.mp (Nat.succ.inj hcount)
          rw [collectRange_single]
          congr 1
          split_ifs with hle
          · refine ih (hchildren d (mem_cons_of_mem _ mem_cons_self)) ?_
            exact hs.right.sublist (sublist_cons_self _ _)
          · rw [eq_comm, filter_eq_nil_iff]
            intro x hx hin
            exact hle ((of_decide_eq_true hin).2.of_lt
              ((pairwise_cons.mp hs.right.ascending).1 x hx))
        · rw [collectRange_cons hes]
          congr 1
          exact ihes _ (hs.right.sublist (sublist_cons_self _ _)) hes
            (Nat.succ.inj hcount) fun d hd => hchildren d (mem_cons_of_mem _ hd)

end Lumi.BTree
