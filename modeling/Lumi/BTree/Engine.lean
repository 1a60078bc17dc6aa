import Mathlib.Algebra.Order.Ring.Rat
import Mathlib.Data.List.InsertIdx
import Lumi.Lib.JsValue

/-!
# The B-tree index

How keys are compared, and the nodes of `BroccoliBTreeIndexEngine` with their operations.
-/

namespace Lumi.BTree

open Js

/-! ## Comparing keys

The index compares two numbers by their difference and two strings by `localeCompare`,
and asks whether the result is positive, negative or zero.  A difference that is `NaN`
is none of these, so a key need not be equal to itself: neither `NaN` is, nor are the
two infinities.  Apart from that both comparisons are orders (`KeyOrder`).
-/

/-- A comparison of keys, by the sign of its result, that is an order as far as it answers. -/
structure KeyOrder (κ : Type*) where
  compare : κ → κ → Option Ordering
  swap : ∀ a b, compare b a = (compare a b).map Ordering.swap
  eq_of_compare : ∀ {a b}, compare a b = some .eq → a = b
  lt_trans : ∀ {a b c}, compare a b = some .lt → compare b c = some .lt → compare a c = some .lt
  /-- It answers for keys that are equal to themselves. -/
  answers : ∀ {a b}, compare a a = some .eq → compare b b = some .eq → compare a b ≠ none

namespace KeyOrder

variable {κ : Type*} (order : KeyOrder κ)

/-- The key is equal to itself. -/
def Self (a : κ) : Prop := order.compare a a = some .eq

def Lt (a b : κ) : Prop := order.compare a b = some .lt

/-- `compare(a, b) >= 0`. -/
def Ge (a b : κ) : Prop := order.compare a b = some .gt ∨ order.compare a b = some .eq

/-- `compare(a, b) <= 0`. -/
def Le (a b : κ) : Prop := order.compare a b = some .lt ∨ order.compare a b = some .eq

instance (a b : κ) : Decidable (order.Ge a b) := inferInstanceAs (Decidable (_ ∨ _))

instance (a b : κ) : Decidable (order.Le a b) := inferInstanceAs (Decidable (_ ∨ _))

variable {order} {a b c : κ}

theorem compare_gt_iff : order.compare a b = some .gt ↔ order.Lt b a := by
  rw [Lt, order.swap b a]
  cases order.compare b a with
  | none => simp
  | some o => cases o <;> simp

theorem Lt.trans (hab : order.Lt a b) (hbc : order.Lt b c) : order.Lt a c := order.lt_trans hab hbc

theorem Lt.ne (h : order.Lt a b) (hself : order.Self a) : a ≠ b := by
  rintro rfl
  rw [Lt, hself] at h
  cases h

/-- Keys that are equal to themselves are ordered one way or the other. -/
theorem lt_of_not (ha : order.Self a) (hb : order.Self b) (hgt : order.compare a b ≠ some .gt)
    (heq : order.compare a b ≠ some .eq) : order.Lt a b := by
  cases h : order.compare a b with
  | none => exact absurd h (order.answers ha hb)
  | some o =>
    cases o with
    | lt => exact h
    | eq => exact absurd h heq
    | gt => exact absurd h hgt

/-- What is greater than a key at or above a bound is at or above it. -/
theorem Ge.of_lt (h : order.Ge a c) (hab : order.Lt a b) : order.Ge b c := by
  left
  rw [compare_gt_iff]
  rcases h with hgt | heq
  · exact (compare_gt_iff.mp hgt).trans hab
  · rw [← order.eq_of_compare heq]
    exact hab

/-- What is less than a key at or below a bound is at or below it. -/
theorem Le.of_lt (h : order.Le b c) (hab : order.Lt a b) : order.Le a c := by
  left
  rcases h with hlt | heq
  · exact hab.trans hlt
  · rw [← order.eq_of_compare heq]
    exact hab

end KeyOrder

/-! ### Numbers and strings -/

/-- The sign of `a - b`. -/
def signOfDifference : Number → Number → Option Ordering
  | .nan, _ => none
  | _, .nan => none
  | .negInfinity, .negInfinity => none
  | .posInfinity, .posInfinity => none
  | .negInfinity, _ => some .lt
  | _, .negInfinity => some .gt
  | .posInfinity, _ => some .gt
  | _, .posInfinity => some .lt
  | .finite a, .finite b => some (if a < b then .lt else if a = b then .eq else .gt)

def numbers : KeyOrder Number where
  compare := signOfDifference
  swap := by
    intro a b
    cases a <;> cases b <;> simp only [signOfDifference, Option.map_none, Option.map_some,
      Ordering.swap_lt, Ordering.swap_gt]
    next a b =>
      rcases lt_trichotomy a b with h | h | h
      · simp [h, h.not_gt, h.ne']
      · simp [h]
      · simp [h, h.not_gt, h.ne']
  eq_of_compare := by
    intro a b h
    cases a <;> cases b <;> simp only [signOfDifference, reduceCtorEq, Option.some.injEq] at h
    split_ifs at h with hlt heq
    rw [heq]
  lt_trans := by
    intro a b c hab hbc
    cases a <;> cases b <;> cases c <;>
      simp only [signOfDifference, reduceCtorEq, Option.some.injEq] at hab hbc ⊢
    split_ifs at hab hbc with h₁ h₂
    rw [if_pos (h₁.trans h₂)]
  answers := by
    intro a b ha hb
    cases a <;> cases b <;> simp [signOfDifference] at ha hb ⊢

/-- The numbers that are equal to themselves are the finite ones. -/
theorem numbers_self_iff {n : Number} : numbers.Self n ↔ ∃ q, n = .finite q := by
  cases n <;> simp [KeyOrder.Self, numbers, signOfDifference]

/-- Strings under a `localeCompare` that is a total order. -/
def strings (localeCompare : Text → Text → Ordering) (h : Std.TransCmp localeCompare)
    (hlawful : Std.LawfulEqCmp localeCompare) : KeyOrder Text where
  compare := fun a b => some (localeCompare a b)
  swap := fun _ _ => congrArg some Std.OrientedCmp.eq_swap
  eq_of_compare := fun h => Std.LawfulEqCmp.eq_of_compare (Option.some.inj h)
  lt_trans := fun hab hbc =>
    congrArg some (Std.TransCmp.lt_trans (Option.some.inj hab) (Option.some.inj hbc))
  answers := fun _ _ => Option.some_ne_none _

/-! ## The B-tree index

A node of `BroccoliBTreeIndexEngine` has keys and values, which are always spliced
together and are one list of entries here, and, unless it is a leaf, children.  The
leaves are all on one level, as the tree grows at its root only; the type of a node
says how far above them it is, and a node is a leaf exactly if that is zero.

A child that a node does not have would be `undefined` in the source, and the call
would throw; a node has a child for each of the positions between its keys, so these
branches stand for nothing that happens.
-/

/-- A node above the leaves. -/
structure Internal (C κ υ : Type*) where
  entries : List (κ × υ)
  children : List C

/-- `BTreeNode`, so many levels above the leaves. -/
def BTreeNode (κ υ : Type*) : ℕ → Type _
  | 0 => List (κ × υ)
  | n + 1 => Internal (BTreeNode κ υ n) κ υ

variable {κ υ : Type*} (order : KeyOrder κ)

namespace BTreeNode

def entries : {n : ℕ} → BTreeNode κ υ n → List (κ × υ)
  | 0, entries => entries
  | _ + 1, node => Internal.entries node

end BTreeNode

/-- `while (i < keys.length && compare(key, keys[i]) > 0) i++`, from the left. -/
def position (key : κ) (entries : List (κ × υ)) : ℕ :=
  (entries.takeWhile fun e => order.compare key e.1 = some .gt).length

/-- The key stands at the position. -/
def standsAt (key : κ) (entries : List (κ × υ)) (i : ℕ) : Bool :=
  entries[i]?.any fun e => order.compare key e.1 = some .eq

/-- `while (i >= 0 && compare(key, keys[i]) < 0) i--`, from the right, and one more. -/
def insertPosition (key : κ) (entries : List (κ × υ)) : ℕ :=
  entries.length - (entries.reverse.takeWhile fun e => order.compare key e.1 = some .lt).length

def searchNode : {n : ℕ} → BTreeNode κ υ n → κ → Option υ
  | 0, (entries : List (κ × υ)), key =>
    let i := position order key entries
    if standsAt order key entries i then (entries[i]?).map (·.2) else none
  | _ + 1, ⟨entries, children⟩, key =>
    let i := position order key entries
    if standsAt order key entries i then (entries[i]?).map (·.2)
    else
      match children[i]? with
      | some child => searchNode child key
      | none => none

def updateIfExists : {n : ℕ} → BTreeNode κ υ n → κ → υ → Bool × BTreeNode κ υ n
  | 0, (entries : List (κ × υ)), key, value =>
    let i := position order key entries
    if standsAt order key entries i then (true, entries.modify i fun e => (e.1, value))
    else (false, entries)
  | _ + 1, ⟨entries, children⟩, key, value =>
    let i := position order key entries
    if standsAt order key entries i then
      (true, ⟨entries.modify i fun e => (e.1, value), children⟩)
    else
      match children[i]? with
      | some child =>
        let (updated, child) := updateIfExists child key value
        (updated, ⟨entries, children.set i child⟩)
      | none => (false, ⟨entries, children⟩)

def deleteKeyFromNode : {n : ℕ} → BTreeNode κ υ n → κ → Bool × BTreeNode κ υ n
  | 0, (entries : List (κ × υ)), key =>
    let i := position order key entries
    if standsAt order key entries i then (true, entries.eraseIdx i) else (false, entries)
  | _ + 1, ⟨entries, children⟩, key =>
    let i := position order key entries
    -- the children stay as they are
    if standsAt order key entries i then (true, ⟨entries.eraseIdx i, children⟩)
    else
      match children[i]? with
      | some child =>
        let (deleted, child) := deleteKeyFromNode child key
        (deleted, ⟨entries, children.set i child⟩)
      | none => (false, ⟨entries, children⟩)

/-- The two halves of a full child, and the entry between them. -/
def split : {n : ℕ} → BTreeNode κ υ n → Option (BTreeNode κ υ n × (κ × υ) × BTreeNode κ υ n)
  | 0, (entries : List (κ × υ)) =>
    let mid := entries.length / 2
    (entries[mid]?).map fun e => (entries.take mid, e, entries.drop (mid + 1))
  | _ + 1, ⟨entries, children⟩ =>
    let mid := entries.length / 2
    (entries[mid]?).map fun e =>
      (⟨entries.take mid, children.take (mid + 1)⟩, e,
        ⟨entries.drop (mid + 1), children.drop (mid + 1)⟩)

/-- `splitChild`. -/
def splitChild {n : ℕ} (parent : Internal (BTreeNode κ υ n) κ υ) (index : ℕ)
    (child : BTreeNode κ υ n) : Internal (BTreeNode κ υ n) κ υ :=
  match split child with
  | some (left, e, right) =>
    { entries := parent.entries.insertIdx index e
      children := (parent.children.set index left).insertIdx (index + 1) right }
  | none => parent

/-- `keys.length >= maxDegree`; never, if the degree is `NaN`. -/
def isFull (maxDegree : Number) (length : ℕ) : Bool :=
  Number.less? (.finite length) maxDegree = some false

/-- `insertNonFull` above the leaves, with what it does to the child it goes on with. -/
def insertIntoChild {n : ℕ} (maxDegree : Number) (insert : BTreeNode κ υ n → BTreeNode κ υ n)
    (key : κ) (node : Internal (BTreeNode κ υ n) κ υ) : Internal (BTreeNode κ υ n) κ υ :=
  let i := insertPosition order key node.entries
  match node.children[i]? with
  | none => node
  | some child =>
    if isFull maxDegree child.entries.length then
      let node := splitChild node i child
      let i := if node.entries[i]?.any fun e => order.compare key e.1 = some .gt then i + 1 else i
      { node with children := node.children.modify i insert }
    else { node with children := node.children.modify i insert }

def insertNonFull (maxDegree : Number) : {n : ℕ} → BTreeNode κ υ n → κ → υ → BTreeNode κ υ n
  | 0, (entries : List (κ × υ)), key, value =>
    entries.insertIdx (insertPosition order key entries) (key, value)
  | n + 1, node, key, value =>
    insertIntoChild order maxDegree
      (fun child => insertNonFull maxDegree (child : BTreeNode κ υ n) key value) key node

/-- `collectRange`, with the results it pushes. -/
def collectRange : {n : ℕ} → BTreeNode κ υ n → κ → κ → List (κ × υ)
  | 0, (entries : List (κ × υ)), minKey, maxKey =>
    entries.filter fun e => order.Ge e.1 minKey ∧ order.Le e.1 maxKey
  | _ + 1, ⟨entries, children⟩, minKey, maxKey =>
    (entries.zip children).flatMap (fun (e, child) =>
      (if order.Ge e.1 minKey then collectRange child minKey maxKey else []) ++
        if order.Ge e.1 minKey ∧ order.Le e.1 maxKey then [e] else []) ++
    -- the child after the last key, unless there is no key
    if entries.getLast?.any fun e => order.Le e.1 maxKey then
      match children[entries.length]? with
      | some child => collectRange child minKey maxKey
      | none => []
    else []

structure BTreeIndexEngine (κ υ : Type*) where
  maxDegree : Number
  depth : ℕ
  root : BTreeNode κ υ depth
  totalEntriesCount : ℤ

namespace BTreeIndexEngine

/-- The constructor: `Math.max(4, maxDegree)`, which is `NaN` where the degree is. -/
def new (maxDegree : Number) : BTreeIndexEngine κ υ where
  maxDegree :=
    if Number.less? (.finite 4) maxDegree = some false then .finite 4 else maxDegree
  depth := 0
  root := ([] : List (κ × υ))
  totalEntriesCount := 0

section

variable (s : BTreeIndexEngine κ υ)

def insert (key : κ) (value : υ) : BTreeIndexEngine κ υ :=
  let (updated, root) := updateIfExists order s.root key value
  if updated then { s with root }
  else if isFull s.maxDegree s.root.entries.length then
    let newRoot : BTreeNode κ υ (s.depth + 1) := splitChild ⟨[], [s.root]⟩ 0 s.root
    { s with
      depth := s.depth + 1
      root := insertNonFull order s.maxDegree newRoot key value
      totalEntriesCount := s.totalEntriesCount + 1 }
  else
    { s with
      root := insertNonFull order s.maxDegree s.root key value
      totalEntriesCount := s.totalEntriesCount + 1 }

def search (key : κ) : Option υ := searchNode order s.root key

def delete (key : κ) : Bool × BTreeIndexEngine κ υ :=
  let (deleted, root) := deleteKeyFromNode order s.root key
  (deleted, { s with
    root
    totalEntriesCount := if deleted then s.totalEntriesCount - 1 else s.totalEntriesCount })

def rangeScan (minKey maxKey : κ) : List (κ × υ) :=
  collectRange order s.root minKey maxKey

def size : ℤ := s.totalEntriesCount

def clear : BTreeIndexEngine κ υ :=
  { s with
    depth := 0
    root := ([] : List (κ × υ))
    totalEntriesCount := 0 }

end

end BTreeIndexEngine

/-- The calls that change an index. -/
inductive Op (κ υ : Type*)
  | insert (key : κ) (value : υ)
  | delete (key : κ)
  | clear

def BTreeIndexEngine.step (s : BTreeIndexEngine κ υ) : Op κ υ → BTreeIndexEngine κ υ
  | .insert key value => s.insert order key value
  | .delete key => (s.delete order key).2
  | .clear => s.clear

end Lumi.BTree
