import Lumi.SearchReplace.ConstructorV2

/-!
# The two constructors compared

Where the blocks are in file order, the first constructor never needs its last resort, and its
replacements are in order as they are stored.  What it rebuilds from them is what the second
one has written.  They part only where the diff ends with a marker that the second one takes
for the beginning of another.
-/

namespace Lumi.SearchReplace

open Js Option

inductive Version
  | v1
  | v2
  deriving DecidableEq

def constructNewFileContent (diffContent originalContent : Text) (isFinal : Bool) :
    Version → Except Text NewFile
  | .v1 => constructNewFileContentV1 diffContent originalContent isFinal
  | .v2 => constructNewFileContentV2 diffContent originalContent isFinal

/-- Both throw, or both return the same content. -/
def Agree : Except Text NewFile → Except Text NewFile → Prop
  | .ok a, .ok b => a.newContent = b.newContent
  | .error _, .error _ => True
  | _, _ => False

/-- Every block is found from the end of the one before it, or else is nowhere in the file. -/
def InFileOrder (originalContent : Text) : ℕ → List Block → Prop
  | _, [] => True
  | last, b :: rest =>
    match findMatch originalContent b.searchContent last with
    | some found => InFileOrder originalContent found.2 rest
    | none => ∀ i, ¬ StandsAt originalContent b.searchContent i

/-- A block is not found from the end of the one before it. -/
def SomeUnmatched (originalContent : Text) : ℕ → List Block → Prop
  | _, [] => False
  | last, b :: rest =>
    match findMatch originalContent b.searchContent last with
    | some found => SomeUnmatched originalContent found.2 rest
    | none => True

section

variable {originalContent : Text} {blocks : List Block}

theorem matchBlocks_eq_none_iff (last : ℕ) :
    matchBlocks originalContent last blocks = none ↔ SomeUnmatched originalContent last blocks := by
  induction blocks generalizing last with
  | nil => simp [matchBlocks, SomeUnmatched]
  | cons b rest ih =>
    rw [matchBlocks, SomeUnmatched]
    cases findMatch originalContent b.searchContent last with
    | none => simp
    | some found => rw [bind_some, map_eq_none_iff, ih]

/-- The blocks occur in the file one after the other, from a place on. -/
def OccurInOrder (originalContent : Text) : ℕ → List Block → Prop
  | _, [] => True
  | last, b :: rest => ∃ i, last ≤ i ∧ StandsAt originalContent b.searchContent i ∧
      OccurInOrder originalContent (i + b.searchContent.length) rest

theorem OccurInOrder.mono {last last' : ℕ} (h : OccurInOrder originalContent last' blocks)
    (hle : last ≤ last') : OccurInOrder originalContent last blocks := by
  cases blocks with
  | nil => trivial
  | cons b rest =>
    obtain ⟨i, hi, hrest⟩ := h
    exact ⟨i, hle.trans hi, hrest⟩

section

variable (hblocks : ∀ b ∈ blocks, b.WellFormed)
include hblocks

/-- Blocks that occur one after the other are in file order: each is found no later than where
it occurs. -/
theorem OccurInOrder.inFileOrder {last : ℕ} (h : OccurInOrder originalContent last blocks) :
    InFileOrder originalContent last blocks := by
  induction blocks generalizing last with
  | nil => trivial
  | cons b rest ih =>
    have hne := (hblocks b List.mem_cons_self).searchContent_ne
    obtain ⟨i, hi, hstands, hrest⟩ := h
    cases hexact : indexOf originalContent b.searchContent last with
    | none => exact absurd hstands ((indexOf_eq_none_iff hne).mp hexact i hi)
    | some j =>
      obtain ⟨-, -, hfirst⟩ := (indexOf_eq_some_iff hne).mp hexact
      have hle : j ≤ i := Nat.le_of_not_lt fun hlt => hfirst i hi hlt hstands
      have hfind : findMatch originalContent b.searchContent last
          = some (j, j + b.searchContent.length) := by
        rw [findMatch, hexact]
        rfl
      rw [InFileOrder, hfind]
      exact ih (fun b' hb' => hblocks b' (List.mem_cons_of_mem _ hb'))
        (hrest.mono (Nat.add_le_add_right hle _))

/-- In file order, a block is looked for in the whole file only in vain. -/
theorem locateBlocks_eq {last : ℕ} (horder : InFileOrder originalContent last blocks) :
    locateBlocks originalContent last blocks = matchBlocks originalContent last blocks := by
  induction blocks generalizing last with
  | nil => rfl
  | cons b rest ih =>
    have hb := hblocks b List.mem_cons_self
    rw [InFileOrder] at horder
    rw [locateBlocks, matchBlocks]
    cases hfind : findMatch originalContent b.searchContent last with
    | none =>
      rw [hfind] at horder
      have hnowhere : indexOf originalContent b.searchContent 0 = none :=
        (indexOf_eq_none_iff hb.searchContent_ne).mpr fun i _ => horder i
      rw [findInFile, hfind, hnowhere]
      rfl
    | some found =>
      rw [hfind] at horder
      have hle := (findMatch_le hb.length_searchContent hfind).1
      have hplace : placeAfter last found = found.2 := if_neg (Nat.not_lt.mpr hle)
      have hrest := ih (fun b' hb' => hblocks b' (List.mem_cons_of_mem _ hb')) horder
      rw [findInFile, hfind, some_or, bind_some, bind_some, hplace, hrest]

/-- Blocks that are found one after the other are stored in order. -/
theorem sorted_matchBlocks {last : ℕ} {replacements : List Replacement}
    (h : matchBlocks originalContent last blocks = some replacements) :
    (∀ r ∈ replacements, (last : ℤ) ≤ r.start) ∧ replacements.Pairwise Replacement.before := by
  induction blocks generalizing last replacements with
  | nil =>
    obtain rfl := Option.some.inj h
    exact ⟨fun r hr => absurd hr List.not_mem_nil, List.Pairwise.nil⟩
  | cons b rest ih =>
    have hb := hblocks b List.mem_cons_self
    obtain ⟨found, hfind, hrest⟩ := bind_eq_some_iff.mp h
    obtain ⟨others, hothers, rfl⟩ := map_eq_some_iff.mp hrest
    obtain ⟨hle, hstop⟩ := findMatch_le hb.length_searchContent hfind
    obtain ⟨hafter, hsorted⟩ := ih (fun b' hb' => hblocks b' (List.mem_cons_of_mem _ hb')) hothers
    constructor
    · intro r hr
      rcases List.mem_cons.mp hr with rfl | hr
      · exact Int.ofNat_le.mpr hle
      · have := hafter r hr
        omega
    · refine List.pairwise_cons.mpr ⟨fun r hr => ?_, hsorted⟩
      have := hafter r hr
      show (found.1 : ℤ) ≤ r.start
      omega

end

/-- On blocks in file order, the constructors agree just where the diff does not end with a
marker that is not known, or some block is not found. -/
theorem constructors_agree_iff {trailing : List Text} (hblocks : ∀ b ∈ blocks, b.WellFormed)
    (htrailing : ∀ line ∈ trailing, IsBlank line) (horder : InFileOrder originalContent 0 blocks) :
    Agree (constructNewFileContent (encodeDiff blocks trailing) originalContent true .v1)
        (constructNewFileContent (encodeDiff blocks trailing) originalContent true .v2)
      ↔ EndsKnown blocks trailing ∨ SomeUnmatched originalContent 0 blocks := by
  obtain ⟨hmissing, hfound⟩ := @constructNewFileContentV1_blocks originalContent _ _
    hblocks htrailing
  rw [locateBlocks_eq hblocks horder] at hmissing hfound
  rw [constructNewFileContent, constructNewFileContent, ← matchBlocks_eq_none_iff]
  by_cases hend : EndsKnown blocks trailing
  · refine ⟨fun _ => Or.inl hend, fun _ => ?_⟩
    obtain ⟨hmissing', hfound'⟩ := @constructNewFileContentV2_blocks
      originalContent _ _ hblocks htrailing hend
    cases hmatch : matchBlocks originalContent 0 blocks with
    | none =>
      obtain ⟨error, herror⟩ := hmissing hmatch
      obtain ⟨error', herror'⟩ := hmissing' hmatch
      rw [herror, herror']
      trivial
    | some replacements =>
      have hsorted := (sorted_matchBlocks hblocks hmatch).2.insertionSort_eq
      rw [hfound replacements hmatch, hfound' replacements hmatch, hsorted]
      rfl
  · obtain rfl : trailing = [] := by
      by_contra hne
      exact hend fun hnil => absurd hnil hne
    obtain ⟨error', herror'⟩ := @constructNewFileContentV2_unknown
      originalContent _ hblocks hend
    rw [herror', or_iff_right hend]
    cases hmatch : matchBlocks originalContent 0 blocks with
    | none =>
      obtain ⟨error, herror⟩ := hmissing hmatch
      rw [herror]
      exact ⟨fun _ => rfl, fun _ => trivial⟩
    | some replacements =>
      rw [hfound replacements hmatch]
      exact ⟨fun h => h.elim, fun h => absurd h (by simp)⟩

end

section

/-- A block in the older spelling. -/
def legacyBlock : Block :=
  ⟨[], text "<<<<<<< SEARCH", [text "a"], text "=======", [text "b"], text ">>>>>>> REPLACE"⟩

theorem legacyBlock_wellFormed : ∀ b ∈ [legacyBlock], b.WellFormed := by
  intro b hb
  rw [List.mem_singleton.mp hb]
  exact ⟨by decide, by decide, by decide, by decide, by decide, by decide, by decide⟩

theorem legacyBlock_inFileOrder : InFileOrder (text "a\n") 0 [legacyBlock] :=
  OccurInOrder.inFileOrder legacyBlock_wellFormed ⟨0, Nat.le_refl 0, rfl, trivial⟩

/-- With a newline after its last marker, a block is read alike. -/
theorem ended_legacy_block_agrees :
    Agree (constructNewFileContent (encodeDiff [legacyBlock] [[]]) (text "a\n") true .v1)
      (constructNewFileContent (encodeDiff [legacyBlock] [[]]) (text "a\n") true .v2) :=
  (constructors_agree_iff legacyBlock_wellFormed (by decide) legacyBlock_inFileOrder).mpr
    (Or.inl fun hnil => absurd hnil (List.cons_ne_nil _ _))

/-- Without it, only the first constructor takes the block as complete. -/
theorem open_legacy_block_disagrees :
    let diff := text "<<<<<<< SEARCH\na\n=======\nb\n>>>>>>> REPLACE"
    diff = encodeDiff [legacyBlock] [] ∧ (∀ b ∈ [legacyBlock], b.WellFormed) ∧
      InFileOrder (text "a\n") 0 [legacyBlock] ∧
      constructNewFileContent diff (text "a\n") true .v1 = .ok ⟨text "b\n", [0]⟩ ∧
      (∃ error, constructNewFileContent diff (text "a\n") true .v2 = .error error) ∧
      ¬ Agree (constructNewFileContent diff (text "a\n") true .v1)
        (constructNewFileContent diff (text "a\n") true .v2) :=
  ⟨by decide, legacyBlock_wellFormed, legacyBlock_inFileOrder, by rfl, ⟨_, by rfl⟩, fun h => h⟩

end

end Lumi.SearchReplace
