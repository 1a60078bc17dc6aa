import Lumi.Siblings.Dependency

/-!
# Conflicts between sibling tool calls

A block that changes files conflicts with every block whose target is its own, above it or below it:
with a query through their paths, with any other block through the presentation.  The root is the
exception, since `pathsOverlap` puts a separator after it too.  Queries conflict with each other
only if both need approval, whatever their paths.

A node has an edge to an earlier one if it names it, refers to its result, completes the task, or
conflicts with it.
-/

namespace Lumi.Siblings

open Js PosixPath List

/-! ## Paths of directories -/

/-- The canonical path with these segments. -/
def pathOf (segments : List Text) : Text := slash :: joinWith [slash] segments

/-- Each segment after its slash. -/
def slashed (segments : List Text) : Text := segments.flatMap (slash :: ·)

theorem pathOf_eq_slashed {segments : List Text} (h : segments ≠ []) :
    pathOf segments = slashed segments := by
  obtain ⟨first, rest, rfl⟩ := exists_cons_of_ne_nil h
  clear h
  induction rest generalizing first with
  | nil => simp [pathOf, slashed, joinWith]
  | cons next rest ih =>
    have hnext := ih next
    rw [pathOf, slashed, joinWith] at hnext ⊢
    rw [flatMap_cons, ← hnext, intercalate_cons_cons]
    simp

/-- A text starts with a segment and a slash just if that is its first segment. -/
theorem segment_prefix_iff {left right rest tail : Text} (hleft : slash ∉ left)
    (hright : slash ∉ right) (htail : tail = [] ∨ ∃ more, tail = slash :: more) :
    left ++ slash :: rest <+: right ++ tail ↔ left = right ∧ slash :: rest <+: tail := by
  induction left generalizing right with
  | nil =>
    cases right with
    | nil => simp
    | cons c right =>
      have hc : slash ≠ c := fun h => hright (h ▸ mem_cons_self)
      simp [cons_prefix_cons, hc]
  | cons a left ih =>
    have ha : slash ≠ a := fun h => hleft (h ▸ mem_cons_self)
    cases right with
    | nil =>
      obtain rfl | ⟨more, rfl⟩ := htail
      · simp
      · simp [cons_prefix_cons, Ne.symm ha]
    | cons c right =>
      have hrest : left ++ slash :: rest <+: right ++ tail ↔ left = right ∧ slash :: rest <+: tail :=
        ih (fun h => hleft (mem_cons_of_mem _ h))
          fun h => hright (mem_cons_of_mem _ h)
      simp only [cons_append, cons_prefix_cons, hrest, List.cons.injEq, and_assoc]

theorem slashed_nil_or (segments : List Text) :
    slashed segments = [] ∨ ∃ more, slashed segments = slash :: more := by
  cases segments with
  | nil => exact .inl rfl
  | cons first rest => exact .inr ⟨_, rfl⟩

variable {left right : List Text}

/-- What lies below a directory starts with its path and a slash. -/
theorem slashed_prefix_iff (hleft : ∀ s ∈ left, slash ∉ s) (hright : ∀ s ∈ right, slash ∉ s) :
    slashed left ++ [slash] <+: slashed right ↔ left <+: right ∧ left ≠ right := by
  induction left generalizing right with
  | nil =>
    cases right with
    | nil => simp [slashed]
    | cons first rest => simp [slashed, cons_prefix_cons]
  | cons name left ih =>
    cases right with
    | nil => simp [slashed]
    | cons first rest =>
      obtain ⟨hname, hleft⟩ := forall_mem_cons.mp hleft
      obtain ⟨hfirst, hrest⟩ := forall_mem_cons.mp hright
      obtain ⟨more, hmore⟩ : ∃ more, slashed left ++ [slash] = slash :: more := by
        obtain hnil | ⟨more, hmore⟩ := slashed_nil_or left
        · exact ⟨[], by rw [hnil, nil_append]⟩
        · exact ⟨more ++ [slash], by rw [hmore, cons_append]⟩
      have hleading : slashed (name :: left) ++ [slash] = slash :: (name ++ slash :: more) := by
        rw [← hmore]
        simp [slashed]
      have hbelow : slashed (first :: rest) = slash :: (first ++ slashed rest) := by
        simp [slashed]
      rw [hleading, hbelow, cons_prefix_cons,
        segment_prefix_iff hname hfirst (slashed_nil_or rest), ← hmore, ih hleft hrest,
        cons_prefix_cons]
      have hne : name :: left ≠ first :: rest ↔ ¬ (name = first ∧ left = rest) :=
        not_congr (by rw [List.cons.injEq])
      rw [hne]
      tauto

theorem pathOf_injective (hleft : ∀ s ∈ left, slash ∉ s ∧ s ≠ [])
    (hright : ∀ s ∈ right, slash ∉ s ∧ s ≠ []) (h : pathOf left = pathOf right) : left = right := by
  have hjoin : joinWith [slash] left = joinWith [slash] right := (List.cons.inj h).2
  have hempty : ∀ {segments : List Text}, (∀ s ∈ segments, slash ∉ s ∧ s ≠ []) →
      joinWith [slash] segments = [] → segments = [] := by
    intro segments hsegments hnil
    cases segments with
    | nil => rfl
    | cons first rest =>
      have hprefix : first <+: joinWith [slash] (first :: rest) := by
        cases rest with
        | nil => simp [joinWith]
        | cons next rest =>
          rw [joinWith, intercalate_cons_cons]
          simp
      rw [hnil, prefix_nil] at hprefix
      exact absurd hprefix (hsegments first mem_cons_self).2
  by_cases hnil : left = []
  · subst hnil
    exact (hempty hright hjoin.symm).symm
  · have hnil' : right ≠ [] := by
      rintro rfl
      exact hnil (hempty hleft hjoin)
    have hsplit := congrArg (List.splitOn slash) hjoin
    rwa [joinWith, joinWith, splitOn_intercalate _ (fun s hs => (hleft s hs).1) hnil,
      splitOn_intercalate _ (fun s hs => (hright s hs).1) hnil'] at hsplit

/-- Paths overlap where they are equal, or one is a directory above the other, but not the root. -/
theorem pathsOverlap_pathOf_iff (hleft : ∀ s ∈ left, slash ∉ s ∧ s ≠ [])
    (hright : ∀ s ∈ right, slash ∉ s ∧ s ≠ []) :
    pathsOverlap (pathOf left) (pathOf right) = true
      ↔ left = right ∨ (right ≠ [] ∧ right <+: left) ∨ (left ≠ [] ∧ left <+: right) := by
  have hbelow : ∀ {above below : List Text}, (∀ s ∈ above, slash ∉ s ∧ s ≠ []) →
      (∀ s ∈ below, slash ∉ s ∧ s ≠ []) →
      (startsWith (pathOf below) (pathOf above ++ [slash]) = true
        ↔ above ≠ [] ∧ above <+: below ∧ above ≠ below) := by
    intro above below habove hbelow
    rw [startsWith, isPrefixOf_iff_prefix]
    by_cases hroot : above = []
    · -- after the root there would be two slashes
      subst hroot
      refine ⟨fun h => ?_, fun h => absurd rfl h.1⟩
      cases below with
      | nil => simp [pathOf, joinWith] at h
      | cons first rest =>
        rw [pathOf_eq_slashed (cons_ne_nil _ _)] at h
        obtain ⟨hnoslash, hne⟩ := hbelow first mem_cons_self
        obtain ⟨c, first, rfl⟩ := exists_cons_of_ne_nil hne
        simp only [pathOf, joinWith, slashed, intercalate_nil, flatMap_cons,
          cons_append, nil_append, cons_prefix_cons] at h
        exact absurd (h.2.1 ▸ mem_cons_self) hnoslash
    · rw [pathOf_eq_slashed hroot]
      by_cases hnil : below = []
      · subst hnil
        refine ⟨fun h => ?_, fun h => absurd (prefix_nil.mp h.2.1) hroot⟩
        have hlength := h.length_le
        obtain ⟨first, rest, rfl⟩ := exists_cons_of_ne_nil hroot
        simp [pathOf, joinWith, slashed] at hlength
      · rw [pathOf_eq_slashed hnil,
          slashed_prefix_iff (fun s hs => (habove s hs).1) fun s hs => (hbelow s hs).1]
        tauto
  rw [pathsOverlap, Bool.or_eq_true, Bool.or_eq_true, decide_eq_true_iff, hbelow hright hleft,
    hbelow hleft hright]
  refine ⟨fun h => ?_, fun h => ?_⟩
  · obtain (heq | h) | h := h
    · exact .inl (pathOf_injective hleft hright heq)
    · exact .inr (.inl ⟨h.1, h.2.1⟩)
    · exact .inr (.inr ⟨h.1, h.2.1⟩)
  · by_cases heq : left = right
    · exact .inl (.inl (by rw [heq]))
    · obtain h | h | h := h
      · exact absurd h heq
      · exact .inl (.inr ⟨h.1, h.2, fun h' => heq h'.symm⟩)
      · exact .inr ⟨h.1, h.2, heq⟩

/-! ## Conflicts of claims and of nodes -/

theorem pathsOverlap_comm (left right : Text) : pathsOverlap left right = pathsOverlap right left := by
  have heq : decide (left = right) = decide (right = left) := decide_eq_decide.mpr eq_comm
  rw [pathsOverlap, pathsOverlap, Bool.or_assoc, Bool.or_assoc, Bool.or_comm (startsWith left _), heq]

theorem siblingClaimsConflict_comm (left right : SiblingResourceClaim) :
    siblingClaimsConflict left right = siblingClaimsConflict right left := by
  have hkey : decide (left.key = right.key) = decide (right.key = left.key) :=
    decide_eq_decide.mpr eq_comm
  rw [siblingClaimsConflict, siblingClaimsConflict, pathsOverlap_comm, hkey]
  simp only [and_comm, or_comm]

theorem siblingNodesConflict_iff {left right : SiblingToolDependencyNode} :
    siblingNodesConflict left right = true
      ↔ left.category = .completion ∨ right.category = .completion
        ∨ ∃ leftClaim ∈ left.claims, ∃ rightClaim ∈ right.claims,
          siblingClaimsConflict leftClaim rightClaim = true := by
  rw [siblingNodesConflict, Bool.or_eq_true, Bool.or_eq_true, decide_eq_true_iff,
    decide_eq_true_iff, any_eq_true, or_assoc]
  simp only [any_eq_true]

theorem siblingNodesConflict_comm (left right : SiblingToolDependencyNode) :
    siblingNodesConflict left right = siblingNodesConflict right left := by
  rw [Bool.eq_iff_iff, siblingNodesConflict_iff, siblingNodesConflict_iff]
  have hclaims : ∀ {left right : SiblingToolDependencyNode},
      (∃ leftClaim ∈ left.claims, ∃ rightClaim ∈ right.claims,
        siblingClaimsConflict leftClaim rightClaim = true) →
      ∃ rightClaim ∈ right.claims, ∃ leftClaim ∈ left.claims,
        siblingClaimsConflict rightClaim leftClaim = true := by
    rintro left right ⟨leftClaim, hleft, rightClaim, hright, h⟩
    exact ⟨rightClaim, hright, leftClaim, hleft, (siblingClaimsConflict_comm _ _).trans h⟩
  refine ⟨fun h => ?_, fun h => ?_⟩
  · obtain h | h | h := h
    · exact .inr (.inl h)
    · exact .inl h
    · exact .inr (.inr (hclaims h))
  · obtain h | h | h := h
    · exact .inr (.inl h)
    · exact .inl h
    · exact .inr (.inr (hclaims h))

theorem conflict_of_presentation {left right : SiblingToolDependencyNode}
    (hleft : interactivePresentation ∈ left.claims) (hright : interactivePresentation ∈ right.claims) :
    siblingNodesConflict left right = true :=
  siblingNodesConflict_iff.mpr (.inr (.inr ⟨_, hleft, _, hright, by decide +kernel⟩))

theorem edgeTo_isSome_iff (node previous : SiblingToolDependencyNode) :
    (edgeTo node previous).isSome = true ↔ node.block.dependsOn.contains previous.id = true
      ∨ referencesResult node.block previous.id = true ∨ node.category = .completion
      ∨ siblingNodesConflict previous node = true := by
  unfold edgeTo
  split
  next h => exact ⟨fun _ => .inl h, fun _ => rfl⟩
  next hdepends =>
  split
  next h => exact ⟨fun _ => .inr (.inl h), fun _ => rfl⟩
  next hrefers =>
  split
  next h => exact ⟨fun _ => .inr (.inr (.inl h)), fun _ => rfl⟩
  next hcompletion =>
  split
  next h => exact ⟨fun _ => .inr (.inr (.inr h)), fun _ => rfl⟩
  next hconflict =>
    refine ⟨fun h => (Bool.false_ne_true h).elim, fun h => ?_⟩
    obtain h | h | h | h := h
    · exact absurd h hdepends
    · exact absurd h hrefers
    · exact absurd h hcompletion
    · exact absurd h hconflict

section

variable [Host] (host : SiblingHost) (cwd : Text) (options : SiblingDependencyModelOptions)

/-- The query needs the approval channel for a path outside the workspace. -/
def needsApproval (sequence : ℕ) (block : ToolUse) : Bool :=
  classifyCategory block options.scratchpadReadCreates = .query
    && !((options.workspaceLocalBySequence.bind fun locals => locals[sequence]?).getD true)

/-- The paths a block is about, as its claims name them. -/
def canonicalTargets (sequence : ℕ) (block : ToolUse) : List Text :=
  if classifyCategory block options.scratchpadReadCreates = .mutation then
    mutationTargets host cwd block
  else ((options.canonicalTargetBySequence[sequence]?.join).or
    (normalizedTarget host cwd block)).toList

/-- The targets of a block are canonical paths. -/
def CanonicalTargets (sequence : ℕ) (block : ToolUse) : Prop :=
  ∀ target ∈ canonicalTargets host cwd options sequence block,
    ∃ segments, (∀ s ∈ segments, slash ∉ s ∧ s ≠ []) ∧ target = pathOf segments

variable (sequence : ℕ) {options} {block : ToolUse}

theorem claims_of_query (h : classifyCategory block options.scratchpadReadCreates = .query) :
    ∃ claim : SiblingResourceClaim, claim.access = .read
      ∧ (claim.key ∈ canonicalTargets host cwd options sequence block
        ∨ claim.key = text "diagnostic:" ++ block.name)
      ∧ (∀ target ∈ canonicalTargets host cwd options sequence block, target ≠ [] →
        claim = ⟨target, .read, .path⟩)
      ∧ (isolatedNode host cwd options sequence block).claims
        = claim :: if needsApproval options sequence block then
          [⟨text "user-approval", .write, .approval⟩, interactivePresentation] else [] := by
  rw [canonicalTargets, h, if_neg (by decide), isolatedNode, needsApproval, h]
  dsimp only
  rw [claimsFor]
  cases (options.canonicalTargetBySequence[sequence]?.join).or (normalizedTarget host cwd block) with
  | none => exact ⟨_, rfl, .inr rfl, fun _ hmem => absurd hmem not_mem_nil, rfl⟩
  | some target =>
    dsimp only
    split
    · refine ⟨_, rfl, .inl (mem_singleton_self _), fun other hother _ => ?_, rfl⟩
      rw [mem_singleton.mp hother]
    next hnot =>
      refine ⟨_, rfl, .inr rfl, fun other hother hne => ?_, rfl⟩
      rw [mem_singleton.mp hother] at hne
      exact absurd hne hnot

theorem claims_of_mutation (h : classifyCategory block options.scratchpadReadCreates = .mutation) :
    (∀ target ∈ canonicalTargets host cwd options sequence block,
      ⟨target, .write, .path⟩ ∈ (isolatedNode host cwd options sequence block).claims)
    ∧ interactivePresentation ∈ (isolatedNode host cwd options sequence block).claims := by
  rw [canonicalTargets, h, if_pos rfl, isolatedNode, h]
  dsimp only
  rw [claimsFor]
  refine ⟨fun target htarget => mem_append_left _ (mem_append_left _ ?_),
    mem_append_left _ (mem_append_right _ (by simp))⟩
  rw [if_pos (ne_nil_of_mem htarget)]
  exact mem_map_of_mem htarget

/-- Whatever is not a query, and does not complete the task, is presented. -/
theorem mem_interactivePresentation
    (hquery : classifyCategory block options.scratchpadReadCreates ≠ .query)
    (hcompletion : classifyCategory block options.scratchpadReadCreates ≠ .completion) :
    interactivePresentation ∈ (isolatedNode host cwd options sequence block).claims := by
  refine mem_append_left _ ?_
  cases hcategory : classifyCategory block options.scratchpadReadCreates with
  | query => exact absurd hcategory hquery
  | completion => exact absurd hcategory hcompletion
  | mutation => simp [claimsFor]
  | command =>
    rw [claimsFor]
    split
    · simp
    · simp
  | approval => simp [claimsFor]
  | external => simp [claimsFor]
  | unknown => simp [claimsFor]

/-- A mutation conflicts with a block whose target overlaps with one of its own. -/
theorem conflict_of_overlap {sequence' : ℕ} {block' : ToolUse}
    (h : classifyCategory block options.scratchpadReadCreates = .mutation) {target target' : Text}
    (htarget : target ∈ canonicalTargets host cwd options sequence block)
    (htarget' : target' ∈ canonicalTargets host cwd options sequence' block') (hne : target' ≠ [])
    (hoverlap : pathsOverlap target target' = true) :
    siblingNodesConflict (isolatedNode host cwd options sequence block)
      (isolatedNode host cwd options sequence' block') = true := by
  obtain ⟨hpaths, hpresentation⟩ := claims_of_mutation host cwd sequence h
  by_cases hcompletion : classifyCategory block' options.scratchpadReadCreates = .completion
  · exact siblingNodesConflict_iff.mpr (.inr (.inl hcompletion))
  by_cases hquery : classifyCategory block' options.scratchpadReadCreates = .query
  · obtain ⟨claim, -, -, hclaim, hclaims⟩ := claims_of_query host cwd sequence' hquery
    refine siblingNodesConflict_iff.mpr (.inr (.inr ⟨_, hpaths target htarget, claim, ?_, ?_⟩))
    · rw [hclaims]
      exact mem_cons_self
    · rw [hclaim target' htarget' hne, siblingClaimsConflict, if_neg (by simp)]
      split
      · rfl
      · rw [if_pos ⟨rfl, rfl⟩]
        exact hoverlap
  · exact conflict_of_presentation hpresentation
      (mem_interactivePresentation host cwd sequence' hquery hcompletion)

/-- What a query reads does not conflict with the approval channel. -/
theorem not_conflict_approval {claim : SiblingResourceClaim}
    (hkey : claim.key ∈ canonicalTargets host cwd options sequence block
      ∨ claim.key = text "diagnostic:" ++ block.name)
    (hcanonical : CanonicalTargets host cwd options sequence block) :
    ∀ other ∈ [⟨text "user-approval", .write, .approval⟩, interactivePresentation],
      siblingClaimsConflict claim other = false := by
  -- a path starts with a slash, and a diagnostic with its word
  have hhead : claim.key.head? = some slash ∨ claim.key.head? = some 0x64 := by
    obtain hmem | hkey := hkey
    · obtain ⟨segments, -, heq⟩ := hcanonical _ hmem
      exact .inl (by rw [heq]; rfl)
    · exact .inr (by rw [hkey]; rfl)
  have hne : ∀ key : Text, key.head? ≠ some slash → key.head? ≠ some 0x64 → claim.key ≠ key := by
    intro key hslash hword heq
    rw [heq] at hhead
    exact hhead.elim hslash hword
  intro other hother
  have hall : (∃ c ∈ other.key.head?, c ≠ slash ∧ c ≠ 0x64) ∧ other.key ≠ text "workspace:*"
      ∧ other.kind ≠ .path := by
    obtain rfl | hother := mem_cons.mp hother
    · decide +kernel
    · rw [mem_singleton.mp hother]
      decide +kernel
  obtain ⟨⟨c, hc, hslash, hword⟩, hworkspace, hkind⟩ := hall
  have hworkspace' := hne (text "workspace:*") (by decide) (by decide)
  have hother' := hne other.key (by rw [hc]; simpa using hslash) (by rw [hc]; simpa using hword)
  unfold siblingClaimsConflict
  split
  · rfl
  · rw [if_neg (by simp [hworkspace, hworkspace']), if_neg fun h => hkind h.2]
    exact decide_eq_false hother'

/-- Queries conflict just if both need approval. -/
theorem conflict_queries_iff {sequence' : ℕ} {block' : ToolUse}
    (h : classifyCategory block options.scratchpadReadCreates = .query)
    (h' : classifyCategory block' options.scratchpadReadCreates = .query)
    (hcanonical : CanonicalTargets host cwd options sequence block)
    (hcanonical' : CanonicalTargets host cwd options sequence' block') :
    siblingNodesConflict (isolatedNode host cwd options sequence block)
        (isolatedNode host cwd options sequence' block') = true
      ↔ needsApproval options sequence block = true
        ∧ needsApproval options sequence' block' = true := by
  obtain ⟨claim, hread, hkey, -, hclaims⟩ := claims_of_query host cwd sequence h
  obtain ⟨claim', hread', hkey', -, hclaims'⟩ := claims_of_query host cwd sequence' h'
  have hcategory : ¬ (isolatedNode host cwd options sequence block).category = .completion :=
    fun heq => absurd (h.symm.trans heq) (by decide)
  have hcategory' : ¬ (isolatedNode host cwd options sequence' block').category = .completion :=
    fun heq => absurd (h'.symm.trans heq) (by decide)
  have hreads : siblingClaimsConflict claim claim' = false := if_pos ⟨hread, hread'⟩
  rw [siblingNodesConflict_iff, or_iff_right hcategory, or_iff_right hcategory']
  refine ⟨?_, fun hboth => ?_⟩
  · rintro ⟨left, hleft, right, hright, hconflict⟩
    rw [hclaims] at hleft
    rw [hclaims'] at hright
    obtain rfl | hleft := mem_cons.mp hleft
    · obtain rfl | hright := mem_cons.mp hright
      · rw [hreads] at hconflict
        cases hconflict
      · split at hright
        · rw [not_conflict_approval host cwd sequence hkey hcanonical right hright] at hconflict
          cases hconflict
        · cases hright
    · split at hleft
      next happroval =>
        obtain rfl | hright := mem_cons.mp hright
        · rw [siblingClaimsConflict_comm,
            not_conflict_approval host cwd sequence' hkey' hcanonical' left hleft] at hconflict
          cases hconflict
        · split at hright
          next happroval' => exact ⟨happroval, happroval'⟩
          next => cases hright
      next => cases hleft
  · refine ⟨interactivePresentation, ?_, interactivePresentation, ?_, by decide +kernel⟩
    · rw [hclaims, if_pos hboth.1]
      simp
    · rw [hclaims', if_pos hboth.2]
      simp

/-! ## The edges between the nodes of a message -/

/-- A node is that of its block, connected to the nodes before it. -/
theorem getElem?_buildSiblingToolDependencyModel (blocks : List ToolUse) :
    ∀ {i : ℕ} {block : ToolUse}, blocks[i]? = some block →
      (buildSiblingToolDependencyModel host cwd options blocks)[i]?
        = some (connect ((buildSiblingToolDependencyModel host cwd options blocks).take i)
          (isolatedNode host cwd options i block)) := by
  induction blocks using List.reverseRecOn with
  | nil => intro i block h; simp at h
  | append_singleton blocks last ih =>
    intro i block h
    have hlength : (buildSiblingToolDependencyModel host cwd options blocks).length
        = blocks.length := by
      rw [← length_map, block_buildSiblingToolDependencyModel]
    rw [buildSiblingToolDependencyModel_concat]
    by_cases hlt : i < blocks.length
    · rw [getElem?_append_left hlt] at h
      rw [getElem?_append_left (by omega), take_append_of_le_length (by omega)]
      exact ih h
    · have hi : i = blocks.length := by
        have := (List.getElem?_eq_some_iff.mp h).1
        rw [length_append, length_singleton] at this
        omega
      subst hi
      rw [getElem?_append_right le_rfl, Nat.sub_self] at h
      have hlast : last = block := Option.some_inj.mp h
      rw [getElem?_append_right (by omega), hlength, Nat.sub_self,
        take_append_of_le_length (by omega), take_of_length_le (by omega), hlast]
      rfl

/-- **Conflicts and edges of siblings.**  Of two blocks whose targets are canonical: if one of them
changes files, and a target of the one is a target of the other or a directory above it that is not
the root, they conflict; two queries conflict just if both need approval; and the later has an edge to
the earlier just if it names it, refers to its result, completes the task, or conflicts with it. -/
theorem conflicts_of_siblings (host : SiblingHost) (cwd : Text)
    (options : SiblingDependencyModelOptions) (blocks : List ToolUse) {i j : ℕ}
    {earlier later : ToolUse} (hij : i < j) (hearlier : blocks[i]? = some earlier)
    (hlater : blocks[j]? = some later) (hcanonical : CanonicalTargets host cwd options i earlier)
    (hcanonical' : CanonicalTargets host cwd options j later) :
    ∃ left right, (buildSiblingToolDependencyModel host cwd options blocks)[i]? = some left
      ∧ (buildSiblingToolDependencyModel host cwd options blocks)[j]? = some right
      ∧ (∀ segments segments', (∀ s ∈ segments, slash ∉ s ∧ s ≠ []) →
        (∀ s ∈ segments', slash ∉ s ∧ s ≠ []) →
        pathOf segments ∈ canonicalTargets host cwd options i earlier →
        pathOf segments' ∈ canonicalTargets host cwd options j later →
        segments = segments' ∨ (segments' ≠ [] ∧ segments' <+: segments)
          ∨ (segments ≠ [] ∧ segments <+: segments') →
        left.category = .mutation ∨ right.category = .mutation →
        siblingNodesConflict left right = true)
      ∧ (left.category = .query → right.category = .query →
        (siblingNodesConflict left right = true
          ↔ needsApproval options i earlier = true ∧ needsApproval options j later = true))
      ∧ ((∃ edge ∈ right.dependencyEdges, edge.sequence = i)
        ↔ later.dependsOn.contains left.id = true ∨ referencesResult later left.id = true
          ∨ right.category = .completion ∨ siblingNodesConflict left right = true) := by
  set nodes := buildSiblingToolDependencyModel host cwd options blocks with hnodes
  have hleft := @getElem?_buildSiblingToolDependencyModel _ host cwd options blocks i earlier hearlier
  have hright := @getElem?_buildSiblingToolDependencyModel _ host cwd options blocks j later hlater
  rw [← hnodes] at hleft hright
  have hconnected : Connected nodes := connected_buildSiblingToolDependencyModel host cwd options blocks
  -- the edges of a node make no difference to its conflicts
  refine ⟨_, _, hleft, hright, ?_, fun h h' =>
    conflict_queries_iff host cwd i h h' hcanonical hcanonical', ?_⟩
  · intro segments segments' hnames hnames' htarget htarget' hbelow hmutation
    have hoverlap : pathsOverlap (pathOf segments) (pathOf segments') = true :=
      (pathsOverlap_pathOf_iff hnames hnames').mpr hbelow
    obtain hmutation | hmutation := hmutation
    · exact conflict_of_overlap host cwd i hmutation htarget htarget' (cons_ne_nil _ _) hoverlap
    · rw [siblingNodesConflict_comm]
      exact conflict_of_overlap host cwd j hmutation htarget' htarget (cons_ne_nil _ _)
        ((pathsOverlap_comm _ _).trans hoverlap)
  · refine Iff.trans ?_ (edgeTo_isSome_iff (isolatedNode host cwd options j later) _)
    refine ⟨fun hedge => ?_, fun hsome => ?_⟩
    · obtain ⟨edge, hedge, hsequence⟩ := hedge
      obtain ⟨previous, hprevious, heq⟩ := mem_filterMap.mp hedge
      obtain ⟨k, hk⟩ := mem_iff_getElem?.mp (mem_of_mem_take hprevious)
      have hki : k = i := by
        rw [← hsequence, sequence_of_edgeTo heq, hconnected.sequence k previous hk]
      rw [hki, hleft] at hk
      rw [Option.some_inj.mp hk, heq]
      rfl
    · obtain ⟨edge, hedge⟩ := Option.isSome_iff_exists.mp hsome
      refine ⟨edge, mem_filterMap.mpr ⟨_, mem_iff_getElem?.mpr ⟨i, ?_⟩, hedge⟩, ?_⟩
      · rw [getElem?_take_of_lt hij]
        exact hleft
      · rw [sequence_of_edgeTo hedge]
        exact hconnected.sequence i _ hleft

end

section

open scoped Js.Ascii

/-- A host where every path exists. -/
def plainHost : SiblingHost := ⟨text "/", some, fun _ => false⟩

def toolBlock (name path callId : String) (dependsOn : List Text) : ToolUse :=
  ⟨text name, [(text "path", text path)], some (text callId), dependsOn⟩

/-- A file is written in a directory that is listed later. -/
theorem conflicts_of_siblings_listed :
    let blocks := [toolBlock "write_to_file" "/a/b" "first" [], toolBlock "list_files" "/a" "second" []]
    ∃ left right, (buildSiblingToolDependencyModel plainHost [] {} blocks)[0]? = some left
      ∧ (buildSiblingToolDependencyModel plainHost [] {} blocks)[1]? = some right
      ∧ siblingNodesConflict left right = true
      ∧ ∃ edge ∈ right.dependencyEdges, edge.sequence = 0 := by
  intro blocks
  have hcanonical : ∀ (i : ℕ) (block : ToolUse) (segments : List Text),
      canonicalTargets plainHost [] {} i block = [pathOf segments] →
      (∀ s ∈ segments, slash ∉ s ∧ s ≠ []) → CanonicalTargets plainHost [] {} i block := by
    intro i block segments htargets hnames target htarget
    rw [htargets, mem_singleton] at htarget
    exact ⟨segments, hnames, htarget⟩
  have hfirst : canonicalTargets plainHost [] {} 0 (toolBlock "write_to_file" "/a/b" "first" [])
      = [pathOf [text "a", text "b"]] := by
    decide +kernel
  have hsecond : canonicalTargets plainHost [] {} 1 (toolBlock "list_files" "/a" "second" [])
      = [pathOf [text "a"]] := by
    decide +kernel
  obtain ⟨left, right, hleft, hright, hconflict, -, hedge⟩ := conflicts_of_siblings plainHost [] {}
    blocks Nat.zero_lt_one rfl rfl (hcanonical _ _ _ hfirst (by decide))
    (hcanonical _ _ _ hsecond (by decide))
  have hcategory : ((buildSiblingToolDependencyModel plainHost [] {} blocks)[0]?).map
      SiblingToolDependencyNode.category = some .mutation := by
    decide +kernel
  rw [hleft] at hcategory
  have hboth := hconflict [text "a", text "b"] [text "a"] (by decide) (by decide)
    (hfirst ▸ mem_singleton_self _) (hsecond ▸ mem_singleton_self _)
    (Or.inr (Or.inl (by decide))) (Or.inl (Option.some_inj.mp hcategory))
  exact ⟨left, right, hleft, hright, hboth, hedge.mpr (Or.inr (Or.inr (Or.inr hboth)))⟩

/-- Two queries on disjoint paths that both need approval conflict, and a block waits for one that it
names without a conflict. -/
theorem disjoint_queries_conflict :
    let conflicts (nodes : List SiblingToolDependencyNode) : List Bool :=
      (nodes.zip nodes.tail).map fun pair => siblingNodesConflict pair.1 pair.2
    (let nodes := buildSiblingToolDependencyModel plainHost []
        { workspaceLocalBySequence := some [false, false] }
        [toolBlock "read_file" "/a" "first" [], toolBlock "read_file" "/b" "second" []]
     nodes.map SiblingToolDependencyNode.category = [.query, .query]
       ∧ pathsOverlap (text "/a") (text "/b") = false ∧ conflicts nodes = [true])
    ∧ (let nodes := buildSiblingToolDependencyModel plainHost [] {}
        [toolBlock "read_file" "/a" "first" [], toolBlock "read_file" "/b" "second" [text "first"]]
       conflicts nodes = [false] ∧ nodes.map SiblingToolDependencyNode.dependsOn = [[], [0]]) := by
  decide +kernel

end

end Lumi.Siblings
