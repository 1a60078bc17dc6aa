import Lumi.Lib.JsText

/-!
# POSIX paths

`normalize`, `join`, `resolve` and `relative` of `node:path` on a POSIX system, on the segments
between the slashes: empty segments and `.` are dropped, and `..` takes back the segment before it.
A relative path that does not go up leads from a directory to itself or to what is below it
(`relative_stays_iff`), and a normalised path is left as it is (`normalize_normalize`).
-/

namespace PosixPath

open Js List

def slash : UInt16 := 0x2F

def dotDot : Text := text ".."

def isAbsolute (path : Text) : Bool := path.head? = some slash

/-- One segment of a path, after the ones that were kept. -/
def push (allowAboveRoot : Bool) (kept : List Text) (segment : Text) : List Text :=
  if segment = [] ∨ segment = text "." then kept
  else if segment = dotDot then
    if kept = [] ∨ kept.getLast? = some dotDot then
      if allowAboveRoot then kept ++ [dotDot] else kept
    else kept.dropLast
  else kept ++ [segment]

def normalizeSegments (allowAboveRoot : Bool) (segments : List Text) : List Text :=
  segments.foldl (push allowAboveRoot) []

def normalize (path : Text) : Text :=
  if path = [] then text "."
  else
    let body := joinWith [slash] (normalizeSegments (!isAbsolute path) (path.splitOn slash))
    let trailing := path.getLast? = some slash
    if body = [] then
      if isAbsolute path then [slash] else if trailing then text "./" else text "."
    else
      (if isAbsolute path then [slash] else []) ++ body ++ (if trailing then [slash] else [])

def join (paths : List Text) : Text :=
  let joined := joinWith [slash] (paths.filter (· ≠ []))
  if joined = [] then text "." else normalize joined

/-- The segments of a path made absolute: the last absolute path, and what follows it. -/
def resolveSegments (cwd : Text) (paths : List Text) : List Text :=
  normalizeSegments false
    ((paths.foldl (fun taken path => if isAbsolute path then [path] else taken ++ [path])
      [cwd]).flatMap (·.splitOn slash))

def resolve (cwd : Text) (paths : List Text) : Text :=
  slash :: joinWith [slash] (resolveSegments cwd paths)

/-- How far two lists agree. -/
def commonLength : List Text → List Text → ℕ
  | a :: rest, b :: rest' => if a = b then commonLength rest rest' + 1 else 0
  | _, _ => 0

/-- From the first path up to where the two part, and down to the second. -/
def relative (cwd base path : Text) : Text :=
  let up := resolveSegments cwd [base]
  let down := resolveSegments cwd [path]
  let common := commonLength up down
  joinWith [slash] (List.replicate (up.length - common) dotDot ++ down.drop common)

/-! ## Segments -/

/-- A segment that stays: it has no slash, and it is neither empty nor `..`. -/
def IsName (segment : Text) : Prop := slash ∉ segment ∧ segment ≠ [] ∧ segment ≠ dotDot

variable {kept : List Text} {segment : Text}

theorem isName_push (hkept : ∀ s ∈ kept, IsName s) (hsegment : slash ∉ segment) :
    ∀ s ∈ push false kept segment, IsName s := by
  unfold push
  split
  · exact hkept
  · next hnot =>
    split
    · split
      · exact hkept
      · exact fun s hs => hkept s (dropLast_subset _ hs)
    · next hdotDot =>
      intro s hs
      rcases mem_append.mp hs with hs | hs
      · exact hkept s hs
      · rw [mem_singleton.mp hs]
        exact ⟨hsegment, fun hnil => hnot (.inl hnil), hdotDot⟩

theorem isName_foldl_push {segments : List Text} (hsegments : ∀ s ∈ segments, slash ∉ s) :
    ∀ {kept : List Text}, (∀ s ∈ kept, IsName s) →
      ∀ s ∈ segments.foldl (push false) kept, IsName s := by
  induction segments with
  | nil => exact fun h => h
  | cons segment rest ih =>
    intro kept hkept
    exact ih (fun s hs => hsegments s (mem_cons_of_mem _ hs))
      (isName_push hkept (hsegments segment mem_cons_self))

theorem isName_resolveSegments (cwd : Text) (paths : List Text) :
    ∀ s ∈ resolveSegments cwd paths, IsName s := by
  refine isName_foldl_push (fun s hs => ?_) fun s hs => absurd hs not_mem_nil
  obtain ⟨path, -, hpath⟩ := mem_flatMap.mp hs
  exact notMem_of_mem_splitOn hpath

/-! ## What lies below a directory -/

theorem commonLength_le (l l' : List Text) : commonLength l l' ≤ l.length := by
  induction l generalizing l' with
  | nil => exact Nat.zero_le _
  | cons a rest ih =>
    cases l' with
    | nil => exact Nat.zero_le _
    | cons b rest' =>
      rw [commonLength]
      split
      · exact Nat.succ_le_succ (ih rest')
      · exact Nat.zero_le _

theorem commonLength_eq_length_iff {l l' : List Text} :
    commonLength l l' = l.length ↔ l <+: l' := by
  induction l generalizing l' with
  | nil => exact ⟨fun _ => nil_prefix, fun _ => by cases l' <;> rfl⟩
  | cons a rest ih =>
    cases l' with
    | nil => simp [commonLength]
    | cons b rest' =>
      rw [commonLength, cons_prefix_cons]
      split
      · next hab => rw [length_cons, Nat.succ_inj, ih, and_iff_right hab]
      · next hab => simp [hab]

/-- What begins with `..` goes up. -/
theorem joinWith_dotDot (rest : List Text) :
    joinWith [slash] (dotDot :: rest) = dotDot
      ∨ startsWith (joinWith [slash] (dotDot :: rest)) (text "../") = true := by
  cases rest with
  | nil => exact .inl intercalate_singleton
  | cons segment rest =>
    refine .inr (List.isPrefixOf_iff_prefix.mpr ?_)
    rw [joinWith, intercalate_cons_cons]
    exact ⟨_, rfl⟩

theorem head?_joinWith_cons (c : UInt16) (others : Text) (rest : List Text) :
    (joinWith [slash] ((c :: others) :: rest)).head? = some c := by
  cases rest with
  | nil => rw [joinWith, intercalate_singleton, head?_cons]
  | cons second rest =>
    rw [joinWith, intercalate_cons_cons]
    rfl

/-- A path of names does not begin with a slash or with `..`. -/
theorem joinWith_names {names : List Text} (hnames : ∀ s ∈ names, IsName s) :
    let path := joinWith [slash] names
    isAbsolute path = false ∧ path ≠ dotDot ∧ startsWith path (text "../") = false := by
  cases names with
  | nil => exact ⟨rfl, by decide, rfl⟩
  | cons name rest =>
    obtain ⟨hslash, hne, hdotDot⟩ := hnames name mem_cons_self
    have hsplit : (joinWith [slash] (name :: rest)).splitOn slash = name :: rest :=
      splitOn_intercalate slash (fun s hs => (hnames s hs).1) (cons_ne_nil _ _)
    refine ⟨?_, fun heq => ?_, Bool.eq_false_iff.mpr fun hstarts => ?_⟩
    · obtain ⟨c, others, rfl⟩ := exists_cons_of_ne_nil hne
      have hc : c ≠ slash := fun h => hslash (h ▸ mem_cons_self)
      rw [isAbsolute, head?_joinWith_cons c others rest]
      exact decide_eq_false fun h => hc (Option.some.inj h)
    · rw [heq] at hsplit
      exact hdotDot (List.cons.inj hsplit).1.symm
    · obtain ⟨others, hothers⟩ := isPrefixOf_iff_prefix.mp hstarts
      have hpath : joinWith [slash] (name :: rest) = dotDot ++ slash :: others := hothers.symm
      rw [hpath, splitOn_append_cons_self] at hsplit
      exact hdotDot (List.cons.inj hsplit).1.symm

/-- A relative path that is empty, or does not go up, leads into the directory. -/
theorem relative_stays_iff (cwd base path : Text) :
    (relative cwd base path = [] ∨ isAbsolute (relative cwd base path) = false
        ∧ relative cwd base path ≠ dotDot
        ∧ startsWith (relative cwd base path) (text "../") = false)
      ↔ resolveSegments cwd [base] <+: resolveSegments cwd [path] := by
  rw [← commonLength_eq_length_iff]
  rcases Nat.lt_or_eq_of_le
    (commonLength_le (resolveSegments cwd [base]) (resolveSegments cwd [path])) with hlt | heq
  · refine iff_of_false ?_ (Nat.ne_of_lt hlt)
    obtain ⟨n, hn⟩ := Nat.exists_eq_succ_of_ne_zero (Nat.sub_ne_zero_of_lt hlt)
    rw [relative, hn, replicate_succ, cons_append]
    rcases joinWith_dotDot (List.replicate n dotDot ++ (resolveSegments cwd [path]).drop
      (commonLength (resolveSegments cwd [base]) (resolveSegments cwd [path]))) with h | h
    · rw [h]
      rintro (hnil | ⟨-, hne, -⟩)
      · exact absurd hnil (by decide)
      · exact hne rfl
    · rw [h]
      rintro (hnil | ⟨-, -, hfalse⟩)
      · rw [hnil] at h
        exact absurd h (by decide)
      · exact absurd hfalse (by decide)
  · refine iff_of_true (.inr ?_) heq
    rw [relative, heq, Nat.sub_self, replicate_zero, nil_append]
    exact joinWith_names fun s hs => isName_resolveSegments cwd [path] s (mem_of_mem_drop hs)

/-! ## Normalising again -/

/-- A segment that normalisation leaves: a name, or `..`. -/
def IsKept (segment : Text) : Prop := slash ∉ segment ∧ segment ≠ [] ∧ segment ≠ text "."

/-- Taking the kept segments up again leaves them as they are, wherever they are cut off. -/
structure Settled (allow : Bool) (kept : List Text) : Prop where
  isKept : ∀ s ∈ kept, IsKept s
  again : ∀ front, front <+: kept → front.foldl (push allow) [] = front

theorem Settled.concat {allow : Bool} (h : Settled allow kept) (hsegment : IsKept segment)
    (hpush : push allow kept segment = kept ++ [segment]) : Settled allow (kept ++ [segment]) where
  isKept := by
    intro s hs
    rcases mem_append.mp hs with hs | hs
    · exact h.isKept s hs
    · rwa [mem_singleton.mp hs]
  again := by
    intro front hfront
    rcases prefix_concat_iff.mp hfront with rfl | hfront
    · rw [foldl_append, h.again kept prefix_rfl]
      exact hpush
    · exact h.again front hfront

theorem Settled.push {allow : Bool} (h : Settled allow kept) (hsegment : slash ∉ segment) :
    Settled allow (push allow kept segment) := by
  by_cases hskip : segment = [] ∨ segment = text "."
  · rwa [PosixPath.push, if_pos hskip]
  have hself : IsKept segment :=
    ⟨hsegment, fun heq => hskip (.inl heq), fun heq => hskip (.inr heq)⟩
  have hconcat := h.concat hself
  unfold PosixPath.push at hconcat ⊢
  rw [if_neg hskip] at hconcat ⊢
  split_ifs at hconcat ⊢ with hdotDot
  · exact hdotDot ▸ hconcat (by rw [hdotDot])
  · exact h
  · exact ⟨fun s hs => h.isKept s (dropLast_subset _ hs),
      fun front hfront => h.again front (hfront.trans ( dropLast_prefix _))⟩
  · exact hconcat rfl

theorem Settled.foldl_push {allow : Bool} {segments : List Text}
    (hsegments : ∀ s ∈ segments, slash ∉ s) (h : Settled allow kept) :
    Settled allow (segments.foldl (PosixPath.push allow) kept) := by
  induction segments generalizing kept with
  | nil => exact h
  | cons segment rest ih =>
    exact ih (fun s hs => hsegments s (mem_cons_of_mem _ hs)) (h.push (hsegments _ mem_cons_self))

theorem settled_nil (allow : Bool) : Settled allow [] :=
  ⟨fun s hs => absurd hs not_mem_nil, fun front h => by rw [prefix_nil.mp h]; rfl⟩

/-- The kept segments of a path, joined: not empty, not absolute, and they split again. -/
theorem joinWith_kept {first : Text} {rest : List Text} (hkept : ∀ s ∈ first :: rest, IsKept s) :
    joinWith [slash] (first :: rest) ≠ [] ∧
      isAbsolute (joinWith [slash] (first :: rest)) = false ∧
      (joinWith [slash] (first :: rest)).splitOn slash = first :: rest := by
  obtain ⟨hslash, hne, -⟩ := hkept first mem_cons_self
  obtain ⟨c, others, rfl⟩ := exists_cons_of_ne_nil hne
  have hhead := head?_joinWith_cons c others rest
  refine ⟨fun hnil => ?_, ?_, ?_⟩
  · rw [hnil] at hhead
    cases hhead
  · rw [isAbsolute, hhead]
    exact decide_eq_false fun h => hslash (Option.some.inj h ▸ mem_cons_self)
  · exact splitOn_intercalate slash (fun s hs => (hkept s hs).1) (cons_ne_nil _ _)

/-- A body between its slashes is normalised on its own. -/
theorem normalize_body {absolute : Bool} {trailing : Prop} [Decidable trailing] {first : Text}
    {rest : List Text} (h : Settled (!absolute) (first :: rest)) {path : Text}
    (hpath : path = (if absolute then [slash] else []) ++ joinWith [slash] (first :: rest) ++
      (if trailing then [slash] else [])) : normalize path = path := by
  obtain ⟨hne, hrelative, hsplit⟩ := joinWith_kept h.isKept
  have hagain := h.again _ prefix_rfl
  generalize hbody : joinWith [slash] (first :: rest) = body at hpath hne hrelative hsplit
  have hlast : body.getLast? ≠ some slash := by
    intro hlast
    obtain ⟨front, rfl⟩ := getLast?_eq_some_iff.mp hlast
    rw [splitOn_append_cons_self front []] at hsplit
    exact (h.isKept [] (hsplit ▸ by simp)).2.1 rfl
  have habsolute : isAbsolute path = absolute := by
    rw [hpath, isAbsolute, append_assoc, head?_append]
    cases absolute with
    | true => rfl
    | false =>
      rw [if_neg Bool.false_ne_true, head?_nil, Option.none_or, head?_append_of_ne_nil _ hne]
      exact hrelative
  have htrailing : path.getLast? = some slash ↔ trailing := by
    rw [hpath, getLast?_append]
    by_cases htrailing : trailing
    · rw [if_pos htrailing]
      exact iff_of_true rfl htrailing
    · rw [if_neg htrailing, getLast?_nil, Option.none_or, getLast?_append_of_ne_nil _ hne]
      exact iff_of_false hlast htrailing
  have hskip : ∀ kept : List Text, PosixPath.push (!absolute) kept [] = kept :=
    fun kept => if_pos (.inl rfl)
  have hnames : normalizeSegments (!absolute) (path.splitOn slash) = first :: rest := by
    have hback : normalizeSegments (!absolute)
        ((body ++ (if trailing then [slash] else [])).splitOn slash) = first :: rest := by
      split_ifs
      · rw [splitOn_append_cons_self body [], hsplit, normalizeSegments, foldl_append, hagain]
        exact hskip _
      · rwa [append_nil, hsplit]
    rw [hpath]
    cases absolute with
    | true =>
      rw [if_pos rfl, append_assoc, singleton_append,
        show ∀ tail : Text, (slash :: tail).splitOn slash = [] :: tail.splitOn slash from
          fun tail => splitOn_append_cons_self [] tail, normalizeSegments, foldl_cons, hskip]
      exact hback
    | false => exact hback
  have hnonempty : path ≠ [] := by
    rw [hpath]
    simp [hne]
  rw [normalize, if_neg hnonempty, habsolute, hnames, hbody]
  dsimp only
  rw [if_neg hne, hpath]
  simp only [← hpath, htrailing]

/-- **A normalised path is left as it is.** -/
theorem normalize_normalize (path : Text) : normalize (normalize path) = normalize path := by
  by_cases hpath : path = []
  · subst hpath
    decide
  have hsettled : Settled (!isAbsolute path)
      (normalizeSegments (!isAbsolute path) (path.splitOn slash)) :=
    (settled_nil _).foldl_push fun s hs => notMem_of_mem_splitOn hs
  have hnormal : normalize path = _ := if_neg hpath
  dsimp only at hnormal
  generalize normalizeSegments (!isAbsolute path) (path.splitOn slash) = names
    at hsettled hnormal
  cases names with
  | nil =>
    have hempty : joinWith [slash] [] = [] := rfl
    rw [if_pos hempty] at hnormal
    rw [hnormal]
    split_ifs <;> decide
  | cons first rest =>
    rw [if_neg (joinWith_kept hsettled.isKept).1] at hnormal
    exact normalize_body hsettled hnormal

end PosixPath
