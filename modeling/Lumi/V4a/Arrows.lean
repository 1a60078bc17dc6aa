import Lumi.V4a.Patch

/-!
# Headers for two paths

The engine splits such a header at every arrow and keeps the first two parts.  The regular
expression of `DeterministicV4aPatch` takes one arrow, with a path on its left that has no line
terminator and the rest of the line on its right.  Where there is one arrow only, both read the
same two paths; where there are more, some path that the expression reads has an arrow in it and
no path of the engine has.
-/

namespace Lumi.V4a

open Js Unified List

def IsWhite (s : Text) : Prop := ∀ c ∈ s, isWhiteSpace c = true

/-- The text is the two groups of the expression, with an arrow and white space around them. -/
structure MoveMatch (s source dest : Text) : Prop where
  split : ∃ before left right, IsWhite before ∧ IsWhite left ∧ IsWhite right ∧
    s = (before ++ source ++ left) ++ 0x2D :: 0x3E :: (right ++ dest)
  source : InLine source
  dest : InLine dest

/-! ## What the expression matches -/

theorem isWhite_takeWhile (s : Text) : IsWhite (s.takeWhile isWhiteSpace) :=
  fun _ => mem_takeWhile_imp

theorem readRest_eq_some {s dest : Text} (h : readRest s = some dest) :
    InLine dest ∧ ∃ right, IsWhite right ∧ s = right ++ dest := by
  rw [readRest] at h
  split at h
  · next hwhite =>
    obtain ⟨c, hc, rfl⟩ := Option.map_eq_some_iff.mp h
    obtain ⟨hlast, hline⟩ := Option.filter_eq_some_iff.mp hc
    obtain ⟨front, rfl⟩ := getLast?_eq_some_iff.mp hlast
    have hall := dropWhile_eq_nil_iff.mp hwhite
    refine ⟨fun d hd => ?_, front, fun d hd => hall d (mem_append_left _ hd), rfl⟩
    rwa [mem_singleton.mp hd]
  · next c rest hrest =>
    split at h
    · next hall =>
      cases h
      refine ⟨all_eq_true.mp hall, _, isWhite_takeWhile s, ?_⟩
      rw [← hrest, takeWhile_append_dropWhile]
    · cases h

theorem readArrow_eq_some {s dest : Text} (h : readArrow s = some dest) :
    InLine dest ∧ ∃ left right, IsWhite left ∧ IsWhite right ∧
      s = left ++ 0x2D :: 0x3E :: (right ++ dest) := by
  unfold readArrow at h
  dsimp only at h
  split at h
  · next hstarts =>
    obtain ⟨tail, htail⟩ := isPrefixOf_iff_prefix.mp hstarts
    have harrow : s.dropWhile isWhiteSpace = 0x2D :: 0x3E :: tail := htail.symm
    rw [harrow] at h
    obtain ⟨hline, right, hright, hsplit⟩ := readRest_eq_some h
    refine ⟨hline, _, right, isWhite_takeWhile s, hright, ?_⟩
    calc s = s.takeWhile isWhiteSpace ++ s.dropWhile isWhiteSpace :=
          takeWhile_append_dropWhile.symm
      _ = s.takeWhile isWhiteSpace ++ 0x2D :: 0x3E :: tail := by rw [harrow]
      _ = _ := congrArg (fun t => s.takeWhile isWhiteSpace ++ 0x2D :: 0x3E :: t) hsplit
  · cases h

/-- Soundness of the two searches. -/
theorem readMove_eq_some {s source dest : Text} (h : readMove s = some (source, dest)) :
    MoveMatch s source dest := by
  obtain ⟨k, hk, h⟩ := exists_of_findSome?_eq_some h
  obtain ⟨n, hn, h⟩ := exists_of_findSome?_eq_some h
  split at h
  · next hall =>
    obtain ⟨found, hfound, heq⟩ := Option.map_eq_some_iff.mp h
    obtain ⟨rfl, rfl⟩ := Prod.mk.inj heq
    obtain ⟨hdest, left, right, hleft, hright, hsplit⟩ := readArrow_eq_some hfound
    have hwhite : IsWhite (s.take k) := by
      have hle : k ≤ (s.takeWhile isWhiteSpace).length := by
        have hlt := mem_range.mp (mem_reverse.mp hk)
        omega
      have hstart : s.take k <+: s.takeWhile isWhiteSpace :=
        prefix_of_prefix_length_le (List.take_prefix k s) (List.takeWhile_prefix _)
          (by rw [length_take]; omega)
      exact fun c hc => isWhite_takeWhile s c (hstart.subset hc)
    refine ⟨⟨s.take k, left, right, hwhite, hleft, hright, ?_⟩, all_eq_true.mp hall, hdest⟩
    calc s = s.take k ++ ((s.drop k).take (n + 1) ++ (s.drop k).drop (n + 1)) := by
          rw [take_append_drop, take_append_drop]
      _ = _ := by rw [hsplit]; simp only [append_assoc]
  · cases h

/-- Completeness: where the groups can be chosen, the searches find some. -/
theorem readMove_isSome {before source left tail : Text} (hbefore : IsWhite before)
    (hsource : InLine source) (hne : source ≠ []) (hleft : IsWhite left)
    (htail : (readRest tail).isSome = true) :
    (readMove (before ++ (source ++ (left ++ 0x2D :: 0x3E :: tail)))).isSome = true := by
  have harrow : readArrow (left ++ 0x2D :: 0x3E :: tail) = readRest tail := by
    have hdrop : (left ++ 0x2D :: 0x3E :: tail).dropWhile isWhiteSpace = 0x2D :: 0x3E :: tail :=
      dropWhile_append_of_pos hleft
    rw [readArrow, hdrop]
    rfl
  obtain ⟨dest, hdest⟩ := Option.isSome_iff_exists.mp htail
  obtain ⟨n, hn⟩ := Nat.exists_eq_succ_of_ne_zero (length_pos_iff_ne_nil.mpr hne).ne'
  refine findSome?_isSome_iff.mpr ⟨before.length, ?_, ?_⟩
  · have htake : (before ++ (source ++ (left ++ 0x2D :: 0x3E :: tail))).takeWhile isWhiteSpace
        = before ++ (source ++ (left ++ 0x2D :: 0x3E :: tail)).takeWhile isWhiteSpace :=
      takeWhile_append_of_pos hbefore
    rw [mem_reverse, mem_range, htake, length_append]
    omega
  · rw [drop_left]
    refine findSome?_isSome_iff.mpr ⟨n, ?_, ?_⟩
    · rw [mem_range, length_append]
      omega
    · have hlength : source.length = n + 1 := hn
      rw [← hlength, take_left, drop_left, if_pos (all_eq_true.mpr hsource), harrow,
        hdest]
      rfl

/-! ## The number of arrows -/

theorem dash_ne_gt : (0x2D : UInt16) ≠ 0x3E := by decide

theorem IsWhite.notMem {s : Text} (h : IsWhite s) {d : UInt16} (hd : isWhiteSpace d = false) :
    ∀ c ∈ s, c ≠ d := by
  rintro c hc rfl
  rw [h c hc] at hd
  exact absurd hd (by decide)

/-- White space at the ends makes no new part. -/
theorem length_splitArrows_between {us vs : Text} (hus : IsWhite us) (hvs : IsWhite vs) (s : Text) :
    (splitArrows (us ++ s ++ vs)).length = (splitArrows s).length :=
  PairSplit.length_parts_between (hus.notMem (by decide)) (hvs.notMem (by decide)) s

theorem length_splitArrows_trim (s : Text) :
    (splitArrows (trim s)).length = (splitArrows s).length := by
  obtain ⟨us, vs, hus, hvs, hsplit⟩ := Trim.exists_both (p := isWhiteSpace) s
  calc (splitArrows (trim s)).length
      = (splitArrows (us ++ trim s ++ vs)).length := (length_splitArrows_between hus hvs _).symm
    _ = (splitArrows s).length := by rw [trim_def, ← hsplit]

theorem trim_between {us vs : Text} (hus : IsWhite us) (hvs : IsWhite vs) (s : Text) :
    trim (us ++ s ++ vs) = trim s := Trim.both_between hus hvs s

theorem noArrow_iff {s : Text} : NoArrow s ↔ (splitArrows s).length = 1 := by
  constructor
  · intro h
    rw [h]
    rfl
  · intro h
    obtain ⟨part, hpart⟩ := length_eq_one_iff.mp h
    rw [NoArrow, hpart, PairSplit.eq_of_parts_singleton hpart]

theorem splitArrows_append (s t : Text) :
    splitArrows (s ++ 0x2D :: 0x3E :: t) = splitArrows s ++ splitArrows t :=
  PairSplit.parts_append dash_ne_gt s t

theorem isWhite_nil : IsWhite [] := fun _ hc => absurd hc not_mem_nil

theorem isWhite_space : IsWhite [0x20] := fun c hc => by
  rw [mem_singleton.mp hc]
  rfl

/-- The two paths of a header, with the blanks around them and the arrow between. -/
theorem length_splitArrows_header (before source dest : Text) (hbefore : IsWhite before) :
    (splitArrows (before ++ (source ++ (text " -> " ++ dest)))).length
      = (splitArrows source).length + (splitArrows dest).length := by
  have hshape : before ++ (source ++ (text " -> " ++ dest))
      = (before ++ source ++ [0x20]) ++ 0x2D :: 0x3E :: (0x20 :: dest) := by
    simp only [append_assoc]
    rfl
  have hdest : (splitArrows (0x20 :: dest)).length = (splitArrows dest).length :=
    PairSplit.length_parts_cons (by decide) dest
  rw [hshape, splitArrows_append, length_append,
    length_splitArrows_between hbefore isWhite_space, hdest]

/-- One arrow in the header is none in the paths. -/
theorem noArrow_of_length {before source dest : Text} (hbefore : IsWhite before)
    (h : (splitArrows (before ++ (source ++ (text " -> " ++ dest)))).length = 2) :
    NoArrow source ∧ NoArrow dest := by
  have hsource : 0 < (splitArrows source).length := PairSplit.length_parts_pos source
  have hdest : 0 < (splitArrows dest).length := PairSplit.length_parts_pos dest
  rw [length_splitArrows_header before source dest hbefore] at h
  exact ⟨noArrow_iff.mpr (by omega), noArrow_iff.mpr (by omega)⟩

/-! ## One header, two readings -/

section

variable {source dest : Text}

/-- What the expression matches where the header has one arrow. -/
theorem MoveMatch.trim_eq {s x y : Text} (hmatch : MoveMatch s x y)
    (hs : s = 0x20 :: (source ++ (text " -> " ++ dest))) (hsource : NoArrow source)
    (hdest : NoArrow dest) :
    trim x = trim source ∧ trim y = trim dest ∧ InLine (trim source) ∧ ReadablePath dest := by
  obtain ⟨before, left, right, hbefore, hleft, hright, hsplit⟩ := hmatch.split
  have hshape : s = (0x20 :: (source ++ [0x20])) ++ 0x2D :: 0x3E :: (0x20 :: dest) := by
    rw [hs]
    simp only [cons_append, append_assoc]
    rfl
  have hparts : splitArrows (before ++ x ++ left) ++ splitArrows (right ++ y)
      = splitArrows (0x20 :: (source ++ [0x20])) ++ splitArrows (0x20 :: dest) := by
    rw [← splitArrows_append, ← splitArrows_append, ← hsplit, hshape]
  have hfront : NoArrow (0x20 :: (source ++ [0x20])) := noArrow_iff.mpr <|
    (length_splitArrows_between isWhite_space isWhite_space source).trans (noArrow_iff.mp hsource)
  have hback : NoArrow (0x20 :: dest) := noArrow_iff.mpr <|
    (PairSplit.length_parts_cons (by decide) dest).trans (noArrow_iff.mp hdest)
  rw [hfront, hback] at hparts
  have hlengths := congrArg List.length hparts
  have hx : 0 < (splitArrows (before ++ x ++ left)).length := PairSplit.length_parts_pos _
  have hy : 0 < (splitArrows (right ++ y)).length := PairSplit.length_parts_pos _
  rw [length_append, length_append, length_singleton, length_singleton]
    at hlengths
  have hxOne : NoArrow (before ++ x ++ left) := noArrow_iff.mpr (by omega)
  have hyOne : NoArrow (right ++ y) := noArrow_iff.mpr (by omega)
  rw [hxOne, hyOne] at hparts
  obtain ⟨hxEq, hrest⟩ := List.cons.inj hparts
  obtain ⟨hyEq, -⟩ := List.cons.inj hrest
  have htrimSource : trim x = trim source := by
    calc trim x = trim (before ++ x ++ left) := (trim_between hbefore hleft x).symm
      _ = trim ([0x20] ++ source ++ [0x20]) := congrArg trim hxEq
      _ = trim source := trim_between isWhite_space isWhite_space source
  have hdrop : y.dropWhile isWhiteSpace = dest.dropWhile isWhiteSpace := by
    calc y.dropWhile isWhiteSpace
        = (right ++ y).dropWhile isWhiteSpace := (dropWhile_append_of_pos hright).symm
      _ = (0x20 :: dest).dropWhile isWhiteSpace := by rw [hyEq]
      _ = dest.dropWhile isWhiteSpace := rfl
  refine ⟨htrimSource, ?_, ?_, ?_⟩
  · rw [trim, hdrop]
    rfl
  · intro c hc
    obtain ⟨us, vs, -, -, hx⟩ := Trim.exists_both (p := isWhiteSpace) x
    rw [← htrimSource, trim_def] at hc
    refine hmatch.source c ?_
    rw [hx]
    exact mem_append_left _ (mem_append_right _ hc)
  · intro c hc
    rw [← hdrop] at hc
    exact hmatch.dest c (dropWhile_subset _ hc)

/-- The expression matches a header with readable paths. -/
theorem readMove_isSome_of_readable {source dest : FileName} (hsource : InLine (trim source.val))
    (hdest : ReadablePath dest.val) :
    (readMove (0x20 :: (source.val ++ (text " -> " ++ dest.val)))).isSome = true := by
  obtain ⟨us, vs, hus, hvs, hsplit⟩ := Trim.exists_both (p := isWhiteSpace) source.val
  have hbefore : IsWhite (0x20 :: us) := fun c hc =>
    (mem_cons.mp hc).elim (fun h => h ▸ rfl) (hus c)
  have hleft : IsWhite (vs ++ [0x20]) := fun c hc =>
    (mem_append.mp hc).elim (hvs c) (isWhite_space c)
  have htail : (readRest (0x20 :: dest.val)).isSome = true := by
    rw [readRest_space, if_pos hdest]
    rfl
  have hfound := readMove_isSome hbefore hsource source.property hleft htail
  have hshape : (0x20 :: us) ++ (trim source.val ++ ((vs ++ [0x20]) ++ 0x2D :: 0x3E ::
      (0x20 :: dest.val))) = 0x20 :: (source.val ++ (text " -> " ++ dest.val)) := by
    calc (0x20 :: us) ++ (trim source.val ++ ((vs ++ [0x20]) ++ 0x2D :: 0x3E :: (0x20 :: dest.val)))
        = 0x20 :: ((us ++ trim source.val ++ vs) ++ (text " -> " ++ dest.val)) := by
          simp only [cons_append, append_assoc]
          rfl
      _ = 0x20 :: (source.val ++ (text " -> " ++ dest.val)) := by rw [trim_def, ← hsplit]
  rwa [hshape] at hfound

/-- The first two parts of a header are trimmed alike to what the expression matches just where
the paths have no arrow. -/
theorem splitArrows_header_iff {s x y : Text} (hmatch : MoveMatch s x y)
    (hs : s = 0x20 :: (source ++ (text " -> " ++ dest))) :
    ((splitArrows (source ++ (text " -> " ++ trimEnd dest))).map trim).headD [] = trim x ∧
        ((splitArrows (source ++ (text " -> " ++ trimEnd dest))).map trim)[1]? = some (trim y) ↔
      NoArrow source ∧ NoArrow dest := by
  have hend : (splitArrows (trimEnd dest)).length = (splitArrows dest).length := by
    rw [← length_splitArrows_trim (trimEnd dest), trim_trimEnd, length_splitArrows_trim]
  constructor
  · rintro ⟨hfirst, hsecond⟩
    -- the parts of the engine have no arrow, so what the expression matches has none
    obtain ⟨first, second, others, hparts⟩ : ∃ first second others,
        splitArrows (source ++ (text " -> " ++ trimEnd dest)) = first :: second :: others := by
      cases hparts : splitArrows (source ++ (text " -> " ++ trimEnd dest)) with
      | nil => exact absurd hparts (PairSplit.parts_ne_nil _)
      | cons first rest =>
        cases rest with
        | nil => rw [hparts] at hsecond; cases hsecond
        | cons second others => exact ⟨first, second, others, rfl⟩
    rw [hparts] at hfirst hsecond
    have hfirstTrim : trim first = trim x := hfirst
    have hsecondTrim : trim second = trim y := Option.some.inj hsecond
    obtain ⟨ys, -, hys⟩ := PairSplit.exists_of_parts_cons hparts
    have hfirstOne : (splitArrows first).length = 1 :=
      PairSplit.length_parts_first dash_ne_gt hparts
    have hsecondOne : (splitArrows second).length = 1 :=
      PairSplit.length_parts_first dash_ne_gt hys
    obtain ⟨before, left, right, hbefore, hleft, hright, hsplit⟩ := hmatch.split
    have hx : (splitArrows (before ++ x ++ left)).length = 1 := by
      rw [length_splitArrows_between hbefore hleft, ← length_splitArrows_trim, ← hfirstTrim,
        length_splitArrows_trim, hfirstOne]
    have hy : (splitArrows (right ++ y)).length = 1 := by
      have hbetween := length_splitArrows_between hright isWhite_nil y
      rw [append_nil] at hbetween
      rw [hbetween, ← length_splitArrows_trim, ← hsecondTrim, length_splitArrows_trim, hsecondOne]
    refine noArrow_of_length isWhite_space ?_
    calc (splitArrows ([0x20] ++ (source ++ (text " -> " ++ dest)))).length
        = (splitArrows ((before ++ x ++ left) ++ 0x2D :: 0x3E :: (right ++ y))).length := by
          rw [← hsplit, hs]
          rfl
      _ = 2 := by rw [splitArrows_append, length_append, hx, hy]
  · rintro ⟨hsource, hdest⟩
    obtain ⟨hx, hy, -, -⟩ := hmatch.trim_eq hs hsource hdest
    have hfront : NoArrow (source ++ [0x20]) := noArrow_iff.mpr <|
      (length_splitArrows_between isWhite_nil isWhite_space source).trans (noArrow_iff.mp hsource)
    have hback : NoArrow (0x20 :: trimEnd dest) := noArrow_iff.mpr <|
      (PairSplit.length_parts_cons (by decide) _).trans (hend.trans (noArrow_iff.mp hdest))
    have hshape : source ++ (text " -> " ++ trimEnd dest)
        = (source ++ [0x20]) ++ 0x2D :: 0x3E :: (0x20 :: trimEnd dest) := by
      rw [append_assoc]
      rfl
    have hparts : splitArrows (source ++ (text " -> " ++ trimEnd dest))
        = [source ++ [0x20], 0x20 :: trimEnd dest] := by
      rw [hshape, splitArrows_append, hfront, hback]
      rfl
    rw [hparts, hx, hy]
    have hsourceTrim : trim (source ++ [0x20]) = trim source :=
      trim_between isWhite_nil isWhite_space source
    exact ⟨hsourceTrim, congrArg some (trim_trimEnd dest)⟩

end

end Lumi.V4a
