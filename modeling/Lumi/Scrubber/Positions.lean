import Mathlib.Data.List.Induction
import Lumi.Lib.Window
import Lumi.Scrubber.StreamingScrubberEngine

/-!
# The scrubber on positions

What the engine does with the buffer, read as positions in the whole stream.  `Scrubs` is a machine
whose state is whether a block is open and the position up to which the stream has been dealt with:
its moves depend on where the tags stand, and on the text it puts out.  `rounds_scrubs` says that the
loop of `feed` is this machine, for ASCII streams and where open tags are taken wherever they stand.
-/

namespace Lumi.Scrubber

open Js Window List Option

def openTag (name : Text) : Text := text "<" ++ name ++ text ">"

def closeTag (name : Text) : Text := text "</" ++ name ++ text ">"

/-- A name without angle brackets and slashes. -/
def IsTagName (name : Text) : Prop := 0x3C ∉ name ∧ 0x3E ∉ name ∧ 0x2F ∉ name

instance (name : Text) : Decidable (IsTagName name) := inferInstanceAs (Decidable (_ ∧ _ ∧ _))

section

variable {s name name' : Text} {i : ℕ}

theorem prefixed_iff {pattern : Text} : StandsAt s pattern i ↔ pattern <+: s.drop i := by
  rw [StandsAt, prefix_iff_eq_take, eq_comm]

/-- Of two texts without a character that ends them, one is not the beginning of the other. -/
theorem eq_of_standsAt_closed {c : UInt16} {lead : Text} {body body' : Text} (hbody : c ∉ body)
    (hbody' : c ∉ body') (h : StandsAt s (lead ++ body ++ [c]) i)
    (h' : StandsAt s (lead ++ body' ++ [c]) i) : body = body' := by
  have hended : ∀ {first second : Text}, c ∉ second →
      lead ++ first ++ [c] <+: lead ++ second ++ [c] → first = second := by
    intro first second hsecond hprefix
    rw [append_assoc, append_assoc, prefix_append_right_inj,
      prefix_concat_iff] at hprefix
    obtain heq | hshort := hprefix
    · exact append_cancel_right heq
    · exact absurd (hshort.subset (mem_append_right _ (mem_singleton_self c))) hsecond
  obtain hprefix | hprefix := prefix_or_prefix_of_prefix (prefixed_iff.mp h)
    (prefixed_iff.mp h')
  · exact hended hbody' hprefix
  · exact (hended hbody hprefix).symm

theorem eq_of_standsAt_openTag (hname : IsTagName name) (hname' : IsTagName name')
    (h : StandsAt s (openTag name) i) (h' : StandsAt s (openTag name') i) : name = name' :=
  eq_of_standsAt_closed hname.2.1 hname'.2.1 h h'

theorem eq_of_standsAt_closeTag (hname : IsTagName name) (hname' : IsTagName name')
    (h : StandsAt s (closeTag name) i) (h' : StandsAt s (closeTag name') i) : name = name' :=
  eq_of_standsAt_closed hname.2.1 hname'.2.1 h h'

end

section

variable {α : Type*} {candidates : List (ℕ × α)}

theorem earliest_concat (candidates : List (ℕ × α)) (candidate : ℕ × α) :
    earliest (candidates ++ [candidate]) = match earliest candidates with
      | none => some candidate
      | some found => if candidate.1 < found.1 then some candidate else some found := by
  rw [earliest, foldl_append]
  rfl

/-- The earliest candidate, if there is any. -/
theorem earliest_spec (candidates : List (ℕ × α)) :
    (candidates = [] ∧ earliest candidates = none)
      ∨ ∃ found ∈ candidates, earliest candidates = some found
        ∧ ∀ candidate ∈ candidates, found.1 ≤ candidate.1 := by
  induction candidates using List.reverseRecOn with
  | nil => exact .inl ⟨rfl, rfl⟩
  | append_singleton candidates candidate ih =>
    rw [earliest_concat]
    obtain ⟨rfl, hnone⟩ | ⟨found, hfound, hsome, hleast⟩ := ih
    · rw [hnone]
      refine .inr ⟨candidate, by simp, rfl, fun other hother => ?_⟩
      rw [mem_singleton.mp hother]
    · rw [hsome]
      dsimp only
      split
      next hlt =>
        refine .inr ⟨candidate, by simp, rfl, fun other hother => ?_⟩
        obtain hother | hother := mem_append.mp hother
        · exact hlt.le.trans (hleast other hother)
        · rw [mem_singleton.mp hother]
      next hnot =>
        refine .inr ⟨found, mem_append_left _ hfound, rfl, fun other hother => ?_⟩
        obtain hother | hother := mem_append.mp hother
        · exact hleast other hother
        · rw [mem_singleton.mp hother]
          exact not_lt.mp hnot

theorem earliest_eq_none (h : ∀ candidate, candidate ∉ candidates) : earliest candidates = none := by
  obtain ⟨-, hnone⟩ | ⟨found, hfound, -⟩ := earliest_spec candidates
  · exact hnone
  · exact absurd hfound (h found)

/-- The candidate that comes first, if no other comes as early. -/
theorem earliest_eq_some {found : ℕ × α} (hfound : found ∈ candidates)
    (hleast : ∀ candidate ∈ candidates, found.1 < candidate.1 ∨ candidate = found) :
    earliest candidates = some found := by
  obtain ⟨rfl, -⟩ | ⟨other, hother, hsome, hmin⟩ := earliest_spec candidates
  · cases hfound
  · obtain hlt | heq := hleast other hother
    · exact absurd (hmin found hfound) (not_le_of_gt hlt)
    · rw [hsome, heq]

end

section

variable (lowerBuf tag : Text) (maxLen : ℕ)

/-- The search gives a partial tag at the end of the text, or leaves the length it had. -/
theorem longestPartial_spec (n : ℕ) :
    (longestPartial lowerBuf tag maxLen n = maxLen
        ∨ (longestPartial lowerBuf tag maxLen n ≤ n))
      ∧ maxLen ≤ longestPartial lowerBuf tag maxLen n
      ∧ ∀ k ≤ n, endsWith lowerBuf (tag.take k) = true →
        k ≤ longestPartial lowerBuf tag maxLen n := by
  induction n with
  | zero => exact ⟨.inl rfl, le_rfl, fun k hk _ => by omega⟩
  | succ n ih =>
    rw [longestPartial]
    split
    next hgt =>
      split
      next hends => exact ⟨.inr le_rfl, hgt.le, fun k hk _ => hk⟩
      next hnot =>
        obtain ⟨hvalue, hle, hall⟩ := ih
        refine ⟨hvalue.imp_right fun h => h.trans (Nat.le_succ n), hle, fun k hk hends => ?_⟩
        obtain hlt | rfl := Nat.lt_or_eq_of_le hk
        · exact hall k (Nat.lt_succ_iff.mp hlt) hends
        · exact absurd hends hnot
    next hnot => exact ⟨.inl rfl, le_rfl, fun k hk _ => by omega⟩

end

/-! ## Tags in the buffer -/

/-- What `toLowerCase` makes of an ASCII text. -/
def lower (s : Text) : Text := s.map lowerAscii

def IsAscii (s : Text) : Prop := ∀ c ∈ s, c < 0x80

instance (s : Text) : Decidable (IsAscii s) := List.decidableBAll (· < 0x80) s

theorem isAscii_segment {stream : Text} {start stop : ℕ} (h : IsAscii stream) :
    IsAscii (segment stream start stop) :=
  fun c hc => h c (mem_of_mem_segment hc)

theorem length_lower (s : Text) : (lower s).length = s.length := length_map lowerAscii

theorem openTag_ne_nil (name : Text) : openTag name ≠ [] := cons_ne_nil _ _

theorem closeTag_ne_nil (name : Text) : closeTag name ≠ [] := cons_ne_nil _ _

/-- The host lowers ASCII texts letter by letter. -/
def LowersAscii [Host] : Prop := ∀ s : Text, IsAscii s → toLowerCase s = lower s

section

variable {L : Text} {start stop i : ℕ} {tag : Text}

theorem indexOf_segment_eq_some_iff (hne : tag ≠ []) {skip k : ℕ} :
    indexOf (segment L start stop) tag skip = some k
      ↔ First [tag] L (start + skip) stop (start + k) tag := by
  rw [indexOf_eq_some_iff hne]
  refine ⟨fun h => ?_, fun h => ?_⟩
  · obtain ⟨hskip, hstands, hbefore⟩ := h
    obtain ⟨hstands, hfits⟩ := (standsAt_segment_iff hne).mp hstands
    refine ⟨mem_singleton_self _, Nat.add_le_add_left hskip start, hstands, hfits, ?_⟩
    intro other hother i hi hlt hstands'
    rw [mem_singleton.mp hother] at hstands' ⊢
    by_contra hnot
    obtain ⟨j, rfl⟩ : ∃ j, i = start + j := ⟨i - start, by omega⟩
    exact hbefore j (by omega) (by omega)
      ((standsAt_segment_iff hne).mpr ⟨hstands', not_lt.mp hnot⟩)
  · refine ⟨by have := h.le; omega, (standsAt_segment_iff hne).mpr ⟨h.stands, h.fits⟩, ?_⟩
    intro j hj hlt hstands
    obtain ⟨hstands, hfits⟩ := (standsAt_segment_iff hne).mp hstands
    have := h.before tag (mem_singleton_self _) (start + j) (by omega) (by omega) hstands
    omega

theorem indexOf_segment_eq_none_iff (hne : tag ≠ []) {skip : ℕ} :
    indexOf (segment L start stop) tag skip = none ↔ Absent [tag] L (start + skip) stop := by
  rw [indexOf_eq_none_iff hne]
  refine ⟨fun h => ?_, fun h j hj hstands => ?_⟩
  · intro other hother i hi hstands
    rw [mem_singleton.mp hother] at hstands ⊢
    by_contra hnot
    obtain ⟨j, rfl⟩ : ∃ j, i = start + j := ⟨i - start, by omega⟩
    exact h j (by omega) ((standsAt_segment_iff hne).mpr ⟨hstands, not_lt.mp hnot⟩)
  · obtain ⟨hstands, hfits⟩ := (standsAt_segment_iff hne).mp hstands
    have := h tag (mem_singleton_self _) (start + j) (by omega) hstands
    omega

/-- A tag that the window cuts off is partly at its end. -/
theorem endsWith_of_cut (hstart : start ≤ i) (hstop : i ≤ stop) (hcut : stop ≤ i + tag.length)
    (h : StandsAt L tag i) : endsWith (segment L start stop) (tag.take (stop - i)) = true := by
  have hpart : segment L i stop = tag.take (stop - i) := by
    rw [StandsAt] at h
    rw [Window.segment, drop_take]
    have htake := congrArg (List.take (stop - i)) h
    rwa [take_take, min_eq_left (by omega)] at htake
  rw [endsWith, isSuffixOf_iff_suffix, ← segment_append hstart hstop, hpart]
  exact suffix_append _ _

end

section

variable [Host] {buf : Text} {tags : List Text}

theorem maxPartialSuffix_le_length (buf : Text) (tags : List Text) :
    maxPartialSuffix buf tags ≤ (toLowerCase buf).length := by
  have hfold : ∀ (tags : List Text) (maxLen : ℕ), maxLen ≤ (toLowerCase buf).length →
      tags.foldl (fun maxLen tag => longestPartial (toLowerCase buf) tag maxLen
        (min (tag.length - 1) (toLowerCase buf).length)) maxLen ≤ (toLowerCase buf).length := by
    intro tags
    induction tags with
    | nil => exact fun _ h => h
    | cons tag rest ih =>
      intro maxLen h
      rw [foldl_cons]
      refine ih _ ?_
      obtain ⟨hsame | hle, -⟩ := longestPartial_spec (toLowerCase buf) tag maxLen
        (min (tag.length - 1) (toLowerCase buf).length)
      · rw [hsame]
        exact h
      · exact hle.trans (min_le_right _ _)
  exact hfold tags 0 (Nat.zero_le _)

theorem le_maxPartialSuffix {tag : Text} (htag : tag ∈ tags) {k : ℕ} (hk : k < tag.length)
    (hlength : k ≤ (toLowerCase buf).length)
    (hends : endsWith (toLowerCase buf) (tag.take k) = true) : k ≤ maxPartialSuffix buf tags := by
  have hfold : ∀ (tags : List Text) (maxLen : ℕ), k ≤ maxLen ∨ tag ∈ tags →
      k ≤ tags.foldl (fun maxLen tag => longestPartial (toLowerCase buf) tag maxLen
        (min (tag.length - 1) (toLowerCase buf).length)) maxLen := by
    intro tags
    induction tags with
    | nil => exact fun maxLen h => h.resolve_right not_mem_nil
    | cons other rest ih =>
      intro maxLen h
      rw [foldl_cons]
      refine ih _ ?_
      obtain ⟨-, hle, hall⟩ := longestPartial_spec (toLowerCase buf) other maxLen
        (min (other.length - 1) (toLowerCase buf).length)
      obtain h | h := h
      · exact .inl (h.trans hle)
      · obtain rfl | h := mem_cons.mp h
        · exact .inl (hall k (le_min (by omega) hlength) hends)
        · exact .inr h
  exact hfold tags 0 (.inr htag)

end

/-! ## The machine -/

open DeterministicStreamingScrubberEngine

section

variable [Host] (engine : DeterministicStreamingScrubberEngine)

/-- The engine has the tags of these names. -/
structure Named (names : List Text) : Prop where
  openTags : engine.openTags = names.map openTag
  closeTags : engine.closeTags = names.map closeTag
  isTagName : ∀ name ∈ names, IsTagName name

/-- The position from which on the engine holds back, outside a block. -/
def holdAt (stream : Text) (start stop : ℕ) : ℕ :=
  stop - max (maxPartialSuffix (segment stream start stop) engine.openTags)
    (maxPartialSuffix (segment stream start stop) engine.closeTags)

/-- From a mode and a position, with the stream known up to `stop`: what is put out, and the mode and
the position at which the engine waits for more. -/
inductive Scrubs (names : List Text) (stream : Text) (stop : ℕ) :
    Bool → ℕ → Text → Bool → ℕ → Prop
  | closeBlock {start place last : ℕ} {tag put : Text} {mode : Bool}
      (hfirst : First engine.closeTags (lower stream) start stop place tag)
      (hrest : Scrubs names stream stop false (place + tag.length) put mode last) :
      Scrubs names stream stop true start put mode last
  | wait {start last : ℕ} (habsent : Absent engine.closeTags (lower stream) start stop)
      (hstart : start ≤ last) (hlast : last ≤ stop)
      (hkept : ∀ tag ∈ engine.closeTags, ∀ i, start ≤ i → StandsAt (lower stream) tag i → last ≤ i) :
      Scrubs names stream stop true start [] true last
  | pair {start place closing last : ℕ} {name put : Text} {mode : Bool} (hname : name ∈ names)
      (hfirst : First engine.openTags (lower stream) start stop place (openTag name))
      (hclosing : First [closeTag name] (lower stream) (place + (openTag name).length) stop closing
        (closeTag name))
      (hrest : Scrubs names stream stop false (closing + (closeTag name).length) put mode last) :
      Scrubs names stream stop false start
        (engine.stripOrphanCloseTags (segment stream start place) ++ put) mode last
  | openBlock {start place last : ℕ} {name put : Text} {mode : Bool} (hname : name ∈ names)
      (hfirst : First engine.openTags (lower stream) start stop place (openTag name))
      (hclosing : Absent [closeTag name] (lower stream) (place + (openTag name).length) stop)
      (hrest : Scrubs names stream stop true (place + (openTag name).length) put mode last) :
      Scrubs names stream stop false start
        (engine.stripOrphanCloseTags (segment stream start place) ++ put) mode last
  | hold {start : ℕ} (habsent : Absent engine.openTags (lower stream) start stop) :
      Scrubs names stream stop false start
        (engine.stripOrphanCloseTags (segment stream start (holdAt engine stream start stop))) false
        (holdAt engine stream start stop)

end

/-! ## Names and pieces -/

section

variable {engine : DeterministicStreamingScrubberEngine} {names : List Text} {stream : Text}

section

variable (hnamed : Named engine names)
include hnamed

theorem unique_openTags : ∀ tag ∈ engine.openTags,
    ∀ other ∈ engine.openTags, ∀ i, StandsAt (lower stream) tag i →
      StandsAt (lower stream) other i → tag = other := by
  rw [hnamed.openTags]
  intro tag htag other hother i hstands hstands'
  obtain ⟨name, hname, rfl⟩ := mem_map.mp htag
  obtain ⟨name', hname', rfl⟩ := mem_map.mp hother
  rw [eq_of_standsAt_openTag (hnamed.isTagName name hname) (hnamed.isTagName name' hname')
    hstands hstands']

theorem unique_closeTags : ∀ tag ∈ engine.closeTags,
    ∀ other ∈ engine.closeTags, ∀ i, StandsAt (lower stream) tag i →
      StandsAt (lower stream) other i → tag = other := by
  rw [hnamed.closeTags]
  intro tag htag other hother i hstands hstands'
  obtain ⟨name, hname, rfl⟩ := mem_map.mp htag
  obtain ⟨name', hname', rfl⟩ := mem_map.mp hother
  rw [eq_of_standsAt_closeTag (hnamed.isTagName name hname) (hnamed.isTagName name' hname')
    hstands hstands']

theorem ne_nil_of_mem_openTags : ∀ tag ∈ engine.openTags, tag ≠ [] := by
  rw [hnamed.openTags]
  intro tag htag
  obtain ⟨name, -, rfl⟩ := mem_map.mp htag
  exact openTag_ne_nil name

theorem ne_nil_of_mem_closeTags : ∀ tag ∈ engine.closeTags, tag ≠ [] := by
  rw [hnamed.closeTags]
  intro tag htag
  obtain ⟨name, -, rfl⟩ := mem_map.mp htag
  exact closeTag_ne_nil name

end

theorem stripOrphanCloseTags_nil : engine.stripOrphanCloseTags [] = [] := by
  rw [stripOrphanCloseTags]
  induction engine.closeTags with
  | nil => rfl
  | cons tag rest ih => rwa [foldl_cons, removeTag]

theorem flatten_emit (loop : Loop) (piece : Text) : (loop.emit engine piece).out.flatten
    = loop.out.flatten ++ engine.stripOrphanCloseTags piece := by
  rw [Loop.emit]
  by_cases hpiece : piece = []
  · rw [if_pos (.inl hpiece), hpiece, stripOrphanCloseTags_nil, append_nil]
  · by_cases hstripped : engine.stripOrphanCloseTags piece = []
    · rw [if_pos (.inr hstripped), hstripped, append_nil]
    · rw [if_neg (by simp [hpiece, hstripped]), flatten_append, flatten_singleton]

theorem inBlock_emit (loop : Loop) (piece : Text) :
    (loop.emit engine piece).inBlock = loop.inBlock := by
  rw [Loop.emit]
  split
  · rfl
  · rfl

end

/-! ## What a round does -/

section

variable [Host] {engine : DeterministicStreamingScrubberEngine} {names : List Text} {stream : Text}
  {start stop place : ℕ} {tag name : Text}

theorem toLowerCase_segment (hhost : LowersAscii) (hascii : IsAscii stream) :
    toLowerCase (segment stream start stop) = segment (lower stream) start stop :=
  (hhost _ (isAscii_segment hascii)).trans (map_segment lowerAscii)

/-- The first of several tags of which no two stand at one place. -/
theorem findFirstTag_of_first (hhost : LowersAscii) (hascii : IsAscii stream) {tags : List Text}
    (hne : ∀ tag ∈ tags, tag ≠ [])
    (hunique : ∀ tag ∈ tags, ∀ other ∈ tags, ∀ i, StandsAt (lower stream) tag i →
      StandsAt (lower stream) other i → tag = other)
    (h : First tags (lower stream) start stop place tag) :
    findFirstTag (segment stream start stop) tags = some (place - start, tag.length) := by
  rw [findFirstTag, toLowerCase_segment hhost hascii]
  obtain ⟨k, rfl⟩ : ∃ k, place = start + k := ⟨place - start, by have := h.le; omega⟩
  rw [Nat.add_sub_cancel_left]
  refine earliest_eq_some (mem_filterMap.mpr ⟨tag, h.mem, ?_⟩) fun candidate hcandidate => ?_
  · refine map_eq_some_iff.mpr
      ⟨k, (indexOf_segment_eq_some_iff (hne tag h.mem)).mpr ?_, rfl⟩
    refine ⟨mem_singleton_self _, h.le, h.stands, h.fits, fun other hother => ?_⟩
    rw [mem_singleton.mp hother]
    exact h.before tag h.mem
  · obtain ⟨other, hother, hindex⟩ := mem_filterMap.mp hcandidate
    obtain ⟨k', hk', rfl⟩ := map_eq_some_iff.mp hindex
    have hfirst := (indexOf_segment_eq_some_iff (hne other hother)).mp hk'
    by_cases hlt : k < k'
    · exact .inl hlt
    · right
      obtain hlt' | rfl := Nat.lt_or_eq_of_le (not_lt.mp hlt)
      · have := h.before other hother (start + k') hfirst.le (by omega) hfirst.stands
        have := hfirst.fits
        omega
      · rw [hunique other hother tag h.mem _ hfirst.stands h.stands]

theorem findFirstTag_of_absent (hhost : LowersAscii) (hascii : IsAscii stream) {tags : List Text}
    (hne : ∀ tag ∈ tags, tag ≠ []) (h : Absent tags (lower stream) start stop) :
    findFirstTag (segment stream start stop) tags = none := by
  rw [findFirstTag, toLowerCase_segment hhost hascii]
  refine earliest_eq_none fun candidate hcandidate => ?_
  obtain ⟨tag, htag, hindex⟩ := mem_filterMap.mp hcandidate
  have hnone : indexOf (segment (lower stream) start stop) tag 0 = none := by
    refine (indexOf_segment_eq_none_iff (hne tag htag)).mpr fun other hother => ?_
    rw [mem_singleton.mp hother]
    exact h tag htag
  rw [hnone] at hindex
  cases hindex

/-- Where open tags are taken wherever they stand, the first of them is taken. -/
theorem findOpenAtBoundary_eq {buf : Text} {out : List Text} {lastEmittedEndedNewline : Bool}
    {config : StreamingThinkScrubberConfig} (hpreserve : config.preserveProseMentions = false)
    (hbuf : toLowerCase buf ≠ []) :
    engine.findOpenAtBoundary buf out lastEmittedEndedNewline config
      = findFirstTag buf engine.openTags := by
  rw [findOpenAtBoundary, findFirstTag]
  refine congrArg earliest (filterMap_congr fun tag _ => congrArg _ ?_)
  rw [boundaryIndex, if_pos (length_pos_of_ne_nil hbuf), hpreserve]
  cases indexOf (toLowerCase buf) tag 0 with
  | none => rfl
  | some index => rfl

section

variable (hhost : LowersAscii)
include hhost

section

variable (hascii : IsAscii stream)
include hascii

/-- The pairs among which the earliest is taken. -/
theorem mem_closedPairs {candidate : ℕ × ℕ} (hnamed : Named engine names) :
    (candidate ∈ (engine.openTags.zip engine.closeTags).filterMap fun (openTag, closeTag) =>
      (indexOf (toLowerCase (segment stream start stop)) openTag 0).bind fun openIdx =>
        (indexOf (toLowerCase (segment stream start stop)) closeTag
          (openIdx + openTag.length)).map fun closeIdx => (openIdx, closeIdx + closeTag.length))
    ↔ ∃ name ∈ names, ∃ opening closing,
        First [openTag name] (lower stream) start stop (start + opening) (openTag name)
        ∧ First [closeTag name] (lower stream) (start + (opening + (openTag name).length)) stop
          (start + closing) (closeTag name)
        ∧ candidate = (opening, closing + (closeTag name).length) := by
  rw [hnamed.openTags, hnamed.closeTags, zip_map', filterMap_map, mem_filterMap,
    toLowerCase_segment hhost hascii]
  refine exists_congr fun name => and_congr_right fun _ => ⟨fun h => ?_, fun h => ?_⟩
  · obtain ⟨opening, hopening, h⟩ := bind_eq_some_iff.mp h
    obtain ⟨closing, hclosing, rfl⟩ := map_eq_some_iff.mp h
    exact ⟨opening, closing, (indexOf_segment_eq_some_iff (openTag_ne_nil name)).mp hopening,
      (indexOf_segment_eq_some_iff (closeTag_ne_nil name)).mp hclosing, rfl⟩
  · obtain ⟨opening, closing, hopening, hclosing, rfl⟩ := h
    refine bind_eq_some_iff.mpr ⟨opening,
      (indexOf_segment_eq_some_iff (openTag_ne_nil name)).mpr hopening,
      map_eq_some_iff.mpr ⟨closing, ?_, rfl⟩⟩
    exact (indexOf_segment_eq_some_iff (closeTag_ne_nil name)).mpr hclosing

/-- The pair that begins with the first open tag, or none that begins as early. -/
theorem findEarliestClosedPair_of_first (hnamed : Named engine names) (hname : name ∈ names)
    (h : First engine.openTags (lower stream) start stop place (openTag name)) :
    (∀ closing, First [closeTag name] (lower stream) (place + (openTag name).length) stop closing
        (closeTag name) → engine.findEarliestClosedPair (segment stream start stop)
          = some (place - start, closing + (closeTag name).length - start))
    ∧ (Absent [closeTag name] (lower stream) (place + (openTag name).length) stop →
        ∀ pair ∈ engine.findEarliestClosedPair (segment stream start stop),
          place - start < pair.1) := by
  obtain ⟨k, rfl⟩ : ∃ k, place = start + k := ⟨place - start, by have := h.le; omega⟩
  rw [Nat.add_sub_cancel_left, Nat.add_assoc]
  -- another pair begins later, or with the same tag
  have hlater : ∀ other ∈ names, ∀ opening,
      First [openTag other] (lower stream) start stop (start + opening) (openTag other) →
      k < opening ∨ (opening = k ∧ other = name) := by
    intro other hother opening hopening
    by_cases hlt : k < opening
    · exact .inl hlt
    · right
      have hmem : openTag other ∈ engine.openTags := by
        rw [hnamed.openTags]
        exact mem_map_of_mem hother
      obtain hlt' | rfl := Nat.lt_or_eq_of_le (not_lt.mp hlt)
      · have := h.before _ hmem (start + opening) hopening.le (by omega) hopening.stands
        have := hopening.fits
        omega
      · exact ⟨rfl, eq_of_standsAt_openTag (hnamed.isTagName other hother)
          (hnamed.isTagName name hname) hopening.stands h.stands⟩
  have hopen : First [openTag name] (lower stream) start stop (start + k) (openTag name) := by
    refine ⟨mem_singleton_self _, h.le, h.stands, h.fits, fun other hother => ?_⟩
    rw [mem_singleton.mp hother]
    exact h.before _ h.mem
  refine ⟨fun closing hclosing => ?_, fun habsent pair hpair => ?_⟩
  · obtain ⟨c, rfl⟩ : ∃ c, closing = start + c :=
      ⟨closing - start, by have := hclosing.le; omega⟩
    rw [Nat.add_assoc, Nat.add_sub_cancel_left]
    refine earliest_eq_some ((mem_closedPairs hhost hascii hnamed).mpr
      ⟨name, hname, k, c, hopen, hclosing, rfl⟩) fun candidate hcandidate => ?_
    obtain ⟨other, hother, opening, closing, hopening, hclosing', rfl⟩ :=
      (mem_closedPairs hhost hascii hnamed).mp hcandidate
    obtain hlt | ⟨rfl, rfl⟩ := hlater other hother opening hopening
    · exact .inl hlt
    · have hsame := hclosing'.place_unique hclosing
      exact .inr (by rw [show closing = c by omega])
  · obtain ⟨-, hnone⟩ | ⟨found, hfound, hsome, -⟩ := earliest_spec
      ((engine.openTags.zip engine.closeTags).filterMap fun (openTag, closeTag) =>
        (indexOf (toLowerCase (segment stream start stop)) openTag 0).bind fun openIdx =>
          (indexOf (toLowerCase (segment stream start stop)) closeTag
            (openIdx + openTag.length)).map fun closeIdx => (openIdx, closeIdx + closeTag.length))
    · rw [findEarliestClosedPair, hnone] at hpair
      cases hpair
    · rw [findEarliestClosedPair, hsome] at hpair
      rw [← some_inj.mp hpair]
      obtain ⟨other, hother, opening, closing, hopening, hclosing, rfl⟩ :=
        (mem_closedPairs hhost hascii hnamed).mp hfound
      obtain hlt | ⟨rfl, rfl⟩ := hlater other hother opening hopening
      · exact hlt
      · exact absurd habsent hclosing.not_absent

theorem findEarliestClosedPair_of_absent (hnamed : Named engine names)
    (h : Absent engine.openTags (lower stream) start stop) :
    engine.findEarliestClosedPair (segment stream start stop) = none := by
  refine earliest_eq_none fun candidate hcandidate => ?_
  obtain ⟨name, hname, opening, closing, hopening, -⟩ :=
    (mem_closedPairs hhost hascii hnamed).mp hcandidate
  have hmem : openTag name ∈ engine.openTags := by
    rw [hnamed.openTags]
    exact mem_map_of_mem hname
  have := h _ hmem _ hopening.le hopening.stands
  have := hopening.fits
  omega

/-- A tag that the window cuts off is held back. -/
theorem holdAt_le (hstop : stop ≤ stream.length) (htag : tag ∈ engine.openTags)
    (hstart : start ≤ place) (hplace : place ≤ stop) (hstands : StandsAt (lower stream) tag place)
    (hcut : stop < place + tag.length) :
    holdAt engine stream start stop ≤ place := by
  have hends := endsWith_of_cut hstart hplace hcut.le hstands
  rw [← toLowerCase_segment hhost hascii] at hends
  have hlength : (toLowerCase (segment stream start stop)).length = stop - start := by
    rw [toLowerCase_segment hhost hascii, length_segment (by rwa [length_lower])]
  have hheld := le_maxPartialSuffix htag (by omega) (by omega) hends
  rw [holdAt]
  omega

theorem le_holdAt (hstop : stop ≤ stream.length) (hstart : start ≤ stop) :
    start ≤ holdAt engine stream start stop := by
  have hlength : (toLowerCase (segment stream start stop)).length = stop - start := by
    rw [toLowerCase_segment hhost hascii, length_segment (by rwa [length_lower])]
  have hopen := maxPartialSuffix_le_length (segment stream start stop) engine.openTags
  have hclose := maxPartialSuffix_le_length (segment stream start stop) engine.closeTags
  rw [holdAt]
  omega

end

end

section

variable {config : StreamingThinkScrubberConfig} {loop : Loop}

theorem round_closeBlock (hhost : LowersAscii) (hascii : IsAscii stream)
    (hnamed : Named engine names) (hin : loop.inBlock = true)
    (hbuf : loop.buf = segment stream start stop)
    (h : First engine.closeTags (lower stream) start stop place tag) :
    engine.round config loop = .inl { loop with
      buf := segment stream (place + tag.length) stop
      inBlock := false
      wasSuppressed := true } := by
  rw [DeterministicStreamingScrubberEngine.round, if_pos hin, hbuf,
    findFirstTag_of_first hhost hascii (ne_nil_of_mem_closeTags hnamed) (unique_closeTags hnamed) h]
  dsimp only
  rw [drop_segment, ← Nat.add_assoc, Nat.add_sub_cancel' h.le]

theorem round_wait (config : StreamingThinkScrubberConfig) (hhost : LowersAscii)
    (hascii : IsAscii stream) (hnamed : Named engine names)
    (hstop : stop ≤ stream.length) (hin : loop.inBlock = true)
    (hbuf : loop.buf = segment stream start stop)
    (h : Absent engine.closeTags (lower stream) start stop) :
    ∃ last held, engine.round config loop = .inr (last, held) ∧ last.inBlock = true
      ∧ last.out = loop.out
      ∧ held = segment stream
        (start + (stop - start - maxPartialSuffix (segment stream start stop) engine.closeTags))
        stop := by
  rw [DeterministicStreamingScrubberEngine.round, if_pos hin, hbuf,
    findFirstTag_of_absent hhost hascii (ne_nil_of_mem_closeTags hnamed) h]
  refine ⟨_, _, rfl, hin, rfl, ?_⟩
  rw [length_segment hstop, drop_segment]

section

variable (hhost : LowersAscii)
include hhost

section

variable (hascii : IsAscii stream)
include hascii

/-- Outside a block the first open tag is looked for. -/
theorem findOpenAtBoundary_segment (hpreserve : config.preserveProseMentions = false)
    (hbuf : loop.buf = segment stream start stop) (hne : loop.buf ≠ []) :
    engine.findOpenAtBoundary loop.buf loop.out loop.lastEmittedEndedNewline config
      = findFirstTag (segment stream start stop) engine.openTags := by
  rw [hbuf] at hne ⊢
  refine findOpenAtBoundary_eq hpreserve fun hnil => hne ?_
  have hlength := congrArg List.length hnil
  rw [toLowerCase_segment hhost hascii, lower, ← map_segment, length_map] at hlength
  exact length_eq_zero_iff.mp hlength

theorem round_pair (hnamed : Named engine names) (hpreserve : config.preserveProseMentions = false)
    (hout : loop.inBlock = false) (hbuf : loop.buf = segment stream start stop)
    (hne : loop.buf ≠ []) (hname : name ∈ names)
    (h : First engine.openTags (lower stream) start stop place (openTag name)) {closing : ℕ}
    (hclosing : First [closeTag name] (lower stream) (place + (openTag name).length) stop closing
      (closeTag name)) :
    engine.round config loop = .inl { loop.emit engine (segment stream start place) with
      buf := segment stream (closing + (closeTag name).length) stop
      wasSuppressed := true } := by
  have hpair := (findEarliestClosedPair_of_first hhost hascii hnamed hname h).1 closing hclosing
  have hopen := findFirstTag_of_first hhost hascii (ne_nil_of_mem_openTags hnamed)
    (unique_openTags hnamed) h
  have hle := h.le
  have hle' := hclosing.le
  have hfits := h.fits
  rw [DeterministicStreamingScrubberEngine.round, if_neg (by simp [hout])]
  dsimp only
  rw [findOpenAtBoundary_segment hhost hascii hpreserve hbuf hne, hopen, hbuf, hpair,
    filter_some, if_pos (by rw [all_some]; exact decide_eq_true le_rfl)]
  dsimp only
  rw [drop_segment, take_segment (by omega), Nat.add_sub_cancel' (by omega),
    Nat.add_sub_cancel' (by omega)]

theorem round_openBlock (hnamed : Named engine names)
    (hpreserve : config.preserveProseMentions = false) (hout : loop.inBlock = false)
    (hbuf : loop.buf = segment stream start stop) (hne : loop.buf ≠ []) (hname : name ∈ names)
    (h : First engine.openTags (lower stream) start stop place (openTag name))
    (hclosing : Absent [closeTag name] (lower stream) (place + (openTag name).length) stop) :
    engine.round config loop = .inl { loop.emit engine (segment stream start place) with
      inBlock := true
      blockEntered := true
      wasSuppressed := true
      buf := segment stream (place + (openTag name).length) stop } := by
  have hpair := (findEarliestClosedPair_of_first hhost hascii hnamed hname h).2 hclosing
  have hopen := findFirstTag_of_first hhost hascii (ne_nil_of_mem_openTags hnamed)
    (unique_openTags hnamed) h
  have hle := h.le
  have hfits := h.fits
  have hnone : ((engine.findEarliestClosedPair (segment stream start stop)).filter fun pair =>
      (some (place - start, (openTag name).length)).all fun opened => pair.1 ≤ opened.1) = none := by
    rw [filter_eq_none_iff]
    intro pair hpair' hbefore
    have hlater := hpair pair hpair'
    rw [all_some, decide_eq_true_iff] at hbefore
    omega
  rw [DeterministicStreamingScrubberEngine.round, if_neg (by simp [hout])]
  dsimp only
  rw [findOpenAtBoundary_segment hhost hascii hpreserve hbuf hne, hopen, hbuf, hnone]
  dsimp only
  rw [drop_segment, take_segment (by omega), Nat.add_sub_cancel' (by omega), ← Nat.add_assoc,
    Nat.add_sub_cancel' (by omega)]

theorem round_hold (hnamed : Named engine names) (hstop : stop ≤ stream.length)
    (hstart : start ≤ stop) (hpreserve : config.preserveProseMentions = false)
    (hout : loop.inBlock = false) (hbuf : loop.buf = segment stream start stop)
    (hne : loop.buf ≠ []) (h : Absent engine.openTags (lower stream) start stop) :
    ∃ last held, engine.round config loop = .inr (last, held) ∧ last.inBlock = false
      ∧ last.out.flatten = loop.out.flatten ++ engine.stripOrphanCloseTags
        (segment stream start (holdAt engine stream start stop))
      ∧ held = segment stream (holdAt engine stream start stop) stop := by
  have hopen := findFirstTag_of_absent hhost hascii (ne_nil_of_mem_openTags hnamed) h
  have hpair := findEarliestClosedPair_of_absent hhost hascii hnamed h
  have hhold : start ≤ holdAt engine stream start stop := le_holdAt hhost hascii hstop hstart
  have hlast : start + (stop - start
      - max (maxPartialSuffix (segment stream start stop) engine.openTags)
        (maxPartialSuffix (segment stream start stop) engine.closeTags))
      = holdAt engine stream start stop := by
    rw [holdAt] at hhold ⊢
    omega
  rw [DeterministicStreamingScrubberEngine.round, if_neg (by simp [hout])]
  dsimp only
  rw [findOpenAtBoundary_segment hhost hascii hpreserve hbuf hne, hopen, hbuf, hpair,
    filter_none]
  refine ⟨_, _, rfl, (inBlock_emit _ _).trans hout, ?_, ?_⟩
  · rw [length_segment hstop, take_segment (by omega), hlast]
    exact flatten_emit _ _
  · rw [length_segment hstop, drop_segment, hlast]

end

end

end

/-- The loop of `feed` is the machine. -/
theorem rounds_scrubs (hhost : LowersAscii) (hascii : IsAscii stream) (hnamed : Named engine names)
    (hstop : stop ≤ stream.length) {config : StreamingThinkScrubberConfig}
    (hpreserve : config.preserveProseMentions = false) (state : StreamingScrubberState) (n : ℕ) :
    ∀ (loop : Loop) (start : ℕ), loop.buf = segment stream start stop → start ≤ stop →
      stop - start ≤ n →
      ∃ put last, Scrubs engine names stream stop loop.inBlock start put
          (engine.rounds config state n loop).nextState.inBlock last
        ∧ (engine.rounds config state n loop).visibleText = loop.out.flatten ++ put
        ∧ (engine.rounds config state n loop).nextState.heldBuffer = segment stream last stop
        ∧ last ≤ stop := by
  have hlengthBuf : ∀ start, (segment stream start stop).length = stop - start :=
    fun start => length_segment hstop
  -- a loop whose buffer is empty is at the end of the window
  have hempty : ∀ loop : Loop, ∃ put last, Scrubs engine names stream stop loop.inBlock stop put
        (loop.finish state []).nextState.inBlock last
      ∧ (loop.finish state []).visibleText = loop.out.flatten ++ put
      ∧ (loop.finish state []).nextState.heldBuffer = segment stream last stop ∧ last ≤ stop := by
    intro loop
    have hnil : segment stream stop stop = [] := segment_of_le le_rfl
    have habsent : ∀ tags : List Text, (∀ tag ∈ tags, tag ≠ []) →
        Absent tags (lower stream) stop stop := by
      intro tags hne tag htag i hi _
      have := length_pos_of_ne_nil (hne tag htag)
      omega
    cases hin : loop.inBlock with
    | true =>
      refine ⟨[], stop, ?_, (append_nil _).symm, hnil.symm, le_rfl⟩
      rw [show (loop.finish state []).nextState.inBlock = true from hin]
      exact .wait (habsent _ (ne_nil_of_mem_closeTags hnamed)) le_rfl le_rfl fun _ _ i hi _ => hi
    | false =>
      have hhold : holdAt engine stream stop stop = stop := by
        have hge : stop ≤ holdAt engine stream stop stop := le_holdAt hhost hascii hstop le_rfl
        rw [holdAt] at hge ⊢
        omega
      have hscrubs : Scrubs engine names stream stop false stop _ false _ :=
        .hold (habsent _ (ne_nil_of_mem_openTags hnamed))
      rw [hhold, hnil, stripOrphanCloseTags_nil] at hscrubs
      refine ⟨[], stop, ?_, (append_nil _).symm, hnil.symm, le_rfl⟩
      rw [show (loop.finish state []).nextState.inBlock = false from hin]
      exact hscrubs
  induction n with
  | zero =>
    intro loop start hbuf hstart hn
    obtain rfl : start = stop := by omega
    exact hempty loop
  | succ n ih =>
    intro loop start hbuf hstart hn
    rw [rounds]
    by_cases hnil : loop.buf = []
    · have hlength := hlengthBuf start
      rw [← hbuf, hnil, length_nil] at hlength
      obtain rfl : start = stop := by omega
      rw [if_pos hnil]
      exact hempty loop
    rw [if_neg hnil]
    cases hin : loop.inBlock with
    | true =>
      obtain ⟨place, tag, hfirst⟩ | habsent :=
        first_or_absent engine.closeTags (lower stream) start stop
      · -- the block ends
        rw [round_closeBlock hhost hascii hnamed hin hbuf hfirst]
        have hle := hfirst.le
        have hfits := hfirst.fits
        have hpos := length_pos_of_ne_nil (ne_nil_of_mem_closeTags hnamed tag hfirst.mem)
        obtain ⟨put, last, hscrubs, hvisible, hheld, hlast⟩ :=
          ih { loop with
            buf := segment stream (place + tag.length) stop
            inBlock := false
            wasSuppressed := true } (place + tag.length) rfl hfits (by omega)
        exact ⟨put, last, .closeBlock hfirst hscrubs, hvisible, hheld, hlast⟩
      · obtain ⟨last, held, hround, hinBlock, hout, hheld⟩ :=
          round_wait config hhost hascii hnamed hstop hin hbuf habsent
        rw [hround]
        subst hheld
        refine ⟨[], _, ?_, ?_, rfl, by omega⟩
        · rw [show (last.finish state _).nextState.inBlock = true from hinBlock]
          refine .wait habsent (by omega) (by omega) fun tag htag i hi hstands => ?_
          -- what may be the beginning of a close tag is kept
          by_cases hle : stop ≤ i
          · omega
          have hcut := habsent tag htag i hi hstands
          have hends := endsWith_of_cut hi (by omega) hcut.le hstands
          rw [← toLowerCase_segment hhost hascii] at hends
          have hlength : (toLowerCase (segment stream start stop)).length = stop - start := by
            rw [toLowerCase_segment hhost hascii, length_segment (by rwa [length_lower])]
          have := le_maxPartialSuffix htag (by omega) (by omega) hends
          omega
        · rw [append_nil, ← hout]
          rfl
    | false =>
      obtain ⟨place, tag, hfirst⟩ | habsent :=
        first_or_absent engine.openTags (lower stream) start stop
      · obtain ⟨name, hname, rfl⟩ : ∃ name ∈ names, openTag name = tag := by
          have hmem := hfirst.mem
          rw [hnamed.openTags] at hmem
          exact mem_map.mp hmem
        have hle := hfirst.le
        have hfits := hfirst.fits
        have hpos := length_pos_of_ne_nil (openTag_ne_nil name)
        obtain ⟨closing, tag, hclosing⟩ | hclosing := first_or_absent [closeTag name]
          (lower stream) (place + (openTag name).length) stop
        · obtain rfl := mem_singleton.mp hclosing.mem
          have hle' := hclosing.le
          have hround :=
            round_pair hhost hascii hnamed hpreserve hin hbuf hnil hname hfirst hclosing
          obtain ⟨next, hnext⟩ : ∃ next : Loop, next =
            { loop.emit engine (segment stream start place) with
              buf := segment stream (closing + (closeTag name).length) stop
              wasSuppressed := true } := ⟨_, rfl⟩
          have hmode : next.inBlock = false := by
            rw [hnext]
            exact (inBlock_emit _ _).trans hin
          have hout : next.out.flatten = loop.out.flatten
              ++ engine.stripOrphanCloseTags (segment stream start place) := by
            rw [hnext]
            exact flatten_emit loop (segment stream start place)
          rw [hround, ← hnext]
          obtain ⟨put, last, hscrubs, hvisible, hheld, hlast⟩ :=
            ih next _ (by rw [hnext]) hclosing.fits (by omega)
          rw [hmode] at hscrubs
          refine ⟨_, last, .pair hname hfirst hclosing hscrubs, hvisible.trans ?_, hheld, hlast⟩
          rw [hout, append_assoc]
        · rw [round_openBlock hhost hascii hnamed hpreserve hin hbuf hnil hname hfirst hclosing]
          obtain ⟨put, last, hscrubs, hvisible, hheld, hlast⟩ :=
            ih { loop.emit engine (segment stream start place) with
              inBlock := true
              blockEntered := true
              wasSuppressed := true
              buf := segment stream (place + (openTag name).length) stop } _ rfl hfits (by omega)
          refine ⟨_, last, .openBlock hname hfirst hclosing hscrubs, ?_, hheld, hlast⟩
          refine hvisible.trans ?_
          rw [← append_assoc, ← flatten_emit]
      · obtain ⟨last, held, hround, hinBlock, hout, hheld⟩ :=
          round_hold hhost hascii hnamed hstop hstart hpreserve hin hbuf hnil habsent
        rw [hround]
        subst hheld
        refine ⟨_, _, ?_, hout, rfl, Nat.sub_le _ _⟩
        rw [show (last.finish state _).nextState.inBlock = false from hinBlock]
        exact .hold habsent

end

end Lumi.Scrubber
