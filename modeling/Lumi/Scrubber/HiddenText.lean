import Lumi.Lib.JsReplace
import Lumi.Scrubber.Positions

/-!
# Hidden text does not show

Two streams that differ only between an open tag and the next close tag are scrubbed to the same
text, however they are cut into chunks of the same lengths.  The machine is run on both: outside a
block the two are at the same position, which is not in the hidden part; inside a block their
positions may differ, but no close tag stands between them.

The three positions of a hidden part are where its open tag stands, where it begins, and where the
close tag stands.
-/

namespace Lumi.Scrubber

open Js Window DeterministicStreamingScrubberEngine List

section

variable (names : List Text)

/-- The streams agree but between `first` and `last`, where no close tag stands, and `first` is the
end of an open tag. -/
structure Hidden (stream stream' : Text) (opening first last : ℕ) : Prop where
  length_eq : stream.length = stream'.length
  below : ∀ i j, j ≤ first → segment stream i j = segment stream' i j
  above : ∀ i j, last ≤ i → segment stream i j = segment stream' i j
  first_le : first ≤ last
  last_le : last ≤ stream.length
  opens : ∃ name ∈ names, StandsAt (lower stream) (openTag name) opening
    ∧ first = opening + (openTag name).length
  openTag_iff : ∀ name ∈ names, ∀ i, i < first ∨ last ≤ i →
    (StandsAt (lower stream) (openTag name) i ↔ StandsAt (lower stream') (openTag name) i)
  closeTag_iff : ∀ name ∈ names, ∀ i,
    StandsAt (lower stream) (closeTag name) i ↔ StandsAt (lower stream') (closeTag name) i
  openTag_le : ∀ name ∈ names, ∀ i < first, StandsAt (lower stream) (openTag name) i → i ≤ opening
  closeTag_outside : ∀ name ∈ names, ∀ i, StandsAt (lower stream) (closeTag name) i →
    i + (closeTag name).length ≤ opening ∨ last ≤ i

variable {names} {engine : DeterministicStreamingScrubberEngine} {stream stream' : Text}
  {opening first last : ℕ}

theorem Hidden.opening_lt (h : Hidden names stream stream' opening first last) : opening < first := by
  obtain ⟨name, -, -, heq⟩ := h.opens
  have := length_pos_of_ne_nil (openTag_ne_nil name)
  omega

theorem Hidden.symm (h : Hidden names stream stream' opening first last) :
    Hidden names stream' stream opening first last := by
  have hopening := h.opening_lt
  refine ⟨h.length_eq.symm, fun i j hj => (h.below i j hj).symm, fun i j hi => (h.above i j hi).symm,
    h.first_le, h.length_eq ▸ h.last_le, ?_, fun name hname i hi => (h.openTag_iff name hname i hi).symm,
    fun name hname i => (h.closeTag_iff name hname i).symm, ?_, ?_⟩
  · obtain ⟨name, hname, hstands, heq⟩ := h.opens
    exact ⟨name, hname, (h.openTag_iff name hname opening (.inl hopening)).mp hstands, heq⟩
  · exact fun name hname i hi hstands =>
      h.openTag_le name hname i hi ((h.openTag_iff name hname i (.inl hi)).mpr hstands)
  · exact fun name hname i hstands =>
      h.closeTag_outside name hname i ((h.closeTag_iff name hname i).mpr hstands)

/-- The positions of two runs: equal and outside the hidden part, or, in a block, with no close tag
between them. -/
def InStep (names : List Text) (stream : Text) (opening last : ℕ) (mode : Bool) (i i' : ℕ) : Prop :=
  match mode with
  | false => i = i' ∧ (last ≤ i ∨ i ≤ opening)
  | true => ∀ name ∈ names, ∀ j, StandsAt (lower stream) (closeTag name) j → (i ≤ j ↔ i' ≤ j)

/-- Two runs that wait for more, the stream being known up to `stop`. -/
def Waiting (names : List Text) (stream : Text) (opening first last stop : ℕ) (mode : Bool)
    (i i' : ℕ) : Prop :=
  InStep names stream opening last mode i i' ∧ (mode = false → last ≤ i ∨ stop < first)

section

variable {start start' stop place : ℕ} {tag name : Text}

section

variable (h : Hidden names stream stream' opening first last)
include h

/-- The next close tag is the same, wherever between them the runs are. -/
theorem Hidden.first_closeTag {tags : List Text} (htags : tags ⊆ names.map closeTag)
    (hstep : InStep names stream opening last true start start')
    (hfirst : First tags (lower stream) start stop place tag) :
    First tags (lower stream') start' stop place tag := by
  obtain ⟨name, hname, rfl⟩ := mem_map.mp (htags hfirst.mem)
  refine hfirst.transfer (hstep name hname place hfirst.stands).mp
    ((h.closeTag_iff name hname place).mp hfirst.stands) ?_
  intro other hother i hi _ hstands
  obtain ⟨name', hname', rfl⟩ := mem_map.mp (htags hother)
  have hstands' := (h.closeTag_iff name' hname' i).mpr hstands
  exact ⟨(hstep name' hname' i hstands').mpr hi, hstands'⟩

/-- The same for the close tag of one name, from one position. -/
theorem Hidden.first_ownCloseTag (hname : name ∈ names)
    (hfirst : First [closeTag name] (lower stream) start stop place tag) :
    First [closeTag name] (lower stream') start stop place tag :=
  h.first_closeTag (by simpa using ⟨name, hname, rfl⟩)
    (fun _ _ _ _ => Iff.rfl) hfirst

section

variable (hnamed : Named engine names)
include hnamed

section

variable (hstart : last ≤ start ∨ start ≤ opening)
include hstart

/-- The next open tag outside a block is not hidden. -/
theorem Hidden.place_openTag
    (hfirst : First engine.openTags (lower stream) start stop place (openTag name))
    (hname : name ∈ names) : (last ≤ start ∧ last ≤ place) ∨ place ≤ opening := by
  obtain hstart | hstart := hstart
  · exact .inl ⟨hstart, hstart.trans hfirst.le⟩
  · right
    obtain ⟨opened, hopened, hstands, heq⟩ := h.opens
    have hmem : openTag opened ∈ engine.openTags := by
      rw [hnamed.openTags]
      exact mem_map_of_mem hopened
    by_contra hnot
    have hcut := hfirst.before _ hmem opening hstart (not_le.mp hnot) hstands
    have hfits := hfirst.fits
    have hpos := length_pos_of_ne_nil (openTag_ne_nil name)
    exact hnot (h.openTag_le name hname place (by omega) hfirst.stands)

/-- The next open tag is the same. -/
theorem Hidden.first_openTag
    (hfirst : First engine.openTags (lower stream) start stop place (openTag name))
    (hname : name ∈ names) :
    First engine.openTags (lower stream') start stop place (openTag name) := by
  have hopening := h.opening_lt
  have hplace := h.place_openTag hnamed hstart hfirst hname
  refine hfirst.transfer id ((h.openTag_iff name hname place ?_).mp hfirst.stands) ?_
  · obtain hplace | hplace := hplace
    · exact .inr hplace.2
    · exact .inl (by omega)
  · intro other hother i hi hlt hstands
    rw [hnamed.openTags] at hother
    obtain ⟨name', hname', rfl⟩ := mem_map.mp hother
    refine ⟨hi, (h.openTag_iff name' hname' i ?_).mpr hstands⟩
    obtain hplace | hplace := hplace
    · exact .inr (hplace.1.trans hi)
    · exact .inl (by omega)

/-- What comes before the next open tag is known to be the same. -/
theorem Hidden.beside_openTag
    (hfirst : First engine.openTags (lower stream) start stop place (openTag name))
    (hname : name ∈ names) : last ≤ start ∨ place < first :=
  (h.place_openTag hnamed hstart hfirst hname).imp And.left fun hle => hle.trans_lt h.opening_lt

/-- Where no open tag is left, the rest is known to be the same. -/
theorem Hidden.absent_openTag (habsent : Absent engine.openTags (lower stream) start stop) :
    last ≤ start ∨ stop < first := by
  obtain hstart | hstart := hstart
  · exact .inl hstart
  · right
    obtain ⟨opened, hopened, hstands, heq⟩ := h.opens
    have hmem : openTag opened ∈ engine.openTags := by
      rw [hnamed.openTags]
      exact mem_map_of_mem hopened
    rw [heq]
    exact habsent _ hmem opening hstart hstands

end

end

theorem Hidden.segment_eq (hsame : last ≤ start ∨ stop < first) :
    segment stream start stop = segment stream' start stop := by
  obtain hsame | hsame := hsame
  · exact h.above _ _ hsame
  · exact h.below _ _ hsame.le

end

end

theorem InStep.symm (h : Hidden names stream stream' opening first last) {mode : Bool} {i i' : ℕ}
    (hstep : InStep names stream opening last mode i i') :
    InStep names stream' opening last mode i' i := by
  cases mode with
  | false => exact ⟨hstep.1.symm, hstep.1 ▸ hstep.2⟩
  | true =>
    exact fun name hname j hstands =>
      (hstep name hname j ((h.closeTag_iff name hname j).mpr hstands)).symm

/-- Past a close tag the two runs are at one position outside the hidden part. -/
theorem Hidden.inStep_past (h : Hidden names stream stream' opening first last) {name : Text}
    (hname : name ∈ names) {place : ℕ} (hstands : StandsAt (lower stream) (closeTag name) place) :
    InStep names stream opening last false (place + (closeTag name).length)
      (place + (closeTag name).length) := by
  obtain hbefore | hafter := h.closeTag_outside name hname place hstands
  · exact ⟨rfl, .inr hbefore⟩
  · exact ⟨rfl, .inl (hafter.trans (Nat.le_add_right _ _))⟩

/-- Two first open tags are one. -/
theorem unique_first_openTag (hnamed : Named engine names) {name name' : Text} {start stop : ℕ}
    {place place' : ℕ} (hname : name ∈ names) (hname' : name' ∈ names)
    (hfirst : First engine.openTags (lower stream) start stop place (openTag name))
    (hfirst' : First engine.openTags (lower stream) start stop place' (openTag name')) :
    place = place' ∧ name = name' := by
  obtain rfl := hfirst.place_unique hfirst'
  exact ⟨rfl, eq_of_standsAt_openTag (hnamed.isTagName _ hname) (hnamed.isTagName _ hname')
    hfirst.stands hfirst'.stands⟩

/-- Where the stream is known into the open tag but not to its end, the tag is held back. -/
theorem Hidden.holdAt_le_opening [Host] (h : Hidden names stream stream' opening first last)
    (hhost : LowersAscii) (hascii : IsAscii stream) {start stop : ℕ} (hstop : stop ≤ stream.length)
    (hnamed : Named engine names) (hstart : start ≤ stop) (hcut : stop < first)
    (houtside : last ≤ start ∨ start ≤ opening) : holdAt engine stream start stop ≤ opening := by
  have hle : holdAt engine stream start stop ≤ stop := Nat.sub_le _ _
  have hfirst := h.first_le
  obtain ⟨name, hname, hstands, heq⟩ := h.opens
  by_cases hopening : stop ≤ opening
  · exact hle.trans hopening
  · have htag : openTag name ∈ engine.openTags := hnamed.openTags ▸ mem_map_of_mem hname
    exact holdAt_le hhost hascii hstop htag (by omega) (by omega) hstands (by omega)

/-- From positions in step the two runs put out the same, and wait in step. -/
theorem Scrubs.lockstep [Host] (h : Hidden names stream stream' opening first last)
    (hhost : LowersAscii) (hascii : IsAscii stream) (hnamed : Named engine names) {stop : ℕ}
    (hstop : stop ≤ stream.length) {mode mode₁ : Bool} {start last₁ : ℕ} {put : Text}
    (hrun : Scrubs engine names stream stop mode start put mode₁ last₁) (hstart : start ≤ stop) :
    ∀ {mode₂ : Bool} {start' last₂ : ℕ} {put' : Text},
      Scrubs engine names stream' stop mode start' put' mode₂ last₂ →
      InStep names stream opening last mode start start' →
      put = put' ∧ mode₁ = mode₂ ∧ Waiting names stream opening first last stop mode₁ last₁ last₂ := by
  have hclose : engine.closeTags ⊆ names.map closeTag := fun _ htag => hnamed.closeTags ▸ htag
  induction hrun with
  | closeBlock hfirst _ ih =>
    intro mode₂ start' last₂ put' hrun' hstep
    have hfirst' := h.first_closeTag hclose hstep hfirst
    cases hrun' with
    | closeBlock hother hrest =>
      obtain rfl := hfirst'.place_unique hother
      obtain rfl := unique_closeTags hnamed _ hfirst'.mem _ hother.mem _ hfirst'.stands
        hother.stands
      obtain ⟨name, hname, rfl⟩ := mem_map.mp (hclose hfirst.mem)
      exact ih hfirst.fits hrest (h.inStep_past hname hfirst.stands)
    | wait habsent => exact absurd habsent hfirst'.not_absent
  | wait habsent hle _ hkept =>
    intro mode₂ start' last₂ put' hrun' hstep
    cases hrun' with
    | closeBlock hother =>
      exact absurd habsent (h.symm.first_closeTag hclose (hstep.symm h) hother).not_absent
    | wait _ hle' _ hkept' =>
      -- no close tag lies between a position and the one at which the run waits
      refine ⟨rfl, rfl, fun name hname j hstands => ?_, fun hfalse => by cases hfalse⟩
      have htag : closeTag name ∈ engine.closeTags :=
        hnamed.closeTags ▸ mem_map_of_mem hname
      have hiff := hstep name hname j hstands
      have hkept := hkept _ htag j
      have hkept' := hkept' _ htag j
      have hstands' := (h.closeTag_iff name hname j).mp hstands
      exact ⟨fun hj => hkept' (hiff.mp (hle.trans hj)) hstands',
        fun hj => hkept (hiff.mpr (hle'.trans hj)) hstands⟩
  | pair hname hfirst hclosing _ ih =>
    rintro mode₂ start' last₂ put' hrun' ⟨rfl, houtside⟩
    have hfirst' := h.first_openTag hnamed houtside hfirst hname
    have hclosing' := h.first_ownCloseTag hname hclosing
    have hsegment := h.segment_eq (h.beside_openTag hnamed houtside hfirst hname)
    cases hrun' with
    | pair hname' hother hclosing'' hrest =>
      obtain ⟨rfl, rfl⟩ := unique_first_openTag hnamed hname hname' hfirst' hother
      obtain rfl := hclosing'.place_unique hclosing''
      obtain ⟨rfl, rfl, hwaiting⟩ :=
        ih hclosing.fits hrest (h.inStep_past hname hclosing.stands)
      exact ⟨by rw [hsegment], rfl, hwaiting⟩
    | openBlock hname' hother hnone =>
      obtain ⟨rfl, rfl⟩ := unique_first_openTag hnamed hname hname' hfirst' hother
      exact absurd hnone hclosing'.not_absent
    | hold habsent => exact absurd habsent hfirst'.not_absent
  | openBlock hname hfirst hnone _ ih =>
    rintro mode₂ start' last₂ put' hrun' ⟨rfl, houtside⟩
    have hfirst' := h.first_openTag hnamed houtside hfirst hname
    have hsegment := h.segment_eq (h.beside_openTag hnamed houtside hfirst hname)
    cases hrun' with
    | pair hname' hother hclosing =>
      obtain ⟨rfl, rfl⟩ := unique_first_openTag hnamed hname hname' hfirst' hother
      exact absurd hnone (h.symm.first_ownCloseTag hname hclosing).not_absent
    | openBlock hname' hother hnone' hrest =>
      obtain ⟨rfl, rfl⟩ := unique_first_openTag hnamed hname hname' hfirst' hother
      obtain ⟨rfl, rfl, hwaiting⟩ := ih hfirst.fits hrest fun _ _ _ _ => Iff.rfl
      exact ⟨by rw [hsegment], rfl, hwaiting⟩
    | hold habsent => exact absurd habsent hfirst'.not_absent
  | @hold start habsent =>
    rintro mode₂ start' last₂ put' hrun' ⟨rfl, houtside⟩
    have hfirst := fun {place name} => @Hidden.first_openTag _ _ _ _ _ _ _ start stop place name
      h.symm hnamed houtside
    cases hrun' with
    | pair hname' hother => exact absurd habsent (hfirst hother hname').not_absent
    | openBlock hname' hother => exact absurd habsent (hfirst hother hname').not_absent
    | hold habsent' =>
      have hsame := h.absent_openTag hnamed houtside habsent
      have hhold : holdAt engine stream start stop = holdAt engine stream' start stop := by
        rw [holdAt, holdAt, h.segment_eq hsame]
      have hle : holdAt engine stream start stop ≤ stop := Nat.sub_le _ _
      have hge : start ≤ holdAt engine stream start stop := le_holdAt hhost hascii hstop hstart
      refine ⟨?_, rfl, ⟨hhold, ?_⟩, fun _ => ?_⟩
      · rw [← hhold, h.segment_eq (hsame.imp_right hle.trans_lt)]
      · obtain hsame | hcut := hsame
        · exact .inl (hsame.trans hge)
        · exact .inr (h.holdAt_le_opening hhost hascii hstop hnamed hstart hcut houtside)
      · exact hsame.imp_left hge.trans'

end

/-! ## Where the hidden part lies -/

section

/-- A text that only begins with `<` and only ends with `>`. -/
def IsTag (tag : Text) : Prop :=
  ∃ body, 0x3C ∉ body ∧ 0x3E ∉ body ∧ tag = 0x3C :: (body ++ [0x3E])

theorem isTag_openTag {name : Text} (h : IsTagName name) : IsTag (openTag name) :=
  ⟨name, h.1, h.2.1, rfl⟩

theorem isTag_closeTag {name : Text} (h : IsTagName name) : IsTag (closeTag name) := by
  refine ⟨0x2F :: name, fun hmem => ?_, fun hmem => ?_, rfl⟩
  · exact h.1 (mem_of_ne_of_mem (by decide) hmem)
  · exact h.2.1 (mem_of_ne_of_mem (by decide) hmem)

theorem openTag_ne_closeTag {name name' : Text} (h : IsTagName name) :
    openTag name ≠ closeTag name' := by
  intro heq
  have hbody : name ++ text ">" = 0x2F :: (name' ++ text ">") := (List.cons.inj heq).2
  cases name with
  | nil => exact absurd (List.cons.inj hbody).1 (by decide)
  | cons c rest => exact h.2.2 ((List.cons.inj hbody).1 ▸ mem_cons_self)

variable {s tag tag' : Text} {i j : ℕ}

theorem getElem?_of_standsAt (h : StandsAt s tag i) {k : ℕ} (hk : k < tag.length) :
    s[i + k]? = tag[k]? := by
  have hget : ((s.drop i).take tag.length)[k]? = tag[k]? := by rw [h]
  rwa [getElem?_take_of_lt hk, getElem?_drop] at hget

/-- Two tags are one, or one ends before the other begins. -/
theorem IsTag.apart (htag : IsTag tag) (htag' : IsTag tag') (h : StandsAt s tag i)
    (h' : StandsAt s tag' j) (hle : i ≤ j) : (i = j ∧ tag = tag') ∨ i + tag.length ≤ j := by
  obtain ⟨body, hopen, hclose, rfl⟩ := htag
  obtain ⟨body', -, hclose', rfl⟩ := htag'
  obtain ⟨skip, rfl⟩ := Nat.exists_eq_add_of_le hle
  by_contra hover
  push Not at hover
  have hskip : skip < (0x3C :: (body ++ [0x3E])).length := by omega
  have hhead := getElem?_of_standsAt h' (Nat.succ_pos _)
  rw [Nat.add_zero, getElem?_of_standsAt h hskip, getElem?_cons_zero] at hhead
  cases skip with
  | zero =>
    have hbody := @eq_of_standsAt_closed s i 0x3E [0x3C] body body' hclose hclose' h h'
    exact hover.1 rfl (by rw [hbody])
  | succ skip =>
    -- the second tag would begin inside the first
    obtain hmem | hmem := mem_append.mp (mem_of_getElem? hhead)
    · exact hopen hmem
    · exact absurd hmem (by decide)

end

section

variable {names : List Text} {before opening hidden hidden' closing after : Text}
  {opened closed : Text}

theorem standsAt_congr {stream stream' tag : Text} {i : ℕ}
    (h : segment stream i (i + tag.length) = segment stream' i (i + tag.length)) :
    StandsAt (lower stream) tag i ↔ StandsAt (lower stream') tag i := by
  have hiff : ∀ s : Text, StandsAt (lower s) tag i
      ↔ (segment s i (i + tag.length)).map lowerAscii = tag := by
    intro s
    rw [StandsAt, map_segment, Window.segment, drop_take, Nat.add_sub_cancel_left, lower]
  rw [hiff, hiff, h]

theorem segment_middle (xs ys zs : Text) :
    segment (xs ++ ys ++ zs) xs.length (xs.length + ys.length) = ys := by
  rw [Window.segment, append_assoc, drop_take, Nat.add_sub_cancel_left, drop_left,
    take_left]

theorem standsAt_middle (xs ys zs : Text) : StandsAt (xs ++ ys ++ zs) ys xs.length := by
  rw [StandsAt, append_assoc, drop_left, take_left]

section

variable (hopening : lower opening = openTag opened)
include hopening

section

variable (hclosing : lower closing = closeTag closed)
include hclosing

/-- A tag of the stream lies before the open tag, is the open tag, lies in the hidden part, or
does not begin before the close tag. -/
theorem sides_of_standsAt (hopened : IsTagName opened) (hclosed : IsTagName closed) {tag : Text}
    (htag : IsTag tag) {i : ℕ}
    (hstands : StandsAt (lower (before ++ opening ++ hidden ++ closing ++ after)) tag i) :
    i + tag.length ≤ before.length
      ∨ (i = before.length ∧ tag = openTag opened)
      ∨ (before.length + opening.length ≤ i
        ∧ i + tag.length ≤ before.length + opening.length + hidden.length)
      ∨ before.length + opening.length + hidden.length ≤ i := by
  have hopens : StandsAt (lower (before ++ opening ++ hidden ++ closing ++ after))
      (openTag opened) before.length := by
    rw [← hopening]
    simp [StandsAt, lower]
  have hcloses : StandsAt (lower (before ++ opening ++ hidden ++ closing ++ after))
      (closeTag closed) (before.length + opening.length + hidden.length) := by
    have hmiddle := standsAt_middle (lower (before ++ opening ++ hidden)) (lower closing) (lower after)
    rw [← hclosing]
    simpa [lower, Nat.add_assoc] using hmiddle
  have hlength : (openTag opened).length = opening.length := by rw [← hopening, length_lower]
  obtain hle | hle := Nat.le_total i before.length
  · obtain heq | hbefore := htag.apart (isTag_openTag hopened) hstands hopens hle
    · exact .inr (.inl heq)
    · exact .inl hbefore
  obtain ⟨rfl, heq⟩ | hinside := (isTag_openTag hopened).apart htag hopens hstands hle
  · exact .inr (.inl ⟨rfl, heq.symm⟩)
  rw [hlength] at hinside
  right; right
  obtain hlater | hlater := Nat.le_total (before.length + opening.length + hidden.length) i
  · exact .inr hlater
  · obtain ⟨rfl, -⟩ | hends := htag.apart (isTag_closeTag hclosed) hstands hcloses hlater
    · exact .inr le_rfl
    · exact .inl ⟨hinside, hends⟩

/-- An open tag that begins before the hidden part ends before it. -/
theorem ends_of_openTag (hopened : IsTagName opened) (hclosed : IsTagName closed) {name : Text}
    (hname : IsTagName name) {i : ℕ}
    (hstands : StandsAt (lower (before ++ opening ++ hidden ++ closing ++ after)) (openTag name) i)
    (hi : i < before.length + opening.length) :
    i + (openTag name).length ≤ before.length + opening.length ∧ i ≤ before.length := by
  obtain hside | ⟨rfl, heq⟩ | ⟨hside, -⟩ | hside :=
    sides_of_standsAt hopening hclosing hopened hclosed (isTag_openTag hname) hstands
  · omega
  · rw [heq, ← hopening, length_lower]
    omega
  · omega
  · omega

/-- No close tag touches the hidden part, if none is in it. -/
theorem outside_of_standsAt (hopened : IsTagName opened) (hclosed : IsTagName closed) {name : Text}
    (hname : IsTagName name) (hfree : ∀ i, ¬ StandsAt (lower hidden) (closeTag name) i) {i : ℕ}
    (hstands : StandsAt (lower (before ++ opening ++ hidden ++ closing ++ after)) (closeTag name) i) :
    i + (closeTag name).length ≤ before.length
      ∨ before.length + opening.length + hidden.length ≤ i := by
  obtain hside | ⟨-, heq⟩ | ⟨hbegins, hends⟩ | hside :=
    sides_of_standsAt hopening hclosing hopened hclosed (isTag_closeTag hname) hstands
  · exact .inl hside
  · exact absurd heq.symm (openTag_ne_closeTag hopened)
  · -- it would stand in the hidden part
    obtain ⟨k, rfl⟩ := Nat.exists_eq_add_of_le hbegins
    have hsegment : segment (lower (before ++ opening ++ hidden ++ closing ++ after))
        (before.length + opening.length) (before.length + opening.length + hidden.length)
        = lower hidden := by
      have hmiddle := segment_middle (lower (before ++ opening)) (lower hidden)
        (lower (closing ++ after))
      simpa [lower, Nat.add_assoc] using hmiddle
    have hinside := (standsAt_segment_iff (closeTag_ne_nil name)).mpr ⟨hstands, hends⟩
    rw [hsegment] at hinside
    exact absurd hinside (hfree k)
  · exact .inr hside

end

end

/-- Two streams with the same parts around a part in which no close tag stands. -/
theorem hidden_of_parts (hnames : ∀ name ∈ names, IsTagName name) (hopened : opened ∈ names)
    (hclosed : closed ∈ names) (hopening : lower opening = openTag opened)
    (hclosing : lower closing = closeTag closed) (hlength : hidden.length = hidden'.length)
    (hfree : ∀ name ∈ names, ∀ i, ¬ StandsAt (lower hidden) (closeTag name) i)
    (hfree' : ∀ name ∈ names, ∀ i, ¬ StandsAt (lower hidden') (closeTag name) i) :
    Hidden names (before ++ opening ++ hidden ++ closing ++ after)
      (before ++ opening ++ hidden' ++ closing ++ after) before.length
      (before.length + opening.length) (before.length + opening.length + hidden.length) := by
  have hbelow : ∀ i j, j ≤ before.length + opening.length →
      segment (before ++ opening ++ hidden ++ closing ++ after) i j
        = segment (before ++ opening ++ hidden' ++ closing ++ after) i j := by
    intro i j hj
    have htake : ∀ rest : Text, (before ++ opening ++ rest).take j = (before ++ opening).take j :=
      fun rest => take_append_of_le_length (by rwa [length_append])
    simp only [Window.segment, append_assoc (before ++ opening), htake]
  have habove : ∀ i j, before.length + opening.length + hidden.length ≤ i →
      segment (before ++ opening ++ hidden ++ closing ++ after) i j
        = segment (before ++ opening ++ hidden' ++ closing ++ after) i j := by
    intro i j hi
    obtain ⟨k, rfl⟩ := Nat.exists_eq_add_of_le hi
    have hdrop : ∀ {part : Text}, part.length = hidden.length →
        (before ++ opening ++ part ++ (closing ++ after)).drop
          (before.length + opening.length + hidden.length + k) = (closing ++ after).drop k := by
      intro part hpart
      have hparts : (before ++ opening ++ part).length
          = before.length + opening.length + hidden.length := by
        simp [hpart, Nat.add_assoc]
      rw [← hparts, drop_append]
      simp
    rw [Window.segment, Window.segment, drop_take, drop_take, append_assoc _ closing,
      append_assoc _ closing, hdrop rfl, hdrop hlength.symm]
  have htransfer : ∀ {tag : Text} {i : ℕ}, i + tag.length ≤ before.length + opening.length
        ∨ before.length + opening.length + hidden.length ≤ i →
      (StandsAt (lower (before ++ opening ++ hidden ++ closing ++ after)) tag i
        ↔ StandsAt (lower (before ++ opening ++ hidden' ++ closing ++ after)) tag i) :=
    fun hside => standsAt_congr (hside.elim (hbelow _ _) (habove _ _))
  have hends := fun (part : Text) name hname i =>
    @ends_of_openTag before opening part closing after opened closed hopening hclosing
      (hnames _ hopened) (hnames _ hclosed) name (hnames name hname) i
  have houtside := fun (part : Text) name hname i hfree =>
    @outside_of_standsAt before opening part closing after opened closed hopening hclosing
      (hnames _ hopened) (hnames _ hclosed) name (hnames name hname) hfree i
  refine ⟨by simp [hlength], hbelow, habove, Nat.le_add_right _ _, ?_, ?_, ?_, ?_, ?_, ?_⟩
  · simp [Nat.add_assoc]
  · refine ⟨opened, hopened, ?_, ?_⟩
    · rw [← hopening]
      simp [StandsAt, lower]
    · rw [← hopening, length_lower]
  · intro name hname i hi
    obtain hi | hi := hi
    · exact ⟨fun h => (htransfer (.inl (hends _ name hname i h hi).1)).mp h,
        fun h => (htransfer (.inl (hends _ name hname i h hi).1)).mpr h⟩
    · exact htransfer (.inr hi)
  · intro name hname i
    refine ⟨fun h => (htransfer ?_).mp h, fun h => (htransfer ?_).mpr h⟩
    · have hside := houtside _ name hname i (hfree name hname) h
      omega
    · have hside := houtside _ name hname i (hfree' name hname) h
      omega
  · exact fun name hname i hi h => (hends _ name hname i h hi).2
  · exact fun name hname i => houtside _ name hname i (hfree name hname)

end

/-! ## Streams in chunks -/

section

variable [Host] {engine : DeterministicStreamingScrubberEngine} {names : List Text}
  {config : StreamingThinkScrubberConfig} {stream stream' : Text} {opening first last : ℕ}

theorem feed_scrubs (hhost : LowersAscii) (hascii : IsAscii stream) (hnamed : Named engine names)
    (henabled : config.enabled = true) (hpreserve : config.preserveProseMentions = false)
    {state : StreamingScrubberState} {start fed stop : ℕ} (hstart : start ≤ fed) (hfed : fed < stop)
    (hstop : stop ≤ stream.length) (hheld : state.heldBuffer = segment stream start fed) :
    let result := engine.feed (segment stream fed stop) state config
    ∃ last, Scrubs engine names stream stop state.inBlock start result.visibleText
        result.nextState.inBlock last
      ∧ result.nextState.heldBuffer = segment stream last stop ∧ last ≤ stop := by
  have hbuf : state.heldBuffer ++ segment stream fed stop = segment stream start stop := by
    rw [hheld, segment_append hstart hfed.le]
  have hne : segment stream fed stop ≠ [] := by
    rw [← length_pos_iff_ne_nil, length_segment hstop]
    omega
  have hlength : (segment stream start stop).length = stop - start := length_segment hstop
  obtain ⟨put, last, hscrubs, hvisible, hrest, hlast⟩ := rounds_scrubs hhost hascii hnamed hstop
    hpreserve state (stop - start)
    ⟨state.inBlock, segment stream start stop, state.lastEmittedEndedNewline, [], false, false, false⟩
    start rfl (by omega) le_rfl
  rw [feed, if_neg (by simp [henabled, hne])]
  dsimp only
  rw [hbuf, hlength, hvisible]
  exact ⟨last, hscrubs, hrest, hlast⟩

omit [Host] in
/-- The first chunk of what is left of the stream. -/
theorem chunk_eq_segment {chunk : Text} {rest : List Text} {fed : ℕ}
    (h : (chunk :: rest).flatten = stream.drop fed) :
    chunk = segment stream fed (fed + chunk.length) ∧ rest.flatten = stream.drop (fed + chunk.length)
      ∧ fed + chunk.length ≤ max fed stream.length := by
  rw [flatten_cons] at h
  refine ⟨?_, ?_, ?_⟩
  · rw [Window.segment, drop_take, Nat.add_sub_cancel_left, ← h, take_left]
  · rw [← drop_drop, ← h, drop_left]
  · have hlength := congrArg List.length h
    rw [length_append, length_drop] at hlength
    omega

/-- Two engines that wait in step show the same of what is left. -/
theorem visible_lockstep (h : Hidden names stream stream' opening first last) (hhost : LowersAscii)
    (hascii : IsAscii stream) (hascii' : IsAscii stream') (hnamed : Named engine names)
    (henabled : config.enabled = true) (hpreserve : config.preserveProseMentions = false)
    {chunks : List Text} :
    ∀ {chunks' : List Text} {state state' : StreamingScrubberState} {start start' fed : ℕ},
      chunks.map List.length = chunks'.map List.length → chunks.flatten = stream.drop fed →
      chunks'.flatten = stream'.drop fed → fed ≤ stream.length → start ≤ fed → start' ≤ fed →
      state.heldBuffer = segment stream start fed → state'.heldBuffer = segment stream' start' fed →
      state.inBlock = state'.inBlock →
      Waiting names stream opening first last fed state.inBlock start start' →
      engine.visible config state chunks = engine.visible config state' chunks' := by
  induction chunks with
  | nil =>
    intro chunks' state state' start start' fed hlengths hflat hflat' hfed hstart hstart' hheld
      hheld' hblock ⟨hstep, hwaits⟩
    obtain rfl : chunks' = [] := by
      cases chunks' with
      | nil => rfl
      | cons chunk rest => cases hlengths
    rw [visible, visible, flush, flush, ← hblock]
    cases hmode : state.inBlock with
    | true => rfl
    | false =>
      -- the stream is over, so the hidden part is
      rw [hmode] at hstep hwaits
      have hend : stream.length ≤ fed := drop_eq_nil_iff.mp hflat.symm
      have hfirst := h.first_le
      have hlast := h.last_le
      have heq : state.heldBuffer = state'.heldBuffer := by
        rw [hheld, hheld', ← hstep.1]
        exact h.above _ _ ((hwaits rfl).resolve_right (by omega))
      rw [heq]
      rfl
  | cons chunk rest ih =>
    intro chunks' state state' start start' fed hlengths hflat hflat' hfed hstart hstart' hheld
      hheld' hblock hwaiting
    cases chunks' with
    | nil => cases hlengths
    | cons chunk' rest' =>
      obtain ⟨hlength, hrests⟩ := List.cons.inj hlengths
      obtain ⟨hchunk, hflatRest, hstop⟩ := chunk_eq_segment hflat
      obtain ⟨hchunk', hflatRest', -⟩ := chunk_eq_segment hflat'
      rw [← hlength] at hchunk' hflatRest'
      rw [max_eq_right hfed] at hstop
      rw [visible, visible]
      by_cases hempty : chunk = []
      · obtain rfl : chunk' = [] := by
          rw [← length_eq_zero_iff, ← hlength, hempty, length_nil]
        rw [hempty, feed, feed, if_pos (.inr rfl), if_pos (.inr rfl)]
        rw [hempty, length_nil, Nat.add_zero] at hflatRest hflatRest'
        rw [ih hrests hflatRest hflatRest' hfed hstart hstart' hheld hheld' hblock hwaiting]
      · have hpos := length_pos_of_ne_nil hempty
        have hlengthEq := h.length_eq
        obtain ⟨last₁, hscrubs, hheld₁, hlast₁⟩ := feed_scrubs hhost hascii hnamed henabled
          hpreserve hstart (Nat.lt_add_of_pos_right hpos) hstop hheld
        obtain ⟨last₂, hscrubs', hheld₂, hlast₂⟩ := feed_scrubs hhost hascii' hnamed henabled
          hpreserve hstart' (Nat.lt_add_of_pos_right hpos) (by omega) hheld'
        rw [← hchunk] at hscrubs hheld₁
        rw [← hchunk', ← hblock] at hscrubs'
        rw [← hchunk'] at hheld₂
        obtain ⟨hput, hmode, hwaiting'⟩ := hscrubs.lockstep h hhost hascii hnamed hstop (by omega)
          hscrubs' hwaiting.1
        rw [hput, ih hrests hflatRest hflatRest' hstop hlast₁ hlast₂ hheld₁ hheld₂ hmode hwaiting']

end

/-! ## The tags of the default names -/

section

variable [Host]

theorem named_default (hhost : LowersAscii) :
    Named (.new defaultReasoningTagNames) (defaultReasoningTagNames.map lower) := by
  have hascii : ∀ name ∈ defaultReasoningTagNames, IsAscii name := by decide +kernel
  refine ⟨?_, ?_, by decide +kernel⟩
  · rw [map_map]
    exact map_congr_left fun name hname => by rw [hhost name (hascii name hname)]; rfl
  · rw [map_map]
    exact map_congr_left fun name hname => by rw [hhost name (hascii name hname)]; rfl

/-- Between an open tag and the next close tag the text may be any other that has no close tag in it:
what is visible of the stream is the same, however it is cut into chunks. -/
theorem visible_of_hidden (hhost : LowersAscii) {before opening hidden hidden' closing after : Text}
    (hascii : IsAscii (before ++ opening ++ hidden ++ closing ++ after)) (hascii' : IsAscii hidden')
    (hopening : toLowerCase opening ∈ (new defaultReasoningTagNames).openTags)
    (hclosing : toLowerCase closing ∈ (new defaultReasoningTagNames).closeTags)
    (hnext : ∀ tag ∈ (new defaultReasoningTagNames).closeTags,
      includes (toLowerCase hidden) tag = false)
    (hforms : ∀ tag ∈ (new defaultReasoningTagNames).closeTags,
      includes (toLowerCase hidden') tag = false)
    (hlength : hidden.length = hidden'.length) {chunks chunks' : List Text}
    (hchunks : chunks.flatten = before ++ opening ++ hidden ++ closing ++ after)
    (hchunks' : chunks'.flatten = before ++ opening ++ hidden' ++ closing ++ after)
    (hlengths : chunks.map List.length = chunks'.map List.length)
    {state : StreamingScrubberState} (hfresh : state.heldBuffer = []) :
    (new defaultReasoningTagNames).visible
        { defaultStreamingThinkScrubberConfig with preserveProseMentions := false } state chunks
      = (new defaultReasoningTagNames).visible
        { defaultStreamingThinkScrubberConfig with preserveProseMentions := false } state chunks' := by
  have hnamed := named_default hhost
  have hparts : IsAscii opening ∧ IsAscii hidden ∧ IsAscii closing := by
    refine ⟨fun c hc => hascii c ?_, fun c hc => hascii c ?_, fun c hc => hascii c ?_⟩ <;> simp [hc]
  have hall : IsAscii (before ++ opening ++ hidden' ++ closing ++ after) := by
    intro c hc
    by_cases hmem : c ∈ hidden'
    · exact hascii' c hmem
    · exact hascii c (by simp only [mem_append] at hc ⊢; tauto)
  have hfree : ∀ {part : Text}, IsAscii part →
      (∀ tag ∈ (new defaultReasoningTagNames).closeTags, includes (toLowerCase part) tag = false) →
      ∀ name ∈ defaultReasoningTagNames.map lower, ∀ i,
        ¬ StandsAt (lower part) (closeTag name) i := by
    intro part hpart hnone name hname i hstands
    have htag := hnone (closeTag name) (hnamed.closeTags ▸ mem_map_of_mem hname)
    rw [hhost part hpart, includes_of_standsAt hstands] at htag
    cases htag
  rw [hhost opening hparts.1, hnamed.openTags] at hopening
  rw [hhost closing hparts.2.2, hnamed.closeTags] at hclosing
  obtain ⟨opened, hopened, hopening⟩ := mem_map.mp hopening
  obtain ⟨closed, hclosed, hclosing⟩ := mem_map.mp hclosing
  have h := @hidden_of_parts _ before opening hidden hidden' closing after _ _ hnamed.isTagName
    hopened hclosed hopening.symm hclosing.symm hlength (hfree hparts.2.1 hnext)
    (hfree hascii' hforms)
  -- nothing has been fed yet
  have hflat : chunks.flatten = (before ++ opening ++ hidden ++ closing ++ after).drop 0 := hchunks
  have hflat' : chunks'.flatten = (before ++ opening ++ hidden' ++ closing ++ after).drop 0 := hchunks'
  have hheld : ∀ s : Text, state.heldBuffer = segment s 0 0 := fun _ => hfresh
  refine visible_lockstep h hhost hascii hall hnamed rfl rfl hlengths hflat hflat' (Nat.zero_le _)
    le_rfl le_rfl (hheld _) (hheld _) rfl ⟨?_, fun _ => Or.inr ?_⟩
  · cases state.inBlock with
    | false => exact ⟨rfl, Or.inr (Nat.zero_le _)⟩
    | true => exact fun _ _ _ _ => Iff.rfl
  · exact (Nat.zero_le _).trans_lt h.opening_lt

end

section

open scoped Js.Ascii

/-- A block, cut within its tags. -/
theorem visible_of_hidden_block :
    (new defaultReasoningTagNames).visible
        { defaultStreamingThinkScrubberConfig with preserveProseMentions := false }
        ⟨false, [], true, 0⟩ [text "a<thi", text "nk>plan</thin", text "k>c"]
      = (new defaultReasoningTagNames).visible
        { defaultStreamingThinkScrubberConfig with preserveProseMentions := false }
        ⟨false, [], true, 0⟩ [text "a<thi", text "nk><b>c</thin", text "k>c"] :=
  @visible_of_hidden Ascii.host (fun _ _ => rfl) (text "a") (text "<think>") (text "plan") (text "<b>c")
    (text "</think>") (text "c") (by decide +kernel) (by decide +kernel) (by decide +kernel)
    (by decide +kernel) (by decide +kernel) (by decide +kernel) (by decide +kernel)
    [text "a<thi", text "nk>plan</thin", text "k>c"] [text "a<thi", text "nk><b>c</thin", text "k>c"]
    (by decide +kernel) (by decide +kernel) (by decide +kernel) _ rfl

end

end Lumi.Scrubber
