import Lumi.Context.ToolPairing
import Lumi.Lib.Run

/-!
# Truncated histories are well formed requests

A conversation grows by messages and has its middle deleted, further and further.  The end of the
deleted range is always an assistant's message, so what is kept alternates; what the repair of the
tool results leaves to be asked is `KeptSound`.
-/

namespace Lumi.Context

open Js Dialogue List

structure Conversation where
  history : List Message
  deletedRange : Option (ℤ × ℤ)

inductive Action
  | append (message : Message)
  | truncate (keep : Keep)

def step (s : Conversation) : Action → Conversation
  | .append message => { s with history := s.history ++ [message] }
  | .truncate keep =>
    { s with deletedRange := some (getNextTruncationRange s.history s.deletedRange keep) }

/-! ## The range -/

/-- The ranges that truncation gives: their end is the place of an assistant's message, or stands
before the history. -/
structure RangeFits (length : ℕ) (deletedRange : Option (ℤ × ℤ)) : Prop where
  even : startOfRest deletedRange % 2 = 0
  nonneg : 0 ≤ startOfRest deletedRange
  le : startOfRest deletedRange ≤ max length 2

variable {messages : List Message}

/-- Whether the role of the last deleted message is wrong. -/
theorem any_not_assistant_iff (hhistory : History (turns messages)) {i : ℕ} :
    messages[i]?.any (·.role ≠ .assistant) = true ↔ i < messages.length ∧ i % 2 = 0 := by
  by_cases hi : i < messages.length
  · have hrole := hhistory.role_getElem (i := i) (by rw [length_turns]; exact hi)
    simp only [turns, getElem_map, Message.turn] at hrole
    rw [getElem?_eq_getElem hi, Option.any_some, hrole]
    by_cases heven : i % 2 = 0
    · simp [heven, hi]
    · simp [heven]
  · rw [getElem?_eq_none (by omega)]
    simp [hi]

/-- A truncation by a part of the history computes with a history that is shorter than what is
kept of it, and its end falls behind that of the range before. -/
def Underflows (length : ℕ) (deletedRange : Option (ℤ × ℤ)) (keep : Keep) : Prop :=
  (keep = .half ∨ keep = .quarter) ∧ length = 1 ∧ deletedRange.map (·.2) = some 1

/-- Where the deleted range would end, were it not for the role of its last message. -/
def uncorrectedEnd (length : ℕ) (deletedRange : Option (ℤ × ℤ)) (keep : Keep) : ℤ :=
  startOfRest deletedRange + messagesToRemove (length - startOfRest deletedRange) keep - 1

theorem end_getNextTruncationRange (hhistory : History (turns messages))
    (deletedRange : Option (ℤ × ℤ)) (keep : Keep) :
    let stop := uncorrectedEnd messages.length deletedRange keep
    (getNextTruncationRange messages deletedRange keep).2 =
      if 0 ≤ stop ∧ stop < messages.length ∧ stop % 2 = 0 then stop - 1 else stop := by
  intro stop
  unfold getNextTruncationRange
  simp only [any_not_assistant_iff hhistory]
  rw [apply_ite Prod.snd]
  refine if_congr (and_congr_right fun hnonneg => ?_) rfl rfl
  change 0 ≤ stop at hnonneg
  change stop.toNat < messages.length ∧ stop.toNat % 2 = 0 ↔ _
  omega

/-- **The end of the range, by arithmetic.**  It stays odd, and it only moves forward where nothing
underflows. -/
theorem uncorrectedEnd_spec {length : ℕ} (hlength : 0 < length) {deletedRange : Option (ℤ × ℤ)}
    (hfits : RangeFits length deletedRange) (keep : Keep) :
    let stop := uncorrectedEnd length deletedRange keep
    let corrected := if 0 ≤ stop ∧ stop < length ∧ stop % 2 = 0 then stop - 1 else stop
    corrected % 2 = 1 ∧ -1 ≤ corrected ∧ corrected < max length 2 ∧
      (startOfRest deletedRange ≤ corrected + 1 ↔
        ¬((keep = .half ∨ keep = .quarter) ∧ length = 1 ∧ startOfRest deletedRange = 2)) := by
  obtain ⟨heven, hnonneg, hle⟩ := hfits
  intro stop corrected
  have hstop : stop = startOfRest deletedRange +
      messagesToRemove (length - startOfRest deletedRange) keep - 1 := rfl
  have hcorrected : corrected = if 0 ≤ stop ∧ stop < length ∧ stop % 2 = 0 then stop - 1 else stop :=
    rfl
  clear_value stop corrected
  cases keep with
  | none =>
    simp only [messagesToRemove] at hstop
    simp only [reduceCtorEq, or_self, false_and, not_false_eq_true, iff_true]
    split_ifs at hcorrected <;> omega
  | lastTwo =>
    simp only [messagesToRemove] at hstop
    simp only [reduceCtorEq, or_self, false_and, not_false_eq_true, iff_true]
    split_ifs at hcorrected <;> omega
  | half =>
    simp only [messagesToRemove] at hstop
    simp only [true_or, true_and]
    split_ifs at hcorrected <;> omega
  | quarter =>
    simp only [messagesToRemove] at hstop
    simp only [or_true, true_and]
    split_ifs at hcorrected <;> omega

theorem length_pos (hhistory : History (turns messages)) : 0 < messages.length := by
  apply length_pos_iff.mpr
  rintro rfl
  have hstarts := hhistory.startsWithUser
  cases hstarts

section

variable {messages : List Message} (hhistory : History (turns messages))
  {deletedRange : Option (ℤ × ℤ)} (hfits : RangeFits messages.length deletedRange) (keep : Keep)
include hhistory hfits

theorem fits_getNextTruncationRange :
    RangeFits messages.length (some (getNextTruncationRange messages deletedRange keep)) := by
  obtain ⟨hodd, hge, hlt, -⟩ := uncorrectedEnd_spec (length_pos hhistory) hfits keep
  rw [← end_getNextTruncationRange hhistory] at hodd hge hlt
  have hstart : startOfRest (some (getNextTruncationRange messages deletedRange keep)) =
      (getNextTruncationRange messages deletedRange keep).2 + 1 := rfl
  exact ⟨by rw [hstart]; omega, by rw [hstart]; omega, by rw [hstart]; omega⟩

theorem end_le_getNextTruncationRange_iff {range : ℤ × ℤ} (hrange : deletedRange = some range) :
    range.2 ≤ (getNextTruncationRange messages deletedRange keep).2 ↔
      ¬Underflows messages.length deletedRange keep := by
  obtain ⟨-, -, -, hiff⟩ := uncorrectedEnd_spec (length_pos hhistory) hfits keep
  rw [← end_getNextTruncationRange hhistory] at hiff
  have hstart : startOfRest deletedRange = range.2 + 1 := by
    rw [hrange]
    rfl
  have hunderflows : Underflows messages.length deletedRange keep ↔
      (keep = .half ∨ keep = .quarter) ∧ messages.length = 1 ∧ startOfRest deletedRange = 2 := by
    refine and_congr Iff.rfl (and_congr Iff.rfl ?_)
    rw [hstart, hrange, Option.map_some, Option.some.injEq]
    omega
  rw [hunderflows, ← hiff, hstart]
  omega

end

/-! ## What is kept -/

/-- What the kept messages must be like for the truncated request to be well formed.  Two turns
that were next to each other belong together or can be repaired; a cut leaves something to say in
the first message after it, or the repair fills it with results for the second message. -/
structure KeptSound (history : List (Turn Text)) (start : ℤ) : Prop where
  opening : (history.take 2).IsChain (Answerable (· = []))
  rest : (history.drop start.toNat).IsChain (Answerable (· = []))
  cut : ∀ second next, history[1]? = some second → history[start.toNat]? = some next →
    if start = 2 then Answerable (· = []) second next
    else [] ∉ second.asks ∧ (start = 0 ∨ next.HasMore ∨ ∃ id ∈ second.asks, id ≠ [])

theorem turns_slice {start : ℤ} (hnonneg : 0 ≤ start) (hle : start ≤ messages.length)
    (htwo : 2 ≤ messages.length) :
    turns (slice messages 0 2 ++ slice messages start messages.length) =
      (turns messages).take 2 ++ (turns messages).drop start.toNat := by
  have hopening : slice messages 0 2 = messages.take 2 := by
    have := @slice_eq _ messages 0 2 (Nat.zero_le 2) htwo
    simpa using this
  have hrest : slice messages start messages.length = messages.drop start.toNat := by
    rw [← slice_to_length (by omega : start.toNat ≤ messages.length), Int.toNat_of_nonneg hnonneg]
  rw [hopening, hrest, turns, turns, map_append, map_take, map_drop]

/-- The rest of a dialogue after a turn, by the role and the questions of that turn only. -/
theorem isChain_belong_iff {a a' : Turn Text} {rest : List (Turn Text)} (hrole : a'.role = a.role)
    (hasks : a'.asks = a.asks) (hparts : ∀ turn ∈ rest, turn.parts ≠ []) :
    ((a' :: rest).IsChain fun a b => Answerable (· = []) a b ∧ Fillable (· = []) a b) ↔
      (a :: rest).IsChain (Answerable (· = [])) := by
  rw [isChain_and_iff]
  have hfill : (a' :: rest).IsChain (Fillable (· = [])) := by
    refine List.IsChain.imp (fun _ _ h => .inl h) (isChain_right_iff.mpr hparts)
  rw [and_iff_left hfill, isChain_cons, isChain_cons]
  refine and_congr (forall₂_congr fun next _ => ?_) Iff.rfl
  unfold Answerable Paired
  rw [hrole, hasks]

/-- The first turn after a cut, as it is kept. -/
def keptTurn (start : ℤ) (next : Turn Text) : Turn Text :=
  if 2 < start then next.withoutAnswers else next

@[simp] theorem role_keptTurn (start : ℤ) (next : Turn Text) :
    (keptTurn start next).role = next.role := by
  unfold keptTurn
  split_ifs <;> rfl

@[simp] theorem asks_keptTurn (start : ℤ) (next : Turn Text) :
    (keptTurn start next).asks = next.asks := by
  unfold keptTurn
  split_ifs
  · exact Turn.asks_withoutAnswers next
  · rfl

theorem cutTurns_eq {start : ℤ} {first second next : Turn Text} {rest : List (Turn Text)}
    (huser : next.role = .user) :
    cutTurns start (first :: second :: next :: rest) =
      first :: second :: keptTurn start next :: rest := by
  simp only [cutTurns, keptTurn]
  by_cases hcut : 2 < start
  · rw [if_pos ⟨hcut, huser⟩, if_pos hcut]
  · rw [if_neg fun h => hcut h.1, if_neg hcut]

/-- What is asked of the assistant's message before a cut, and of the message after it. -/
theorem belong_keptTurn_iff {start : ℤ} {second next : Turn Text} (hrole : second.role = .assistant)
    (hparts : next.parts ≠ []) (hcases : start = 2 ∨ 2 < start ∨ (start = 0 ∧ next.answers = [])) :
    (Answerable (· = []) second (keptTurn start next) ∧
      Fillable (· = []) second (keptTurn start next)) ↔
    if start = 2 then Answerable (· = []) second next
    else [] ∉ second.asks ∧ (start = 0 ∨ next.HasMore ∨ ∃ id ∈ second.asks, id ≠ []) := by
  -- without answers, no empty id may be asked
  have hunanswered : ∀ turn : Turn Text, turn.answers = [] →
      (Answerable (· = []) second turn ↔ [] ∉ second.asks) := by
    intro turn hnone
    unfold Answerable
    rw [hrole, hnone]
    simp only [reduceCtorEq, false_implies, forall_const, true_and, not_mem_nil, imp_false]
    exact ⟨fun h hmem => h [] hmem rfl, fun h id hid heq => h (heq ▸ hid)⟩
  rcases hcases with rfl | hlt | ⟨rfl, hnone⟩
  · rw [if_pos rfl, keptTurn, if_neg (by omega)]
    exact and_iff_left (.inl hparts)
  · rw [if_neg (by omega), keptTurn, if_pos hlt, hunanswered _ (Turn.answers_withoutAnswers next),
      Fillable, Turn.parts_withoutAnswers_ne_nil_iff, hrole]
    simp only [true_and]
    refine and_congr_right fun _ => ?_
    rw [or_iff_right (by omega : ¬start = 0)]
  · rw [if_neg (by omega), keptTurn, if_neg (by omega), hunanswered _ hnone]
    exact and_congr_right fun _ => ⟨fun _ => .inl rfl, fun _ => .inl hparts⟩

section

variable {history : List (Turn Text)} (hhistory : History history) {start : ℤ}
  (heven : start % 2 = 0) (hnonneg : 0 ≤ start)
include hhistory heven hnonneg

/-- The first turn after a cut is a user's. -/
theorem next_spec {next : Turn Text} {rest : List (Turn Text)}
    (hdrop : history.drop start.toNat = next :: rest) :
    history[start.toNat]? = some next ∧ next.role = .user ∧
      (start = 2 ∨ 2 < start ∨ (start = 0 ∧ next.answers = [])) := by
  have hget : history[start.toNat]? = some next := by
    rw [← head?_drop, hdrop, head?_cons]
  obtain ⟨hlt, heq⟩ := List.getElem?_eq_some_iff.mp hget
  refine ⟨hget, ?_, ?_⟩
  · rw [← heq, hhistory.role_getElem hlt, if_pos (by omega)]
  · rcases (by omega : start = 0 ∨ start = 2 ∨ 2 < start) with rfl | htwo | htwo
    · refine .inr (.inr ⟨rfl, hhistory.noFirstAnswers next ?_⟩)
      rw [head?_eq_getElem?]
      exact hget
    · exact .inl htwo
    · exact .inr (.inl htwo)

theorem isChain_kept_iff (htwo : 2 ≤ history.length) :
    ((cutTurns start (history.take 2 ++ history.drop start.toNat)).IsChain fun a b =>
      Answerable (· = []) a b ∧ Fillable (· = []) a b) ↔ KeptSound history start := by
  match history, htwo with
  | first :: second :: tail, _ =>
  have hsecond : second.role = .assistant := hhistory.role_getElem (i := 1) (by simp)
  have hfill : Fillable (· = []) first second := Or.inl (hhistory.nonEmpty second (by simp))
  cases hdrop : (first :: second :: tail).drop start.toNat with
  | nil =>
    have hnone : (first :: second :: tail)[start.toNat]? = none := by
      rw [← head?_drop, hdrop, head?_nil]
    have hkept : cutTurns start ((first :: second :: tail).take 2 ++ []) = [first, second] := rfl
    rw [hkept, isChain_pair, and_iff_left hfill]
    constructor
    · intro h
      refine ⟨isChain_pair.mpr h, by rw [hdrop]; exact .nil, fun _ _ _ hnext => ?_⟩
      rw [hnone] at hnext
      cases hnext
    · exact fun h => isChain_pair.mp h.opening
  | cons next rest =>
    obtain ⟨hget, huser, hcases⟩ := next_spec hhistory heven hnonneg hdrop
    have hmem : ∀ turn ∈ next :: rest, turn.parts ≠ [] := fun turn hturn =>
      hhistory.nonEmpty turn (mem_of_mem_drop (by rw [hdrop]; exact hturn))
    have hkept : cutTurns start ((first :: second :: tail).take 2 ++ next :: rest) =
        first :: second :: keptTurn start next :: rest := cutTurns_eq huser
    rw [hkept, isChain_cons_cons, isChain_cons_cons, and_iff_left hfill,
      isChain_belong_iff (role_keptTurn start next) (asks_keptTurn start next)
        fun turn hturn => hmem turn (mem_cons_of_mem _ hturn),
      belong_keptTurn_iff hsecond (hmem next mem_cons_self) hcases]
    constructor
    · rintro ⟨hopening, hcut, hrest⟩
      refine ⟨isChain_pair.mpr hopening, by rw [hdrop]; exact hrest, ?_⟩
      intro second' next' hsecond' hnext'
      obtain rfl : second = second' := by simpa using hsecond'
      obtain rfl : next = next' := by simpa [hget] using hnext'
      exact hcut
    · intro h
      refine ⟨isChain_pair.mp h.opening, h.cut second next rfl hget, ?_⟩
      have hrest := h.rest
      rwa [hdrop] at hrest

omit hhistory heven hnonneg in
theorem answers_of_none {a b : Turn Text} (h : b.answers = []) : Answers a b := by
  intro _
  rw [h]
  exact ⟨nodup_nil, fun _ hid => absurd hid not_mem_nil⟩

/-- The kept turns are such that a repair of their results is all they need. -/
theorem kept_spec (htwo : 2 ≤ history.length) :
    let kept := cutTurns start (history.take 2 ++ history.drop start.toNat)
    kept.head?.map (·.role) = some .user ∧
      (kept.IsChain fun a b => a.role ≠ b.role) ∧
      (∀ first ∈ kept.head?, first.answers = [] ∧ first.parts ≠ []) ∧
      kept.IsChain Answers ∧ ∀ turn ∈ kept, turn.asks.Nodup := by
  match history, htwo with
  | first :: second :: tail, _ =>
  have hopening : first.answers = [] ∧ first.parts ≠ [] :=
    ⟨hhistory.noFirstAnswers first rfl, hhistory.nonEmpty first (by simp)⟩
  have halternate := (isChain_cons_cons.mp hhistory.alternates).1
  have hanswers := (isChain_cons_cons.mp hhistory.answers).1
  have hasks : ∀ turn ∈ [first, second], turn.asks.Nodup := fun turn hturn =>
    hhistory.nodup_asks (by simp at hturn ⊢; tauto)
  cases hdrop : (first :: second :: tail).drop start.toNat with
  | nil =>
    have hkept : cutTurns start ((first :: second :: tail).take 2 ++ []) = [first, second] := rfl
    rw [hkept]
    refine ⟨hhistory.startsWithUser, isChain_pair.mpr halternate, ?_,
      isChain_pair.mpr hanswers, hasks⟩
    rintro _ ⟨⟩
    exact hopening
  | cons next rest =>
    obtain ⟨hget, huser, hcases⟩ := next_spec hhistory heven hnonneg hdrop
    have hkept : cutTurns start ((first :: second :: tail).take 2 ++ next :: rest) =
        first :: second :: keptTurn start next :: rest := cutTurns_eq huser
    have hsecond : second.role = .assistant := hhistory.role_getElem (i := 1) (by simp)
    have hrestAlternates := hhistory.alternates.drop start.toNat
    have hrestAnswers := hhistory.answers.drop start.toNat
    rw [hdrop] at hrestAlternates hrestAnswers
    rw [hkept]
    refine ⟨hhistory.startsWithUser, ?_, ?_, ?_, ?_⟩
    · refine .cons_cons halternate (.cons_cons ?_ (hrestAlternates.imp_head fun h => ?_))
      · rw [hsecond, role_keptTurn, huser]
        decide
      · rwa [role_keptTurn]
    · rintro _ ⟨⟩
      exact hopening
    · refine .cons_cons hanswers (.cons_cons ?_ (hrestAnswers.imp_head fun h => ?_))
      · rcases hcases with rfl | hlt | ⟨rfl, hnone⟩
        · -- nothing is cut out, and the two turns were next to each other
          obtain rfl : tail = next :: rest := hdrop
          rw [keptTurn, if_neg (by omega)]
          exact (isChain_cons_cons.mp (isChain_cons_cons.mp hhistory.answers).2).1
        · rw [keptTurn, if_pos hlt]
          exact answers_of_none (Turn.answers_withoutAnswers next)
        · rw [keptTurn, if_neg (by omega)]
          exact answers_of_none hnone
      · rwa [Answers, asks_keptTurn]
    · have hmem : ∀ turn ∈ next :: rest, turn.asks.Nodup := fun turn hturn =>
        hhistory.nodup_asks (mem_of_mem_drop (by rw [hdrop]; exact hturn))
      rw [forall_mem_cons] at hmem
      simp only [forall_mem_cons, asks_keptTurn]
      exact ⟨hasks first (by simp), hasks second (by simp), hmem⟩

end

/-- **When a truncated request is well formed.** -/
theorem wellFormed_getTruncatedMessages_iff (libraries : Libraries) (manager : ContextManager)
    (hhistory : History (turns messages)) {deletedRange : Option (ℤ × ℤ)}
    (hfits : RangeFits messages.length deletedRange) :
    WellFormed (turns (getTruncatedMessages libraries manager messages deletedRange)) ↔
      KeptSound (turns messages) (startOfRest deletedRange) := by
  have hpos := length_pos hhistory
  have hensured := turns_ensureContextIdentifiers libraries messages
  have hsanitized := (turns_escapeReservedMarkersInSourceMessages
    (ensureContextIdentifiers libraries messages)).trans hensured
  have hlength : (ensureContextIdentifiers libraries messages).length = messages.length := by
    rw [← length_turns, hensured, length_turns]
  unfold getTruncatedMessages getAndAlterTruncatedMessages
  rw [if_neg (by omega)]
  dsimp only
  rw [hlength]
  by_cases hone : messages.length = 1
  · rw [if_pos hone, hsanitized]
    obtain ⟨only, honly⟩ := length_eq_one_iff.mp ((length_turns messages).trans hone)
    rw [honly] at hhistory ⊢
    refine iff_of_true ⟨hhistory.startsWithUser, hhistory.alternates, hhistory.nonEmpty,
      hhistory.noFirstAnswers, .singleton only⟩ ⟨.singleton only, ?_, fun _ _ hsecond => ?_⟩
    · exact List.IsChain.drop (.singleton only) _
    · cases hsecond
  · rw [if_neg hone]
    obtain ⟨heven, hnonneg, hle⟩ := hfits
    have htwo : 2 ≤ (turns messages).length := by
      rw [length_turns]
      omega
    have happlied := turns_applyContextHistoryUpdates libraries manager
      (escapeReservedMarkersInSourceMessages (ensureContextIdentifiers libraries messages))
      (startOfRest deletedRange)
      (indexBlocksByContextIdentity (ensureContextIdentifiers libraries messages))
    have hsame : (escapeReservedMarkersInSourceMessages
        (ensureContextIdentifiers libraries messages)).length = messages.length := by
      rw [← length_turns, hsanitized, length_turns]
    rw [turns_slice hnonneg (by omega) (by omega), hsanitized] at happlied
    obtain ⟨hstarts, halternates, hfirst, hanswers, hnodup⟩ :=
      kept_spec hhistory heven hnonneg htwo
    rw [← isChain_kept_iff hhistory heven hnonneg htwo]
    simp only [← happlied] at hstarts halternates hfirst hanswers hnodup ⊢
    exact wellFormed_repairAll_iff repairs_repairNext hstarts halternates hfirst hanswers
      fun message hmessage => hnodup _ (mem_map_of_mem hmessage)

/-! ## Conversations -/

/-- What is asked of a conversation: whatever the manager knows, every truncated request is well
formed, and the end of the deleted range never decreases. -/
structure RequestsKept (s : Conversation) (actions : List Action) : Prop where
  wellFormed : ∀ front rest, actions = front ++ rest → ∀ libraries manager,
    WellFormed (turns (getTruncatedMessages libraries manager (Run.run step s front).history
      (Run.run step s front).deletedRange))
  monotone : ∀ front keep rest, actions = front ++ .truncate keep :: rest →
    ∀ range, (Run.run step s front).deletedRange = some range →
    range.2 ≤ (getNextTruncationRange (Run.run step s front).history
      (Run.run step s front).deletedRange keep).2

/-- The condition on the histories and ranges that a conversation goes through. -/
structure Sound (s : Conversation) (actions : List Action) : Prop where
  kept : ∀ front rest, actions = front ++ rest →
    KeptSound (turns (Run.run step s front).history)
      (startOfRest (Run.run step s front).deletedRange)
  noUnderflow : ∀ front keep rest, actions = front ++ .truncate keep :: rest →
    ¬Underflows (Run.run step s front).history.length (Run.run step s front).deletedRange keep

/-- A conversation only adds to its history. -/
theorem exists_history_run (s : Conversation) (actions : List Action) :
    ∃ added, (Run.run step s actions).history = s.history ++ added := by
  induction actions generalizing s with
  | nil => exact ⟨[], (append_nil _).symm⟩
  | cons action rest ih =>
    obtain ⟨added, hadded⟩ := ih (step s action)
    rw [Run.run_cons, hadded]
    cases action with
    | append message => exact ⟨message :: added, by simp [step]⟩
    | truncate keep => exact ⟨added, rfl⟩

section

variable {s : Conversation} (hne : s.history ≠ [])
include hne

theorem history_run_ne_nil (actions : List Action) : (Run.run step s actions).history ≠ [] := by
  obtain ⟨added, hadded⟩ := exists_history_run s actions
  rw [hadded]
  exact fun hnil => hne (append_eq_nil_iff.mp hnil).1

/-- The history of a conversation was well formed all along. -/
theorem history_front {front rest : List Action}
    (hhistory : History (turns (Run.run step s (front ++ rest)).history)) :
    History (turns (Run.run step s front).history) := by
  obtain ⟨added, hadded⟩ := exists_history_run (Run.run step s front) rest
  rw [Run.run_append, hadded, turns, map_append] at hhistory
  refine hhistory.front rfl fun hnil => ?_
  exact history_run_ne_nil hne front (map_eq_nil_iff.mp hnil)

theorem fits_run (hnone : s.deletedRange = none) {actions : List Action}
    (hhistory : History (turns (Run.run step s actions).history)) :
    RangeFits (Run.run step s actions).history.length (Run.run step s actions).deletedRange := by
  induction actions using List.reverseRecOn with
  | nil =>
    rw [Run.run_nil, hnone]
    have htwo : startOfRest none = 2 := rfl
    exact ⟨rfl, by decide, by omega⟩
  | append_singleton actions action ih =>
    have hbefore := history_front hne hhistory
    have ih := ih hbefore
    rw [Run.run_append, Run.run_cons, Run.run_nil]
    cases action with
    | append message =>
      obtain ⟨heven, hnonneg, hle⟩ := ih
      refine ⟨heven, hnonneg, hle.trans ?_⟩
      simp only [step, length_append, length_singleton]
      omega
    | truncate keep => exact fits_getNextTruncationRange hbefore ih keep

end

/-- **The requests of a conversation are kept well formed exactly where its cuts are sound.** -/
theorem requestsKept_iff {start : List Message} {actions : List Action} (hne : start ≠ [])
    (hhistory : History (turns (Run.run step ⟨start, none⟩ actions).history)) :
    RequestsKept ⟨start, none⟩ actions ↔ Sound ⟨start, none⟩ actions := by
  have hfront : ∀ front rest, actions = front ++ rest →
      History (turns (Run.run step ⟨start, none⟩ front).history) ∧
      RangeFits (Run.run step ⟨start, none⟩ front).history.length
        (Run.run step ⟨start, none⟩ front).deletedRange := by
    rintro front rest rfl
    have hfront := history_front hne hhistory
    exact ⟨hfront, fits_run hne rfl hfront⟩
  constructor
  · intro h
    refine ⟨fun front rest heq => ?_, fun front keep rest heq hunder => ?_⟩
    · obtain ⟨hwell, hfits⟩ := hfront front rest heq
      exact (wellFormed_getTruncatedMessages_iff ⟨id, fun _ => []⟩ ⟨.empty, .empty⟩ hwell hfits).mp
        (h.wellFormed front rest heq _ _)
    · obtain ⟨hwell, hfits⟩ := hfront front _ heq
      obtain ⟨range, hrange, -⟩ := Option.map_eq_some_iff.mp hunder.2.2
      exact (end_le_getNextTruncationRange_iff hwell hfits keep hrange).mp
        (h.monotone front keep rest heq range hrange) hunder
  · intro h
    refine ⟨fun front rest heq libraries manager => ?_, fun front keep rest heq range hrange => ?_⟩
    · obtain ⟨hwell, hfits⟩ := hfront front rest heq
      exact (wellFormed_getTruncatedMessages_iff libraries manager hwell hfits).mpr
        (h.kept front rest heq)
    · obtain ⟨hwell, hfits⟩ := hfront front _ heq
      exact (end_le_getNextTruncationRange_iff hwell hfits keep hrange).mpr
        (h.noUnderflow front keep rest heq)

/-! ## Conversations that were cut -/

def message (role : Role) (body : BlockBody) : Message := ⟨none, role, [⟨none, body⟩]⟩

/-- A task with one tool call, after an opening that may call a tool too. -/
def toolTask (opening : BlockBody) : List Message :=
  [message .user (.text (text "task")), message .assistant opening,
    message .user (.text (text "go on")), message .assistant (.toolUse (text "t")),
    message .user (.toolResult (text "t") (.string (text "done"))),
    message .assistant (.text (text "ok"))]

theorem toolTask_history {opening : BlockBody}
    (h : opening = .text (text "plan") ∨ opening = .toolUse (text "s")) :
    History (turns (toolTask opening)) := by
  rcases h with rfl | rfl
  · refine ⟨rfl, by decide +kernel, by decide +kernel, by decide +kernel, ?_, by decide +kernel⟩
    rintro _ ⟨⟩
    rfl
  · refine ⟨rfl, by decide +kernel, by decide +kernel, by decide +kernel, ?_, by decide +kernel⟩
    rintro _ ⟨⟩
    rfl

/-- The cut stands before the tool result, and nothing is left of its message. -/
theorem toolTask_emptied :
    ¬∀ (start : List Message) (actions : List Action), start ≠ [] →
      History (turns (Run.run step ⟨start, none⟩ actions).history) →
      RequestsKept ⟨start, none⟩ actions := by
  intro hkept
  have h := hkept (toolTask (.text (text "plan"))) [.truncate .half] (by decide)
    (toolTask_history (Or.inl rfl))
  have hempty := (h.wellFormed [.truncate .half] [] rfl ⟨id, fun _ => []⟩ ⟨.empty, .empty⟩).nonEmpty
    ⟨.user, []⟩ (by decide +kernel)
  exact hempty rfl

/-- The second message calls a tool, so the repair has something to write. -/
theorem toolTask_requestsKept :
    RequestsKept ⟨toolTask (.toolUse (text "s")), none⟩ [.truncate .half] := by
  refine (@requestsKept_iff (toolTask (.toolUse (text "s"))) [.truncate .half] (by decide)
    (toolTask_history (Or.inr rfl))).mpr ⟨?_, ?_⟩
  · rintro (_ | ⟨action, front⟩) rest heq
    · refine ⟨by decide +kernel, by decide +kernel, ?_⟩
      rintro _ _ ⟨⟩ ⟨⟩
      change if (2 : ℤ) = 2 then _ else _
      rw [if_pos rfl]
      decide +kernel
    · obtain ⟨rfl, hfront⟩ := cons_eq_cons.mp heq
      obtain ⟨rfl, rfl⟩ := append_eq_nil_iff.mp hfront.symm
      refine ⟨by decide +kernel, by decide +kernel, ?_⟩
      rintro _ _ ⟨⟩ ⟨⟩
      refine ⟨by decide +kernel, Or.inr (Or.inr ⟨text "s", by decide +kernel, by decide⟩)⟩
  · rintro front keep rest heq ⟨-, hone, -⟩
    obtain ⟨added, hadded⟩ := exists_history_run
      ⟨toolTask (.toolUse (text "s")), none⟩ front
    rw [hadded, length_append] at hone
    have hsix : (toolTask (.toolUse (text "s"))).length = 6 := rfl
    simp only [hsix] at hone
    omega

end Lumi.Context
