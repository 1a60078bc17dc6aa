import Lumi.Context.ContextManager

/-!
# The turns of the messages

Of all that the manager does to a message, only the removal of orphaned results and the repair of
tool results change which questions it asks and which it answers; texts do not.
-/

namespace Lumi.Context

open Js Dialogue List

/-- A tool use asks, a tool result answers. -/
def ContentBlock.part (block : ContentBlock) : Dialogue.Part Text :=
  match block.body with
  | .toolUse id => .ask id
  | .toolResult toolUseId _ => .answer toolUseId
  | _ => .other

def Message.turn (message : Message) : Turn Text := ⟨message.role, message.content.map (·.part)⟩

def turns (messages : List Message) : List (Turn Text) := messages.map (·.turn)

@[simp] theorem length_turns (messages : List Message) : (turns messages).length = messages.length :=
  length_map _

/-! ## What leaves the turns alone -/

@[simp] theorem part_setTextInBlock (block : ContentBlock) (text : Text) :
    (setTextInBlock block text).part = block.part := by
  obtain ⟨contextId, body⟩ := block
  cases body with
  | text text' => rfl
  | toolUse id => rfl
  | toolResult toolUseId content => cases content <;> rfl
  | other type => rfl

@[simp] theorem part_escapeBlock (block : ContentBlock) :
    (escapeBlock block).part = block.part := by
  unfold escapeBlock
  split
  · rfl
  · exact part_setTextInBlock _ _

theorem turns_escapeReservedMarkersInSourceMessages (messages : List Message) :
    turns (escapeReservedMarkersInSourceMessages messages) = turns messages := by
  simp [turns, escapeReservedMarkersInSourceMessages, Message.turn, Function.comp_def]

section

variable (libraries : Libraries)

theorem parts_ensureBlockIdentifiers (s : IdentifierState) (content : List ContentBlock) :
    (ensureBlockIdentifiers libraries s content).1.map (·.part) = content.map (·.part) := by
  induction content generalizing s with
  | nil => rfl
  | cons block rest ih =>
    simp only [ensureBlockIdentifiers, map_cons, ih, List.cons.injEq, and_true]
    unfold ensureBlockIdentifier
    split <;> rfl

theorem turn_ensureMessageIdentifier (s : IdentifierState) (message : Message) :
    (ensureMessageIdentifier libraries s message).1.turn = message.turn := by
  unfold ensureMessageIdentifier
  split <;> rfl

theorem turns_ensureContextIdentifiers (messages : List Message) :
    turns (ensureContextIdentifiers libraries messages) = turns messages := by
  unfold ensureContextIdentifiers
  generalize (⟨0, [], []⟩ : IdentifierState) = s
  induction messages generalizing s with
  | nil => rfl
  | cons message rest ih =>
    have hturn := turn_ensureMessageIdentifier libraries s message
    simp only [turns, Message.turn, Turn.mk.injEq] at hturn ih
    simp only [turns, ensureIdentifiersFrom, map_cons, List.cons.injEq, Message.turn,
      Turn.mk.injEq, ih, and_true]
    rw [parts_ensureBlockIdentifiers]
    exact hturn

theorem part_updateBlock (identityUpdates : InsertionMap Text ContextUpdate)
    (rawBlocksByIdentity : InsertionMap Text ContentBlock)
    (innerMap : Option (InsertionMap ℕ (List ContextUpdate))) (messageId : Option Text)
    (sourceBlock : ContentBlock) (blockIndex : ℕ) :
    (updateBlock libraries identityUpdates rawBlocksByIdentity innerMap messageId sourceBlock
      blockIndex).part = sourceBlock.part := by
  unfold updateBlock
  split
  · exact part_setTextInBlock _ _
  · rfl

end

/-! ## The removal of orphaned results -/

/-- The kept turns, without the answers of the first one after a cut. -/
def cutTurns (startFromIndex : ℤ) : List (Turn Text) → List (Turn Text)
  | first :: second :: after :: rest =>
    if 2 < startFromIndex ∧ after.role = .user
    then first :: second :: after.withoutAnswers :: rest
    else first :: second :: after :: rest
  | turns => turns

/-- The message without its tool results. -/
def Message.withoutResults (message : Message) : Message :=
  { message with content := message.content.filter (!·.isToolResult) }

theorem turn_withoutResults (message : Message) :
    message.withoutResults.turn = message.turn.withoutAnswers := by
  simp only [Message.turn, Message.withoutResults, Turn.withoutAnswers, filter_map]
  refine congrArg _ (congrArg _ (filter_congr fun block _ => ?_))
  obtain ⟨contextId, body⟩ := block
  cases body <;> rfl

variable {message : Message}

/-- There is nothing to remove if there is no tool result. -/
theorem withoutResults_eq_self (h : message.content.any (·.isToolResult) = false) :
    message.withoutResults = message := by
  have hcontent : message.content.filter (!·.isToolResult) = message.content :=
    filter_eq_self.mpr fun block hblock => by
      simpa using any_eq_false.mp h block hblock
  rw [Message.withoutResults, hcontent]

theorem turns_removeOrphanedResults (startFromIndex : ℤ) (messages : List Message) :
    turns (removeOrphanedResults startFromIndex messages) =
      cutTurns startFromIndex (turns messages) := by
  match messages with
  | [] | [_] | [_, _] => rfl
  | first :: second :: after :: rest =>
    simp only [removeOrphanedResults, turns, map_cons, cutTurns]
    by_cases hcut : 2 < startFromIndex ∧ after.turn.role = .user
    · rw [if_pos hcut]
      cases hany : after.content.any (·.isToolResult) with
      | true =>
        rw [if_pos ⟨hcut.1, hcut.2, rfl⟩, ← turn_withoutResults]
        rfl
      | false =>
        rw [if_neg (by simp), ← turn_withoutResults, withoutResults_eq_self hany]
        rfl
    · rw [if_neg hcut, if_neg fun h => hcut ⟨h.1, h.2.1⟩]
      rfl

theorem turns_applyContextHistoryUpdates (libraries : Libraries) (manager : ContextManager)
    (messages : List Message) (startFromIndex : ℤ)
    (rawBlocksByIdentity : InsertionMap Text ContentBlock) :
    turns (applyContextHistoryUpdates libraries manager messages startFromIndex
      rawBlocksByIdentity) =
      cutTurns startFromIndex
        (turns (slice messages 0 2 ++ slice messages startFromIndex messages.length)) := by
  rw [← turns_removeOrphanedResults]
  unfold applyContextHistoryUpdates
  dsimp only
  generalize removeOrphanedResults startFromIndex _ = kept
  refine ext_getElem (by simp) fun i hi hi' => ?_
  simp only [turns, getElem_map, getElem_zipIdx, Message.turn, Turn.mk.injEq, true_and]
  refine ext_getElem (by simp) fun j hj hj' => ?_
  simp only [getElem_map, getElem_zipIdx, part_updateBlock]

/-! ## Repairs -/

variable {id : Text}

theorem mem_answers_iff :
    id ∈ message.turn.answers ↔ ∃ block ∈ message.content, block.part = .answer id := by
  simp only [Turn.answers, Message.turn, mem_filterMap, mem_map]
  constructor
  · rintro ⟨_, ⟨block, hblock, rfl⟩, hpart⟩
    cases h : block.part with
    | ask id' => simp [h] at hpart
    | answer id' =>
      obtain rfl : id' = id := by simpa [h] using hpart
      exact ⟨block, hblock, h⟩
    | other => simp [h] at hpart
  · rintro ⟨block, hblock, hpart⟩
    exact ⟨block.part, ⟨block, hblock, rfl⟩, by rw [hpart, Part.answer?_answer]⟩

theorem resultOf?_eq_some_iff {block : ContentBlock} :
    block.resultOf? = some id ↔ block.part = .answer id ∧ id ≠ [] := by
  obtain ⟨contextId, body⟩ := block
  cases body with
  | text text => simp [ContentBlock.resultOf?, ContentBlock.part]
  | toolUse id => simp [ContentBlock.resultOf?, ContentBlock.part]
  | other type => simp [ContentBlock.resultOf?, ContentBlock.part]
  | toolResult toolUseId content =>
    simp only [ContentBlock.resultOf?, ContentBlock.part, Part.answer.injEq]
    split_ifs with hempty
    · simp only [false_iff, not_and, not_not]
      rintro rfl
      exact hempty
    · simp only [Option.some.injEq, iff_self_and]
      rintro rfl
      exact hempty

/-- The last result for an identifier stands. -/
theorem get?_toolResultMap_concat (content : List ContentBlock) (last : ContentBlock) (id : Text) :
    (toolResultMap (content ++ [last])).get? id =
      if last.resultOf? = some id then some last else (toolResultMap content).get? id := by
  rw [toolResultMap, foldl_concat, ← toolResultMap]
  cases hresult : last.resultOf? with
  | none => rw [if_neg (by rintro ⟨⟩)]
  | some toolUseId =>
    dsimp only
    rw [InsertionMap.get?_set]
    simp only [Option.some.injEq, eq_comm]

theorem part_of_toolResultMap {content : List ContentBlock} {block : ContentBlock}
    (h : (toolResultMap content).get? id = some block) : block.part = .answer id := by
  induction content using List.reverseRecOn with
  | nil => cases h
  | append_singleton content last ih =>
    rw [get?_toolResultMap_concat] at h
    split_ifs at h with hresult
    · obtain rfl := Option.some.inj h
      exact (resultOf?_eq_some_iff.mp hresult).1
    · exact ih h

theorem toolResultMap_isSome_iff {content : List ContentBlock} :
    ((toolResultMap content).get? id).isSome ↔ ∃ block ∈ content, block.resultOf? = some id := by
  induction content using List.reverseRecOn with
  | nil => simp [toolResultMap]
  | append_singleton content last ih =>
    rw [get?_toolResultMap_concat]
    simp only [mem_append, mem_singleton, or_and_right, exists_or, exists_eq_left, ← ih]
    split_ifs with hresult
    · simp only [hresult, Option.isSome_some, or_true]
    · simp only [hresult, or_false]

/-- The messages are such that the second is looked at. -/
structure Considered (message nextMessage : Message) : Prop where
  assistant : message.role = .assistant
  user : nextMessage.role = .user
  asks : toolUseIds message ≠ []

/-- The new content of a repaired message. -/
def repairedContent (message nextMessage : Message) : List ContentBlock :=
  (toolUseIds message).map (fun toolUseId =>
    ((toolResultMap nextMessage.content).get? toolUseId).getD (missingResult toolUseId)) ++
  nextMessage.content.filter (·.resultOf?.isNone)

/-- What the repair can do: nothing, where nothing is considered or nothing is missing, or it
writes new content. -/
theorem repairNext_cases (message nextMessage : Message) :
    (repairNext message nextMessage = nextMessage ∧
      (Considered message nextMessage → ∀ toolUseId ∈ toolUseIds message,
        ((toolResultMap nextMessage.content).get? toolUseId).isSome)) ∨
    (repairNext message nextMessage =
        { nextMessage with content := repairedContent message nextMessage } ∧
      Considered message nextMessage) := by
  unfold repairNext
  dsimp only
  split_ifs with hskip hsound
  · refine Or.inl ⟨rfl, fun h => absurd hskip ?_⟩
    simp [h.assistant, h.user, h.asks]
  · refine Or.inl ⟨rfl, fun _ toolUseId hid => ?_⟩
    simp only [Bool.and_eq_true, Bool.not_eq_true', any_eq_false] at hsound
    exact Option.isSome_iff_ne_none.mpr (by simpa using hsound.2 toolUseId hid)
  · simp only [not_or, not_not] at hskip
    exact Or.inr ⟨rfl, hskip.1, hskip.2.2, hskip.2.1⟩

theorem asks_turn (message : Message) :
    message.turn.asks = message.content.filterMap (·.toolUseId?) := by
  rw [Turn.asks, Message.turn, filterMap_map]
  refine filterMap_congr fun block _ => ?_
  obtain ⟨contextId, body⟩ := block
  cases body <;> rfl

theorem mem_toolUseIds_iff :
    id ∈ toolUseIds message ↔ id ∈ message.turn.asks ∧ id ≠ [] := by
  rw [toolUseIds, mem_filter, decide_eq_true_eq, asks_turn]

theorem part_repairedResult (nextMessage : Message) (id : Text) :
    (((toolResultMap nextMessage.content).get? id).getD (missingResult id)).part = .answer id := by
  cases h : (toolResultMap nextMessage.content).get? id with
  | none => rfl
  | some block => exact part_of_toolResultMap h

theorem parts_repairedContent (message nextMessage : Message) :
    (repairedContent message nextMessage).map (·.part) =
      (toolUseIds message).map Part.answer ++
        (nextMessage.content.filter (·.resultOf?.isNone)).map (·.part) := by
  rw [repairedContent, map_append, map_map]
  refine congrArg (· ++ _) (map_congr_left fun id _ => ?_)
  exact part_repairedResult nextMessage id

theorem answers_repairedContent (message nextMessage : Message) :
    ({ nextMessage with content := repairedContent message nextMessage } : Message).turn.answers =
      toolUseIds message ++ nextMessage.turn.answers.filter (· = []) := by
  simp only [Turn.answers, Message.turn, parts_repairedContent, filterMap_append,
    filterMap_map]
  refine congrArg₂ (· ++ ·) ?_ ?_
  · exact filterMap_some
  · induction nextMessage.content with
    | nil => rfl
    | cons block rest ih =>
      obtain ⟨contextId, body⟩ := block
      cases body with
      | text text => exact ih
      | toolUse id => exact ih
      | other type => exact ih
      | toolResult toolUseId content =>
        by_cases hid : toolUseId = []
        · subst hid
          simpa [ContentBlock.resultOf?, ContentBlock.part] using ih
        · simpa [ContentBlock.resultOf?, ContentBlock.part, hid] using ih

theorem asks_repairedContent (message nextMessage : Message) :
    ({ nextMessage with content := repairedContent message nextMessage } : Message).turn.asks =
      nextMessage.turn.asks := by
  simp only [Turn.asks, Message.turn, parts_repairedContent, filterMap_append,
    filterMap_map]
  have hnone : (toolUseIds message).filterMap
      ((fun part : Dialogue.Part Text => part.ask?) ∘ Dialogue.Part.answer) = [] :=
    filterMap_eq_nil_iff.mpr fun _ _ => rfl
  rw [hnone, nil_append]
  induction nextMessage.content with
  | nil => rfl
  | cons block rest ih =>
    obtain ⟨contextId, body⟩ := block
    cases body with
    | text text => exact ih
    | toolUse id => exact congrArg (id :: ·) ih
    | other type => exact ih
    | toolResult toolUseId content =>
      by_cases hid : toolUseId = []
      · subst hid
        exact ih
      · rw [filter_cons_of_neg (by simp [ContentBlock.resultOf?, hid])]
        exact ih

/-- Where every tool use with an id has its result, only those without an id are in question. -/
theorem paired_iff_of_answered {message nextMessage : Message}
    (hanswered : ∀ id ∈ toolUseIds message, id ∈ nextMessage.turn.answers)
    (hnodup : nextMessage.turn.answers.Nodup)
    (hsubset : ∀ id ∈ nextMessage.turn.answers, id ∈ message.turn.asks) :
    Paired message.turn nextMessage.turn ↔
      ∀ id ∈ message.turn.asks, id = [] → id ∈ nextMessage.turn.answers := by
  rw [paired_iff_of_nodup hnodup]
  constructor
  · exact fun h id hid _ => h.1 id hid
  · intro hempty
    refine ⟨fun id hid => ?_, hsubset⟩
    by_cases hne : id = []
    · exact hempty id hid hne
    · exact hanswered id (mem_toolUseIds_iff.mpr ⟨hid, hne⟩)

/-- New content answers every tool use that has an id once. -/
theorem paired_repairedContent_iff {message nextMessage : Message}
    (hasks : message.turn.asks.Nodup) (hnodup : nextMessage.turn.answers.Nodup)
    (hsubset : ∀ id ∈ nextMessage.turn.answers, id ∈ message.turn.asks) :
    Paired message.turn
        ({ nextMessage with content := repairedContent message nextMessage } : Message).turn ↔
      ∀ id ∈ message.turn.asks, id = [] → id ∈ nextMessage.turn.answers := by
  have hids : (toolUseIds message).Nodup := by
    rw [toolUseIds, ← asks_turn]
    exact hasks.filter _
  have hnew : (toolUseIds message ++ nextMessage.turn.answers.filter (· = [])).Nodup := by
    refine nodup_append'.mpr ⟨hids, hnodup.filter _, fun id hid hid' => ?_⟩
    exact (mem_toolUseIds_iff.mp hid).2 (by simpa using (mem_filter.mp hid').2)
  rw [← answers_repairedContent] at hnew
  rw [paired_iff_of_nodup hnew, answers_repairedContent]
  constructor
  · rintro ⟨hall, -⟩ id hid rfl
    rcases mem_append.mp (hall [] hid) with hmem | hmem
    · exact absurd rfl (mem_toolUseIds_iff.mp hmem).2
    · exact (mem_filter.mp hmem).1
  · intro hempty
    refine ⟨fun id hid => ?_, fun id hid => ?_⟩
    · by_cases hne : id = []
      · refine mem_append_right _ (mem_filter.mpr ⟨hempty id hid hne, ?_⟩)
        exact decide_eq_true hne
      · exact mem_append_left _ (mem_toolUseIds_iff.mpr ⟨hid, hne⟩)
    · rcases mem_append.mp hid with hid | hid
      · exact (mem_toolUseIds_iff.mp hid).1
      · exact hsubset id (mem_filter.mp hid).1

/-- **What the repair does to a turn.** -/
theorem repairs_repairNext (message nextMessage : Message) :
    Repairs (· = []) message.turn nextMessage.turn (repairNext message nextMessage).turn := by
  rcases repairNext_cases message nextMessage with ⟨heq, hsound⟩ | ⟨heq, hconsidered⟩
  · rw [heq]
    -- nothing is missing, or nothing with an id is asked
    have hanswered : message.turn.role = .assistant → nextMessage.turn.role = .user →
        ∀ id ∈ toolUseIds message, id ∈ nextMessage.turn.answers := by
      intro hassistant huser id hid
      have hsome := hsound ⟨hassistant, huser, ne_nil_of_mem hid⟩ id hid
      obtain ⟨block, hblock, hresult⟩ := toolResultMap_isSome_iff.mp hsome
      exact mem_answers_iff.mpr ⟨block, hblock, (resultOf?_eq_some_iff.mp hresult).1⟩
    refine ⟨rfl, rfl, fun _ => rfl, fun hassistant huser _ hanswers => ?_, ?_⟩
    · obtain ⟨hnodup, hsubset⟩ := hanswers huser
      exact paired_iff_of_answered (hanswered hassistant huser) hnodup hsubset
    · intro hassistant huser
      refine ⟨Or.inl, ?_⟩
      rintro (hparts | ⟨id, hid, hne⟩)
      · exact hparts
      · have hmem := hanswered hassistant huser id (mem_toolUseIds_iff.mpr ⟨hid, hne⟩)
        intro hnil
        rw [Turn.answers, hnil] at hmem
        cases hmem
  · rw [heq]
    refine ⟨rfl, asks_repairedContent message nextMessage, fun huser => ?_,
      fun _ huser hasks hanswers => ?_, fun _ _ => ?_⟩
    · exact absurd (hconsidered.assistant.symm.trans huser) (by decide)
    · obtain ⟨hnodup, hsubset⟩ := hanswers huser
      exact paired_repairedContent_iff hasks hnodup hsubset
    · obtain ⟨id, hid⟩ := exists_mem_of_ne_nil _ hconsidered.asks
      refine ⟨fun _ => Or.inr ⟨id, mem_toolUseIds_iff.mp hid⟩, fun _ hnil => ?_⟩
      have hparts : (repairedContent message nextMessage).map (·.part) = [] := hnil
      rw [parts_repairedContent, append_eq_nil_iff, map_eq_nil_iff] at hparts
      exact hconsidered.asks hparts.1

end Lumi.Context
