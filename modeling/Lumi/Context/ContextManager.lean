import Lumi.Lib.Dialogue
import Lumi.Lib.InsertionMap
import Lumi.Lib.JsText

/-!
# Truncated requests

What the context manager does to the recorded messages before they are sent: it leaves out a
range, puts the texts of its updates in place, and repairs the tool results that do not follow
their tool uses.

A message is one whose content is an array of blocks.  Of a block the model has what the manager
reads; what is written into a block is one text.
-/

namespace Lumi.Context

open Js Dialogue

/-- A block in the array of a tool result. -/
inductive InnerBlock
  | text (text : Text)
  | other (type : Text)
  deriving DecidableEq

inductive ToolResultContent
  | none
  | string (text : Text)
  | blocks (blocks : List InnerBlock)
  deriving DecidableEq

inductive BlockBody
  | text (text : Text)
  | toolUse (id : Text)
  | toolResult (toolUseId : Text) (content : ToolResultContent)
  | other (type : Text)
  deriving DecidableEq

structure ContentBlock where
  contextId : Option Text
  body : BlockBody
  deriving DecidableEq

structure Message where
  contextId : Option Text
  role : Role
  content : List ContentBlock
  deriving DecidableEq

inductive Keep
  | none
  | lastTwo
  | half
  | quarter
  deriving DecidableEq

structure ContextUpdate where
  timestamp : ℕ
  updateType : Text
  text : Text
  metadata : List (List Text)

/-- `contextHistoryUpdates` and `centralProjectionUpdates`. -/
structure ContextManager where
  contextHistoryUpdates : InsertionMap ℤ (InsertionMap ℕ (List ContextUpdate))
  centralProjectionUpdates : InsertionMap Text (List ContextUpdate)

/-- The libraries that the manager calls: the hash, and the answers of the id generator in the
order of its calls. -/
structure Libraries where
  sha256 : Text → Text
  uuidv4 : ℕ → Text

/-! ## The range -/

/-- The index of the first message after the deleted range. -/
def startOfRest (deletedRange : Option (ℤ × ℤ)) : ℤ := (deletedRange.map (·.2 + 1)).getD 2

def messagesToRemove (rest : ℤ) : Keep → ℤ
  | .none => max rest 0
  | .lastTwo => max (rest - 2) 0
  | .half => rest / 4 * 2
  | .quarter => rest * 3 / 8 * 2

def getNextTruncationRange (apiMessages : List Message) (currentDeletedRange : Option (ℤ × ℤ))
    (keep : Keep) : ℤ × ℤ :=
  let rangeStartIndex := 2
  let startOfRest := startOfRest currentDeletedRange
  let rangeEndIndex := startOfRest + messagesToRemove (apiMessages.length - startOfRest) keep - 1
  -- no message stands at a negative index
  if 0 ≤ rangeEndIndex ∧ apiMessages[rangeEndIndex.toNat]?.any (·.role ≠ .assistant)
  then (rangeStartIndex, rangeEndIndex - 1)
  else (rangeStartIndex, rangeEndIndex)

/-! ## Texts of blocks -/

/-- The first text block of the array is given another text. -/
def setInnerText (text : Text) : List InnerBlock → List InnerBlock
  | [] => []
  | .text _ :: rest => .text text :: rest
  | block :: rest => block :: setInnerText text rest

def getTextFromBlock (block : ContentBlock) : Option Text :=
  match block.body with
  | .text text => some text
  | .toolResult _ (.string text) => some text
  | .toolResult _ (.blocks blocks) => blocks.findSome? fun
      | .text text => some text
      | .other _ => none
  | _ => none

def setTextInBlock (block : ContentBlock) (text : Text) : ContentBlock :=
  match block.body with
  | .text _ => { block with body := .text text }
  | .toolResult id (.string _) => { block with body := .toolResult id (.string text) }
  | .toolResult id (.blocks blocks) =>
    { block with body := .toolResult id (.blocks (setInnerText text blocks)) }
  | _ => block

/-! ## Identifiers -/

def isHexDigit (c : UInt16) : Bool :=
  (0x30 ≤ c && c ≤ 0x39) || (0x41 ≤ c && c ≤ 0x46) || (0x61 ≤ c && c ≤ 0x66)

/-- `UUID_PATTERN`: the character at this place of the pattern. -/
def isUuidChar (i : ℕ) (c : UInt16) : Bool :=
  if i = 8 ∨ i = 13 ∨ i = 18 ∨ i = 23 then c = 0x2D
  else if i = 14 then 0x31 ≤ c && c ≤ 0x38
  else if i = 19 then
    c = 0x38 || c = 0x39 || c = 0x41 || c = 0x42 || c = 0x61 || c = 0x62
  else isHexDigit c

def isUuid (s : Text) : Bool := s.length = 36 && s.zipIdx.all fun (c, i) => isUuidChar i c

def messageIdPrefix : Text := text "ctx_msg_"

def blockIdPrefix : Text := text "ctx_blk_"

def isContextIdentifier (value : Text) (start : Text) : Bool :=
  start.isPrefixOf value && isUuid (value.drop start.length)

/-- The generator's next answer, and the identifiers that were seen. -/
structure IdentifierState where
  calls : ℕ
  seenMessageIds : List Text
  seenBlockIds : List Text

section

variable (libraries : Libraries)

def ensureBlockIdentifier (s : IdentifierState) (block : ContentBlock) :
    ContentBlock × IdentifierState :=
  match block.contextId.filter fun id =>
      isContextIdentifier id blockIdPrefix && !s.seenBlockIds.contains id with
  | some id => (block, { s with seenBlockIds := id :: s.seenBlockIds })
  | none =>
    let id := blockIdPrefix ++ libraries.uuidv4 s.calls
    ({ block with contextId := some id },
      { s with calls := s.calls + 1, seenBlockIds := id :: s.seenBlockIds })

def ensureMessageIdentifier (s : IdentifierState) (message : Message) : Message × IdentifierState :=
  match message.contextId.filter fun id =>
      isContextIdentifier id messageIdPrefix && !s.seenMessageIds.contains id with
  | some id => (message, { s with seenMessageIds := id :: s.seenMessageIds })
  | none =>
    let id := messageIdPrefix ++ libraries.uuidv4 s.calls
    ({ message with contextId := some id },
      { s with calls := s.calls + 1, seenMessageIds := id :: s.seenMessageIds })

def ensureBlockIdentifiers : IdentifierState → List ContentBlock →
    List ContentBlock × IdentifierState
  | s, [] => ([], s)
  | s, block :: rest =>
    let (block, s) := ensureBlockIdentifier libraries s block
    let (rest, s) := ensureBlockIdentifiers s rest
    (block :: rest, s)

/-- The loop of `ensureContextIdentifiers`. -/
def ensureIdentifiersFrom : IdentifierState → List Message → List Message
  | _, [] => []
  | s, message :: rest =>
    let (message, s) := ensureMessageIdentifier libraries s message
    let (content, s) := ensureBlockIdentifiers libraries s message.content
    { message with content } :: ensureIdentifiersFrom s rest

def ensureContextIdentifiers (messages : List Message) : List Message :=
  ensureIdentifiersFrom libraries ⟨0, [], []⟩ messages

end

def getMessageContextId (message : Message) : Option Text :=
  message.contextId.filter (isContextIdentifier · messageIdPrefix)

def getBlockContextId (block : ContentBlock) : Option Text :=
  block.contextId.filter (isContextIdentifier · blockIdPrefix)

def getProjectionIdentityKey (messageId blockId : Text) : Text := messageId ++ [0] ++ blockId

/-- The blocks by their identities: a later block replaces an earlier one. -/
def indexBlocksByContextIdentity (messages : List Message) : InsertionMap Text ContentBlock :=
  messages.foldl (fun indexed message =>
    match getMessageContextId message with
    | none => indexed
    | some messageId => message.content.foldl (fun indexed block =>
        match getBlockContextId block with
        | none => indexed
        | some blockId => indexed.set (getProjectionIdentityKey messageId blockId) block) indexed)
    .empty

/-! ## Reserved markers -/

def isWordChar (c : UInt16) : Bool :=
  (0x30 ≤ c && c ≤ 0x39) || (0x41 ≤ c && c ≤ 0x5A) || c = 0x5F || (0x61 ≤ c && c ≤ 0x7A)

def lowerAscii (c : UInt16) : UInt16 := if 0x41 ≤ c && c ≤ 0x5A then c + 0x20 else c

def projectionMarker : Text := text "system_context_projection"

/-- The marker stands here, with a slash before it or not: the slash, and the number of characters
that are matched. -/
def matchMarker (s : Text) : Option (Text × ℕ) :=
  let closing : Text := if s.head? = some 0x2F then [0x2F] else []
  let rest := s.drop closing.length
  let after := rest.drop projectionMarker.length
  if (rest.take projectionMarker.length).map lowerAscii = projectionMarker &&
      !after.head?.any isWordChar
  then some (closing, closing.length + projectionMarker.length)
  else none

/-- `skip` characters belong to a match that has been replaced. -/
def escapeFrom (skip : ℕ) : Text → Text
  | [] => []
  | c :: rest =>
    match skip with
    | skip + 1 => escapeFrom skip rest
    | 0 =>
      if c = 0x3C then
        match matchMarker rest with
        | some (closing, matched) =>
          text "&lt;" ++ closing ++ projectionMarker ++ escapeFrom matched rest
        | none => c :: escapeFrom 0 rest
      else c :: escapeFrom 0 rest

def escapeReservedProjectionMarkers (value : Text) : Text := escapeFrom 0 value

def escapeBlock (block : ContentBlock) : ContentBlock :=
  match (getTextFromBlock block).filter (· ≠ []) with
  | none => block
  | some text => setTextInBlock block (escapeReservedProjectionMarkers text)

def escapeReservedMarkersInSourceMessages (messages : List Message) : List Message :=
  messages.map fun message => { message with content := message.content.map escapeBlock }

/-! ## Updates -/

def projectionV1 : Text := text "recoverable-projection-v1"

def projectionV2 : Text := text "recoverable-projection-v2"

/-- `update[3]?.[0]?.[i]` -/
def ContextUpdate.field? (update : ContextUpdate) (i : ℕ) : Option Text :=
  update.metadata.head?.bind (·[i]?)

def getProjectionIdentityFromUpdate (update : ContextUpdate) : Option Text :=
  if update.field? 0 ≠ some projectionV2 then none
  else
    match (update.field? 3).filter (· ≠ []), (update.field? 4).filter (· ≠ []) with
    | some messageId, some blockId => some (getProjectionIdentityKey messageId blockId)
    | _, _ => none

/-- The loop of `getIdentityProjectionUpdateArrays` over the updates of one array. -/
def indexUpdates (updates : List ContextUpdate)
    (s : InsertionMap Text (List ContextUpdate) × InsertionMap Text ℕ) :
    InsertionMap Text (List ContextUpdate) × InsertionMap Text ℕ :=
  updates.foldl (fun s update =>
    match getProjectionIdentityFromUpdate update with
    | none => s
    | some key =>
      if (s.2.get? key).all (· ≤ update.timestamp)
      then (s.1.set key updates, s.2.set key update.timestamp)
      else s) s

def getIdentityProjectionUpdateArrays (manager : ContextManager) :
    InsertionMap Text (List ContextUpdate) :=
  let latestTimestamps := manager.centralProjectionUpdates.map fun _ updates =>
    (updates.getLast?.map (·.timestamp)).getD 0
  (manager.contextHistoryUpdates.values.foldl
    (fun s innerMap => innerMap.values.foldl (fun s updates => indexUpdates updates s) s)
    (manager.centralProjectionUpdates, latestTimestamps)).1

def getLatestProjectionUpdateForIdentity (updates : List ContextUpdate) (identityKey : Text) :
    Option ContextUpdate :=
  updates.reverse.find? (getProjectionIdentityFromUpdate · = some identityKey)

def getLatestIdentityProjectionUpdates (manager : ContextManager) :
    InsertionMap Text ContextUpdate :=
  (getIdentityProjectionUpdateArrays manager).filterMap fun key updates =>
    getLatestProjectionUpdateForIdentity updates key

section

variable (libraries : Libraries)

def canApplyPositionalUpdate (update : ContextUpdate) (sourceBlock : ContentBlock) : Bool :=
  if update.field? 0 = some projectionV2 then false
  else if update.field? 0 ≠ some projectionV1 then true
  else
    match getTextFromBlock sourceBlock, update.field? 2 with
    | some sourceText, some expectedSha256 => libraries.sha256 sourceText = expectedSha256
    | _, _ => false

def canApplyIdentityUpdate (update : ContextUpdate) (sourceBlock : Option ContentBlock) : Bool :=
  match sourceBlock.bind getTextFromBlock, update.field? 2 with
  | some sourceText, some expectedSha256 =>
    sourceText = update.text || libraries.sha256 sourceText = expectedSha256
  | _, _ => false

section

variable (identityUpdates : InsertionMap Text ContextUpdate)

/-- The update that concerns the block, by its identity or by its place. -/
def latestChange
    (rawBlocksByIdentity : InsertionMap Text ContentBlock)
    (innerMap : Option (InsertionMap ℕ (List ContextUpdate))) (messageId : Option Text)
    (blockIndex : ℕ) (sourceBlock : ContentBlock) : Option ContextUpdate :=
  let identityKey := messageId.bind fun messageId =>
    (getBlockContextId sourceBlock).map (getProjectionIdentityKey messageId)
  let identityChange := identityKey.bind fun identityKey =>
    (identityUpdates.get? identityKey).filter
      (canApplyIdentityUpdate libraries · (rawBlocksByIdentity.get? identityKey))
  let positionalChange := ((innerMap.bind (·.get? blockIndex)).bind (·.getLast?)).filter
    (canApplyPositionalUpdate libraries · sourceBlock)
  match identityChange, positionalChange with
  | some byIdentity, some byPosition =>
    some (if byPosition.timestamp ≤ byIdentity.timestamp then byIdentity else byPosition)
  | some byIdentity, none => some byIdentity
  | none, byPosition => byPosition

def updateBlock
    (rawBlocksByIdentity : InsertionMap Text ContentBlock)
    (innerMap : Option (InsertionMap ℕ (List ContextUpdate))) (messageId : Option Text)
    (sourceBlock : ContentBlock) (blockIndex : ℕ) : ContentBlock :=
  match (latestChange libraries identityUpdates rawBlocksByIdentity innerMap messageId blockIndex
      sourceBlock).filter (·.updateType = text "text") with
  | some change => setTextInBlock sourceBlock change.text
  | none => sourceBlock

end

/-- `tool_result` -/
def ContentBlock.isToolResult (block : ContentBlock) : Bool :=
  match block.body with
  | .toolResult .. => true
  | _ => false

/-- Removes orphaned tool results from the first message after the truncation. -/
def removeOrphanedResults (startFromIndex : ℤ) : List Message → List Message
  | first :: second :: after :: rest =>
    if 2 < startFromIndex ∧ after.role = .user ∧ after.content.any (·.isToolResult)
    then first :: second ::
      { after with content := after.content.filter (!·.isToolResult) } :: rest
    else first :: second :: after :: rest
  | messages => messages

def applyContextHistoryUpdates (manager : ContextManager) (messages : List Message)
    (startFromIndex : ℤ) (rawBlocksByIdentity : InsertionMap Text ContentBlock) : List Message :=
  let firstChunk := slice messages 0 2
  let secondChunk := slice messages startFromIndex messages.length
  let messagesToUpdate := removeOrphanedResults startFromIndex (firstChunk ++ secondChunk)
  let identityUpdates := getLatestIdentityProjectionUpdates manager
  messagesToUpdate.zipIdx.map fun (message, arrayIndex) =>
    let messageIndex : ℤ := if arrayIndex < 2 then arrayIndex else arrayIndex - 2 + startFromIndex
    let innerMap := manager.contextHistoryUpdates.get? messageIndex
    { message with
      content := message.content.zipIdx.map fun (sourceBlock, blockIndex) =>
        updateBlock libraries identityUpdates rawBlocksByIdentity innerMap
          (getMessageContextId message) sourceBlock blockIndex }

end

/-! ## Repairs -/

def ContentBlock.toolUseId? (block : ContentBlock) : Option Text :=
  match block.body with
  | .toolUse id => some id
  | _ => none

/-- The id of the tool use that the block is a result of, if it is not empty. -/
def ContentBlock.resultOf? (block : ContentBlock) : Option Text :=
  match block.body with
  | .toolResult toolUseId _ => if toolUseId = [] then none else some toolUseId
  | _ => none

/-- The number of tool results that stand at the front in the expected order, or `none` if a
block stands where another result is expected. -/
def expectedIndex : List ContentBlock → List Text → Option ℕ
  | _, [] => some 0
  | [], _ => some 0
  | block :: rest, toolUseId :: toolUseIds =>
    match block.body with
    | .toolResult id _ =>
      if id = toolUseId then (expectedIndex rest toolUseIds).map (· + 1) else none
    | _ => none

def missingResult (toolUseId : Text) : ContentBlock :=
  ⟨none, .toolResult toolUseId (.string (text "result missing"))⟩

def toolUseIds (message : Message) : List Text :=
  (message.content.filterMap (·.toolUseId?)).filter (· ≠ [])

/-- The tool results by the tool uses that they answer. -/
def toolResultMap (content : List ContentBlock) : InsertionMap Text ContentBlock :=
  content.foldl (fun results block =>
    match block.resultOf? with
    | some toolUseId => results.set toolUseId block
    | none => results) .empty

/-- One round of `ensureToolResultsFollowToolUse`: the next message after this one. -/
def repairNext (message nextMessage : Message) : Message :=
  let toolUseIds := toolUseIds message
  if message.role ≠ .assistant ∨ toolUseIds = [] ∨ nextMessage.role ≠ .user then nextMessage
  else
    let toolResultMap := toolResultMap nextMessage.content
    let otherBlocks := nextMessage.content.filter (·.resultOf?.isNone)
    let misplaced : Bool := 0 < toolResultMap.size &&
      (expectedIndex nextMessage.content toolUseIds).all (· < toolResultMap.size)
    let missing := toolUseIds.any fun toolUseId => (toolResultMap.get? toolUseId).isNone
    if !misplaced && !missing then nextMessage
    else
      let results := toolUseIds.map fun toolUseId =>
        (toolResultMap.get? toolUseId).getD (missingResult toolUseId)
      { nextMessage with content := results ++ otherBlocks }

def ensureToolResultsFollowToolUse (messages : List Message) : List Message :=
  repairAll repairNext messages

def getAndAlterTruncatedMessages (libraries : Libraries) (manager : ContextManager)
    (messages : List Message) (deletedRange : Option (ℤ × ℤ)) : List Message :=
  if messages.length = 0 then messages
  else
    let messages := ensureContextIdentifiers libraries messages
    let rawBlocksByIdentity := indexBlocksByContextIdentity messages
    let sanitizedSource := escapeReservedMarkersInSourceMessages messages
    if messages.length = 1 then sanitizedSource
    else
      let updatedMessages := applyContextHistoryUpdates libraries manager sanitizedSource
        (startOfRest deletedRange) rawBlocksByIdentity
      ensureToolResultsFollowToolUse updatedMessages

def getTruncatedMessages (libraries : Libraries) (manager : ContextManager)
    (messages : List Message) (deletedRange : Option (ℤ × ℤ)) : List Message :=
  getAndAlterTruncatedMessages libraries manager messages deletedRange

end Lumi.Context
