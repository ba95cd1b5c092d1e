import NovumAgent.Lib.Needle
import NovumAgent.Lib.Table
import NovumAgent.Lib.Turns
import NovumAgent.NetworkProxy.Domains

/-!
# The rollback plan of a migration

A rollout of the old format keeps everything that ever happened in a thread, with markers that say how
many turns were rolled back. A migration leaves the markers out, so it must leave out what they removed.
It reads the rollout once and notes for every record the boundary that owns it, a boundary being an
instruction that starts a turn. A marker kills the boundaries on top of a stack. On a second pass, a
record is kept unless the boundary that owns it is dead.

The owner of a record can change after it was read. A message of context belongs to the turn that is
running, until another instruction comes: then all messages of context since the last instruction go to
the new one. Records of a turn that has started but has no instruction yet wait for it in the same way.

Compactions and retained context are left out, with what is only noted for them (the sources of calls,
the ids of messages, the replay of checkpoints). Which texts are hook prompts or communication between
agents is a parameter.
-/

namespace NovumAgent.Migration

open Text
open NetworkProxy (toAsciiLowercase)

/-! ## Records -/

inductive ImageReference where
  | inline (imageUrl : Text)
  | file (fileId : Text)
deriving DecidableEq, Repr

inductive ContentItem where
  | inputText (text : Text)
  | inputImage (image : ImageReference)
  | inputAudio (audioUrl : Text)
  | outputText (text : Text)
deriving DecidableEq, Repr

/-- `ResponseItem`: the variants that the plan tells apart, with all other data as one value. -/
inductive ResponseItem (ν : Type) where
  | message (role : Text) (content : List ContentItem) (data : ν)
  | agentMessage (data : ν)
  | functionCall (data : ν)
  | other (data : ν)
deriving DecidableEq, Repr

/-- `CodexHarnessMetadata`, as far as the order in which user input was accepted is read from it. -/
structure Metadata where
  inheritedUserMessage : Bool
  userInputOrder : Option Nat

/-- A recorded response item. -/
structure Response (ν : Type) where
  item : ResponseItem ν
  metadata : Option Metadata

/-- `RetainedInputSource::acceptance_order` of the metadata of a response item. -/
def Response.acceptanceOrder {ν : Type} (response : Response ν) : Option Nat :=
  response.metadata.bind fun metadata =>
    if metadata.inheritedUserMessage then none else metadata.userInputOrder

inductive UserMessageImageKind where
  | inline
  | file
deriving DecidableEq, Repr

/-- `UserMessageEvent`, as far as it is compared with a response item. -/
structure UserMessageEvent where
  message : Text
  images : Option (List Text)
  fileIds : Option (List Text)
  imageOrder : List UserMessageImageKind
  audio : Option (List Text)
  localImages : List Text
  localAudio : List Text

/-- `EventMsg`: the variants that the plan tells apart. An event of the others may name a turn. -/
inductive EventMsg where
  | threadRolledBack (numTurns : Nat)
  | turnStarted (turnId : Text)
  | turnComplete (turnId : Text)
  | turnAborted (turnId : Option Text)
  | userMessage (event : UserMessageEvent)
  | itemCompleted (turnId : Text)
  | other (turnId : Option Text)

/-- `RolloutItem`, without compactions and retained context. -/
inductive RolloutItem (ν : Type) where
  | sessionMeta
  | response (response : Response ν)
  | event (event : EventMsg)
  | interAgentCommunication
  | interAgentCommunicationMetadata
  | turnContext
  | tokenUsageRecord (turnId : Text)
  | worldState
  | realtimeItem
  | securityRiskScore

/-! ## Boundaries and context -/

/-- What is read from texts elsewhere: `parse_hook_prompt_fragment`, and
`InterAgentCommunication::is_message_content`. -/
structure Readers where
  isHookPromptFragment : Text → Bool
  isInterAgentMessageContent : List ContentItem → Bool

/-- The pairs of a start and an end between which a text is context. -/
def contextMarkers : List (Text × Text) :=
  [("# AGENTS.md instructions".toList, "</INSTRUCTIONS>".toList),
   ("<environment_context>".toList, "</environment_context>".toList),
   ("<skill>".toList, "</skill>".toList),
   ("<user_shell_command>".toList, "</user_shell_command>".toList),
   ("<turn_aborted>".toList, "</turn_aborted>".toList),
   ("<subagent_notification>".toList, "</subagent_notification>".toList),
   ("<recommended_plugins>".toList, "</recommended_plugins>".toList),
   ("<goal_context>".toList, "</goal_context>".toList),
   ("<codex_internal_context".toList, "</codex_internal_context>".toList),
   ("Warning: apply_patch was requested via ".toList,
    "Use the apply_patch tool instead of exec_command.".toList),
   ("Warning: The maximum number of unified exec processes you can keep open is".toList, []),
   ("Warning: Your account was flagged for potentially high-risk cyber activity".toList, [])]

/-- Whether a text is an external context: it starts with a tag of that name and ends with its end. -/
def isExternalContext (text : Text) : Bool :=
  match Needle.splitOnce [('>' : Char)] text with
  | some (start, _) =>
    match stripPrefix "<external_".toList start with
    | some key => ("</external_".toList ++ key ++ ">".toList).isSuffixOf text
    | none => false
  | none => false

variable (readers : Readers)

def isKnownContextualUserText (text : Text) : Bool :=
  let text := trim text
  readers.isHookPromptFragment text ||
    contextMarkers.any (fun marker => marker.1.isPrefixOf text && marker.2.isSuffixOf text) ||
    isExternalContext text

def isKnownContextualUserMessageContent (content : List ContentItem) : Bool :=
  content.any fun
    | .inputText text => isKnownContextualUserText readers text
    | _ => false

/-- The starts of developer messages that are context. -/
def developerMarkers : List Text :=
  ["<permissions instructions>".toList, "<model_switch>".toList,
   "<managed_developer_instructions>".toList, "<apps_instructions>".toList,
   "<collaboration_mode>".toList, "<multi_agent_mode>".toList, "<environments_instructions>".toList,
   "<git_attribution>".toList, "<plugins_instructions>".toList, "<realtime_conversation>".toList,
   "<skills_instructions>".toList, "<tools>".toList, "<personality_spec>".toList,
   "<token_budget>".toList, "<context_window>".toList, "<context_window_guidance>".toList,
   "<rollout_budget>".toList]

def isKnownContextualDeveloperMessageContent (content : List ContentItem) : Bool :=
  content.any fun
    | .inputText text =>
      let text := trimStart text
      developerMarkers.any fun marker =>
        toAsciiLowercase (text.take marker.length) = toAsciiLowercase marker
    | _ => false

variable {ν : Type}

def countsAsBoundary : ResponseItem ν → Bool
  | .agentMessage _ => true
  | .message role content _ =>
    (role = "user".toList ∧ ¬ isKnownContextualUserMessageContent readers content = true) ∨
      (role = "assistant".toList ∧ readers.isInterAgentMessageContent content = true)
  | .functionCall _ | .other _ => false

def isPreTurnContextUpdate : ResponseItem ν → Bool
  | .message role content _ =>
    (role = "user".toList ∧ isKnownContextualUserMessageContent readers content = true) ∨
      (role = "developer".toList ∧ isKnownContextualDeveloperMessageContent content = true)
  | .agentMessage _ | .functionCall _ | .other _ => false

def dropLastNUserTurns (history : List (ResponseItem ν)) (numTurns : Nat) : List (ResponseItem ν) :=
  Turns.dropTurns (countsAsBoundary readers) (isPreTurnContextUpdate readers) history numTurns

def UserMessageEvent.hasCompleteImageOrder (event : UserMessageEvent) : Bool :=
  event.imageOrder ≠ [] ∧ event.imageOrder.count .inline = (event.images.getD []).length ∧
    event.imageOrder.count .file = (event.fileIds.getD []).length

/-- What `user_response_matches_event` collects from the content of a response item. -/
structure Collected where
  text : Text
  images : List Text
  fileIds : List Text
  imageOrder : List UserMessageImageKind
  audio : List Text

/-- The loop of `user_response_matches_event`; nothing, if there is output in the content. -/
def collectContent (collected : Collected) : List ContentItem → Option Collected
  | [] => some collected
  | .inputText text :: content => collectContent { collected with text := collected.text ++ text } content
  | .inputImage (.inline url) :: content =>
    collectContent { collected with
      images := collected.images ++ [url], imageOrder := collected.imageOrder ++ [.inline] } content
  | .inputImage (.file fileId) :: content =>
    collectContent { collected with
      fileIds := collected.fileIds ++ [fileId], imageOrder := collected.imageOrder ++ [.file] } content
  | .inputAudio url :: content => collectContent { collected with audio := collected.audio ++ [url] } content
  | .outputText _ :: _ => none

def userResponseMatchesEvent (content : List ContentItem) (event : UserMessageEvent) : Bool :=
  match collectContent ⟨[], [], [], [], []⟩ content with
  | none => false
  | some collected =>
    collected.text = event.message ∧
      (event.hasCompleteImageOrder = true → collected.imageOrder = event.imageOrder) ∧
      collected.images = event.images.getD [] ∧ collected.fileIds = event.fileIds.getD [] ∧
      collected.audio = event.audio.getD [] ∧ event.localImages = [] ∧ event.localAudio = []

/-! ## The planner -/

structure InstructionBoundary where
  acceptanceOrder : Option Nat
  alive : Bool

structure PendingUserResponse where
  boundary : Nat
  content : List ContentItem

structure RetainedFactSource where
  recordIndex : Nat
  acceptanceOrder : Option Nat

structure RollbackPlanner where
  recordBoundaries : List (Option Nat)
  boundaries : List InstructionBoundary
  boundaryStack : List Nat
  activeTurnId : Option Text
  pendingTurnRecords : List Nat
  pendingContextRecords : List Nat
  pendingUserResponse : Option PendingUserResponse
  pendingDeliveryBoundary : Option Nat
  turnBoundaries : Table Text Nat
  retainedFactSources : List RetainedFactSource

namespace RollbackPlanner

def new : RollbackPlanner := ⟨[], [], [], none, [], [], none, none, ∅, []⟩

/-- The owner of a record, set. -/
def setOwner (owner : Option Nat) (recordBoundaries : List (Option Nat)) (index : Nat) :
    List (Option Nat) :=
  recordBoundaries.set index owner

def bindActiveTurn (p : RollbackPlanner) (boundary : Nat) : RollbackPlanner :=
  match p.activeTurnId with
  | some turnId => { p with turnBoundaries := p.turnBoundaries.insert turnId boundary }
  | none => p

/-- `start_boundary`. The new boundary has the next number. -/
def startBoundary (p : RollbackPlanner) (index : Nat) : RollbackPlanner :=
  let boundary := p.boundaries.length
  let contexts := if p.boundaryStack = [] then [] else p.pendingContextRecords
  let owned := contexts ++ p.pendingTurnRecords ++ [index]
  bindActiveTurn
    { p with
      boundaries := p.boundaries ++ [{ acceptanceOrder := none, alive := true }]
      recordBoundaries := owned.foldl (setOwner (some boundary)) p.recordBoundaries
      pendingContextRecords := []
      pendingTurnRecords := []
      boundaryStack := p.boundaryStack ++ [boundary] }
    boundary

/-- Whether there is an active turn that has no boundary yet. -/
def activeTurnUnbound (p : RollbackPlanner) : Bool :=
  match p.activeTurnId with
  | some turnId => (p.turnBoundaries.lookup turnId).isNone
  | none => false

def assignTargetedRecord (p : RollbackPlanner) (index : Nat) (turnId : Option Text) : RollbackPlanner :=
  match turnId.bind p.turnBoundaries.lookup with
  | some boundary => { p with recordBoundaries := setOwner (some boundary) p.recordBoundaries index }
  | none =>
    if p.activeTurnUnbound then { p with pendingTurnRecords := p.pendingTurnRecords ++ [index] } else p

/-- The loop of `apply_rollback` that takes boundaries from the stack, with the last one taken. -/
def popTurns : Nat → RollbackPlanner → Option Nat → RollbackPlanner × Option Nat
  | 0, p, first => (p, first)
  | count + 1, p, first =>
    match p.boundaryStack.getLast? with
    | none => (p, first)
    | some boundary =>
      popTurns count
        { p with
          boundaryStack := p.boundaryStack.dropLast
          boundaries := p.boundaries.modify boundary fun b => { b with alive := false } }
        (some boundary)

/-- The part of `apply_rollback` for facts that were accepted behind the first removed instruction. -/
def removeAccepted (p : RollbackPlanner) (first : Option Nat) : RollbackPlanner :=
  match first with
  | none => p
  | some boundary =>
    match p.boundaries[boundary]?.bind (·.acceptanceOrder) with
    | none => p
    | some order =>
      let removed := p.retainedFactSources.filter fun fact => fact.acceptanceOrder.any (order ≤ ·)
      { p with recordBoundaries :=
          (removed.map (·.recordIndex)).foldl (setOwner (some boundary)) p.recordBoundaries }

def applyRollback (p : RollbackPlanner) (numTurns : Nat) : RollbackPlanner :=
  if numTurns = 0 then p
  else
    let (p, first) := popTurns numTurns p none
    { p.removeAccepted first with
      activeTurnId := none
      pendingTurnRecords := []
      pendingContextRecords := []
      pendingUserResponse := none
      pendingDeliveryBoundary := none }

/-- Whether a response item is noted in `retained_fact_sources`. -/
def isFact : ResponseItem ν → Bool
  | .message role _ _ => role = "assistant".toList
  | .functionCall _ => true
  | .agentMessage _ | .other _ => false

/-- `RollbackPlanner::observe` with a response item, behind what it does for all records. -/
def observeResponse (p : RollbackPlanner) (index : Nat) (pairedDeliveryBoundary : Option Nat)
    (response : Response ν) : RollbackPlanner :=
  let p := if isFact response.item then
      { p with retainedFactSources := p.retainedFactSources ++ [⟨index, response.acceptanceOrder⟩] }
    else p
  match pairedDeliveryBoundary with
  | some boundary =>
    { p with
      recordBoundaries := setOwner (some boundary) p.recordBoundaries index
      boundaries := p.boundaries.modify boundary fun b =>
        { b with acceptanceOrder := response.acceptanceOrder } }
  | none =>
    if countsAsBoundary readers response.item then
      let boundary := p.boundaries.length
      let p := p.startBoundary index
      let p := { p with boundaries := p.boundaries.modify boundary fun b =>
        { b with acceptanceOrder := response.acceptanceOrder } }
      match response.item with
      | .message role content _ =>
        if role = "user".toList then { p with pendingUserResponse := some ⟨boundary, content⟩ } else p
      | .agentMessage _ | .functionCall _ | .other _ => p
    else if isPreTurnContextUpdate readers response.item then
      { p with pendingContextRecords := p.pendingContextRecords ++ [index] }
    else p

/-- The end of a turn: it is no longer the active one, if it was. -/
def endTurn (p : RollbackPlanner) (turnId : Text) : RollbackPlanner :=
  if p.activeTurnId = some turnId then { p with activeTurnId := none, pendingTurnRecords := [] } else p

/-- The boundary of a user response item that an event is the other record of. -/
def pairedUserBoundary (p : RollbackPlanner) (event : UserMessageEvent) : Option Nat :=
  match p.pendingUserResponse with
  | some pending =>
    if userResponseMatchesEvent pending.content event then some pending.boundary else none
  | none => none

/-- The boundary that a delivered agent message belongs to. -/
def pairedDeliveryBoundary (p : RollbackPlanner) (response : Response ν) : Option Nat :=
  match response.item with
  | .agentMessage _ => p.pendingDeliveryBoundary
  | .message _ _ _ | .functionCall _ | .other _ => none

/-- `RollbackPlanner::observe` with an event, behind what it does for all records. -/
def observeEvent (p : RollbackPlanner) (index : Nat) (pairedUserBoundary : Option Nat) :
    EventMsg → RollbackPlanner
  | .threadRolledBack numTurns => p.applyRollback numTurns
  | .turnStarted turnId => { p with activeTurnId := some turnId, pendingTurnRecords := [index] }
  | .turnComplete turnId => (p.assignTargetedRecord index (some turnId)).endTurn turnId
  | .turnAborted turnId =>
    match turnId with
    | some turnId => (p.assignTargetedRecord index (some turnId)).endTurn turnId
    | none => p.assignTargetedRecord index none
  | .userMessage _ =>
    match pairedUserBoundary with
    | some boundary => { p with recordBoundaries := setOwner (some boundary) p.recordBoundaries index }
    | none => p.startBoundary index
  | .itemCompleted turnId => p.assignTargetedRecord index (some turnId)
  | .other turnId => p.assignTargetedRecord index (turnId.filter (· ≠ []))

/-- What `RollbackPlanner::observe` does first for every record: it belongs to the last boundary for now,
and nothing is pending across records. -/
def pushRecord (p : RollbackPlanner) : RollbackPlanner :=
  { p with
    recordBoundaries := p.recordBoundaries ++ [p.boundaryStack.getLast?]
    pendingUserResponse := none
    pendingDeliveryBoundary := none }

def observe (before : RollbackPlanner) (item : RolloutItem ν) : RollbackPlanner :=
  let index := before.recordBoundaries.length
  let p := before.pushRecord
  match item with
  | .sessionMeta | .securityRiskScore =>
    { p with recordBoundaries := setOwner none p.recordBoundaries index }
  | .response response => p.observeResponse readers index (before.pairedDeliveryBoundary response) response
  | .event event =>
    let paired := match event with
      | .userMessage message => before.pairedUserBoundary message
      | _ => none
    p.observeEvent index paired event
  | .interAgentCommunication => p.startBoundary index
  | .interAgentCommunicationMetadata =>
    { p.startBoundary index with pendingDeliveryBoundary := some p.boundaries.length }
  | .turnContext =>
    if p.activeTurnUnbound then { p with pendingTurnRecords := p.pendingTurnRecords ++ [index] } else p
  | .tokenUsageRecord turnId => p.assignTargetedRecord index (some turnId)
  | .worldState | .realtimeItem => p

end RollbackPlanner

/-! ## The plan -/

structure RollbackPlan where
  recordBoundaries : List (Option Nat)
  boundaryAlive : List Bool

def RollbackPlanner.finish (p : RollbackPlanner) : RollbackPlan where
  recordBoundaries := p.recordBoundaries
  boundaryAlive := p.boundaries.map (·.alive)

/-- `RollbackPlan::apply`: the record, if it stays; an error, if the plan has no record of this index. -/
def RollbackPlan.apply (plan : RollbackPlan) (recordIndex : Nat) (line : RolloutItem ν) :
    Except Text (Option (RolloutItem ν)) :=
  match plan.recordBoundaries[recordIndex]? with
  | none => .error "rollback plan is shorter than source replay".toList
  | some boundary =>
    match line with
    | .event (.threadRolledBack _) => .ok none
    | line =>
      if boundary.any fun boundary => !plan.boundaryAlive.getD boundary false then .ok none
      else .ok (some line)

/-- The planner after the records of a rollout. -/
def planned (lines : List (RolloutItem ν)) : RollbackPlanner :=
  lines.foldl (RollbackPlanner.observe readers) .new

/-- The response items of the records that the plan of a rollout keeps. -/
def keptItems (lines : List (RolloutItem ν)) : List (ResponseItem ν) :=
  let plan := (planned readers lines).finish
  lines.zipIdx.filterMap fun x => match plan.apply x.2 x.1 with
    | .ok (some (.response response)) => some response.item
    | _ => none

/-- One record of the replay from the start. -/
def replayLine (history : List (ResponseItem ν)) : RolloutItem ν → List (ResponseItem ν)
  | .response response => history ++ [response.item]
  | .event (.threadRolledBack numTurns) => dropLastNUserTurns readers history numTurns
  | _ => history

/-- The history that replaying a rollout from the start leaves: each response item is appended, and each
marker drops turns. -/
def replay (lines : List (RolloutItem ν)) : List (ResponseItem ν) := lines.foldl (replayLine readers) []

end NovumAgent.Migration
