/-
**Agent events.**

`translate` of `events.ts`: the events of one commit, from the view before it, the view after it, the
operations between the two, and the changes it published. A stage of the source is a definition here, and
`translate` puts them one behind the other.

* `snapshotOf`: the event that replaces what came before it.
* `translate`: the events of a commit, and the generations whose turn has ended but which are not over.
-/

import TianGong.Chord.Op
import TianGong.Gibraltar.Live
import TianGong.Lib.Upsert
import Mathlib.Data.List.Sort

namespace TianGong.Gibraltar

open TianGong.Chord

/-! ### Views -/

inductive QueueMode where
  | steer | followUp | write
  deriving DecidableEq

/-- A queued submission, as the events show it. -/
structure QueuedItem where
  id : SubmissionId
  mode : QueueMode
  deriving DecidableEq

/-- The built-in documents of a view. One that is absent is absent. -/
structure Docs where
  live : Option LiveState
  inbox : Option (Ref (List QueuedItem))
  agent : Option (Ref (Json Unit))
  usage : Option (Ref (Json Unit))

structure ConversationView where
  entries : List EntryRecord
  docs : Docs

namespace ConversationView

/-- `parts(view).live`. -/
def live (view : ConversationView) : LiveState := view.docs.live.getD LiveState.initial

def queued (view : ConversationView) : List QueuedItem := (view.docs.inbox.map Ref.value).getD []

/-- The agent's document. One that is absent reads as its initial value. -/
def agent (view : ConversationView) : Json Unit := (view.docs.agent.map Ref.value).getD (.object () [])

def usage (view : ConversationView) : Json Unit :=
  (view.docs.usage.map Ref.value).getD
    (.object () [(text "models", .object () []), (text "tools", .object () [])])

end ConversationView

/-! ### Publications -/

inductive TaskOutcome where
  | completed | failed | aborted
  | orphaned (reason : Text)
  | faulted (message : Text)

/-- The state of a task. One that is pending, running or waiting has a checkpoint, with or without
arguments in it. -/
inductive TaskState where
  | live (arguments : Option (Json Unit))
  | completing (outcome : TaskOutcome)
  | terminal (outcome : TaskOutcome)

structure TaskRecord where
  id : TaskId
  conversationId : ConversationId
  kind : Text
  state : TaskState

structure SubmissionRecord where
  id : SubmissionId
  conversationId : ConversationId
  record : Json Unit

structure NestedCallState where
  taskId : Option TaskId
  result : Option (Json Unit)

/-- A change of a commit. The state of a nested call is absent when its document retired. -/
inductive CommitChange where
  | nestedCall (conversationId : ConversationId) (value : Option NestedCallState)
  | entry (conversationId : ConversationId) (value : EntryRecord)
  | task (value : TaskRecord)
  | submission (value : SubmissionRecord)
  | other

/-! ### Events -/

/-- The identifying fields of a slot's tool events. -/
structure ToolEventCall where
  toolCallId : Text
  toolName : Text
  taskId : Option TaskId
  parentToolCallId : Option Text
  parentTaskId : Option TaskId

/-- What started: an answer that streams, or the message of an entry. -/
inductive StartedMessage where
  | streamed (message : AssistantMessage)
  | entry (message : Message)

inductive BlockStart where
  | textStart | thinkingStart | toolcallStart
  deriving DecidableEq

/-- One change of the answer that streams. -/
inductive MessageChange where
  | start (type : BlockStart) (contentIndex : Nat) (block : Json Unit)
  | textDelta (contentIndex : Nat) (delta : Text)
  | thinkingDelta (contentIndex : Nat) (delta : Text)
  | toolcallDelta (contentIndex : Nat) (path : Path) (delta : Text)
  | block (contentIndex : Nat) (block : Option (Json Unit))
  | message (message : AssistantMessage)

inductive OutputChange where
  | change (trimStart : Option Nat) (append : Option Text)
  | set (output : Text)

structure ToolUpdate where
  output : Option OutputChange
  /-- `none` when they did not change, and `null` when they were removed. -/
  details : Option (Option (Json Nat))
  diagnostics : Option (List (Json Unit))

structure SnapshotEvent where
  entries : List EntryRecord
  run : Option (List SubmissionId)
  generation : Option Generation
  tools : List ToolSlot
  nestedTools : List NestedToolSlot
  compactions : List CompactionStatus
  compactionFailure : Option CompactionFailure
  inbox : List QueuedItem
  agent : Json Unit
  usage : Json Unit

inductive AgentEvent where
  | snapshot (event : SnapshotEvent)
  | runStart (inputs : List SubmissionId)
  | runEnd (inputs : List SubmissionId)
  | turnStart
  | turnEnd
  | messageStart (message : StartedMessage)
  | messageUpdate (usage : Json Unit) (changes : List MessageChange)
  | messageEnd (entry : EntryRecord)
  | toolExecutionStart (call : ToolEventCall) (args : Json Unit)
  | toolExecutionUpdate (call : ToolEventCall) (update : ToolUpdate)
  | toolExecutionEnd (call : ToolEventCall) (entry : Option EntryRecord) (result : Option (Json Unit))
  | inboxUpdate (items : List QueuedItem)
  | submission (record : SubmissionRecord)
  | autoRetryStart (attempt : Nat) (retry : Retry)
  | autoRetryEnd (attempt : Nat)
  | deferredPoll (pollAt : JsNumber)
  | entryAppended (entry : EntryRecord)
  | agentChanged (agent : Json Unit)
  | usageChanged (usage : Json Unit)
  | taskFailed (taskId : TaskId) (kind message : Text)
  | compactionStart (status : CompactionStatus)
  | compactionEnd (taskId : TaskId) (reason : Text) (error : Option Text)

def snapshotOf (view : ConversationView) : SnapshotEvent where
  entries := view.entries
  run := view.live.run.map Run.inputs
  generation := view.live.generation
  tools := view.live.tools
  nestedTools := view.live.nestedTools
  compactions := view.live.compactions
  compactionFailure := view.live.compactionFailure
  inbox := view.queued
  agent := view.agent
  usage := view.usage

/-- `callOf` of a slot of the round. -/
def ToolSlot.call (slot : ToolSlot) : ToolEventCall := ⟨slot.callId, slot.name, slot.taskId, none, none⟩

/-- `callOf` of a nested slot. -/
def NestedToolSlot.call (slot : NestedToolSlot) : ToolEventCall :=
  ⟨slot.callId, slot.name, some slot.taskId, some slot.parentCallId, some slot.parentTaskId⟩

/-! ### Operations on the view -/

def startsWith (path start : Path) : Bool := start.isPrefixOf path

def PARTIAL_PATH : Path :=
  [.key (text "docs"), .key (text "tg.live"), .key (text "generation"), .key (text "message")]

/-- The path of an operation. Operations on a view never replace the root. -/
def pathOf : Op (Json Unit) → Path
  | .r _ => []
  | .s path _ | .d path | .a path _ | .t path _ | .p path _ _ _ | .m path _ => path

/-- The event that starts a block. -/
def blockStart : Json Unit → BlockStart
  | .object _ fields =>
    match Assoc.get (text "type") fields with
    | some (.string t) =>
      if t = text "text" then .textStart
      else if t = text "thinking" then .thinkingStart
      else .toolcallStart
    | _ => .toolcallStart
  | _ => .toolcallStart

/-- A change inside a block that is a delta. -/
def blockDelta (contentIndex : Nat) (inner : Path) : Op (Json Unit) → Option MessageChange
  | .a _ delta =>
    if inner = [.key (text "text")] then some (.textDelta contentIndex delta)
    else if inner = [.key (text "thinking")] then some (.thinkingDelta contentIndex delta)
    else if inner.head? = some (.key (text "arguments")) then
      some (.toolcallDelta contentIndex inner.tail delta)
    else none
  | _ => none

/-- The loop of `messageChanges`: the blocks that were sent whole, and the changes so far. A block that was
sent whole holds every later change to it. -/
def messageChangesLoop (message : AssistantMessage) (whole : List Nat) (changes : List MessageChange) :
    List (Op (Json Unit)) → List MessageChange
  | [] => changes
  | op :: ops =>
    if !startsWith (pathOf op) PARTIAL_PATH then
      -- The whole message or generation was replaced.
      if startsWith PARTIAL_PATH (pathOf op) then [.message message]
      else messageChangesLoop message whole changes ops
    else match (pathOf op).drop PARTIAL_PATH.length with
      | [] => [.message message]
      | field :: rest =>
        if field = .key (text "usage") then messageChangesLoop message whole changes ops
        else if field ≠ .key (text "content") then [.message message]
        else match rest with
          | [] =>
            match op with
            | .p _ index 0 blocks =>
              messageChangesLoop message whole (changes ++ (blocks.zipIdx index).map fun block =>
                .start (blockStart block.1) block.2 block.1) ops
            | _ => [.message message]
          -- Blocks are addressed by their index.
          | .key _ :: _ => messageChangesLoop message whole changes ops
          | .index contentIndex :: inner =>
            if contentIndex ∈ whole then messageChangesLoop message whole changes ops
            else match blockDelta contentIndex inner op with
              | some change => messageChangesLoop message whole (changes ++ [change]) ops
              | none =>
                messageChangesLoop message (contentIndex :: whole)
                  (changes ++ [.block contentIndex message.content[contentIndex]?]) ops

def messageChanges (viewOps : List (Op (Json Unit))) (message : AssistantMessage) : List MessageChange :=
  messageChangesLoop message [] [] viewOps

/-- What the operations do to the output of a slot: what they trim, what they append, and whether they set
it. -/
def outputOps (outputPath : Path) (viewOps : List (Op (Json Unit))) : Nat × Text × Bool :=
  (viewOps.filter fun op => startsWith (pathOf op) outputPath).foldl (fun found op =>
    match op with
    | .t _ count => (found.1 + count, found.2.1, found.2.2)
    | .a _ suffix => (found.1, found.2.1 ++ suffix, found.2.2)
    | _ => (found.1, found.2.1, true)) (0, [], false)

/-- `toolUpdate`, of the slot at an index of a list of `tg.live`. -/
def toolUpdate (viewOps : List (Op (Json Unit))) (list : Text) (index : Nat)
    (slot previous : SlotProgress) : Option ToolUpdate :=
  let outputPath : Path := [.key (text "docs"), .key (text "tg.live"), .key list, .index index,
    .key (text "output")]
  let found := outputOps outputPath viewOps
  let output : Option OutputChange :=
    if found.2.2 || (slot.output ≠ previous.output && found.1 = 0 && found.2.1 = []) then
      some (.set (slot.output.getD []))
    else if 0 < found.1 || found.2.1 ≠ [] then
      some (.change (if 0 < found.1 then some found.1 else none)
        (if found.2.1 = [] then none else some found.2.1))
    else none
  let details := if identicalOption identical slot.details previous.details then none
    else some slot.details
  let diagnostics := if sameRef slot.diagnostics previous.diagnostics then none
    else some ((slot.diagnostics.map Ref.value).getD [])
  if output.isNone && details.isNone && diagnostics.isNone then none
  else some ⟨output, details, diagnostics⟩

/-! ### The changes of a commit -/

/-- `new Map(slots.map((slot) => [key(slot), slot]))`. -/
def mapOf {Slot Key : Type} [DecidableEq Key] (key : Slot → Key) (slots : List Slot) : List (Key × Slot) :=
  slots.foldl (fun map slot => Assoc.set (key slot) slot map) []

/-- What a publication says about one conversation. -/
structure Published where
  entries : List EntryRecord
  tasks : List (TaskId × TaskRecord)
  submissions : List SubmissionRecord
  nestedResults : List (TaskId × Json Unit)

/-- One change. -/
def Published.add (conversationId : ConversationId) (published : Published) : CommitChange → Published
  | .nestedCall id (some ⟨some taskId, some result⟩) =>
    if id = conversationId then
      { published with nestedResults := Assoc.set taskId result published.nestedResults }
    else published
  | .nestedCall _ _ => published
  | .entry id value =>
    if id = conversationId then { published with entries := published.entries ++ [value] } else published
  | .task value =>
    if value.conversationId = conversationId then
      { published with tasks := Assoc.set value.id value published.tasks }
    else published
  | .submission value =>
    if value.conversationId = conversationId then
      { published with submissions := published.submissions ++ [value] }
    else published
  | .other => published

/-- What `translate` collects first. -/
def publishedOf (conversationId : ConversationId) (changes : List CommitChange) : Published :=
  changes.foldl (Published.add conversationId) ⟨[], [], [], []⟩

/-! ### Tool calls -/

/-- `slotsBefore.get`. -/
def slotOf (live : LiveState) (callId : Text) : Option ToolSlot :=
  Assoc.get callId (mapOf (fun slot : ToolSlot => slot.callId) live.tools)

/-- `nestedBefore.get`. -/
def nestedOf (live : LiveState) (taskId : TaskId) : Option NestedToolSlot :=
  Assoc.get taskId (mapOf NestedToolSlot.taskId live.nestedTools)

/-- The arguments in the checkpoint of a call's task, if the commit published it. -/
def argumentsOf (tasks : List (TaskId × TaskRecord)) (slot : ToolSlot) : Json Unit :=
  match slot.taskId.bind fun taskId => Assoc.get taskId tasks with
  | some ⟨_, _, _, .live (some arguments)⟩ => arguments
  | _ => .object () []

/-- The calls that start. -/
def toolStarts (tasks : List (TaskId × TaskRecord)) (was now : LiveState) : List AgentEvent :=
  (now.tools.filter fun slot => slot.status = .running ∧
      (slotOf was slot.callId).map (fun previous => previous.status) ≠ some .running).map
    (fun slot => .toolExecutionStart slot.call (argumentsOf tasks slot)) ++
  (now.nestedTools.filter fun slot => slot.status = .running ∧
      (nestedOf was slot.taskId).map (fun previous => previous.status) ≠ some .running).map
    (fun slot => .toolExecutionStart slot.call slot.arguments)

/-- The calls that publish something. -/
def toolUpdates (viewOps : List (Op (Json Unit))) (was now : LiveState) : List AgentEvent :=
  (now.tools.zipIdx.filterMap fun at_ =>
    match slotOf was at_.1.callId with
    | some previous =>
      if at_.1.status = .running ∧ previous.status = .running then
        (toolUpdate viewOps (text "tools") at_.2 at_.1.toSlotProgress previous.toSlotProgress).map
          (.toolExecutionUpdate at_.1.call)
      else none
    | none => none) ++
  (now.nestedTools.zipIdx.filterMap fun at_ =>
    match nestedOf was at_.1.taskId with
    | some previous =>
      if at_.1.status = .running ∧ previous.status = .running then
        (toolUpdate viewOps (text "nestedTools") at_.2 at_.1.toSlotProgress previous.toSlotProgress).map
          (.toolExecutionUpdate at_.1.call)
      else none
    | none => none)

/-- The tool result for a call among entries. -/
def EntryRecord.resultOf (entries : List EntryRecord) (callId : Text) : Option EntryRecord :=
  entries.find? fun entry =>
    match entry.model.bind List.head? with
    | some (.toolResult toolCallId _ _ _ _ _) => toolCallId = callId
    | _ => false

/-- The end of a call of the round: the call, and its result entry, if the commit has it. -/
structure ToolEnd where
  call : ToolEventCall
  entry : Option EntryRecord

def ToolEnd.event (ends : ToolEnd) : AgentEvent := .toolExecutionEnd ends.call ends.entry none

def endTool (entries : List EntryRecord) (slot : ToolSlot) (entryId : Option EntryId) : ToolEnd where
  call := slot.call
  entry := entryId.bind fun id => entries.find? fun candidate => candidate.id = id

/-- The end of a call whose slot was there: the slot becomes done, or vanishes unfinished. A done slot that
vanishes ended earlier. -/
def slotEnd (entries : List EntryRecord) (now : LiveState) (previous : ToolSlot) : Option ToolEnd :=
  if previous.status = .done then none
  else match now.tools.find? fun candidate => candidate.callId = previous.callId with
    | some slot => if slot.status = .done then some (endTool entries slot slot.entry) else none
    -- Its result may have been appended as its run ended.
    | none => some (endTool entries previous
        ((EntryRecord.resultOf entries previous.callId).map EntryRecord.id))

/-- The calls that end, those whose slot is created done among them. -/
def toolEnds (entries : List EntryRecord) (was now : LiveState) : List ToolEnd :=
  ((mapOf (fun slot : ToolSlot => slot.callId) was.tools).map Prod.snd).filterMap (slotEnd entries now) ++
  (now.tools.filter fun slot => slot.status = .done ∧ slotOf was slot.callId = none).map
    (fun slot => endTool entries slot slot.entry)

def endNested (nestedResults : List (TaskId × Json Unit)) (slot : NestedToolSlot) : AgentEvent :=
  .toolExecutionEnd slot.call none (Assoc.get slot.taskId nestedResults)

/-- The end of a nested call whose slot was there. -/
def nestedSlotEnd (nestedResults : List (TaskId × Json Unit)) (now : LiveState)
    (previous : NestedToolSlot) : Option AgentEvent :=
  if previous.status = .done then none
  else match nestedOf now previous.taskId with
    | some slot => if slot.status = .done then some (endNested nestedResults slot) else none
    | none => some (endNested nestedResults previous)

/-- The nested calls that end, children before the calls that made them: the lists hold parents first. -/
def nestedEnds (nestedResults : List (TaskId × Json Unit)) (was now : LiveState) : List AgentEvent :=
  ((mapOf NestedToolSlot.taskId was.nestedTools).map Prod.snd).reverse.filterMap
    (nestedSlotEnd nestedResults now) ++
  (now.nestedTools.reverse.filter fun slot => slot.status = .done ∧ nestedOf was slot.taskId = none).map
    (endNested nestedResults)

/-! ### Messages -/

/-- The answer that streams. -/
def streamEvents (viewOps : List (Op (Json Unit))) (was now : LiveState) : List AgentEvent :=
  match now.streaming, was.streaming with
  | some message, none => [.messageStart (.streamed message.value)]
  | some message, some before =>
    if message.addr = before.addr then []
    else [.messageUpdate message.value.usage (messageChanges viewOps message.value)]
  | none, _ => []

/-- Retry and deferred state. -/
def retryEvents (was now : LiveState) : List AgentEvent :=
  let retry := now.generation.bind Generation.retry
  let retryBefore := was.generation.bind Generation.retry
  let deferred := now.generation.bind Generation.deferred
  (match now.generation, retry, retryBefore with
    | some generation, some retry, none => [.autoRetryStart generation.attempt retry]
    | _, _, _ => []) ++
  (match was.generation, retryBefore, retry with
    | some generation, some _, none => [.autoRetryEnd generation.attempt]
    | _, _, _ => []) ++
  (match deferred with
    | some pollAt =>
      if deferred = was.generation.bind Generation.deferred then [] else [.deferredPoll pollAt]
    | none => [])

/-- The first message of an entry. -/
def EntryRecord.message (entry : EntryRecord) : Option Message := entry.model.bind List.head?

/-- The loop over the entries, in append order: whether an answer streamed before the commit, and whether
one of the commit's answers was appended. The end of a tool directly precedes its result. -/
def entryEvents (streamed : Bool) (ends : List ToolEnd) : Bool → List EntryRecord → List AgentEvent
  | _, [] => []
  | assistantAppended, entry :: rest =>
    (ends.filter fun ended => ended.entry.map EntryRecord.id = some entry.id).map ToolEnd.event ++
      match entry.message with
      | none => .entryAppended entry :: entryEvents streamed ends assistantAppended rest
      | some message =>
        -- A streamed answer already started with its first partial.
        (if message.isAssistant && streamed && !assistantAppended then []
          else [.messageStart (.entry message)]) ++
        .messageEnd entry :: entryEvents streamed ends (assistantAppended || message.isAssistant) rest

/-! ### Compactions, turns and runs -/

def compactionEnds (was now : LiveState) : List AgentEvent :=
  (was.compactions.filter fun status => !now.compactions.any fun other => other.taskId = status.taskId).map
    fun status => .compactionEnd status.taskId status.reason
      (now.compactionFailure.bind fun failure =>
        if failure.taskId = status.taskId then some failure.error else none)

def compactionStarts (was now : LiveState) : List AgentEvent :=
  (now.compactions.filter fun status => !was.compactions.any fun other => other.taskId = status.taskId).map
    .compactionStart

def GENERATION_KIND : Text := text "tg.generation"

/-- `task_failed`, for an outcome the scheduler wrote. -/
def taskFailures (task : TaskRecord) : TaskOutcome → List AgentEvent
  | .faulted message => [.taskFailed task.id task.kind message]
  | .orphaned reason => [.taskFailed task.id task.kind reason]
  | _ => []

/-- The generations that hold their outcome, whether a turn ended, and the failures so far. -/
structure Turns where
  held : List TaskId
  turnEnded : Bool
  failures : List AgentEvent

/-- A task of the commit. A generation's turn ends when its outcome is committed: at a hold or at its end,
whichever comes first. -/
def Turns.add (turns : Turns) (task : TaskRecord) : Turns :=
  match task.state with
  | .live _ => turns
  | .completing _ =>
    if task.kind = GENERATION_KIND ∧ task.id ∉ turns.held then
      { turns with held := turns.held ++ [task.id], turnEnded := true }
    else turns
  | .terminal outcome =>
    let failures := turns.failures ++ taskFailures task outcome
    if task.kind = GENERATION_KIND then
      if task.id ∈ turns.held then { turns with held := turns.held.erase task.id, failures }
      else { turns with turnEnded := true, failures }
    else { turns with failures }

def turnsOf (held : List TaskId) (tasks : List (TaskId × TaskRecord)) : Turns :=
  (tasks.map Prod.snd).foldl Turns.add ⟨held, false, []⟩

def runEnds (was now : LiveState) : List AgentEvent :=
  match was.run with
  | some run => if now.firstInput ≠ was.firstInput then [.runEnd run.inputs] else []
  | none => []

def runStarts (was now : LiveState) : List AgentEvent :=
  match now.run with
  | some run => if now.firstInput ≠ was.firstInput then [.runStart run.inputs] else []
  | none => []

def turnStarts (tasks : List (TaskId × TaskRecord)) (was now : LiveState) : List AgentEvent :=
  match now.run with
  | some run =>
    if some run.taskId ≠ was.run.map Run.taskId ∧
        (Assoc.get run.taskId tasks).map TaskRecord.kind = some GENERATION_KIND then [.turnStart]
    else []
  | none => []

/-- Document state. -/
def documentEvents (before after : ConversationView) : List AgentEvent :=
  (if sameRef after.docs.inbox before.docs.inbox then [] else [.inboxUpdate after.queued]) ++
  (if sameRef after.docs.agent before.docs.agent then [] else [.agentChanged after.agent]) ++
  (if sameRef after.docs.usage before.docs.usage then [] else [.usageChanged after.usage])

/-! ### The translation -/

/-- Every event of a commit that concerns the conversation, in their order. -/
def eventsOf (published : Published) (before after : ConversationView)
    (viewOps : List (Op (Json Unit))) (turns : Turns) : List AgentEvent :=
  let was := before.live
  let now := after.live
  let ends := toolEnds published.entries was now
  toolStarts published.tasks was now ++ streamEvents viewOps was now ++ toolUpdates viewOps was now ++
    retryEvents was now ++ nestedEnds published.nestedResults was now ++
    entryEvents was.streaming.isSome ends false published.entries ++
    (ends.filter fun ended => ended.entry.isNone).map ToolEnd.event ++
    compactionEnds was now ++ turns.failures ++ (if turns.turnEnded then [.turnEnd] else []) ++
    runEnds was now ++
    (published.submissions.insertionSort fun a b => a.id ≤ b.id).map .submission ++
    documentEvents before after ++ compactionStarts was now ++ runStarts was now ++
    turnStarts published.tasks was now

/-- `translate`: the events of a commit, and the generations that hold their outcome after it. -/
def translate (conversationId : ConversationId) (before after : ConversationView)
    (viewOps : List (Op (Json Unit))) (changes : List CommitChange) (held : List TaskId) :
    List AgentEvent × List TaskId :=
  let published := publishedOf conversationId changes
  if viewOps = [] ∧ published.entries = [] ∧ published.tasks = [] ∧ published.submissions = [] then
    ([], held)
  else
    let turns := turnsOf held published.tasks
    (eventsOf published before after viewOps turns, turns.held)

/-! ### The watch -/

/-- A commit, as an attached watch is told of it: the view after it, the operations on the view, and the
changes. -/
structure Commit where
  view : ConversationView
  ops : List (Op (Json Unit))
  changes : List CommitChange

/-- What `watchEvents` keeps. -/
structure AgentWatch where
  conversationId : ConversationId
  current : ConversationView
  held : List TaskId

namespace AgentWatch

/-- What the watch keeps after a commit. -/
def next (watch : AgentWatch) (commit : Commit) : AgentWatch where
  conversationId := watch.conversationId
  current := commit.view
  held := (translate watch.conversationId watch.current commit.view commit.ops commit.changes
    watch.held).2

/-- The batch of a commit. -/
def batch (watch : AgentWatch) (commit : Commit) : List AgentEvent :=
  (translate watch.conversationId watch.current commit.view commit.ops commit.changes watch.held).1

/-- The watch after some commits. -/
def after (watch : AgentWatch) (commits : List Commit) : AgentWatch := commits.foldl next watch

/-- The batches of some commits, one behind the other. -/
def stream (watch : AgentWatch) : List Commit → List AgentEvent
  | [] => []
  | commit :: commits => watch.batch commit ++ (watch.next commit).stream commits

@[simp] theorem after_cons (watch : AgentWatch) (commit : Commit) (commits : List Commit) :
    watch.after (commit :: commits) = (watch.next commit).after commits := rfl

theorem after_append (watch : AgentWatch) (first second : List Commit) :
    watch.after (first ++ second) = (watch.after first).after second := List.foldl_append

end AgentWatch

/-- The entries of a commit that are the conversation's. -/
def entriesOf (watch : AgentWatch) (commit : Commit) : List EntryRecord :=
  (publishedOf watch.conversationId commit.changes).entries

/-- A view without operations on it stays. -/
def Advances (watch : AgentWatch) (commit : Commit) : Prop := commit.ops = [] → commit.view = watch.current

/-- Every commit of a run meets a condition. -/
def Along (condition : AgentWatch → Commit → Prop) : AgentWatch → List Commit → Prop
  | _, [] => True
  | watch, commit :: commits => condition watch commit ∧ Along condition (watch.next commit) commits

theorem along_append {condition : AgentWatch → Commit → Prop} {watch : AgentWatch}
    {first second : List Commit} : Along condition watch (first ++ second) ↔
      Along condition watch first ∧ Along condition (watch.after first) second := by
  induction first generalizing watch with
  | nil => exact ⟨fun all => ⟨trivial, all⟩, And.right⟩
  | cons commit first ih =>
    rw [List.cons_append, Along, Along, ih, and_assoc, AgentWatch.after_cons]

end TianGong.Gibraltar
