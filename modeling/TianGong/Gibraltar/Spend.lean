/-
**Commits that spend.**

What the commits of a harness write as far as usage goes: the entries, the results of nested calls, and
the ledgers. A commit is one transaction; one that throws writes nothing. What its phase, its boundary or
its host decide is open, so that every run of the harness is one of these.

* `Tx.appendAssistant`, `Tx.appendToolResult`, `Tx.convertPartial`: the writers of entries with usage.
* `Commit`, `Commit.perform`: the commits of `generation.ts`, `tool.ts`, `compaction.ts`, `live.ts`,
  `submissions.ts` and `harness.ts`.
* `projectUsage`: the ledgers of all conversations, in pages.
-/

import TianGong.Gibraltar.Usage

namespace TianGong.Gibraltar.Spend

open TianGong.Lib

variable {N : Type}

/-! ### Entries and results -/

structure AssistantMessage (N : Type) where
  provider : Text
  model : Text
  usage : Usage N
  stopReason : StopReason

structure ToolResultMessage (N : Type) where
  toolCallId : Text
  toolName : Text
  usage : Option (Usage N)
  isError : Bool

inductive Message (N : Type) where
  | system
  | user
  | assistant (message : AssistantMessage N)
  | toolResult (message : ToolResultMessage N)

inductive Head where
  | self
  | entry (id : EntryId)

structure EntryDraft (N : Type) where
  kind : Text
  model : Option (List (Message N))
  head : Option Head
  edits : List EntryId

structure EntryRecord (N : Type) where
  id : EntryId
  conversationId : ConversationId
  kind : Text
  model : Option (List (Message N))
  head : Option EntryId
  edits : List EntryId

def AssistantEntry : Text := text "tg.assistant"

def ToolResultEntry : Text := text "tg.tool-result"

structure ToolExecutionResult (N : Type) where
  isError : Option Bool
  usage : Option (Usage N)

structure NestedToolExecutionResult (N : Type) where
  taskId : TaskId
  isError : Bool
  usage : Option (Usage N)

/-- `NestedCallState`, with the conversation of its calling task. -/
structure NestedCallState (N : Type) where
  conversationId : ConversationId
  taskId : TaskId
  result : Option (NestedToolExecutionResult N)

inductive ToolTaskInput where
  | model
  | nested (parent : TaskId) (key : Text)

/-! ### Transactions -/

/-- What storage holds of it. `partials` has `tg.live.generation.message`. -/
structure Store (N : Type) where
  conversations : List ConversationId
  usage : List (ConversationId × UsageState N)
  partials : List (ConversationId × AssistantMessage N)
  nestedCalls : List ((TaskId × Text) × NestedCallState N)
  entries : List (EntryRecord N)
  nextId : Nat

def ROOT_CONVERSATION_ID : ConversationId := 1

def Store.initial : Store N := ⟨[], [], [], [], [], 2⟩

/-- The ledger of a conversation; one that is absent reads as its initial value. -/
def Store.ledger (store : Store N) (c : ConversationId) : UsageState N :=
  (Assoc.get c store.usage).getD UsageState.initial

/-- What a commit writes: an entry, the result of a nested call, or the spend of a summarization
attempt. -/
inductive Write (N : Type) where
  | entry (record : EntryRecord N)
  | nested (conversationId : ConversationId) (name : Text) (result : NestedToolExecutionResult N)
  | attempt (conversationId : ConversationId) (message : AssistantMessage N)

/-- A transaction: the store as it reads it, and what it has written. -/
structure Tx (N : Type) where
  store : Store N
  writes : List (Write N)

/-- `${message.provider}/${message.model}` -/
def modelKey (message : AssistantMessage N) : Text := message.provider ++ unit '/' :: message.model

namespace Tx

def setPartial (tx : Tx N) (c : ConversationId) (message : AssistantMessage N) : Tx N :=
  { tx with store := { tx.store with partials := Assoc.set c message tx.store.partials } }

/-- `generation` is replaced or removed. -/
def clearPartial (tx : Tx N) (c : ConversationId) : Tx N :=
  { tx with store := { tx.store with partials := Assoc.erase c tx.store.partials } }

def appendEntry (tx : Tx N) (c : ConversationId) (draft : EntryDraft N) : Option (Tx N) :=
  if c ∈ tx.store.conversations then
    let id := tx.store.nextId
    let head := draft.head.map fun head => match head with
      | .self => id
      | .entry target => target
    let record : EntryRecord N := ⟨id, c, draft.kind, draft.model, head, draft.edits⟩
    some
      { store := { tx.store with entries := tx.store.entries ++ [record], nextId := id + 1 }
        writes := tx.writes ++ [.entry record] }
  else none

def appendEntries (tx : Tx N) (c : ConversationId) (drafts : List (EntryDraft N)) : Option (Tx N) :=
  drafts.foldlM (fun tx draft => tx.appendEntry c draft) tx

section Add

variable [Add N] [Zero N]

def recordUsage (tx : Tx N) (c : ConversationId) (bucket : UsageBucket) (key : Text)
    (usage : Usage N) : Option (Tx N) :=
  if c ∈ tx.store.conversations then
    some { tx with store := { tx.store with
      usage := Assoc.set c (Gibraltar.recordUsage (tx.store.ledger c) bucket key usage)
        tx.store.usage } }
  else none

def appendAssistant (tx : Tx N) (c : ConversationId) (message : AssistantMessage N) :
    Option (Tx N) :=
  (tx.recordUsage c .models (modelKey message) message.usage).bind fun tx =>
    tx.appendEntry c ⟨AssistantEntry, some [.assistant message], none, []⟩

def appendToolResult (tx : Tx N) (c : ConversationId) (call : ToolCall)
    (result : ToolExecutionResult N) : Option (Tx N) :=
  let message : ToolResultMessage N :=
    ⟨call.id, call.name, result.usage, result.isError.getD false⟩
  let recorded := match result.usage with
    | some usage => tx.recordUsage c .tools call.name usage
    | none => some tx
  recorded.bind fun tx =>
    tx.appendEntry c ⟨ToolResultEntry, some [.toolResult message], none, []⟩

/-- The entry of a partial that an attempt left. -/
def convertPartial (tx : Tx N) (c : ConversationId) : Option (Tx N) :=
  match Assoc.get c tx.store.partials with
  | none => some tx
  | some left => tx.appendAssistant c { left with stopReason := .aborted }

def harnessError : ToolExecutionResult N := ⟨some true, none⟩

/-- The results that the harness writes itself for some calls. -/
def appendErrors (tx : Tx N) (c : ConversationId) (calls : List ToolCall) : Option (Tx N) :=
  calls.foldlM (fun tx call => tx.appendToolResult c call harnessError) tx

/-- A nested call settles: its usage is recorded, and its result is written to its caller's document. -/
def settleNested (tx : Tx N) (c : ConversationId) (task : TaskId) (parent : TaskId) (key : Text)
    (call : ToolCall) (result : ToolExecutionResult N) : Option (Tx N) :=
  let nested : NestedToolExecutionResult N := ⟨task, result.isError.getD false, result.usage⟩
  let recorded := match nested.usage with
    | some usage => tx.recordUsage c .tools call.name usage
    | none => some tx
  recorded.bind fun tx =>
    match Assoc.get (parent, key) tx.store.nestedCalls with
    | some state =>
      if state.taskId = task ∧ c ∈ tx.store.conversations then
        some
          { store := { tx.store with
              nestedCalls :=
                Assoc.set (parent, key) { state with result := some nested } tx.store.nestedCalls }
            writes := tx.writes ++ [.nested c call.name nested] }
      else none
    | none => none

/-- A summarization attempt is classified. -/
def recordAttempt (tx : Tx N) (c : ConversationId) (message : AssistantMessage N) : Option (Tx N) :=
  (tx.recordUsage c .models (modelKey message) message.usage).map fun tx =>
    { tx with writes := tx.writes ++ [.attempt c message] }

end Add

/-- `conversationCreated` -/
def createConversation (tx : Tx N) (c : ConversationId) (conversations : List ConversationId) : Tx N :=
  { tx with store := { tx.store with
      conversations := conversations
      usage := Assoc.set c UsageState.initial tx.store.usage } }

def deleteConversation (tx : Tx N) (c : ConversationId) : Tx N :=
  { tx with store := { tx.store with
      conversations := tx.store.conversations.filter fun other => other ≠ c
      usage := Assoc.erase c tx.store.usage
      partials := Assoc.erase c tx.store.partials
      nestedCalls := tx.store.nestedCalls.filter fun call => call.2.conversationId ≠ c
      entries := tx.store.entries.filter fun e => e.conversationId ≠ c } }

end Tx

/-! ### Commits -/

/-- What one commit does. Its drafts are the entries that hosts and users hand over, and the built-in ones
without usage. -/
inductive Commit (N : Type) where
  | createRoot
  /-- A conversation of its own, or a fork. -/
  | createConversation
  | deleteConversation (c : ConversationId)
  /-- A commit that only appends: `prepare`, `finishToolRound`, `admitSubmission`, `place`, and a host's
  own. -/
  | appends (c : ConversationId) (drafts : List (EntryDraft N))
  /-- `request`. -/
  | request (c : ConversationId)
  /-- A throttled partial of `streamResponse`. -/
  | flush (c : ConversationId) (message : AssistantMessage N)
  /-- `retry`, a deferred response, and the ends of a run that append nothing. -/
  | leaves (c : ConversationId)
  /-- `classify` of an attempt that failed or overflowed. -/
  | fails (c : ConversationId) (message : AssistantMessage N)
  | answer (c : ConversationId) (message : AssistantMessage N) (drafts : List (EntryDraft N))
  | startToolRound (c : ConversationId) (message : AssistantMessage N) (calls : List ToolCall)
      (offered : Text → Bool)
  /-- `abort` of a generation. -/
  | abort (c : ConversationId) (unstarted : List ToolCall)
  | startNestedCall (c : ConversationId) (parent : TaskId) (key : Text)
  /-- `settle` of a tool task. -/
  | settle (c : ConversationId) (task : TaskId) (input : ToolTaskInput) (call : ToolCall)
      (result : ToolExecutionResult N)
  /-- A task is over, and its documents retire. -/
  | retire (task : TaskId)
  /-- `summarize`, with the summary if it is placed at once. -/
  | summarize (c : ConversationId) (message : AssistantMessage N) (drafts : List (EntryDraft N))
  /-- `settleSchedulerOutcome` of a generation. -/
  | schedulerOutcome (c : ConversationId)

namespace Commit

/-- The drafts of a commit. -/
def drafts : Commit N → List (EntryDraft N)
  | appends _ drafts | answer _ _ drafts | summarize _ _ drafts => drafts
  | _ => []

variable [Add N] [Zero N]

def run (tx : Tx N) : Commit N → Option (Tx N)
  | createRoot =>
    if ROOT_CONVERSATION_ID ∈ tx.store.conversations then some tx
    else some (tx.createConversation ROOT_CONVERSATION_ID
      (ROOT_CONVERSATION_ID :: tx.store.conversations))
  | createConversation =>
    let id := tx.store.nextId
    let minted := { tx with store := { tx.store with nextId := id + 1 } }
    some (minted.createConversation id (tx.store.conversations ++ [id]))
  | deleteConversation c =>
    if c = ROOT_CONVERSATION_ID then none else some (tx.deleteConversation c)
  | appends c drafts => tx.appendEntries c drafts
  | request c => (tx.convertPartial c).map (·.clearPartial c)
  | flush c message => some (tx.setPartial c message)
  | leaves c => some (tx.clearPartial c)
  | fails c message => (tx.appendAssistant c message).map (·.clearPartial c)
  | answer c message drafts =>
    (tx.appendAssistant c message).bind fun tx =>
      (tx.appendEntries c drafts).map (·.clearPartial c)
  | startToolRound c message calls offered =>
    (tx.appendAssistant c message).bind fun tx =>
      (tx.appendErrors c (calls.filter fun call => !offered call.name)).map (·.clearPartial c)
  | abort c unstarted =>
    (tx.convertPartial c).bind fun tx => (tx.appendErrors c unstarted).map (·.clearPartial c)
  | startNestedCall c parent key =>
    match Assoc.get (parent, key) tx.store.nestedCalls with
    | some _ => some tx
    | none =>
      let id := tx.store.nextId
      some { tx with store := { tx.store with
        nestedCalls := tx.store.nestedCalls ++ [((parent, key), ⟨c, id, none⟩)]
        nextId := id + 1 } }
  | settle c task input call result =>
    match input with
    | .model => tx.appendToolResult c call result
    | .nested parent key => tx.settleNested c task parent key call result
  | retire task =>
    some { tx with store := { tx.store with
      nestedCalls := tx.store.nestedCalls.filter fun call => call.1.1 ≠ task } }
  | summarize c message drafts =>
    (tx.recordAttempt c message).bind fun tx => tx.appendEntries c drafts
  | schedulerOutcome c => (tx.convertPartial c).map (·.clearPartial c)

/-- The store after a commit, and what the commit wrote. -/
def perform (commit : Commit N) (store : Store N) : Option (Store N × List (Write N)) :=
  (commit.run ⟨store, []⟩).map fun tx => (tx.store, tx.writes)

end Commit

/-- **A run** reaches a store, and has written these in order. The drafts are of a kind. -/
inductive Reaches [Add N] [Zero N] (Allowed : EntryDraft N → Prop) :
    Store N → List (Write N) → Prop
  | initial : Reaches Allowed Store.initial []
  | step {store store' : Store N} {written writes : List (Write N)} {commit : Commit N}
      (before : Reaches Allowed store written) (allowed : ∀ draft ∈ commit.drafts, Allowed draft)
      (performs : commit.perform store = some (store', writes)) :
      Reaches Allowed store' (written ++ writes)

/-- Commits one after the other. -/
def performAll [Add N] [Zero N] (commits : List (Commit N)) (state : Store N × List (Write N)) :
    Option (Store N × List (Write N)) :=
  commits.foldlM (fun (store, written) commit =>
    (commit.perform store).map fun (store, writes) => (store, written ++ writes)) state

/-! ### The project -/

def PROJECT_USAGE_PAGE : Nat := 200

structure ProjectUsage (N : Type) where
  conversations : Nat
  usage : UsageState N

def Store.scanConversations (store : Store N) (limit : Nat) (cursor : Option ConversationId) :
    List ConversationId × Option ConversationId :=
  page id limit (behind (fun a b => decide (a < b)) id cursor store.conversations)

/-- The part of `projectUsage` inside its loops. -/
def addConversation [Add N] [Zero N] (store : Store N) (sum : ProjectUsage N) (c : ConversationId) :
    ProjectUsage N :=
  match Assoc.get c store.usage with
  | none => sum
  | some state =>
    if state.models.isEmpty && state.tools.isEmpty then sum
    else ⟨sum.conversations + 1, addUsageState sum.usage state⟩

def projectUsage [Add N] [Zero N] (store : Store N) : ProjectUsage N :=
  (scanPages (store.scanConversations PROJECT_USAGE_PAGE) (store.conversations.length + 1)
    none).foldl (addConversation store) ⟨0, UsageState.initial⟩

end TianGong.Gibraltar.Spend
