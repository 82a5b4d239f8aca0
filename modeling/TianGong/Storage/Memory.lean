/-
**The tables of a Storage: `memory.ts`.**

Conversations, entries and tasks, each with the indexes its scans read. A commit checks the ids of its
writes against all ids that were ever written, and applies the writes in order; a conversation is deleted
together with its rows.

* `commit`, `deleteConversation`: the two operations that write the tables.
* `Reachable`: the states that such operations lead to, when commits are admitted by `admits`.

A submission and a document leave their ids here and nothing else.
-/

import TianGong.Chord.Json
import TianGong.Lib.SortedIds

namespace TianGong.Storage

open TianGong.Lib

abbrev ConversationId := Nat
abbrev EntryId := Nat
abbrev TaskId := Nat
abbrev Seq := Nat

/-- The reserved identity of a Session's first conversation. -/
def ROOT_CONVERSATION_ID : ConversationId := 1

inductive TableName
  | conversation
  | entry
  | task
  | submission
  | document
deriving DecidableEq

/-! ### Records -/

/-- The fork source of a conversation, and the inclusive entry through which history is inherited. -/
structure Parent where
  conversationId : ConversationId
  at_ : EntryId
deriving DecidableEq

/-- The task that created a conversation, and that task's conversation. -/
structure Owner where
  conversationId : ConversationId
  taskId : TaskId
deriving DecidableEq

structure ConversationRecord where
  id : ConversationId
  parent : Option Parent
  owner : Option Owner
deriving DecidableEq

/-- An entry. What the tables do not look at is its content. -/
structure EntryRecord where
  id : EntryId
  conversationId : ConversationId
  head : Option EntryId
  content : Json Unit

inductive TaskStatus
  | pending
  | running
  | waiting
  | completing
  | terminal
deriving DecidableEq

inductive JoinPolicy
  | failFast
  | allSettled
deriving DecidableEq

inductive OutcomeStatus
  | completed
  | failed
  | aborted
  | orphaned
  | faulted
deriving DecidableEq

/-- The state of a task. Of a checkpoint its `phase` is kept, of an outcome its status. -/
inductive TaskState
  | pending (phase : Text)
  | running (phase : Text)
  | waiting (phase : Text) (on : List TaskId) (policy : JoinPolicy)
  | completing (outcome : OutcomeStatus)
  | terminal (outcome : OutcomeStatus)
deriving DecidableEq

def TaskState.status : TaskState → TaskStatus
  | .pending _ => .pending
  | .running _ => .running
  | .waiting _ _ _ => .waiting
  | .completing _ => .completing
  | .terminal _ => .terminal

structure TaskRecord where
  id : TaskId
  conversationId : ConversationId
  kind : Text
  owner : Option TaskId
  background : Bool
  abortRequested : Bool
  state : TaskState
deriving DecidableEq

inductive Write
  | conversation (value : ConversationRecord)
  | entry (value : EntryRecord)
  | task (value : TaskRecord)
  | submission (id : Nat)
  | document (id : Nat)

namespace Write

def id : Write → Nat
  | conversation value => value.id
  | entry value => value.id
  | task value => value.id
  | submission id => id
  | document id => id

def table : Write → TableName
  | conversation _ => .conversation
  | entry _ => .entry
  | task _ => .task
  | submission _ => .submission
  | document _ => .document

end Write

/-! ### The tables -/

structure State where
  recordTypes : List (Nat × TableName) := []
  conversations : List (ConversationId × ConversationRecord) := []
  conversationIdsByOwnerTask : List (TaskId × List ConversationId) := []
  entries : List (EntryId × EntryRecord) := []
  entryIds : List (ConversationId × List EntryId) := []
  headEntryIds : List (ConversationId × List EntryId) := []
  entryCommitSeqs : List (EntryId × Seq) := []
  tasks : List (TaskId × TaskRecord) := []
  taskIds : List TaskId := []
  taskIdsByStatus : TaskStatus → List TaskId := fun _ => []
  nextSeq : Seq := 1

/-- Why a Storage refuses a batch or a deletion. -/
inductive StorageError
  | alreadyBelongs (id : Nat) (table : TableName)
  | writtenTwice (id : Nat)
  | twoRecordTypes (id : Nat)
  | reservedRoot
deriving DecidableEq

/-- The ids of an index under a key. -/
def idsOf (index : List (Nat × List Nat)) (key : Nat) : List Nat := (Assoc.get key index).getD []

def insertMapId (index : List (Nat × List Nat)) (key id : Nat) : List (Nat × List Nat) :=
  Assoc.set key (insertSorted (idsOf index key) id) index

/-- A record of a table that is written over by others of its table. -/
def TableName.replaces : TableName → Bool
  | .task => true
  | .submission => true
  | _ => false

def checkGlobalIds (state : State) : List (Nat × TableName) → List Write → Except StorageError Unit
  | _, [] => .ok ()
  | claimed, write :: rest =>
    let existing := Assoc.get write.id state.recordTypes
    let earlier := Assoc.get write.id claimed
    let claim := checkGlobalIds state (Assoc.set write.id write.table claimed) rest
    if write.table.replaces then
      match existing.filter fun table => table ≠ write.table with
      | some table => .error (.alreadyBelongs write.id table)
      | none =>
        if earlier.any fun table => decide (table ≠ write.table) then .error (.twoRecordTypes write.id)
        else claim
    else
      match existing with
      | some table => .error (.alreadyBelongs write.id table)
      | none => if earlier.isSome then .error (.writtenTwice write.id) else claim

/-- Move an id from the index of one status to that of another. -/
def moveStatus (index : TaskStatus → List TaskId) (id : TaskId) (before after : TaskStatus) :
    TaskStatus → List TaskId := fun status =>
  if status = after then insertSorted (index status) id
  else if status = before then removeSorted (index status) id
  else index status

def writeConversation (state : State) (value : ConversationRecord) : State where
  __ := state
  recordTypes := Assoc.set value.id .conversation state.recordTypes
  conversations := Assoc.set value.id value state.conversations
  conversationIdsByOwnerTask := match value.owner with
    | some owner => insertMapId state.conversationIdsByOwnerTask owner.taskId value.id
    | none => state.conversationIdsByOwnerTask

def writeEntry (seq : Seq) (state : State) (value : EntryRecord) : State where
  __ := state
  recordTypes := Assoc.set value.id .entry state.recordTypes
  entries := Assoc.set value.id value state.entries
  entryCommitSeqs := Assoc.set value.id seq state.entryCommitSeqs
  entryIds := insertMapId state.entryIds value.conversationId value.id
  headEntryIds := if value.head.isSome then insertMapId state.headEntryIds value.conversationId value.id
    else state.headEntryIds

def writeTask (state : State) (value : TaskRecord) : State where
  __ := state
  recordTypes := Assoc.set value.id .task state.recordTypes
  taskIds := if Assoc.has value.id state.tasks then state.taskIds else insertSorted state.taskIds value.id
  taskIdsByStatus := match Assoc.get value.id state.tasks with
    | none => fun status =>
      if status = value.state.status then insertSorted (state.taskIdsByStatus status) value.id
      else state.taskIdsByStatus status
    | some previous =>
      if previous.state.status = value.state.status then state.taskIdsByStatus
      else moveStatus state.taskIdsByStatus value.id previous.state.status value.state.status
  tasks := Assoc.set value.id value state.tasks

def applyWrite (seq : Seq) (state : State) : Write → State
  | .conversation value => writeConversation state value
  | .entry value => writeEntry seq state value
  | .task value => writeTask state value
  | .submission id => { state with recordTypes := Assoc.set id .submission state.recordTypes }
  | .document id => { state with recordTypes := Assoc.set id .document state.recordTypes }

def commit (state : State) (writes : List Write) : Except StorageError State := do
  checkGlobalIds state [] writes
  let written := writes.foldl (applyWrite state.nextSeq) state
  return { written with nextSeq := state.nextSeq + 1 }

/-- What a batch makes of the tables; one that is refused leaves them. -/
def committed (state : State) (writes : List Write) : State :=
  match commit state writes with
  | .ok next => next
  | .error _ => state

/-- Remove the rows of a task. -/
def deleteTask (state : State) (taskId : TaskId) : State where
  __ := state
  taskIds := removeSorted state.taskIds taskId
  taskIdsByStatus := match Assoc.get taskId state.tasks with
    | some task => fun status =>
      if status = task.state.status then removeSorted (state.taskIdsByStatus status) taskId
      else state.taskIdsByStatus status
    | none => state.taskIdsByStatus
  tasks := Assoc.erase taskId state.tasks
  conversationIdsByOwnerTask := Assoc.erase taskId state.conversationIdsByOwnerTask

/-- Remove the rows of the entries of a conversation. -/
def deleteEntries (state : State) (id : ConversationId) : State where
  __ := state
  entries := (idsOf state.entryIds id).foldl (fun rows entryId => Assoc.erase entryId rows) state.entries
  entryCommitSeqs :=
    (idsOf state.entryIds id).foldl (fun rows entryId => Assoc.erase entryId rows) state.entryCommitSeqs
  entryIds := Assoc.erase id state.entryIds
  headEntryIds := Assoc.erase id state.headEntryIds

/-- Remove a conversation and its rows, if it is there. Ids are never given free again. -/
def deleteConversation (state : State) (id : ConversationId) : Except StorageError (Option State) :=
  if id = ROOT_CONVERSATION_ID then .error .reservedRoot
  else if !Assoc.has id state.conversations then .ok none
  else
    let taskIds := state.taskIds.filter fun taskId =>
      (Assoc.get taskId state.tasks).any fun task => decide (task.conversationId = id)
    let remaining := taskIds.foldl deleteTask (deleteEntries state id)
    .ok (some { remaining with conversations := Assoc.erase id state.conversations })

/-- **The states of a Storage**, when each commit is admitted by its caller. -/
inductive Reachable (admits : State → List Write → Prop) : State → Prop
  | empty : Reachable admits {}
  | commit {state next : State} {writes : List Write} (before : Reachable admits state)
      (admitted : admits state writes) (done : commit state writes = .ok next) : Reachable admits next
  | delete {state next : State} {id : ConversationId} (before : Reachable admits state)
      (done : deleteConversation state id = .ok (some next)) : Reachable admits next

end TianGong.Storage
