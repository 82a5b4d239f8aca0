/-
**The batches a Session's transaction assembles: `transaction.ts`.**

A transaction writes each task once, never one that is terminal, and creates work only below a task that
is live. Batches like these keep the index of the conversations a task owns.

* `assembles`: the checks of `#assemble`, on the tables the batch is committed to.
* `commit_tasks`, `commit_owned`: the tasks, and the conversations each task owns, after a batch.
* `Reachable.ownersIndexed`: only a stored task owns conversations, and they are listed in order.
-/

import TianGong.Storage.Indexes

namespace TianGong.Storage

open List
open TianGong.Lib

namespace Write

def task? : Write → Option TaskRecord
  | task value => some value
  | _ => none

def conversation? : Write → Option ConversationRecord
  | conversation value => some value
  | _ => none

/-- The task that owns a created conversation, and the conversation. -/
def owned? (write : Write) : Option (TaskId × ConversationId) :=
  write.conversation?.bind fun value => value.owner.map fun owner => (owner.taskId, value.id)

end Write

def tasksOf (writes : List Write) : List TaskRecord := writes.filterMap Write.task?

/-- The record a batch writes for a task. -/
def writtenTask (writes : List Write) (id : TaskId) : Option TaskRecord :=
  (tasksOf writes).find? fun value => decide (value.id = id)

/-- The conversations a batch creates for a task, in its order. -/
def ownedBy (writes : List Write) (id : TaskId) : List ConversationId :=
  ((writes.filterMap Write.owned?).filter fun owned => decide (owned.1 = id)).map Prod.snd

/-- The final record of a task in a batch. -/
def currentTask (state : State) (writes : List Write) (id : TaskId) : Option TaskRecord :=
  (writtenTask writes id).or (Assoc.get id state.tasks)

/-- New owned work needs a live owner: not `completing`, terminal, or abort-marked. -/
def TaskRecord.mayOwn (task : TaskRecord) : Bool :=
  decide (task.state.status ≠ .terminal) && decide (task.state.status ≠ .completing) &&
    !task.abortRequested

/-- Whether a transaction can assemble a batch. -/
def assembles (state : State) (writes : List Write) : Bool :=
  decide ((tasksOf writes).map TaskRecord.id).Nodup && ((tasksOf writes).all fun task =>
      match Assoc.get task.id state.tasks with
      | some committed => decide (committed.state.status ≠ .terminal) &&
          decide (committed.conversationId = task.conversationId)
      | none => task.owner.all fun owner =>
          (currentTask state writes owner).any TaskRecord.mayOwn) &&
    (writes.filterMap Write.conversation?).all fun conversation =>
      conversation.owner.all fun owner =>
        (currentTask state writes owner.taskId).any fun task =>
          task.mayOwn && decide (task.conversationId = owner.conversationId)

variable {state next : State} {writes : List Write}

theorem assembles_once (assembled : assembles state writes = true) :
    ((tasksOf writes).map TaskRecord.id).Nodup := by
  simp only [assembles, Bool.and_eq_true] at assembled
  exact of_decide_eq_true assembled.1.1

/-- A terminal task is not written. -/
theorem assembles_live (assembled : assembles state writes = true) {task committed : TaskRecord}
    (written : task ∈ tasksOf writes) (stored : Assoc.get task.id state.tasks = some committed) :
    committed.state.status ≠ .terminal := by
  simp only [assembles, Bool.and_eq_true] at assembled
  have checked := List.all_eq_true.mp assembled.1.2 task written
  rw [stored] at checked
  exact of_decide_eq_true (Bool.and_eq_true_iff.mp checked).1

/-- The owner of a created conversation is a task of the batch, or stored. -/
theorem assembles_owner (assembled : assembles state writes = true) {id : TaskId}
    {conversation : ConversationId} (owned : (id, conversation) ∈ writes.filterMap Write.owned?) :
    (currentTask state writes id).isSome = true := by
  simp only [assembles, Bool.and_eq_true] at assembled
  obtain ⟨write, member, here⟩ := List.mem_filterMap.mp owned
  obtain ⟨value, isConversation, there⟩ := Option.bind_eq_some_iff.mp here
  obtain ⟨owner, owns, same⟩ := Option.map_eq_some_iff.mp there
  cases same
  have checked := List.all_eq_true.mp assembled.2 value
    (List.mem_filterMap.mpr ⟨write, member, isConversation⟩)
  rw [owns, Option.all_some] at checked
  obtain ⟨task, found, _⟩ := (Option.any_eq_true _ _).mp checked
  rw [found]
  rfl

/-! ### The tables after a batch -/

theorem writtenTask_cons_task (value : TaskRecord) (rest : List Write) (id : TaskId) :
    writtenTask (.task value :: rest) id =
      if value.id = id then some value else writtenTask rest id := by
  rw [writtenTask, tasksOf, filterMap_cons_some (by rfl), List.find?_cons]
  by_cases here : value.id = id
  · rw [if_pos here, decide_eq_true here]
  · rw [if_neg here, decide_eq_false here]
    rfl

theorem writtenTask_none {value : TaskRecord} {rest : List Write}
    (once : ((tasksOf (.task value :: rest)).map TaskRecord.id).Nodup) :
    writtenTask rest value.id = none := by
  rw [tasksOf, filterMap_cons_some (by rfl), map_cons, nodup_cons] at once
  refine List.find?_eq_none.mpr fun other member same => once.1 ?_
  rw [← of_decide_eq_true same]
  exact mem_map_of_mem member

variable (seq : Seq)

theorem foldl_tasks (once : ((tasksOf writes).map TaskRecord.id).Nodup) (id : TaskId) :
    Assoc.get id (writes.foldl (applyWrite seq) state).tasks = currentTask state writes id := by
  induction writes generalizing state with
  | nil => rfl
  | cons write rest ih =>
    cases write with
    | task value =>
      have later : ((tasksOf rest).map TaskRecord.id).Nodup := by
        rw [tasksOf, filterMap_cons_some (by rfl), map_cons, nodup_cons] at once
        exact once.2
      rw [foldl_cons, ih later, currentTask, currentTask, writtenTask_cons_task]
      change (writtenTask rest id).or (Assoc.get id (Assoc.set value.id value state.tasks)) = _
      rw [Assoc.get_set]
      by_cases here : value.id = id
      · rw [if_pos here, if_pos here, ← here, writtenTask_none once]
        rfl
      · rw [if_neg here, if_neg here]
    | conversation value | entry value | submission other | document other => exact ih once

/-- **The tasks after a batch.** -/
theorem commit_tasks (assembled : assembles state writes = true)
    (done : commit state writes = .ok next) (id : TaskId) :
    Assoc.get id next.tasks = currentTask state writes id := by
  obtain ⟨_, rfl⟩ := commit_ok done
  exact foldl_tasks _ (assembles_once assembled) id

theorem ownedBy_cons (write : Write) (rest : List Write) (id : TaskId) :
    ownedBy (write :: rest) id =
      (write.owned?.toList.filter fun owned => decide (owned.1 = id)).map Prod.snd ++
        ownedBy rest id := by
  rw [ownedBy, filterMap_cons]
  cases write.owned? with
  | none => rfl
  | some owned =>
    rw [Option.toList_some]
    by_cases here : owned.1 = id
    · simp [ownedBy, here]
    · simp [ownedBy, here]

/-- **The conversations each task owns after a batch**, up to the order they are written in. -/
theorem foldl_owned (id : TaskId) :
    (idsOf (writes.foldl (applyWrite seq) state).conversationIdsByOwnerTask id).Perm
      (idsOf state.conversationIdsByOwnerTask id ++ ownedBy writes id) := by
  induction writes generalizing state with
  | nil => exact .of_eq (append_nil _).symm
  | cons write rest ih =>
    refine (@ih (applyWrite seq state write)).trans ?_
    rw [ownedBy_cons, ← append_assoc]
    refine List.Perm.append_right _ ?_
    cases write with
    | conversation value =>
      change (idsOf (writeConversation state value).conversationIdsByOwnerTask id).Perm _
      cases owner : value.owner with
      | none =>
        have same : (writeConversation state value).conversationIdsByOwnerTask =
            state.conversationIdsByOwnerTask := by rw [writeConversation, owner]
        have nothing : (Write.conversation value).owned? = none := by
          simp [Write.owned?, Write.conversation?, owner]
        rw [same, nothing]
        exact .of_eq (append_nil _).symm
      | some holder =>
        have inserted : (writeConversation state value).conversationIdsByOwnerTask =
            insertMapId state.conversationIdsByOwnerTask holder.taskId value.id := by
          rw [writeConversation, owner]
        have one : (Write.conversation value).owned? = some (holder.taskId, value.id) := by
          simp [Write.owned?, Write.conversation?, owner]
        rw [inserted, one, idsOf_insertMapId, Option.toList_some]
        by_cases here : holder.taskId = id
        · rw [if_pos here, here, filter_singleton, decide_eq_true rfl]
          exact (insertSorted_perm _ _).trans (perm_append_singleton _ _).symm
        · rw [if_neg here, filter_singleton, decide_eq_false here]
          exact .of_eq (append_nil _).symm
    | task _ | entry _ | submission _ | document _ => exact .of_eq (append_nil _).symm

theorem commit_owned (done : commit state writes = .ok next) (id : TaskId) :
    (idsOf next.conversationIdsByOwnerTask id).Perm
      (idsOf state.conversationIdsByOwnerTask id ++ ownedBy writes id) := by
  obtain ⟨_, rfl⟩ := commit_ok done
  exact foldl_owned state.nextSeq id

/-- A conversation that is stored, or created by a batch, is stored after it. -/
theorem foldl_conversations {id : ConversationId}
    (there : (Assoc.get id state.conversations).isSome = true ∨
      ∃ value, .conversation value ∈ writes ∧ value.id = id) :
    (Assoc.get id (writes.foldl (applyWrite seq) state).conversations).isSome = true := by
  induction writes generalizing state with
  | nil => exact there.resolve_right fun ⟨_, member, _⟩ => absurd member not_mem_nil
  | cons write rest ih =>
    refine ih ?_
    have kept : (Assoc.get id state.conversations).isSome = true →
        (Assoc.get id (applyWrite seq state write).conversations).isSome = true := by
      intro old
      cases write with
      | conversation value =>
        change (Assoc.get id (Assoc.set value.id value state.conversations)).isSome = true
        rw [Assoc.get_set]
        split
        · rfl
        · exact old
      | task _ | entry _ | submission _ | document _ => exact old
    rcases there with old | ⟨value, member, rfl⟩
    · exact .inl (kept old)
    · rcases List.mem_cons.mp member with rfl | later
      · refine .inl ?_
        change (Assoc.get value.id (Assoc.set value.id value state.conversations)).isSome = true
        rw [Assoc.get_set_self]
        rfl
      · exact .inr ⟨value, later, rfl⟩

theorem commit_conversations (done : commit state writes = .ok next) {id : ConversationId}
    (there : (Assoc.get id state.conversations).isSome = true ∨
      ∃ value, .conversation value ∈ writes ∧ value.id = id) :
    (Assoc.get id next.conversations).isSome = true := by
  obtain ⟨_, rfl⟩ := commit_ok done
  exact foldl_conversations state.nextSeq there

/-- What a batch creates for a task is one of its conversations. -/
theorem mem_ownedBy {id : TaskId} {conversation : ConversationId}
    (member : conversation ∈ ownedBy writes id) :
    ∃ value, .conversation value ∈ writes ∧ value.id = conversation := by
  obtain ⟨owned, inside, rfl⟩ := List.mem_map.mp member
  obtain ⟨write, written, here⟩ := List.mem_filterMap.mp (List.mem_filter.mp inside).1
  obtain ⟨value, isConversation, there⟩ := Option.bind_eq_some_iff.mp here
  obtain ⟨owner, _, same⟩ := Option.map_eq_some_iff.mp there
  cases same
  cases write with
  | conversation other =>
    cases isConversation
    exact ⟨value, written, rfl⟩
  | task _ | entry _ | submission _ | document _ => cases isConversation

/-! ### Changes in another order -/

theorem writtenTask_eq_some_iff (once : ((tasksOf writes).map TaskRecord.id).Nodup) {id : TaskId}
    {task : TaskRecord} : writtenTask writes id = some task ↔ task ∈ tasksOf writes ∧ task.id = id := by
  have sound : ∀ {id : TaskId} {task : TaskRecord}, writtenTask writes id = some task →
      task ∈ tasksOf writes ∧ task.id = id := by
    intro id task found
    rw [writtenTask] at found
    have named := List.find?_some found
    exact ⟨List.mem_of_find?_eq_some found, of_decide_eq_true named⟩
  constructor
  · exact sound
  · rintro ⟨member, rfl⟩
    cases found : writtenTask writes task.id with
    | none => exact absurd (decide_eq_true rfl) (List.find?_eq_none.mp found task member)
    | some other =>
      obtain ⟨inside, same⟩ := sound found
      exact congrArg some (inj_on_of_nodup_map once inside member same)

/-- The order of changes within a publication does not matter for the tasks. -/
theorem writtenTask_perm {changes : List Write} (perm : changes.Perm writes)
    (once : ((tasksOf writes).map TaskRecord.id).Nodup) (id : TaskId) :
    writtenTask changes id = writtenTask writes id := by
  have tasks : (tasksOf changes).Perm (tasksOf writes) := perm.filterMap _
  have once' := ((tasks.map TaskRecord.id).nodup_iff).mpr once
  refine Option.ext fun task => ?_
  rw [writtenTask_eq_some_iff once', writtenTask_eq_some_iff once, tasks.mem_iff]

theorem ownedBy_perm {changes : List Write} (perm : changes.Perm writes) (id : TaskId) :
    (ownedBy changes id).Perm (ownedBy writes id) :=
  ((perm.filterMap _).filter _).map _

/-! ### The index of owned conversations -/

/-- **The conversations of each task are listed in order, and only a stored task has some.** -/
structure OwnersIndexed (state : State) : Prop where
  sorted : ∀ task, (idsOf state.conversationIdsByOwnerTask task).Pairwise (· < ·)
  used : ∀ task id, id ∈ idsOf state.conversationIdsByOwnerTask task →
    Assoc.get id state.recordTypes = some .conversation
  stored : ∀ task id, id ∈ idsOf state.conversationIdsByOwnerTask task →
    (Assoc.get task state.tasks).isSome = true

/-- The part of it that each write keeps. -/
def OwnersListed (state : State) : Prop :=
  ∀ task, (idsOf state.conversationIdsByOwnerTask task).Pairwise (· < ·) ∧
    ∀ id ∈ idsOf state.conversationIdsByOwnerTask task,
      Assoc.get id state.recordTypes = some .conversation

theorem OwnersListed.applyWrite (listed : OwnersListed state) (seq : Seq) {write : Write}
    (fits : Fits state write) : OwnersListed (applyWrite seq state write) := by
  have kept : ∀ id, Assoc.get id state.recordTypes = some .conversation →
      Assoc.get id (Storage.applyWrite seq state write).recordTypes = some .conversation := by
    intro id known
    rw [get_recordTypes_applyWrite]
    split
    · rename_i here
      obtain ⟨_, same⟩ := fits _ (here ▸ known)
      rw [← same]
    · exact known
  cases write with
  | conversation value =>
    intro task
    obtain ⟨sorted, used⟩ := listed task
    cases owner : value.owner with
    | none =>
      have same : (Storage.applyWrite seq state (.conversation value)).conversationIdsByOwnerTask =
          state.conversationIdsByOwnerTask := by
        change (writeConversation state value).conversationIdsByOwnerTask = _
        rw [writeConversation, owner]
      rw [same]
      exact ⟨sorted, fun id member => kept id (used id member)⟩
    | some holder =>
      have inserted : (Storage.applyWrite seq state (.conversation value)).conversationIdsByOwnerTask =
          insertMapId state.conversationIdsByOwnerTask holder.taskId value.id := by
        change (writeConversation state value).conversationIdsByOwnerTask = _
        rw [writeConversation, owner]
      have fresh : value.id ∉ idsOf state.conversationIdsByOwnerTask holder.taskId := fun member => by
        have known := (listed holder.taskId).2 _ member
        exact absurd (fits _ known).1 Bool.false_ne_true
      rw [inserted]
      refine ⟨sorted_insert (fun other => (listed other).1) fresh task, fun id member => ?_⟩
      rw [idsOf_insertMapId] at member
      split at member
      · rcases mem_insertSorted.mp member with rfl | old
        · rw [get_recordTypes_applyWrite]
          exact if_pos rfl
        · exact kept id ((listed holder.taskId).2 id old)
      · exact kept id (used id member)
  | task _ | entry _ | submission _ | document _ =>
    exact fun task => ⟨(listed task).1, fun id member => kept id ((listed task).2 id member)⟩

section Indexed

variable (indexed : OwnersIndexed state)
include indexed

theorem OwnersIndexed.commit (assembled : assembles state writes = true)
    (done : commit state writes = .ok next) :
    OwnersIndexed next := by
  have listed : OwnersListed next :=
    commit_induct (fun seq _ _ here fits => here.applyWrite seq fits) (fun _ _ here => here) done
      fun task => ⟨indexed.sorted task, indexed.used task⟩
  refine ⟨fun task => (listed task).1, fun task => (listed task).2, fun task id member => ?_⟩
  rw [commit_tasks assembled done]
  rcases List.mem_append.mp ((commit_owned done task).mem_iff.mp member) with old | new
  · obtain ⟨committed, found⟩ := Option.isSome_iff_exists.mp (indexed.stored task id old)
    rw [currentTask, found]
    cases writtenTask writes task <;> rfl
  · obtain ⟨owned, inside, rfl⟩ := List.mem_map.mp new
    obtain ⟨there, here⟩ := List.mem_filter.mp inside
    rw [← of_decide_eq_true here]
    exact assembles_owner assembled there

theorem OwnersIndexed.deleteTask (taskId : TaskId) :
    OwnersIndexed (deleteTask state taskId) := by
  have own : ∀ task, idsOf (Storage.deleteTask state taskId).conversationIdsByOwnerTask task =
      if taskId = task then [] else idsOf state.conversationIdsByOwnerTask task := fun task =>
    idsOf_erase _ taskId task
  refine ⟨fun task => ?_, fun task id member => ?_, fun task id member => ?_⟩
  · rw [own]
    split
    · exact .nil
    · exact indexed.sorted task
  · rw [own] at member
    split at member
    · exact absurd member not_mem_nil
    · exact indexed.used task id member
  · rw [own] at member
    split at member
    · exact absurd member not_mem_nil
    · rename_i other
      change (Assoc.get task (Assoc.erase taskId state.tasks)).isSome = true
      rw [Assoc.get_erase, if_neg other]
      exact indexed.stored task id member

theorem OwnersIndexed.foldl_deleteTask (removed : List TaskId) :
    OwnersIndexed (removed.foldl Storage.deleteTask state) := by
  induction removed generalizing state with
  | nil => exact indexed
  | cons taskId rest ih => exact ih (indexed.deleteTask taskId)

theorem OwnersIndexed.frame (types : next.recordTypes = state.recordTypes)
    (tasks : next.tasks = state.tasks)
    (owners : next.conversationIdsByOwnerTask = state.conversationIdsByOwnerTask) :
    OwnersIndexed next where
  sorted := by rw [owners]; exact indexed.sorted
  used := by rw [owners, types]; exact indexed.used
  stored := by rw [owners, tasks]; exact indexed.stored

theorem OwnersIndexed.deleteEntries (conversation : ConversationId) :
    OwnersIndexed (deleteEntries state conversation) :=
  indexed.frame rfl rfl rfl

end Indexed

/-- The states of the Storage below a Session. -/
abbrev Stored (state : State) : Prop := Reachable (fun state writes => assembles state writes = true) state

theorem Reachable.ownersIndexed (reachable : Stored state) : OwnersIndexed state := by
  induction reachable with
  | empty =>
    exact ⟨fun _ => .nil, fun _ _ member => absurd member not_mem_nil,
      fun _ _ member => absurd member not_mem_nil⟩
  | commit _ assembled done ih => exact ih.commit assembled done
  | delete _ done ih =>
    rw [deleteConversation_ok done]
    exact (OwnersIndexed.foldl_deleteTask (OwnersIndexed.deleteEntries ih _) _).frame rfl rfl rfl

end TianGong.Storage
