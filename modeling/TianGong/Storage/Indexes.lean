/-
**What the indexes of a Storage list.**

In every reachable state the ids of a table's indexes are those of its rows, in ascending order.

* `EntriesIndexed`, `TasksIndexed`: the two tables with their indexes; `ConversationsNamed`: the third.
* `commit_induct`: what each write of an accepted batch preserves, the commit preserves: a write finds its
  id unused, or used for a row that it replaces (`Fits`).
* `Reachable.entriesIndexed`, `Reachable.tasksIndexed`, `Reachable.conversationsNamed`.
-/

import TianGong.Storage.Memory

namespace TianGong.Storage

open List Option
open TianGong.Lib
open Assoc (get_erase get_set)

/-- The id of a write is unused, or names a row that the write replaces. -/
def Fits (state : State) (write : Write) : Prop :=
  ∀ table, Assoc.get write.id state.recordTypes = some table →
    write.table.replaces = true ∧ table = write.table

@[simp]
theorem get_recordTypes_applyWrite (seq : Seq) (state : State) (write : Write) (id : Nat) :
    Assoc.get id (applyWrite seq state write).recordTypes =
      if write.id = id then some write.table else Assoc.get id state.recordTypes := by
  cases write <;> exact get_set _ _ _ _

variable {write : Write} {writes : List Write}

/-- The ids an accepted batch uses, one write after another. -/
theorem checkGlobalIds_cons {state : State} {claimed : List (Nat × TableName)} {rest : List Write}
    (ok : checkGlobalIds state claimed (write :: rest) = .ok ()) :
    checkGlobalIds state (Assoc.set write.id write.table claimed) rest = .ok () ∧
      (∀ table, Assoc.get write.id state.recordTypes = some table →
        write.table.replaces = true ∧ table = write.table) ∧
      ∀ table, Assoc.get write.id claimed = some table →
        write.table.replaces = true ∧ table = write.table := by
  unfold checkGlobalIds at ok
  dsimp only at ok
  split at ok
  · rename_i replaces
    cases existing : Assoc.get write.id state.recordTypes with
    | none =>
      rw [existing] at ok
      dsimp only [Option.filter] at ok
      split at ok
      · cases ok
      · rename_i same
        refine ⟨ok, fun table found => (by cases found), fun table found => ⟨replaces, ?_⟩⟩
        rw [found] at same
        simpa using same
    | some old =>
      rw [existing] at ok
      by_cases other : old = write.table
      · have replaced : (some old).filter (fun table => decide (table ≠ write.table)) = none :=
          filter_some_neg (by simp [other])
        rw [replaced] at ok
        dsimp only at ok
        split at ok
        · cases ok
        · rename_i same
          refine ⟨ok, fun table found => ⟨replaces, ?_⟩, fun table found => ⟨replaces, ?_⟩⟩
          · rw [← Option.some.inj found]
            exact other
          · rw [found] at same
            simpa using same
      · have foreign : (some old).filter (fun table => decide (table ≠ write.table)) = some old :=
          filter_some_pos (by simp [other])
        rw [foreign] at ok
        cases ok
  · cases existing : Assoc.get write.id state.recordTypes with
    | some old =>
      rw [existing] at ok
      cases ok
    | none =>
      rw [existing] at ok
      dsimp only at ok
      split at ok
      · cases ok
      · rename_i fresh
        refine ⟨ok, fun table found => (by cases found), fun table found => ?_⟩
        rw [found] at fresh
        exact absurd rfl fresh

/-- **What each write of an accepted batch preserves, the batch preserves.** -/
theorem batch_induct {motive : State → Prop} {seq : Seq}
    (step : ∀ state write, motive state → Fits state write → motive (applyWrite seq state write))
    {state current : State} {claimed : List (Nat × TableName)}
    (ok : checkGlobalIds state claimed writes = .ok ())
    (used : ∀ id, Assoc.get id current.recordTypes =
      (Assoc.get id claimed).or (Assoc.get id state.recordTypes))
    (here : motive current) : motive (writes.foldl (applyWrite seq) current) := by
  induction writes generalizing claimed current with
  | nil => exact here
  | cons write rest ih =>
    obtain ⟨tail, existing, earlier⟩ := checkGlobalIds_cons ok
    refine ih tail (fun id => ?_) (step current write here fun table found => ?_)
    · rw [get_recordTypes_applyWrite, get_set, used id]
      split <;> rfl
    · rw [used] at found
      cases claim : Assoc.get write.id claimed with
      | some old =>
        rw [claim, some_or] at found
        exact earlier table (claim.trans found)
      | none =>
        rw [claim, none_or] at found
        exact existing table found

theorem commit_ok {state next : State} (done : commit state writes = .ok next) :
    checkGlobalIds state [] writes = .ok () ∧
      next = { writes.foldl (applyWrite state.nextSeq) state with nextSeq := state.nextSeq + 1 } := by
  unfold commit at done
  cases ids : checkGlobalIds state [] writes with
  | error e => rw [ids] at done; cases done
  | ok _ =>
    rw [ids] at done
    cases done
    exact ⟨rfl, rfl⟩

theorem commit_induct {motive : State → Prop}
    (step : ∀ seq state write, motive state → Fits state write → motive (applyWrite seq state write))
    (stamp : ∀ state seq, motive state → motive { state with nextSeq := seq })
    {state next : State} (done : commit state writes = .ok next) (here : motive state) :
    motive next := by
  obtain ⟨ids, rfl⟩ := commit_ok done
  exact stamp _ _ (batch_induct (step state.nextSeq) ids (fun _ => rfl) here)

/-! ### Maps and their indexes -/

theorem idsOf_insertMapId (index : List (Nat × List Nat)) (key id other : Nat) :
    idsOf (insertMapId index key id) other =
      if key = other then insertSorted (idsOf index key) id else idsOf index other := by
  unfold insertMapId
  rw [idsOf, get_set]
  split <;> rfl

theorem idsOf_erase (index : List (Nat × List Nat)) (key other : Nat) :
    idsOf (Assoc.erase key index) other = if key = other then [] else idsOf index other := by
  rw [idsOf, get_erase]
  split <;> rfl

theorem get_foldl_erase {V : Type} (removed : List Nat) (id : Nat) (rows : List (Nat × V)) :
    Assoc.get id (removed.foldl (fun rows other => Assoc.erase other rows) rows) =
      if id ∈ removed then none else Assoc.get id rows := by
  induction removed generalizing rows with
  | nil => simp
  | cons other rest ih =>
    rw [foldl_cons, ih, get_erase]
    by_cases here : other = id
    · simp [here]
    · simp [here, Ne.symm here]

/-! ### Conversations -/

/-- A conversation is stored under its id, and the id is used. -/
def ConversationsNamed (state : State) : Prop :=
  ∀ id record, Assoc.get id state.conversations = some record →
    record.id = id ∧ Assoc.get id state.recordTypes = some .conversation

theorem ConversationsNamed.applyWrite {state : State} (named : ConversationsNamed state)
    (seq : Seq) (fits : Fits state write) : ConversationsNamed (applyWrite seq state write) := by
  have kept : ∀ id record, Assoc.get id state.conversations = some record → write.id ≠ id := by
    rintro id record found rfl
    obtain ⟨replaces, same⟩ := fits _ (named _ record found).2
    rw [← same] at replaces
    cases replaces
  intro id record found
  rw [get_recordTypes_applyWrite]
  cases write with
  | conversation value =>
    change Assoc.get id (Assoc.set value.id value state.conversations) = _ at found
    rw [get_set] at found
    split at found
    · rename_i here
      rw [← Option.some.inj found]
      exact ⟨here, if_pos here⟩
    · rw [if_neg (kept id record found)]
      exact named id record found
  | entry _ | task _ | submission _ | document _ =>
    rw [if_neg (kept id record found)]
    exact named id record found

/-! ### Entries -/

/-- **The rows of the entry table and its indexes.** -/
structure EntriesIndexed (state : State) : Prop where
  stored : ∀ id entry, Assoc.get id state.entries = some entry →
    entry.id = id ∧ Assoc.get id state.recordTypes = some .entry
  stamped : ∀ id, (Assoc.get id state.entryCommitSeqs).isSome = (Assoc.get id state.entries).isSome
  sorted : ∀ conversation, (idsOf state.entryIds conversation).Pairwise (· < ·)
  listed : ∀ conversation id, id ∈ idsOf state.entryIds conversation ↔
    ∃ entry, Assoc.get id state.entries = some entry ∧ entry.conversationId = conversation
  headsSorted : ∀ conversation, (idsOf state.headEntryIds conversation).Pairwise (· < ·)
  headsListed : ∀ conversation id, id ∈ idsOf state.headEntryIds conversation ↔
    ∃ entry, Assoc.get id state.entries = some entry ∧ entry.conversationId = conversation ∧
      entry.head.isSome = true

/-- A write to another table leaves the entries as they are. -/
theorem EntriesIndexed.frame {state next : State} (indexed : EntriesIndexed state)
    (entries : next.entries = state.entries) (seqs : next.entryCommitSeqs = state.entryCommitSeqs)
    (ids : next.entryIds = state.entryIds) (heads : next.headEntryIds = state.headEntryIds)
    (used : ∀ id, Assoc.get id state.recordTypes = some .entry →
      Assoc.get id next.recordTypes = some .entry) : EntriesIndexed next where
  stored id entry found := by
    rw [entries] at found
    obtain ⟨own, known⟩ := indexed.stored id entry found
    exact ⟨own, used id known⟩
  stamped := by rw [entries, seqs]; exact indexed.stamped
  sorted := by rw [ids]; exact indexed.sorted
  listed := by rw [entries, ids]; exact indexed.listed
  headsSorted := by rw [heads]; exact indexed.headsSorted
  headsListed := by rw [entries, heads]; exact indexed.headsListed

/-- A new row is listed under its conversation, where the list is the one of the chosen rows. -/
theorem listed_insert {state : State} {value : EntryRecord} {chosen : EntryRecord → Prop}
    {index : List (Nat × List Nat)} (fresh : Assoc.get value.id state.entries = none)
    (listed : ∀ conversation id, id ∈ idsOf index conversation ↔
      ∃ entry, Assoc.get id state.entries = some entry ∧ entry.conversationId = conversation ∧
        chosen entry) (choose : chosen value) (conversation id : Nat) :
    id ∈ idsOf (insertMapId index value.conversationId value.id) conversation ↔
      ∃ entry, Assoc.get id (Assoc.set value.id value state.entries) = some entry ∧
        entry.conversationId = conversation ∧ chosen entry := by
  rw [idsOf_insertMapId, get_set]
  by_cases own : value.conversationId = conversation
  · rw [if_pos own, mem_insertSorted, listed, own]
    by_cases here : value.id = id
    · rw [if_pos here]
      exact ⟨fun _ => ⟨value, rfl, own, choose⟩, fun _ => .inl here.symm⟩
    · rw [if_neg here]
      exact ⟨fun member => member.resolve_left (Ne.symm here), .inr⟩
  · rw [if_neg own, listed]
    by_cases here : value.id = id
    · rw [if_pos here]
      constructor
      · rintro ⟨entry, found, _⟩
        rw [← here, fresh] at found
        cases found
      · rintro ⟨entry, found, same, _⟩
        rw [← Option.some.inj found] at same
        exact absurd same own
    · rw [if_neg here]

theorem sorted_insert {index : List (Nat × List Nat)} {key id : Nat}
    (sorted : ∀ other, (idsOf index other).Pairwise (· < ·)) (fresh : id ∉ idsOf index key)
    (other : Nat) : (idsOf (insertMapId index key id) other).Pairwise (· < ·) := by
  rw [idsOf_insertMapId]
  split
  · exact Pairwise.insertSorted (sorted key) fresh
  · exact sorted other

theorem EntriesIndexed.writeEntry {state : State} (indexed : EntriesIndexed state) (seq : Seq)
    {value : EntryRecord} (fits : Fits state (.entry value)) :
    EntriesIndexed (writeEntry seq state value) := by
  have fresh : Assoc.get value.id state.entries = none := by
    cases found : Assoc.get value.id state.entries with
    | none => rfl
    | some entry => exact absurd (fits _ (indexed.stored _ entry found).2).1 Bool.false_ne_true
  have unlisted : value.id ∉ idsOf state.entryIds value.conversationId := fun member => by
    obtain ⟨entry, found, _⟩ := (indexed.listed _ _).mp member
    rw [fresh] at found
    cases found
  have unlistedHead : value.id ∉ idsOf state.headEntryIds value.conversationId := fun member => by
    obtain ⟨entry, found, _⟩ := (indexed.headsListed _ _).mp member
    rw [fresh] at found
    cases found
  refine ⟨fun id entry found => ?_, fun id => ?_, sorted_insert indexed.sorted unlisted, ?_, ?_, ?_⟩
  · change Assoc.get id (Assoc.set value.id value state.entries) = _ at found
    change entry.id = id ∧ Assoc.get id (Assoc.set value.id .entry state.recordTypes) = _
    rw [get_set] at found ⊢
    split at found
    · rename_i here
      rw [← Option.some.inj found]
      exact ⟨here, if_pos here⟩
    · rename_i other
      rw [if_neg other]
      exact indexed.stored id entry found
  · change (Assoc.get id (Assoc.set value.id seq state.entryCommitSeqs)).isSome =
      (Assoc.get id (Assoc.set value.id value state.entries)).isSome
    rw [get_set, get_set]
    split
    · rfl
    · exact indexed.stamped id
  · intro conversation id
    have all := @listed_insert state value (fun _ => True) _ fresh
      (fun c i => by simpa using indexed.listed c i) trivial conversation id
    simp only [and_true] at all
    exact all
  · intro conversation
    change (idsOf (if value.head.isSome then _ else _) conversation).Pairwise (· < ·)
    split
    · exact sorted_insert indexed.headsSorted unlistedHead conversation
    · exact indexed.headsSorted conversation
  · intro conversation id
    change id ∈ idsOf (if value.head.isSome then _ else _) conversation ↔ _
    split
    · rename_i head
      exact listed_insert fresh indexed.headsListed head conversation id
    · rename_i plain
      rw [indexed.headsListed]
      change _ ↔ ∃ entry, Assoc.get id (Assoc.set value.id value state.entries) = some entry ∧ _
      rw [get_set]
      by_cases here : value.id = id
      · rw [if_pos here, ← here, fresh]
        constructor
        · rintro ⟨entry, found, _⟩
          cases found
        · rintro ⟨entry, found, _, head⟩
          rw [← Option.some.inj found] at head
          exact absurd head plain
      · rw [if_neg here]

theorem EntriesIndexed.applyWrite {state : State} (indexed : EntriesIndexed state) (seq : Seq)
    (fits : Fits state write) : EntriesIndexed (applyWrite seq state write) := by
  have used : ∀ id, Assoc.get id state.recordTypes = some .entry → write.id = id →
      write.table = .entry ∧ write.table.replaces = true := by
    rintro id known rfl
    obtain ⟨replaces, same⟩ := fits _ known
    exact ⟨same.symm, replaces⟩
  have kept : ∀ id, Assoc.get id state.recordTypes = some .entry →
      Assoc.get id (Storage.applyWrite seq state write).recordTypes = some .entry := by
    intro id known
    rw [get_recordTypes_applyWrite]
    split
    · rename_i here
      rw [(used id known here).1]
    · exact known
  cases write with
  | conversation value | task value | submission id | document id => exact indexed.frame rfl rfl rfl rfl kept
  | entry value => exact indexed.writeEntry seq fits

/-! ### Tasks -/

/-- **The rows of the task table and its indexes.** -/
structure TasksIndexed (state : State) : Prop where
  stored : ∀ id task, Assoc.get id state.tasks = some task → task.id = id
  sorted : state.taskIds.Pairwise (· < ·)
  listed : ∀ id, id ∈ state.taskIds ↔ (Assoc.get id state.tasks).isSome = true
  statusSorted : ∀ status, (state.taskIdsByStatus status).Pairwise (· < ·)
  statusListed : ∀ status id, id ∈ state.taskIdsByStatus status ↔
    ∃ task, Assoc.get id state.tasks = some task ∧ task.state.status = status

theorem TasksIndexed.frame {state next : State} (indexed : TasksIndexed state)
    (tasks : next.tasks = state.tasks) (ids : next.taskIds = state.taskIds)
    (statuses : next.taskIdsByStatus = state.taskIdsByStatus) : TasksIndexed next where
  stored := by rw [tasks]; exact indexed.stored
  sorted := by rw [ids]; exact indexed.sorted
  listed := by rw [tasks, ids]; exact indexed.listed
  statusSorted := by rw [statuses]; exact indexed.statusSorted
  statusListed := by rw [tasks, statuses]; exact indexed.statusListed

/-- The ids of a status after a write. -/
theorem mem_taskIdsByStatus_writeTask {state : State} (indexed : TasksIndexed state)
    (value : TaskRecord) (status : TaskStatus) :
    (((writeTask state value).taskIdsByStatus status).Pairwise (· < ·)) ∧
      ∀ id, id ∈ (writeTask state value).taskIdsByStatus status ↔
        if value.id = id then value.state.status = status else id ∈ state.taskIdsByStatus status := by
  have sorted := indexed.statusSorted status
  cases before : Assoc.get value.id state.tasks with
  | none =>
    have unlisted : value.id ∉ state.taskIdsByStatus status := fun member => by
      obtain ⟨task, found, _⟩ := (indexed.statusListed status value.id).mp member
      rw [before] at found
      cases found
    simp only [writeTask, before]
    split
    · rename_i here
      refine ⟨Pairwise.insertSorted sorted unlisted, fun id => ?_⟩
      rw [mem_insertSorted]
      split
      · rename_i same
        exact ⟨fun _ => here.symm, fun _ => .inl same.symm⟩
      · rename_i other
        exact ⟨fun member => member.resolve_left (Ne.symm other), .inr⟩
    · rename_i elsewhere
      refine ⟨sorted, fun id => ?_⟩
      split
      · rename_i same
        exact ⟨fun member => absurd (same ▸ member) unlisted, fun here => absurd here.symm elsewhere⟩
      · rfl
  | some previous =>
    have listed : value.id ∈ state.taskIdsByStatus status ↔ previous.state.status = status := by
      rw [indexed.statusListed, before]
      simp
    simp only [writeTask, before]
    split
    · rename_i same
      refine ⟨sorted, fun id => ?_⟩
      split
      · rename_i here
        rw [← here, listed, same]
      · rfl
    · rename_i moved
      unfold moveStatus
      split
      · rename_i here
        have unlisted : value.id ∉ state.taskIdsByStatus status := by
          rw [listed, here]
          exact moved
        refine ⟨Pairwise.insertSorted sorted unlisted, fun id => ?_⟩
        rw [mem_insertSorted]
        split
        · rename_i same
          exact ⟨fun _ => here.symm, fun _ => .inl same.symm⟩
        · rename_i other
          exact ⟨fun member => member.resolve_left (Ne.symm other), .inr⟩
      · rename_i elsewhere
        split
        · refine ⟨Pairwise.removeSorted sorted _, fun id => ?_⟩
          rw [mem_removeSorted sorted]
          split
          · rename_i same
            exact ⟨fun kept => absurd same.symm kept.2, fun here => absurd here.symm elsewhere⟩
          · rename_i other
            exact ⟨And.left, fun member => ⟨member, Ne.symm other⟩⟩
        · rename_i neither
          refine ⟨sorted, fun id => ?_⟩
          split
          · rename_i same
            rw [← same, listed]
            exact ⟨fun here => absurd here.symm neither, fun here => absurd here.symm elsewhere⟩
          · rfl

theorem TasksIndexed.writeTask {state : State} (indexed : TasksIndexed state) (value : TaskRecord) :
    TasksIndexed (writeTask state value) := by
  have rows : ∀ id, Assoc.get id (Storage.writeTask state value).tasks =
      if value.id = id then some value else Assoc.get id state.tasks := fun id =>
    get_set _ id _ _
  refine ⟨fun id task found => ?_, ?_, fun id => ?_,
    fun status => (mem_taskIdsByStatus_writeTask indexed value status).1, fun status id => ?_⟩
  · rw [rows] at found
    split at found
    · rename_i here
      rw [← Option.some.inj found]
      exact here
    · exact indexed.stored id task found
  · change (if Assoc.has value.id state.tasks then _ else _ : List TaskId).Pairwise (· < ·)
    split
    · exact indexed.sorted
    · rename_i absent
      refine Pairwise.insertSorted indexed.sorted fun member => absent ?_
      exact (indexed.listed value.id).mp member
  · rw [rows]
    change id ∈ (if Assoc.has value.id state.tasks then _ else _ : List TaskId) ↔ _
    by_cases here : value.id = id
    · rw [if_pos here]
      refine ⟨fun _ => rfl, fun _ => ?_⟩
      split
      · rename_i there
        exact here ▸ (indexed.listed value.id).mpr there
      · exact mem_insertSorted.mpr (.inl here.symm)
    · rw [if_neg here, ← indexed.listed]
      split
      · rfl
      · rw [mem_insertSorted]
        exact ⟨fun member => member.resolve_left (Ne.symm here), .inr⟩
  · rw [(mem_taskIdsByStatus_writeTask indexed value status).2, rows]
    split
    · simp
    · exact indexed.statusListed status id

theorem TasksIndexed.applyWrite {state : State} (indexed : TasksIndexed state) (seq : Seq)
    (write : Write) : TasksIndexed (applyWrite seq state write) := by
  cases write with
  | task value => exact indexed.writeTask value
  | conversation _ | entry _ | submission _ | document _ => exact indexed.frame rfl rfl rfl

theorem TasksIndexed.deleteTask {state : State} (indexed : TasksIndexed state) (taskId : TaskId) :
    TasksIndexed (deleteTask state taskId) := by
  have rows : ∀ id, Assoc.get id (Storage.deleteTask state taskId).tasks =
      if taskId = id then none else Assoc.get id state.tasks := fun id => get_erase _ id _
  refine ⟨fun id task found => ?_, Pairwise.removeSorted indexed.sorted _, fun id => ?_,
    fun status => ?_, fun status id => ?_⟩
  · rw [rows] at found
    split at found
    · cases found
    · exact indexed.stored id task found
  · rw [rows]
    change id ∈ removeSorted state.taskIds taskId ↔ _
    rw [mem_removeSorted indexed.sorted, indexed.listed]
    by_cases here : taskId = id
    · simp [here]
    · simp [here, Ne.symm here]
  · unfold Storage.deleteTask
    dsimp only
    cases Assoc.get taskId state.tasks with
    | none => exact indexed.statusSorted status
    | some task =>
      dsimp only
      split
      · exact Pairwise.removeSorted (indexed.statusSorted status) _
      · exact indexed.statusSorted status
  · rw [rows]
    have before := indexed.statusListed status
    unfold Storage.deleteTask
    dsimp only
    cases found : Assoc.get taskId state.tasks with
    | none =>
      dsimp only
      rw [before]
      by_cases here : taskId = id
      · rw [if_pos here, ← here, found]
      · rw [if_neg here]
    | some task =>
      dsimp only
      by_cases here : taskId = id
      · rw [if_pos here, ← here]
        split
        · rw [mem_removeSorted (indexed.statusSorted status)]
          simp
        · rename_i other
          rw [before, found]
          simpa using fun same => other same.symm
      · rw [if_neg here, ← before]
        split
        · rw [mem_removeSorted (indexed.statusSorted status)]
          exact ⟨And.left, fun member => ⟨member, Ne.symm here⟩⟩
        · rfl

theorem TasksIndexed.deleteEntries {state : State} (indexed : TasksIndexed state)
    (conversation : ConversationId) : TasksIndexed (deleteEntries state conversation) :=
  indexed.frame rfl rfl rfl

/-! ### Runs -/

/-- What the deletion of some tasks leaves of the other tables. -/
theorem foldl_deleteTask_frame (removed : List TaskId) (state : State) :
    (removed.foldl deleteTask state).recordTypes = state.recordTypes ∧
      (removed.foldl deleteTask state).entries = state.entries ∧
      (removed.foldl deleteTask state).entryCommitSeqs = state.entryCommitSeqs ∧
      (removed.foldl deleteTask state).entryIds = state.entryIds ∧
      (removed.foldl deleteTask state).headEntryIds = state.headEntryIds := by
  induction removed generalizing state with
  | nil => exact ⟨rfl, rfl, rfl, rfl, rfl⟩
  | cons taskId rest ih => exact ih (deleteTask state taskId)

theorem TasksIndexed.foldl_deleteTask {state : State} (indexed : TasksIndexed state)
    (removed : List TaskId) : TasksIndexed (removed.foldl Storage.deleteTask state) := by
  induction removed generalizing state with
  | nil => exact indexed
  | cons taskId rest ih => exact ih (indexed.deleteTask taskId)

/-- The rows of a conversation leave the entry table. -/
theorem EntriesIndexed.deleteEntries {state : State} (indexed : EntriesIndexed state)
    (conversation : ConversationId) : EntriesIndexed (deleteEntries state conversation) := by
  -- A row is kept unless it lies in the conversation.
  have rows : ∀ id, Assoc.get id (Storage.deleteEntries state conversation).entries =
      if id ∈ idsOf state.entryIds conversation then none else Assoc.get id state.entries := fun id =>
    get_foldl_erase _ id _
  have kept : ∀ id entry, Assoc.get id (Storage.deleteEntries state conversation).entries = some entry ↔
      Assoc.get id state.entries = some entry ∧ entry.conversationId ≠ conversation := by
    intro id entry
    rw [rows]
    split
    · rename_i member
      obtain ⟨own, found, inside⟩ := (indexed.listed conversation id).mp member
      rw [found]
      constructor
      · intro none_
        cases none_
      · rintro ⟨same, outside⟩
        rw [← Option.some.inj same] at outside
        exact absurd inside outside
    · rename_i outside
      refine ⟨fun found => ⟨found, fun inside => outside ?_⟩, And.left⟩
      exact (indexed.listed conversation id).mpr ⟨entry, found, inside⟩
  have own : ∀ index c, idsOf (Assoc.erase conversation index) c =
      if conversation = c then [] else idsOf index c := fun index c => idsOf_erase index conversation c
  refine ⟨fun id entry found => indexed.stored id entry ((kept id entry).mp found).1, fun id => ?_,
    fun c => ?_, fun c id => ?_, fun c => ?_, fun c id => ?_⟩
  · rw [rows]
    change (Assoc.get id (List.foldl _ state.entryCommitSeqs _)).isSome = _
    rw [get_foldl_erase]
    split
    · rfl
    · exact indexed.stamped id
  · change (idsOf (Assoc.erase conversation state.entryIds) c).Pairwise (· < ·)
    rw [own]
    split
    · exact List.Pairwise.nil
    · exact indexed.sorted c
  · change id ∈ idsOf (Assoc.erase conversation state.entryIds) c ↔ _
    simp only [kept]
    rw [own]
    split
    · rename_i here
      refine ⟨fun member => absurd member not_mem_nil, ?_⟩
      rintro ⟨entry, ⟨_, outside⟩, inside⟩
      exact absurd (inside.trans here.symm) outside
    · rename_i other
      rw [indexed.listed]
      constructor
      · rintro ⟨entry, found, inside⟩
        exact ⟨entry, ⟨found, fun same => other (same.symm.trans inside)⟩, inside⟩
      · rintro ⟨entry, ⟨found, _⟩, inside⟩
        exact ⟨entry, found, inside⟩
  · change (idsOf (Assoc.erase conversation state.headEntryIds) c).Pairwise (· < ·)
    rw [own]
    split
    · exact List.Pairwise.nil
    · exact indexed.headsSorted c
  · change id ∈ idsOf (Assoc.erase conversation state.headEntryIds) c ↔ _
    simp only [kept]
    rw [own]
    split
    · rename_i here
      refine ⟨fun member => absurd member not_mem_nil, ?_⟩
      rintro ⟨entry, ⟨_, outside⟩, inside, _⟩
      exact absurd (inside.trans here.symm) outside
    · rename_i other
      rw [indexed.headsListed]
      constructor
      · rintro ⟨entry, found, inside, head⟩
        exact ⟨entry, ⟨found, fun same => other (same.symm.trans inside)⟩, inside, head⟩
      · rintro ⟨entry, ⟨found, _⟩, inside, head⟩
        exact ⟨entry, found, inside, head⟩

/-- What a deletion is. -/
theorem deleteConversation_ok {state next : State} {id : ConversationId}
    (done : deleteConversation state id = .ok (some next)) :
    next = { (state.taskIds.filter fun taskId => (Assoc.get taskId state.tasks).any fun task =>
        decide (task.conversationId = id)).foldl deleteTask (deleteEntries state id) with
      conversations := Assoc.erase id state.conversations } := by
  unfold deleteConversation at done
  split at done
  · cases done
  · split at done
    · cases done
    · cases done
      rfl

variable {admits : State → List Write → Prop} {state : State}

theorem Reachable.entriesIndexed (reachable : Reachable admits state) : EntriesIndexed state := by
  induction reachable with
  | empty =>
    refine ⟨fun id entry found => (by cases found), fun _ => rfl, fun _ => .nil, fun c id => ?_,
      fun _ => .nil, fun c id => ?_⟩
    · exact ⟨fun member => absurd member not_mem_nil, fun ⟨_, found, _⟩ => (by cases found)⟩
    · exact ⟨fun member => absurd member not_mem_nil, fun ⟨_, found, _⟩ => (by cases found)⟩
  | commit _ _ done ih =>
    exact commit_induct (fun seq _ _ here fits => here.applyWrite seq fits)
      (fun _ _ here => here.frame rfl rfl rfl rfl fun _ known => known) done ih
  | delete _ done ih =>
    rw [deleteConversation_ok done]
    obtain ⟨types, entries, seqs, ids, heads⟩ := foldl_deleteTask_frame _ (deleteEntries _ _)
    refine (ih.deleteEntries _).frame entries seqs ids heads fun id known => ?_
    rw [types]
    exact known

theorem Reachable.tasksIndexed (reachable : Reachable admits state) : TasksIndexed state := by
  induction reachable with
  | empty =>
    refine ⟨fun id task found => (by cases found), .nil, fun id => ?_, fun _ => .nil,
      fun status id => ?_⟩
    · exact ⟨fun member => absurd member not_mem_nil, fun found => (by cases found)⟩
    · exact ⟨fun member => absurd member not_mem_nil, fun ⟨_, found, _⟩ => (by cases found)⟩
  | commit _ _ done ih =>
    exact commit_induct (fun seq _ write here _ => here.applyWrite seq write)
      (fun _ _ here => here.frame rfl rfl rfl) done ih
  | delete _ done ih =>
    rw [deleteConversation_ok done]
    exact (TasksIndexed.foldl_deleteTask (TasksIndexed.deleteEntries ih _) _).frame rfl rfl rfl

theorem Reachable.conversationsNamed (reachable : Reachable admits state) :
    ConversationsNamed state := by
  induction reachable with
  | empty => exact fun id record found => (by cases found)
  | commit _ _ done ih =>
    exact commit_induct (fun seq _ _ here fits => here.applyWrite seq fits)
      (fun _ _ here => here) done ih
  | delete _ done ih =>
    rw [deleteConversation_ok done]
    obtain ⟨types, _⟩ := foldl_deleteTask_frame _ (deleteEntries _ _)
    intro id record found
    change Assoc.get id (Assoc.erase _ _) = _ at found
    rw [get_erase] at found
    split at found
    · cases found
    · rw [types]
      exact ih id record found

end TianGong.Storage
