/-
**The task graph is exact.**

A graph is the view of a state (`Shows`) when it has, under each id, the node of the live task with that
id, and no other. Building gives the view, and a publication leads from the view before a commit to the
view after it.

* `get_advance`: the nodes after a publication; `advance_shows`: they are the view after the commit.
* `view_exact`: after any publications the mounted graph is the one that building gives again, and its
  operations, replayed on the published value, give the next one.
-/

import TianGong.Harness.TaskGraph

namespace TianGong.Harness

open TianGong.Lib TianGong.Storage
open TianGong.Contract (stringify stringify_inj)
open TianGong.Session (replay)
open List
open Option (bind_eq_some_iff bind_some map_some)

variable {state next : State} {graph : TaskGraph}

/-! ### Two facts of lists -/

theorem mapM_isSome {α β : Type} {f : α → Option β} {xs : List α} :
    (xs.mapM f).isSome = true ↔ ∀ x ∈ xs, (f x).isSome = true := by
  induction xs with
  | nil => simp
  | cons x xs ih =>
    rw [mapM_cons, forall_mem_cons, ← ih]
    cases f x with
    | none => exact ⟨fun absent => (by cases absent), fun both => both.1⟩
    | some y => cases xs.mapM f <;> simp

theorem mapM_eq_map {α β : Type} {f : α → Option β} {g : α → β} {xs : List α} {ys : List β}
    (agree : ∀ x ∈ xs, ∀ y, f x = some y → y = g x) (mapped : xs.mapM f = some ys) :
    ys = xs.map g := by
  induction xs generalizing ys with
  | nil => exact (Option.some.inj mapped).symm
  | cons x xs ih =>
    rw [mapM_cons] at mapped
    obtain ⟨y, here, mapped⟩ := bind_eq_some_iff.mp mapped
    obtain ⟨rest, later, mapped⟩ := bind_eq_some_iff.mp mapped
    rw [← Option.some.inj mapped, map_cons, agree x mem_cons_self y here,
      ih (fun x' member => agree x' (mem_cons_of_mem _ member)) later]

/-! ### Building -/

/-- The node that the view of a state has under an id. -/
def viewOf (state : State) (id : TaskId) : Option TaskGraphNode :=
  (Assoc.get id state.tasks).bind fun task =>
    if task.state.status = .terminal then none
    else some (nodeOf task (idsOf state.conversationIdsByOwnerTask id))

/-- **A graph is the view of a state.** -/
def Shows (state : State) (graph : TaskGraph) : Prop :=
  ∀ id, Assoc.get id graph = viewOf state id

/-- No conversation of a live task was deleted. -/
def Complete (state : State) : Prop :=
  ∀ id task, Assoc.get id state.tasks = some task → task.state.status ≠ .terminal →
    ∀ conversation ∈ idsOf state.conversationIdsByOwnerTask id,
      (Assoc.get conversation state.conversations).isSome = true

theorem sortIds_eq {ids : List Nat} (sorted : ids.Pairwise (· < ·)) : sortIds ids = ids :=
  List.Pairwise.insertionSort_eq (sorted.imp fun less => Nat.le_of_lt less)

/-- Following the pages of a scan shows its rows. -/
theorem scanAll_eq {α : Type} {key : α → Nat} {rows : List α}
    (sorted : rows.Pairwise fun x y => key x < key y) : scanAll key rows = rows := by
  refine scanPages_eq (fun a b less => ?_) (sorted.imp fun less => decide_eq_true less) (by decide)
    (Nat.lt_succ_self _)
  exact decide_eq_false (Nat.lt_asymm (of_decide_eq_true less))

/-- The rows that are stored under some ids, in their order. -/
theorem ids_filterMap_get {V : Type} {key : V → Nat} {rows : List (Nat × V)}
    (named : ∀ id row, Assoc.get id rows = some row → key row = id) (ids : List Nat) :
    ((ids.filterMap fun id => Assoc.get id rows).map key).Sublist ids := by
  induction ids with
  | nil => exact .slnil
  | cons id rest ih =>
    rw [filterMap_cons]
    cases found : Assoc.get id rows with
    | none => exact ih.cons id
    | some row =>
      obtain rfl := named id row found
      exact ih.cons_cons _

theorem taskRows_sorted (indexed : TasksIndexed state) (status : TaskStatus) :
    (taskRows state status).Pairwise fun x y => x.id < y.id :=
  List.pairwise_map.mp ((indexed.statusSorted status).sublist (ids_filterMap_get indexed.stored _))

theorem mem_taskRows (indexed : TasksIndexed state) {status : TaskStatus} {task : TaskRecord} :
    task ∈ taskRows state status ↔
      Assoc.get task.id state.tasks = some task ∧ task.state.status = status := by
  rw [taskRows, mem_filterMap]
  constructor
  · rintro ⟨id, member, found⟩
    obtain ⟨stored, here, same⟩ := (indexed.statusListed status id).mp member
    rw [here] at found
    obtain rfl := Option.some.inj found
    rw [indexed.stored id stored here]
    exact ⟨here, same⟩
  · rintro ⟨found, same⟩
    exact ⟨task.id, (indexed.statusListed status task.id).mpr ⟨task, found, same⟩, found⟩

theorem mem_liveRecords (indexed : TasksIndexed state) {task : TaskRecord} :
    task ∈ liveRecords state ↔
      Assoc.get task.id state.tasks = some task ∧ task.state.status ≠ .terminal := by
  have rows : ∀ status, scanAll TaskRecord.id (taskRows state status) = taskRows state status :=
    fun status => scanAll_eq (taskRows_sorted indexed status)
  rw [liveRecords, (perm_insertionSort _ _).mem_iff, mem_flatMap]
  simp only [rows, mem_taskRows indexed]
  constructor
  · rintro ⟨status, live, found, same⟩
    refine ⟨found, ?_⟩
    rw [same]
    intro terminal
    rw [terminal] at live
    exact absurd live (by decide)
  · rintro ⟨found, live⟩
    refine ⟨task.state.status, ?_, found, rfl⟩
    cases status : task.state.status with
    | terminal => exact absurd status live
    | pending | running | waiting | completing => decide

theorem liveRecords_nodup (indexed : TasksIndexed state) :
    ((liveRecords state).map TaskRecord.id).Nodup := by
  have rows : ∀ status, scanAll TaskRecord.id (taskRows state status) = taskRows state status :=
    fun status => scanAll_eq (taskRows_sorted indexed status)
  refine (((perm_insertionSort _ _).map TaskRecord.id).nodup_iff).mpr ?_
  simp only [rows]
  rw [map_flatMap]
  refine List.nodup_flatMap.mpr ⟨fun status _ => ?_, ?_⟩
  · exact (List.pairwise_map.mpr (taskRows_sorted indexed status)).imp fun less => Nat.ne_of_lt less
  · have distinct : LIVE_STATUSES.Nodup := by decide
    refine distinct.imp fun {first second} apart id inside other => ?_
    obtain ⟨task, member, rfl⟩ := mem_map.mp inside
    obtain ⟨task', member', same⟩ := mem_map.mp other
    obtain ⟨found, status⟩ := (mem_taskRows indexed).mp member
    obtain ⟨found', status'⟩ := (mem_taskRows indexed).mp member'
    rw [same, found] at found'
    rw [← Option.some.inj found'] at status'
    exact apart (status.symm.trans status')

theorem ownedConversations_eq (owners : OwnersIndexed state) (names : ConversationsNamed state)
    {task : TaskId} {owned : List ConversationRecord}
    (read : ownedConversations state task = some owned) :
    owned.map ConversationRecord.id = idsOf state.conversationIdsByOwnerTask task := by
  obtain ⟨rows, found, rfl⟩ := Option.map_eq_some_iff.mp read
  have ids : rows.map ConversationRecord.id = idsOf state.conversationIdsByOwnerTask task := by
    clear read
    generalize idsOf state.conversationIdsByOwnerTask task = ids at found
    induction ids generalizing rows with
    | nil => rw [← Option.some.inj found]; rfl
    | cons id rest ih =>
      rw [mapM_cons] at found
      obtain ⟨row, here, found⟩ := bind_eq_some_iff.mp found
      obtain ⟨others, later, found⟩ := bind_eq_some_iff.mp found
      rw [← Option.some.inj found, map_cons, (names id row here).1, ih _ later]
  have sorted : rows.Pairwise fun x y => x.id < y.id :=
    List.pairwise_map.mp (ids ▸ owners.sorted task)
  rw [scanAll_eq sorted, ids]

/-- **A graph that is built is the view of the state.** -/
theorem build_shows (indexed : TasksIndexed state) (owners : OwnersIndexed state)
    (names : ConversationsNamed state) (built : build state = some graph) : Shows state graph := by
  have shape : graph = (liveRecords state).map fun record =>
      (record.id, nodeOf record (idsOf state.conversationIdsByOwnerTask record.id)) := by
    refine mapM_eq_map (fun record _ entry read => ?_) built
    obtain ⟨owned, found, same⟩ := bind_eq_some_iff.mp read
    rw [← Option.some.inj same, ownedConversations_eq owners names found,
      sortIds_eq (owners.sorted record.id)]
  have nodup : (Assoc.keys graph).Nodup := by
    rw [shape, Assoc.keys, map_map]
    exact liveRecords_nodup indexed
  intro id
  rw [viewOf]
  cases found : Assoc.get id state.tasks with
  | none =>
    refine Assoc.get_eq_none_iff.mpr fun member => ?_
    rw [shape, Assoc.keys, map_map] at member
    obtain ⟨record, live, rfl⟩ := mem_map.mp member
    have stored : Assoc.get record.id state.tasks = some record := ((mem_liveRecords indexed).mp live).1
    change Assoc.get record.id state.tasks = none at found
    rw [stored] at found
    cases found
  | some task =>
    obtain rfl := indexed.stored id task found
    rw [bind_some]
    split
    · rename_i terminal
      refine Assoc.get_eq_none_iff.mpr fun member => ?_
      rw [shape, Assoc.keys, map_map] at member
      obtain ⟨record, live, same⟩ := mem_map.mp member
      obtain ⟨stored, alive⟩ := (mem_liveRecords indexed).mp live
      change record.id = task.id at same
      rw [same, found] at stored
      exact alive (Option.some.inj stored ▸ terminal)
    · rename_i live
      refine Assoc.get_of_mem nodup ?_
      rw [shape]
      exact mem_map.mpr ⟨task, (mem_liveRecords indexed).mpr ⟨found, live⟩, rfl⟩

theorem build_isSome (indexed : TasksIndexed state) :
    (build state).isSome = true ↔ Complete state := by
  have each : ∀ record : TaskRecord, ((ownedConversations state record.id).bind fun owned =>
      some (record.id, nodeOf record (sortIds (owned.map ConversationRecord.id)))).isSome = true ↔
      ∀ conversation ∈ idsOf state.conversationIdsByOwnerTask record.id,
        (Assoc.get conversation state.conversations).isSome = true := by
    intro record
    rw [ownedConversations, ← mapM_isSome]
    cases (idsOf state.conversationIdsByOwnerTask record.id).mapM fun id =>
      Assoc.get id state.conversations <;> rfl
  rw [build, mapM_isSome]
  constructor
  · intro all id task found live
    obtain rfl := indexed.stored id task found
    exact (each task).mp (all task ((mem_liveRecords indexed).mpr ⟨found, live⟩))
  · intro complete record member
    obtain ⟨found, live⟩ := (mem_liveRecords indexed).mp member
    exact (each record).mpr (complete record.id record found live)

/-! ### The operations for tasks -/

theorem nodeIn_set (graph : TaskGraph) (changed : Changed) (id other : TaskId)
    (node : Option TaskGraphNode) :
    nodeIn graph (Assoc.set id node changed) other =
      if id = other then node else nodeIn graph changed other := by
  rw [nodeIn, Assoc.get_set]
  by_cases here : id = other
  · rw [if_pos here, if_pos here]
  · rw [if_neg here, if_neg here]
    rfl

theorem fitsAll_append {ops more : List GraphOp} :
    FitsAll graph (ops ++ more) ↔
      FitsAll graph ops ∧ FitsAll (ops.foldl GraphOp.apply graph) more := by
  induction ops generalizing graph with
  | nil => exact (iff_of_eq (true_and _)).symm
  | cons op rest ih => rw [cons_append, FitsAll, ih, FitsAll, and_assoc, foldl_cons]

/-- The node of a task after its record was published. -/
def afterTask (previous : Option TaskGraphNode) (record : TaskRecord) : Option TaskGraphNode :=
  if record.state.status = .terminal then none
  else some (nodeOf record ((previous.map TaskGraphNode.conversations).getD []))

/-- The operations so far lead to the nodes that are noted. -/
structure Noted (graph : TaskGraph) (done : List GraphOp × Changed) : Prop where
  fits : FitsAll graph done.1
  nodes : ∀ id, Assoc.get id (done.1.foldl GraphOp.apply graph) = nodeIn graph done.2 id

/-- **One record of a task.** -/
theorem advanceTask_spec {done : List GraphOp × Changed} (noted : Noted graph done)
    (record : TaskRecord) :
    Noted graph (advanceTask graph done record) ∧
      ∀ id, nodeIn graph (advanceTask graph done record).2 id =
        if record.id = id then afterTask (nodeIn graph done.2 id) record
        else nodeIn graph done.2 id := by
  -- An operation that is added to both.
  have added : ∀ (op : GraphOp) (node : Option TaskGraphNode), op.Fits (done.1.foldl GraphOp.apply graph) →
      (∀ graph' id, Assoc.get id (GraphOp.apply graph' op) =
        if record.id = id then node else Assoc.get id graph') →
      Noted graph (done.1 ++ [op], Assoc.set record.id node done.2) := by
    intro op node fits effect
    refine ⟨fitsAll_append.mpr ⟨noted.fits, fits, trivial⟩, fun id => ?_⟩
    rw [foldl_append, foldl_cons, foldl_nil, effect, noted.nodes, nodeIn_set]
  have shown : nodeIn graph done.2 record.id = nodeIn graph done.2 record.id := rfl
  unfold advanceTask afterTask
  dsimp only
  split
  · split
    · rename_i absent
      refine ⟨noted, fun id => ?_⟩
      split
      · rename_i here
        rw [← here, absent]
      · rfl
    · refine ⟨added (.delete record.id) none trivial fun graph' id => Assoc.get_erase _ _ _,
        fun id => ?_⟩
      exact nodeIn_set _ _ _ _ _
  · split
    · rename_i unchanged
      refine ⟨noted, fun id => ?_⟩
      split
      · rename_i here
        obtain ⟨previous, found, same⟩ := (Option.any_eq_true _ _).mp unchanged
        have equal := TaskGraphNode.json_injective (stringify_inj (of_decide_eq_true same))
        rw [← here, found]
        rw [found] at equal
        exact congrArg some equal.symm
      · rfl
    · refine ⟨added (.set record.id _) (some _) trivial fun graph' id => Assoc.get_set _ _ _ _,
        fun id => ?_⟩
      rw [nodeIn_set]
      split
      · rename_i here
        rw [here]
      · rfl

theorem foldl_advanceTask {done : List GraphOp × Changed} (noted : Noted graph done)
    {records : List TaskRecord} (once : (records.map TaskRecord.id).Nodup) :
    Noted graph (records.foldl (advanceTask graph) done) ∧
      ∀ id, nodeIn graph (records.foldl (advanceTask graph) done).2 id =
        match records.find? fun record => decide (record.id = id) with
        | some record => afterTask (nodeIn graph done.2 id) record
        | none => nodeIn graph done.2 id := by
  induction records generalizing done with
  | nil => exact ⟨noted, fun _ => rfl⟩
  | cons record rest ih =>
    obtain ⟨step, nodes⟩ := advanceTask_spec noted record
    obtain ⟨absent, once⟩ := List.nodup_cons.mp once
    obtain ⟨all, later⟩ := ih step once
    refine ⟨all, fun id => ?_⟩
    rw [foldl_cons, later, List.find?_cons, nodes]
    by_cases here : record.id = id
    · have none_ : rest.find? (fun other => decide (other.id = id)) = none := by
        refine List.find?_eq_none.mpr fun other member same => absent ?_
        rw [here, ← of_decide_eq_true same]
        exact mem_map_of_mem member
      rw [none_, if_pos here, decide_eq_true here]
    · rw [if_neg here, decide_eq_false here]

/-- The node of a task after the task records of a publication. -/
def taskAfter (graph : TaskGraph) (changes : List Write) (id : TaskId) : Option TaskGraphNode :=
  match writtenTask changes id with
  | some record => afterTask (Assoc.get id graph) record
  | none => Assoc.get id graph

theorem advanceTasks_spec {changes : List Write} (once : ((tasksOf changes).map TaskRecord.id).Nodup) :
    Noted graph (advanceTasks graph changes) ∧
      ∀ id, nodeIn graph (advanceTasks graph changes).2 id = taskAfter graph changes id :=
  @foldl_advanceTask graph ([], []) ⟨trivial, fun _ => rfl⟩ _ once

/-! ### The operations for owners -/

variable {created : List (TaskId × List ConversationId)}

section Created

variable (graph) {changed : Changed}

theorem idsOf_foldl_addCreated (owned : List (TaskId × ConversationId))
    (created : List (TaskId × List ConversationId)) (id : TaskId) :
    idsOf (owned.foldl (addCreated graph changed) created) id =
      idsOf created id ++ if (nodeIn graph changed id).isSome = true
        then (owned.filter fun one => decide (one.1 = id)).map Prod.snd else [] := by
  induction owned generalizing created with
  | nil => simp
  | cons one rest ih =>
    rw [foldl_cons, ih, addCreated]
    by_cases here : one.1 = id
    · subst here
      have kept : decide (one.1 = one.1) = true := decide_eq_true rfl
      rw [filter_cons, if_pos kept]
      split
      · rw [idsOf, Assoc.get_set, if_pos rfl, Option.getD_some, append_assoc]
        rfl
      · rfl
    · rw [filter_cons_of_neg (by simpa using here)]
      split
      · rw [idsOf, Assoc.get_set, if_neg here]
        rfl
      · rfl

/-- What a list of created conversations keeps: each owner once, shown, and with some. -/
structure Grouped (changed : Changed) (created : List (TaskId × List ConversationId)) : Prop where
  once : (Assoc.keys created).Nodup
  each : ∀ id ids, Assoc.get id created = some ids →
    (nodeIn graph changed id).isSome = true ∧ ids ≠ []

theorem Grouped.empty (changed : Changed) : Grouped graph changed [] :=
  ⟨nodup_nil, fun _ _ found => (by cases found)⟩

theorem Grouped.addCreated (grouped : Grouped graph changed created)
    (one : TaskId × ConversationId) :
    Grouped graph changed (addCreated graph changed created one) := by
  unfold Harness.addCreated
  split
  · rename_i shown
    refine ⟨Assoc.nodup_set _ grouped.once, fun id ids found => ?_⟩
    rw [Assoc.get_set] at found
    split at found
    · rename_i here
      rw [← here, ← Option.some.inj found]
      exact ⟨shown, append_ne_nil_of_right_ne_nil _ (cons_ne_nil _ _)⟩
    · exact grouped.each id ids found
  · exact grouped

theorem Grouped.foldl_addCreated (grouped : Grouped graph changed created)
    (owned : List (TaskId × ConversationId)) :
    Grouped graph changed (owned.foldl (Harness.addCreated graph changed) created) := by
  induction owned generalizing created with
  | nil => exact grouped
  | cons one rest ih => exact ih (grouped.addCreated graph one)

/-- The nodes after the owners' operations, one for each owner. -/
theorem foldl_ownersOp {current : TaskGraph}
    (nodes : ∀ id, Assoc.get id current = nodeIn graph changed id)
    (grouped : Grouped graph changed created) :
    FitsAll current (created.map (ownersOp graph changed)) ∧
      ∀ id, Assoc.get id ((created.map (ownersOp graph changed)).foldl GraphOp.apply current) =
        (nodeIn graph changed id).map fun node =>
          match Assoc.get id created with
          | some ids => { node with conversations := sortIds (node.conversations ++ ids) }
          | none => node := by
  have all : ∀ (rest : List (TaskId × List ConversationId)) (current : TaskGraph),
      (Assoc.keys rest).Nodup → (∀ id ids, Assoc.get id rest = some ids →
        (nodeIn graph changed id).isSome = true ∧ Assoc.get id current = nodeIn graph changed id) →
      FitsAll current (rest.map (ownersOp graph changed)) ∧
        ∀ id, Assoc.get id ((rest.map (ownersOp graph changed)).foldl GraphOp.apply current) =
          match Assoc.get id rest with
          | some ids => (nodeIn graph changed id).map fun node =>
              { node with conversations := sortIds (node.conversations ++ ids) }
          | none => Assoc.get id current := by
    intro rest
    induction rest with
    | nil => exact fun current _ _ => ⟨trivial, fun _ => rfl⟩
    | cons first rest ih =>
      intro current once each
      obtain ⟨owner, ids⟩ := first
      obtain ⟨absent, once⟩ := List.nodup_cons.mp once
      obtain ⟨shown, here⟩ := each owner ids (Assoc.get_cons_self _ _ _)
      obtain ⟨node, found⟩ := Option.isSome_iff_exists.mp shown
      rw [found] at here
      have effect : ∀ id, Assoc.get id (GraphOp.apply current (ownersOp graph changed (owner, ids))) =
          if owner = id then some { node with conversations := sortIds (node.conversations ++ ids) }
          else Assoc.get id current := by
        intro id
        rw [ownersOp, GraphOp.apply, here, found]
        exact Assoc.get_set _ _ _ _
      have gone : Assoc.get owner rest = none := Assoc.get_eq_none_iff.mpr absent
      obtain ⟨fits, later⟩ := ih (GraphOp.apply current (ownersOp graph changed (owner, ids))) once
        fun id ids' member => by
          have other : owner ≠ id := by
            rintro rfl
            rw [gone] at member
            cases member
          obtain ⟨shown', same⟩ := each id ids' ((Assoc.get_cons_ne other _ _).trans member)
          refine ⟨shown', ?_⟩
          rw [effect, if_neg other]
          exact same
      refine ⟨⟨?_, fits⟩, fun id => ?_⟩
      · change (Assoc.get owner current).isSome = true
        rw [here]
        rfl
      · rw [map_cons, foldl_cons, later, effect]
        by_cases same : owner = id
        · subst same
          rw [gone, if_pos rfl, Assoc.get_cons_self, found]
          rfl
        · rw [if_neg same, Assoc.get_cons_ne same]
  obtain ⟨fits, later⟩ := all created current grouped.once fun id ids found =>
    ⟨(grouped.each id ids found).1, nodes id⟩
  refine ⟨fits, fun id => ?_⟩
  rw [later]
  cases Assoc.get id created with
  | some ids => rfl
  | none =>
    dsimp only
    rw [nodes]
    exact Option.map_id'.symm

end Created

/-- The conversations of a node after some more were created. -/
def addConversations (conversations created : List ConversationId) : List ConversationId :=
  if created = [] then conversations else sortIds (conversations ++ created)

/-- **The nodes after a publication**, and the operations that lead there find theirs. -/
theorem get_advance {changes : List Write} (once : ((tasksOf changes).map TaskRecord.id).Nodup) :
    FitsAll graph (advanceOps graph changes) ∧
      ∀ id, Assoc.get id (advance graph changes) = (taskAfter graph changes id).map fun node =>
          { node with conversations := addConversations node.conversations (ownedBy changes id) } := by
  obtain ⟨noted, tasks⟩ := @advanceTasks_spec graph changes once
  have grouped : Grouped graph (advanceTasks graph changes).2 (createdFor graph changes) :=
    (Grouped.empty graph _).foldl_addCreated graph _
  obtain ⟨fits, later⟩ := foldl_ownersOp graph noted.nodes grouped
  refine ⟨fitsAll_append.mpr ⟨noted.fits, fits⟩, fun id => ?_⟩
  rw [advance, advanceOps, foldl_append, later, tasks]
  cases shown : taskAfter graph changes id with
  | none => rfl
  | some node =>
    have ids := @idsOf_foldl_addCreated graph (advanceTasks graph changes).2
      (changes.filterMap Write.owned?) [] id
    rw [tasks, shown, Option.isSome_some, if_pos rfl] at ids
    have group : idsOf (createdFor graph changes) id = ownedBy changes id := ids
    rw [map_some, map_some]
    refine congrArg some ?_
    cases found : Assoc.get id (createdFor graph changes) with
    | none =>
      rw [idsOf, found] at group
      dsimp only
      rw [addConversations, ← group]
      rfl
    | some created =>
      rw [idsOf, found] at group
      have some_ := (grouped.each id created found).2
      dsimp only
      rw [addConversations, ← group, Option.getD_some, if_neg some_]

/-! ### From one commit to the next -/

section Publication

variable {writes changes : List Write} (owners : OwnersIndexed state)
  (assembled : assembles state writes = true) (done : commit state writes = .ok next)
  (perm : changes.Perm writes)

include owners assembled done perm

/-- The conversations of a task after a commit. -/
theorem addConversations_eq (id : TaskId) :
    addConversations (idsOf state.conversationIdsByOwnerTask id) (ownedBy changes id) =
      idsOf next.conversationIdsByOwnerTask id := by
  have sorted := (owners.commit assembled done).sorted id
  have same : (idsOf state.conversationIdsByOwnerTask id ++ ownedBy changes id).Perm
      (idsOf next.conversationIdsByOwnerTask id) :=
    ((ownedBy_perm perm id).append_left _).trans (commit_owned done id).symm
  rw [addConversations]
  split
  · rename_i nothing
    rw [nothing, append_nil] at same
    exact same.eq_of_pairwise (fun a b _ _ less more => absurd less (Nat.lt_asymm more))
      (owners.sorted id) sorted
  · have both : (sortIds (idsOf state.conversationIdsByOwnerTask id ++ ownedBy changes id)).Perm
        (idsOf next.conversationIdsByOwnerTask id) := (perm_insertionSort _ _).trans same
    exact both.eq_of_pairwise (fun a b _ _ less more => Nat.le_antisymm less more)
      (pairwise_insertionSort _ _) (sorted.imp fun less => Nat.le_of_lt less)

/-- **A publication leads from the view before its commit to the view after it.** -/
theorem advance_shows (shows_ : Shows state graph) : Shows next (advance graph changes) := by
  have once := assembles_once assembled
  have once' := (((perm.filterMap Write.task?).map TaskRecord.id).nodup_iff).mpr once
  intro id
  have added := addConversations_eq owners assembled done perm id
  rw [(get_advance once').2, viewOf, commit_tasks assembled done, currentTask, taskAfter,
    writtenTask_perm perm once, shows_ id]
  cases written : writtenTask writes id with
  | none =>
    dsimp only
    rw [Option.none_or, viewOf]
    cases Assoc.get id state.tasks with
    | none => rfl
    | some task =>
      rw [bind_some, bind_some]
      split
      · rfl
      · rw [map_some]
        exact congrArg (fun ids => some (nodeOf task ids)) added
  | some record =>
    dsimp only
    rw [Option.some_or, bind_some, afterTask]
    split
    · rfl
    · have before : ((viewOf state id).map TaskGraphNode.conversations).getD [] =
          idsOf state.conversationIdsByOwnerTask id := by
        rw [viewOf]
        cases found : Assoc.get id state.tasks with
        | none =>
          cases ids : idsOf state.conversationIdsByOwnerTask id with
          | nil => rfl
          | cons first rest =>
            have stored := owners.stored id first (ids ▸ mem_cons_self)
            rw [found] at stored
            cases stored
        | some committed =>
          obtain ⟨member, named⟩ := (writtenTask_eq_some_iff once).mp written
          rw [bind_some, if_neg (assembles_live assembled member (named ▸ found))]
          rfl
      rw [before, map_some]
      exact congrArg (fun ids => some (nodeOf record ids)) added

omit perm in
/-- Commits leave the conversations of live tasks stored. -/
theorem Complete.commit (complete : Complete state) : Complete next := by
  have once := assembles_once assembled
  intro id task found live conversation member
  refine commit_conversations done ?_
  rcases List.mem_append.mp ((commit_owned done id).mem_iff.mp member) with old | new
  · obtain ⟨committed, stored⟩ := Option.isSome_iff_exists.mp (owners.stored id conversation old)
    refine .inl (complete id committed stored ?_ conversation old)
    rw [commit_tasks assembled done, currentTask] at found
    cases written : writtenTask writes id with
    | none =>
      rw [written, Option.none_or, stored] at found
      exact Option.some.inj found ▸ live
    | some record =>
      obtain ⟨inside, named⟩ := (writtenTask_eq_some_iff once).mp written
      exact assembles_live assembled inside (named ▸ stored)
  · exact .inr (mem_ownedBy new)

end Publication

/-! ### Runs -/

/-- **A mounted view and the publications it gets**: each commit is published with its changes in some
order. -/
inductive Run (start : State) (built : TaskGraph) : State → TaskGraph → Prop
  | mount : Run start built start built
  | publish {state next : State} {graph : TaskGraph} {writes changes : List Write}
      (before : Run start built state graph) (assembled : assembles state writes = true)
      (done : commit state writes = .ok next) (perm : changes.Perm writes) :
    Run start built next (advance graph changes)

/-- What a run keeps. -/
structure Mounted (state : State) (graph : TaskGraph) : Prop where
  stored : Stored state
  shows_ : Shows state graph
  complete : Complete state
  once : (Assoc.keys graph).Nodup

theorem nodup_apply (once : (Assoc.keys graph).Nodup) (op : GraphOp) :
    (Assoc.keys (op.apply graph)).Nodup := by
  cases op with
  | delete id => exact Assoc.nodup_erase id once
  | set id node => exact Assoc.nodup_set node once
  | setConversations id conversations =>
    rw [GraphOp.apply]
    split
    · exact Assoc.nodup_set _ once
    · exact once

theorem nodup_foldl_apply (ops : List GraphOp) (once : (Assoc.keys graph).Nodup) :
    (Assoc.keys (ops.foldl GraphOp.apply graph)).Nodup := by
  induction ops generalizing graph with
  | nil => exact once
  | cons op rest ih => exact ih (nodup_apply once op)

theorem nodup_build (indexed : TasksIndexed state) (built : build state = some graph) :
    (Assoc.keys graph).Nodup := by
  have keys : graph.map Prod.fst = (liveRecords state).map TaskRecord.id := by
    have records := liveRecords_nodup indexed
    clear records
    rw [build] at built
    generalize liveRecords state = rows at built
    induction rows generalizing graph with
    | nil => rw [← Option.some.inj built]; rfl
    | cons row rest ih =>
      rw [mapM_cons] at built
      obtain ⟨entry, here, built⟩ := bind_eq_some_iff.mp built
      obtain ⟨others, later, built⟩ := bind_eq_some_iff.mp built
      obtain ⟨owned, _, same⟩ := bind_eq_some_iff.mp here
      rw [← Option.some.inj built, map_cons, map_cons, ih later, ← Option.some.inj same]
  rw [Assoc.keys, keys]
  exact liveRecords_nodup indexed

theorem Run.mounted {start : State} {built : TaskGraph} (stored : Stored start)
    (mounted : build start = some built) (run : Run start built state graph) :
    Mounted state graph := by
  induction run with
  | mount =>
    have indexed := stored.tasksIndexed
    exact ⟨stored, build_shows indexed stored.ownersIndexed stored.conversationsNamed mounted,
      (build_isSome indexed).mp (by rw [mounted]; rfl), nodup_build indexed mounted⟩
  | publish _ assembled done perm ih =>
    have owners := ih.stored.ownersIndexed
    exact ⟨.commit ih.stored assembled done, advance_shows owners assembled done perm ih.shows_,
      Complete.commit owners assembled done ih.complete, nodup_foldl_apply _ ih.once⟩

/-- Two graphs with the same nodes have the same entries. -/
theorem perm_of_get {other : TaskGraph} (once : (Assoc.keys graph).Nodup)
    (onceOther : (Assoc.keys other).Nodup) (same : ∀ id, Assoc.get id graph = Assoc.get id other) :
    graph.Perm other := by
  refine (perm_ext_iff_of_nodup once.of_map onceOther.of_map).mpr fun entry => ?_
  obtain ⟨id, node⟩ := entry
  constructor
  · intro member
    exact Assoc.mem_of_get ((same id).symm.trans (Assoc.get_of_mem once member))
  · intro member
    exact Assoc.mem_of_get ((same id).trans (Assoc.get_of_mem onceOther member))

/-- **The task graph is exact.** After any publications the mounted graph has the entries of the graph that
building from the Storage gives, and the operations of the next publication, replayed on the published
value, give the next one. -/
theorem view_exact {start state : State} {built graph : TaskGraph} (stored : Stored start)
    (mounted : build start = some built) (run : Run start built state graph) :
    (∃ rebuilt, build state = some rebuilt ∧ graph.Perm rebuilt) ∧
      ∀ (writes changes : List Write), assembles state writes = true → changes.Perm writes →
        replay (encode graph) [(advanceOps graph changes).map GraphOp.op] =
          some (encode (advance graph changes)) := by
  have kept := run.mounted stored mounted
  have indexed := kept.stored.tasksIndexed
  constructor
  · obtain ⟨rebuilt, found⟩ := Option.isSome_iff_exists.mp ((build_isSome indexed).mpr kept.complete)
    have shows_ := build_shows indexed kept.stored.ownersIndexed kept.stored.conversationsNamed found
    refine ⟨rebuilt, found, perm_of_get kept.once (nodup_build indexed found) fun id => ?_⟩
    rw [kept.shows_ id, shows_ id]
  · intro writes changes assembled perm
    have once := (((perm.filterMap Write.task?).map TaskRecord.id).nodup_iff).mpr
      (assembles_once assembled)
    exact replay_encode (get_advance once).1

/-- A task that owns a conversation, and what it becomes: it runs, and owns another one. -/
def runningTask : List Write :=
  [.conversation ⟨2, none, none⟩, .task ⟨5, 2, text "turn", none, false, false, .pending (text "start")⟩,
    .conversation ⟨6, none, some ⟨2, 5⟩⟩]

def moreConversations : List Write :=
  [.conversation ⟨7, none, some ⟨2, 5⟩⟩,
    .task ⟨5, 2, text "turn", none, false, false, .running (text "start")⟩]

theorem view_exact_running :
    ∃ rebuilt, build (committed (committed {} runningTask) moreConversations) = some rebuilt ∧
      (advance ((build (committed {} runningTask)).getD []) moreConversations).Perm rebuilt := by
  have accepted : commit {} runningTask = .ok (committed {} runningTask) := rfl
  have more : commit (committed {} runningTask) moreConversations =
      .ok (committed (committed {} runningTask) moreConversations) := rfl
  have mounted : build (committed {} runningTask) = some ((build (committed {} runningTask)).getD []) :=
    rfl
  exact (view_exact (.commit .empty rfl accepted) mounted (.publish .mount rfl more (.refl _))).1

end TianGong.Harness
