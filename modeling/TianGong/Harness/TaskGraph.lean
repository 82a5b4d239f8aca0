/-
**The task graph of a Session: `task-graph.ts`.**

The view shows every live task. It is built from the Storage when it is mounted, and each publication
then advances it by operations that its observers replay.

* `build`: the graph that the Storage holds, or nothing where an owned conversation was deleted.
* `replay_encode`: replayed on the published value, operations that fit give the next one.
-/

import TianGong.Chord.Transforms
import TianGong.Contract.JsonText
import TianGong.Lib.Paging
import TianGong.Session.Documents
import TianGong.Storage.Transactions

namespace TianGong.Harness

open List Option
open TianGong.Lib TianGong.Storage
open TianGong.Chord (Op Seg SafePath Transforms transformAll transforms_set transforms_d)
open TianGong.Contract (stringify stringify_inj)
open TianGong.Session (replay)

/-! ### Nodes -/

/-- A live task's durable status, without its checkpoint and outcome payloads. -/
inductive TaskGraphState
  | pending (phase : Text)
  | running (phase : Text)
  | waiting (phase : Text) (on : List TaskId) (policy : JoinPolicy)
  | completing (outcome : OutcomeStatus)
deriving DecidableEq

structure TaskGraphNode where
  id : TaskId
  kind : Text
  conversationId : ConversationId
  owner : Option TaskId
  background : Bool
  abortRequested : Bool
  state : TaskGraphState
  conversations : List ConversationId
deriving DecidableEq

/-- Every live task, under its id. -/
abbrev TaskGraph := List (TaskId × TaskGraphNode)

def stateOf : TaskState → TaskGraphState
  | .pending phase => .pending phase
  | .running phase => .running phase
  | .waiting phase on policy => .waiting phase on policy
  | .completing outcome => .completing outcome
  -- Terminal records never reach here: they leave the graph.
  | .terminal outcome => .completing outcome

def nodeOf (record : TaskRecord) (conversations : List ConversationId) : TaskGraphNode where
  id := record.id
  kind := record.kind
  conversationId := record.conversationId
  owner := record.owner
  background := record.background
  abortRequested := record.abortRequested
  state := stateOf record.state
  conversations := conversations

/-! ### The published value -/

def JoinPolicy.json : JoinPolicy → Json Unit
  | .failFast => .string (text "failFast")
  | .allSettled => .string (text "allSettled")

def OutcomeStatus.json : OutcomeStatus → Json Unit
  | .completed => .string (text "completed")
  | .failed => .string (text "failed")
  | .aborted => .string (text "aborted")
  | .orphaned => .string (text "orphaned")
  | .faulted => .string (text "faulted")

def idJson (id : Nat) : Json Unit := .number (JsNumber.ofNat id)

def idsJson (ids : List Nat) : Json Unit := .array () (ids.map idJson)

def TaskGraphState.status : TaskGraphState → Text
  | .pending _ => text "pending"
  | .running _ => text "running"
  | .waiting _ _ _ => text "waiting"
  | .completing _ => text "completing"

def TaskGraphState.payload : TaskGraphState → List (Text × Json Unit)
  | .pending phase => [(text "phase", .string phase)]
  | .running phase => [(text "phase", .string phase)]
  | .waiting phase on policy =>
    [(text "phase", .string phase), (text "on", idsJson on), (text "policy", JoinPolicy.json policy)]
  | .completing outcome => [(text "outcome", OutcomeStatus.json outcome)]

def TaskGraphState.json (state : TaskGraphState) : Json Unit :=
  .object () ((text "status", .string state.status) :: state.payload)

/-- The fields of a node before its conversations. -/
def TaskGraphNode.fields (node : TaskGraphNode) : List (Text × Json Unit) :=
  [(text "id", idJson node.id), (text "kind", .string node.kind),
    (text "conversationId", idJson node.conversationId)] ++
  (node.owner.map fun owner => (text "owner", idJson owner)).toList ++
  [(text "background", .bool node.background), (text "abortRequested", .bool node.abortRequested),
    (text "state", node.state.json)]

def TaskGraphNode.json (node : TaskGraphNode) : Json Unit :=
  .object () (node.fields ++ [(text "conversations", idsJson node.conversations)])

def tasksJson (graph : TaskGraph) : List (Text × Json Unit) :=
  graph.map fun entry => (decimal entry.1, entry.2.json)

/-- The value of the graph that observers hold. -/
def encode (graph : TaskGraph) : Json Unit :=
  .object () [(text "tasks", .object () (tasksJson graph))]

/-! ### Building -/

def LIVE_STATUSES : List TaskStatus := [.pending, .running, .waiting, .completing]

def SCAN_PAGE_SIZE : Nat := 256

/-- The rows of a scan of the tasks with a status. -/
def taskRows (state : State) (status : TaskStatus) : List TaskRecord :=
  (state.taskIdsByStatus status).filterMap fun id => Assoc.get id state.tasks

/-- Every row of a scan whose pages are followed to the end. -/
def scanAll {α : Type} (key : α → Nat) (rows : List α) : List α :=
  scanPages (fun cursor => page key SCAN_PAGE_SIZE (behind (fun a b => decide (a < b)) key cursor rows))
    (rows.length + 1) none

/-- The conversations a task owns. Reading the id of a deleted one throws. -/
def ownedConversations (state : State) (task : TaskId) : Option (List ConversationRecord) :=
  ((idsOf state.conversationIdsByOwnerTask task).mapM fun id => Assoc.get id state.conversations).map
    (scanAll ConversationRecord.id)

def sortIds (ids : List Nat) : List Nat := ids.insertionSort fun a b => a ≤ b

def liveRecords (state : State) : List TaskRecord :=
  (LIVE_STATUSES.flatMap fun status => scanAll TaskRecord.id (taskRows state status)).insertionSort
    fun a b => a.id ≤ b.id

def build (state : State) : Option TaskGraph :=
  (liveRecords state).mapM fun record => do
    let owned ← ownedConversations state record.id
    return (record.id, nodeOf record (sortIds (owned.map ConversationRecord.id)))

/-! ### Advancing -/

/-- An operation of the view. -/
inductive GraphOp
  | delete (id : TaskId)
  | set (id : TaskId) (node : TaskGraphNode)
  | setConversations (id : TaskId) (conversations : List ConversationId)

namespace GraphOp

def op : GraphOp → Op (Json Unit)
  | delete id => .d [.key (text "tasks"), .key (decimal id)]
  | set id node => .s [.key (text "tasks"), .key (decimal id)] node.json
  | setConversations id conversations =>
    .s [.key (text "tasks"), .key (decimal id), .key (text "conversations")] (idsJson conversations)

def apply (graph : TaskGraph) : GraphOp → TaskGraph
  | delete id => Assoc.erase id graph
  | set id node => Assoc.set id node graph
  | setConversations id conversations =>
    match Assoc.get id graph with
    | some node => Assoc.set id { node with conversations } graph
    | none => graph

end GraphOp

/-- Nodes that a publication set or deleted, over the mount's value. -/
abbrev Changed := List (TaskId × Option TaskGraphNode)

def nodeIn (graph : TaskGraph) (changed : Changed) (id : TaskId) : Option TaskGraphNode :=
  match Assoc.get id changed with
  | some node => node
  | none => Assoc.get id graph

def advanceTask (graph : TaskGraph) (done : List GraphOp × Changed) (record : TaskRecord) :
    List GraphOp × Changed :=
  let previous := nodeIn graph done.2 record.id
  if record.state.status = .terminal then
    match previous with
    | none => done
    | some _ => (done.1 ++ [.delete record.id], Assoc.set record.id none done.2)
  else
    let next := nodeOf record ((previous.map TaskGraphNode.conversations).getD [])
    if previous.any fun previous => decide (stringify next.json = stringify previous.json) then done
    else (done.1 ++ [.set record.id next], Assoc.set record.id (some next) done.2)

def addCreated (graph : TaskGraph) (changed : Changed) (created : List (TaskId × List ConversationId))
    (owned : TaskId × ConversationId) : List (TaskId × List ConversationId) :=
  if (nodeIn graph changed owned.1).isSome then
    Assoc.set owned.1 (idsOf created owned.1 ++ [owned.2]) created
  else created

/-- The operations for the tasks of a publication, and the nodes they change. -/
def advanceTasks (graph : TaskGraph) (changes : List Write) : List GraphOp × Changed :=
  (tasksOf changes).foldl (advanceTask graph) ([], [])

/-- The new conversations of the nodes that are shown after the tasks. -/
def createdFor (graph : TaskGraph) (changes : List Write) : List (TaskId × List ConversationId) :=
  (changes.filterMap Write.owned?).foldl (addCreated graph (advanceTasks graph changes).2) []

/-- Each list is sorted again: the order of changes within a publication is unspecified. -/
def ownersOp (graph : TaskGraph) (changed : Changed) (created : TaskId × List ConversationId) : GraphOp :=
  .setConversations created.1 (sortIds
    (((nodeIn graph changed created.1).map TaskGraphNode.conversations).getD [] ++ created.2))

/-- The operations of a publication. -/
def advanceOps (graph : TaskGraph) (changes : List Write) : List GraphOp :=
  (advanceTasks graph changes).1 ++
    (createdFor graph changes).map (ownersOp graph (advanceTasks graph changes).2)

/-- The graph after a publication. -/
def advance (graph : TaskGraph) (changes : List Write) : TaskGraph :=
  (advanceOps graph changes).foldl GraphOp.apply graph

/-! ### The text of a node -/

theorem idJson_injective {a b : Nat} (same : idJson a = idJson b) : a = b :=
  decimal_injective (congrArg JsNumber.text (Json.number.inj same))

theorem idsJson_injective {a b : List Nat} (same : idsJson a = idsJson b) : a = b :=
  List.map_injective_iff.mpr (fun _ _ => idJson_injective) (Json.array.inj same).2

theorem JoinPolicy.json_injective {a b : JoinPolicy} (same : JoinPolicy.json a = JoinPolicy.json b) :
    a = b := by
  cases a <;> cases b <;> first | rfl | exact absurd (Json.string.inj same) (by decide)

theorem OutcomeStatus.json_injective {a b : OutcomeStatus}
    (same : OutcomeStatus.json a = OutcomeStatus.json b) : a = b := by
  cases a <;> cases b <;> first | rfl | exact absurd (Json.string.inj same) (by decide)

theorem TaskGraphState.json_injective {a b : TaskGraphState} (same : a.json = b.json) : a = b := by
  obtain ⟨tag, payload⟩ := List.cons.inj (Json.object.inj same).2
  have status : a.status = b.status := Json.string.inj (Prod.mk.inj tag).2
  cases a with
  | pending phase =>
    cases b with
    | pending other => rw [Json.string.inj (Prod.mk.inj (List.cons.inj payload).1).2]
    | running _ | waiting _ _ _ | completing _ =>
      exact absurd status (by simp only [TaskGraphState.status]; decide)
  | running phase =>
    cases b with
    | running other => rw [Json.string.inj (Prod.mk.inj (List.cons.inj payload).1).2]
    | pending _ | waiting _ _ _ | completing _ =>
      exact absurd status (by simp only [TaskGraphState.status]; decide)
  | waiting phase on policy =>
    cases b with
    | waiting other others policy' =>
      obtain ⟨phases, rest⟩ := List.cons.inj payload
      obtain ⟨ons, rest⟩ := List.cons.inj rest
      rw [Json.string.inj (Prod.mk.inj phases).2, idsJson_injective (Prod.mk.inj ons).2,
        JoinPolicy.json_injective (Prod.mk.inj (List.cons.inj rest).1).2]
    | pending _ | running _ | completing _ =>
      exact absurd status (by simp only [TaskGraphState.status]; decide)
  | completing outcome =>
    cases b with
    | completing other =>
      rw [OutcomeStatus.json_injective (Prod.mk.inj (List.cons.inj payload).1).2]
    | pending _ | running _ | waiting _ _ _ =>
      exact absurd status (by simp only [TaskGraphState.status]; decide)

/-- **The value of a node determines the node.** -/
theorem TaskGraphNode.json_injective {a b : TaskGraphNode} (same : a.json = b.json) : a = b := by
  obtain ⟨id, kind, conversationId, owner, background, abortRequested, state, conversations⟩ := a
  obtain ⟨id', kind', conversationId', owner', background', abortRequested', state',
    conversations'⟩ := b
  have fields := (Json.object.inj same).2
  obtain ⟨ids, rest⟩ := List.cons.inj fields
  obtain ⟨kinds, rest⟩ := List.cons.inj rest
  obtain ⟨homes, rest⟩ := List.cons.inj rest
  obtain rfl := idJson_injective (Prod.mk.inj ids).2
  obtain rfl := Json.string.inj (Prod.mk.inj kinds).2
  obtain rfl := idJson_injective (Prod.mk.inj homes).2
  have last : [(text "background", .bool background), (text "abortRequested", .bool abortRequested),
        (text "state", state.json), (text "conversations", idsJson conversations)] =
      [(text "background", .bool background'), (text "abortRequested", .bool abortRequested'),
        (text "state", state'.json), (text "conversations", idsJson conversations')] →
      background = background' ∧ abortRequested = abortRequested' ∧
        [(text "state", state.json), (text "conversations", idsJson conversations)] =
          [(text "state", state'.json), (text "conversations", idsJson conversations')] := by
    intro same
    obtain ⟨first, rest⟩ := List.cons.inj same
    obtain ⟨second, rest⟩ := List.cons.inj rest
    exact ⟨Json.bool.inj (Prod.mk.inj first).2, Json.bool.inj (Prod.mk.inj second).2, rest⟩
  have owners : owner = owner' ∧ background = background' ∧ abortRequested = abortRequested' ∧
      [(text "state", state.json), (text "conversations", idsJson conversations)] =
        [(text "state", state'.json), (text "conversations", idsJson conversations')] := by
    cases owner with
    | none =>
      cases owner' with
      | none => exact ⟨rfl, last rest⟩
      | some other => exact absurd (Prod.mk.inj (List.cons.inj rest).1).1 (by decide)
    | some owner =>
      cases owner' with
      | none => exact absurd (Prod.mk.inj (List.cons.inj rest).1).1 (by decide)
      | some other =>
        obtain ⟨first, rest⟩ := List.cons.inj rest
        rw [idJson_injective (Prod.mk.inj first).2]
        exact ⟨rfl, last rest⟩
  obtain ⟨rfl, rfl, rfl, both⟩ := owners
  obtain ⟨states, final⟩ := List.cons.inj both
  obtain rfl := TaskGraphState.json_injective (Prod.mk.inj states).2
  obtain rfl := idsJson_injective (Prod.mk.inj (List.cons.inj final).1).2
  rfl

/-! ### Replaying the operations -/

theorem decimal_injective' : Function.Injective decimal := fun _ _ same => decimal_injective same

variable (id : TaskId) (graph : TaskGraph)

theorem tasksJson_eq :
    tasksJson graph =
      (graph.map fun entry => (entry.1, entry.2.json)).map fun entry => (decimal entry.1, entry.2) := by
  rw [List.map_map]
  rfl

theorem get_tasksJson :
    Assoc.get (decimal id) (tasksJson graph) = (Assoc.get id graph).map TaskGraphNode.json := by
  rw [tasksJson_eq, Assoc.get_mapKeys decimal_injective', Assoc.get_mapValues]

theorem set_tasksJson (node : TaskGraphNode) (graph : TaskGraph) :
    Assoc.set (decimal id) node.json (tasksJson graph) = tasksJson (Assoc.set id node graph) := by
  rw [tasksJson_eq, tasksJson_eq, Assoc.set_mapValues, Assoc.set_mapKeys decimal_injective']

theorem erase_tasksJson :
    Assoc.erase (decimal id) (tasksJson graph) = tasksJson (Assoc.erase id graph) := by
  rw [tasksJson_eq, tasksJson_eq, Assoc.erase_mapValues, Assoc.erase_mapKeys decimal_injective']

/-- The decimal text of an id is no name of the prototype chain. -/
theorem decimal_safe : Seg.reserved (.key (decimal id)) = false := by
  cases reserved : Seg.reserved (.key (decimal id)) with
  | false => rfl
  | true =>
    have named := List.contains_iff_mem.mp reserved
    have digits : ∀ c ∈ decimal id, isDigit c = true := fun c member => decimal_isDigit member
    simp only [Chord.reservedSegments, mem_cons, not_mem_nil, or_false] at named
    rcases named with same | same | same
    · exact absurd (digits (unit '_') (same ▸ by decide)) (by decide)
    · exact absurd (digits (unit 'c') (same ▸ by decide)) (by decide)
    · exact absurd (digits (unit 'p') (same ▸ by decide)) (by decide)

theorem tasks_safe : Seg.reserved (.key (text "tasks")) = false := by decide

theorem conversations_safe : Seg.reserved (.key (text "conversations")) = false := by decide

/-- What operations make of the tasks, they make of the graph. -/
theorem transformAll_encode {ops : List (Op (Json Unit))} {graph next : TaskGraph}
    (below : Transforms [.key (text "tasks")] ops (.object () (tasksJson graph))
      (.object () (tasksJson next))) : transformAll ops (encode graph) = some (encode next) :=
  below (encode graph) rfl

/-- The text of a node with other conversations. -/
theorem set_conversations (node : TaskGraphNode) (conversations : List ConversationId) :
    Assoc.set (text "conversations") (idsJson conversations)
        (node.fields ++ [(text "conversations", idsJson node.conversations)]) =
      node.fields ++ [(text "conversations", idsJson conversations)] := by
  have absent : text "conversations" ∉ Assoc.keys node.fields := by
    rw [TaskGraphNode.fields]
    cases node.owner <;>
      simp only [Assoc.keys, map_none, map_some, toList_none, toList_some,
        map_append, map_cons, map_nil] <;> decide
  rw [Assoc.set, if_pos, Assoc.replace_append_of_notMem absent, Assoc.replace, if_pos rfl]
  rw [Assoc.has_iff, Assoc.keys_append]
  exact mem_append_right _ mem_cons_self

/-- The node that an operation edits is shown. -/
def GraphOp.Fits (graph : TaskGraph) : GraphOp → Prop
  | .setConversations id _ => (Assoc.get id graph).isSome = true
  | _ => True

/-- **An operation, replayed on the value of a graph.** -/
theorem transforms_op {graph : TaskGraph} {op : GraphOp} (fits : op.Fits graph) :
    transformAll [op.op] (encode graph) = some (encode (op.apply graph)) := by
  refine transformAll_encode ?_
  cases op with
  | delete id =>
    rw [GraphOp.apply, ← erase_tasksJson]
    refine @transforms_d Unit [.key (text "tasks")] (decimal id) (fun segment member => ?_) () _
    rcases List.mem_cons.mp member with rfl | member
    · exact tasks_safe
    · rw [List.mem_singleton.mp member]
      exact decimal_safe id
  | set id node =>
    rw [GraphOp.apply, ← set_tasksJson]
    refine @transforms_set Unit [.key (text "tasks")] (decimal id) (fun segment member => ?_) () _ _
    rcases List.mem_cons.mp member with rfl | member
    · exact tasks_safe
    · rw [List.mem_singleton.mp member]
      exact decimal_safe id
  | setConversations id conversations =>
    obtain ⟨node, found⟩ := Option.isSome_iff_exists.mp fits
    rw [GraphOp.apply, found]
    dsimp only
    rw [← set_tasksJson]
    have child : (Json.object () (tasksJson graph)).child (.key (decimal id)) = some node.json :=
      (get_tasksJson id graph).trans (by rw [found]; rfl)
    have written : Json.object () (Assoc.set (decimal id)
          (TaskGraphNode.json { node with conversations }) (tasksJson graph)) =
        Json.setChild (.key (decimal id)) (TaskGraphNode.json { node with conversations })
          (.object () (tasksJson graph)) := rfl
    rw [written]
    refine Transforms.child child ?_
    have edit := @transforms_set Unit [.key (text "tasks"), .key (decimal id)] (text "conversations")
      (fun segment member => ?_) () (node.fields ++ [(text "conversations", idsJson node.conversations)])
      (idsJson conversations)
    · rw [set_conversations] at edit
      exact edit
    · rcases List.mem_cons.mp member with rfl | member
      · exact tasks_safe
      · rcases List.mem_cons.mp member with rfl | member
        · exact decimal_safe id
        · rw [List.mem_singleton.mp member]
          exact conversations_safe

/-- Each operation of a list finds the node that it edits. -/
def FitsAll : TaskGraph → List GraphOp → Prop
  | _, [] => True
  | graph, op :: rest => op.Fits graph ∧ FitsAll (op.apply graph) rest

/-- **Operations, replayed on the value of a graph, give the value of the next one.** -/
theorem replay_encode {graph : TaskGraph} {ops : List GraphOp} (fits : FitsAll graph ops) :
    replay (encode graph) [ops.map GraphOp.op] = some (encode (ops.foldl GraphOp.apply graph)) := by
  rw [replay, flatten_singleton]
  induction ops generalizing graph with
  | nil => rfl
  | cons op rest ih =>
    have split : transformAll ([op.op] ++ rest.map GraphOp.op) (encode graph) =
        transformAll [op.op] (encode graph) >>= fun value => transformAll (rest.map GraphOp.op) value :=
      Chord.transformAll_append _ _ _
    rw [map_cons, foldl_cons, ← ih fits.2]
    refine split.trans ?_
    rw [transforms_op fits.1]
    rfl

end TianGong.Harness
