/-
**Graph frames and the graph that they replay to.**

`SecGraphProjector` (`projector.ts`): the first projection is a snapshot, a projection that loses an
id is a snapshot again, and every other change is itemized.

* `lostIds`, `diffItems`, `update`: as in the source.
* `Follows`: a screen has the nodes, edges, findings, intents and path of a graph.
* `replay_follows`: the screen follows the projector.
* `replay_stale`: the statistics that it shows are not the current ones.
-/

import Mathlib.Data.List.Dedup
import Mathlib.Data.List.Induction
import TianGong.SecServer.Projection

namespace TianGong.SecServer

open List

variable (locale : Locale)

/-! ### The projector -/

structure SecRunState where
  running : Bool
  queued : Nat
  turn : Nat

def initialRunState : SecRunState := ⟨false, 0, 0⟩

def snapshotFrame (graph : SecGraph) (state : SecRunState) (now : Nat) : SecServerFrame :=
  ⟨now, .snapshot graph state.running state.queued⟩

def lostIds {A : Type} (id : A → Text) (previous next : List A) : Bool :=
  next.length < previous.length || previous.any fun item => id item ∉ next.map id

/-- `diffItems`; `frame` is the frame of an item. -/
def diffItems {A : Type} [DecidableEq A] (id : A → Text) (frame : A → SecFrameBody)
    (previous next : List A) (now : Nat) : List SecServerFrame :=
  (Upsert.changes id previous next).map fun item => ⟨now, frame item⟩

/-- Some id of the graph is not in the next. -/
def loses (previous next : SecGraph) : Bool :=
  lostIds SecGraphNode.id previous.nodes next.nodes ||
    lostIds SecGraphEdge.id previous.edges next.edges ||
    lostIds SecFinding.id previous.findings next.findings ||
    lostIds SecGraphIntent.id previous.intents next.intents

/-- The frames of a graph that follows another and loses no id. -/
def itemized (previous next : SecGraph) (now : Nat) : List SecServerFrame :=
  diffItems SecGraphNode.id .node previous.nodes next.nodes now ++
    diffItems SecGraphEdge.id .edge previous.edges next.edges now ++
    diffItems SecFinding.id .finding previous.findings next.findings now ++
    diffItems SecGraphIntent.id .intent previous.intents next.intents now ++
    if previous.rce_path = next.rce_path then [] else [⟨now, .rcePath next.rce_path⟩]

/-- The frames of a graph, after the one before it, if any. -/
def graphFrames (previous : Option SecGraph) (next : SecGraph) (run : SecRunState) (now : Nat) :
    List SecServerFrame :=
  match previous with
  | none => [snapshotFrame next run now]
  | some previous =>
    if loses previous next then [snapshotFrame next run now] else itemized previous next now

structure SecGraphProjector where
  graph : Option SecGraph

def SecGraphProjector.update (projector : SecGraphProjector) (run : SecRunState)
    (input : SecProjectionInput) : SecGraphProjector × List SecServerFrame :=
  let next := projectSecGraph locale input
  (⟨some next⟩, graphFrames projector.graph next run input.now)

/-- The updates of a projector, one after the other, with all their frames. -/
def replay (updates : List (SecRunState × SecProjectionInput)) :
    SecGraphProjector × List SecServerFrame :=
  updates.foldl (fun state entry =>
    let updated := state.1.update locale entry.1 entry.2
    (updated.1, state.2 ++ updated.2)) (⟨none⟩, [])

/-! ### Items -/

variable (screen : Screen)

/-- The items of a screen after frames of one kind. -/
theorem fold_nodes (items : List SecGraphNode) (now : Nat) :
    screen.fold (items.map fun item => ⟨now, .node item⟩) =
      { screen with graph := { screen.graph with
        nodes := Upsert.upsertAll SecGraphNode.id screen.graph.nodes items } } := by
  induction items generalizing screen with
  | nil => rfl
  | cons item rest ih => exact ih _

theorem fold_edges (items : List SecGraphEdge) (now : Nat) :
    screen.fold (items.map fun item => ⟨now, .edge item⟩) =
      { screen with graph := { screen.graph with
        edges := Upsert.upsertAll SecGraphEdge.id screen.graph.edges items } } := by
  induction items generalizing screen with
  | nil => rfl
  | cons item rest ih => exact ih _

theorem fold_findings (items : List SecFinding) (now : Nat) :
    screen.fold (items.map fun item => ⟨now, .finding item⟩) =
      { screen with graph := { screen.graph with
        findings := Upsert.upsertAll SecFinding.id screen.graph.findings items } } := by
  induction items generalizing screen with
  | nil => rfl
  | cons item rest ih => exact ih _

theorem fold_intents (items : List SecGraphIntent) (now : Nat) :
    screen.fold (items.map fun item => ⟨now, .intent item⟩) =
      { screen with graph := { screen.graph with
        intents := Upsert.upsertAll SecGraphIntent.id screen.graph.intents items } } := by
  induction items generalizing screen with
  | nil => rfl
  | cons item rest ih => exact ih _

/-- **What itemized frames make of a screen.** -/
theorem fold_itemized (previous next : SecGraph) (now : Nat) :
    screen.fold (itemized previous next now) =
      { screen with graph := { screen.graph with
        nodes := Upsert.upsertAll SecGraphNode.id screen.graph.nodes
          (Upsert.changes SecGraphNode.id previous.nodes next.nodes)
        edges := Upsert.upsertAll SecGraphEdge.id screen.graph.edges
          (Upsert.changes SecGraphEdge.id previous.edges next.edges)
        findings := Upsert.upsertAll SecFinding.id screen.graph.findings
          (Upsert.changes SecFinding.id previous.findings next.findings)
        intents := Upsert.upsertAll SecGraphIntent.id screen.graph.intents
          (Upsert.changes SecGraphIntent.id previous.intents next.intents)
        rce_path := if previous.rce_path = next.rce_path then screen.graph.rce_path
          else next.rce_path } } := by
  unfold itemized diffItems
  rw [Screen.fold_append, Screen.fold_append, Screen.fold_append, Screen.fold_append, fold_nodes,
    fold_edges, fold_findings, fold_intents]
  split <;> rfl

/-! ### A screen follows a graph -/

/-- No id occurs twice among the items of one kind. -/
structure Distinct (graph : SecGraph) : Prop where
  nodes : (graph.nodes.map SecGraphNode.id).Nodup
  edges : (graph.edges.map SecGraphEdge.id).Nodup
  findings : (graph.findings.map SecFinding.id).Nodup
  intents : (graph.intents.map SecGraphIntent.id).Nodup

/-- The screen has the nodes, edges, findings, intents and the path of the graph. -/
structure Follows (screen graph : SecGraph) : Prop where
  nodes : screen.nodes.Perm graph.nodes
  edges : screen.edges.Perm graph.edges
  findings : screen.findings.Perm graph.findings
  intents : screen.intents.Perm graph.intents
  rce_path : screen.rce_path = graph.rce_path

theorem Follows.refl (graph : SecGraph) : Follows graph graph :=
  ⟨.refl _, .refl _, .refl _, .refl _, rfl⟩

/-- **The items of one kind.** -/
theorem perm_changes {A : Type} [DecidableEq A] {id : A → Text} {copy previous next : List A}
    (follows : copy.Perm previous) (previousNodup : (previous.map id).Nodup)
    (nextNodup : (next.map id).Nodup) (keeps : lostIds id previous next = false) :
    (Upsert.upsertAll id copy (Upsert.changes id previous next)).Perm next := by
  have copyNodup : (copy.map id).Nodup := (follows.map id).nodup_iff.mpr previousNodup
  have kept : ∀ k, k ∈ previous.map id → k ∈ next.map id := by
    intro k member
    obtain ⟨item, inside, rfl⟩ := List.mem_map.mp member
    have found := (Bool.or_eq_false_iff.mp keeps).2
    rw [any_eq_false] at found
    simpa using found item inside
  have same : ∀ k, Upsert.lookup id k copy = Upsert.lookup id k previous := by
    intro k
    cases found : Upsert.lookup id k previous with
    | none =>
      refine Upsert.lookup_eq_none.mpr fun member => Upsert.lookup_eq_none.mp found ?_
      exact (follows.map id).mem_iff.mp member
    | some item =>
      obtain rfl := Upsert.key_of_lookup found
      exact Upsert.lookup_of_mem copyNodup (follows.mem_iff.mpr (Upsert.mem_of_lookup found))
  exact Upsert.perm_of_lookup nextNodup (Upsert.nodup_upsertAll copyNodup _)
    fun k => Upsert.lookup_changes previousNodup nextNodup (kept k) (same k)

theorem follows_itemized {screen : Screen} {previous next : SecGraph}
    (follows : Follows screen.graph previous) (distinct : Distinct previous)
    (nextDistinct : Distinct next) (keeps : loses previous next = false) (now : Nat) :
    Follows (screen.fold (itemized previous next now)).graph next := by
  simp only [loses, Bool.or_eq_false_iff] at keeps
  obtain ⟨⟨⟨keepsNodes, keepsEdges⟩, keepsFindings⟩, keepsIntents⟩ := keeps
  rw [fold_itemized]
  constructor
  case nodes => exact perm_changes follows.nodes distinct.nodes nextDistinct.nodes keepsNodes
  case edges => exact perm_changes follows.edges distinct.edges nextDistinct.edges keepsEdges
  case findings =>
    exact perm_changes follows.findings distinct.findings nextDistinct.findings keepsFindings
  case intents =>
    exact perm_changes follows.intents distinct.intents nextDistinct.intents keepsIntents
  case rce_path =>
    dsimp only
    split
    · rename_i same
      exact follows.rce_path.trans same
    · rfl

/-- **One update.** -/
theorem follows_update {screen : Screen} {previous : Option SecGraph} {next : SecGraph}
    (follows : ∀ graph, previous = some graph → Follows screen.graph graph ∧ Distinct graph)
    (nextDistinct : Distinct next) (run : SecRunState) (now : Nat) :
    Follows (screen.fold (graphFrames previous next run now)).graph next := by
  unfold graphFrames
  split
  · exact .refl next
  · rename_i graph
    obtain ⟨here, distinct⟩ := follows graph rfl
    split
    · exact .refl next
    · rename_i keeps
      exact follows_itemized here distinct nextDistinct (Bool.eq_false_iff.mpr keeps) now

/-! ### Statistics and frontier -/

/-- The graph of the last snapshot. -/
def lastSnapshot (frames : List SecServerFrame) : Option SecGraph :=
  frames.reverse.findSome? fun frame => match frame.body with
    | .snapshot payload _ _ => some payload
    | _ => none

theorem lastSnapshot_append (frames more : List SecServerFrame) :
    lastSnapshot (frames ++ more) = (lastSnapshot more).or (lastSnapshot frames) := by
  unfold lastSnapshot
  rw [reverse_append, List.findSome?_append]

/-- No frame but a snapshot moves the statistics and the frontier. -/
theorem fold_stats (frames : List SecServerFrame) :
    (screen.fold frames).graph.stats =
        ((lastSnapshot frames).getD screen.graph).stats ∧
      (screen.fold frames).graph.frontier = ((lastSnapshot frames).getD screen.graph).frontier := by
  induction frames generalizing screen with
  | nil => exact ⟨rfl, rfl⟩
  | cons frame rest ih =>
    have head : lastSnapshot (frame :: rest) =
        (lastSnapshot rest).or (lastSnapshot [frame]) := lastSnapshot_append [frame] rest
    obtain ⟨stats, frontier⟩ := ih (screen.handleFrame frame)
    show ((screen.handleFrame frame).fold rest).graph.stats = _ ∧
      ((screen.handleFrame frame).fold rest).graph.frontier = _
    rw [stats, frontier, head]
    cases lastSnapshot rest with
    | some graph => exact ⟨rfl, rfl⟩
    | none =>
      obtain ⟨ts, body⟩ := frame
      cases body <;> exact ⟨rfl, rfl⟩

theorem byStatus_get (status : SecIntentStatus) (intents : List SecGraphIntent)
    (byStatus : List (SecIntentStatus × Nat)) :
    (Assoc.get status (intents.foldl (fun byStatus intent =>
      Assoc.set intent.status ((Assoc.get intent.status byStatus).getD 0 + 1) byStatus)
        byStatus)).getD 0 =
      (Assoc.get status byStatus).getD 0 +
        (intents.filter fun intent => intent.status = status).length := by
  induction intents generalizing byStatus with
  | nil => rfl
  | cons intent rest ih =>
    rw [foldl_cons, ih, Assoc.get_set, filter_cons]
    by_cases same : intent.status = status
    · subst same
      simp only [decide_true, if_true, Option.getD_some, length_cons]
      omega
    · simp only [same, decide_false, Bool.false_eq_true, if_false]

/-- The counts of a frontier do not depend on the order of the intents. -/
theorem computeFrontier_perm {intents copy : List SecGraphIntent} (perm : copy.Perm intents) :
    (computeFrontier copy).opened = (computeFrontier intents).opened ∧
      (computeFrontier copy).strategies = (computeFrontier intents).strategies := by
  refine ⟨?_, (perm.filterMap SecGraphIntent.strategy_key).dedup.length_eq⟩
  unfold computeFrontier
  simp only [byStatus_get]
  rw [(perm.filter _).length_eq, (perm.filter fun intent => intent.status = .active).length_eq]

/-- **The statistics are those of the items**, in any order, however the path is marked. -/
theorem computeStats_perm {nodes copyNodes : List SecGraphNode}
    {edges copyEdges : List SecGraphEdge} {findings copyFindings : List SecFinding}
    {intents copyIntents : List SecGraphIntent} (permNodes : copyNodes.Perm nodes)
    (permEdges : (copyEdges.map SecGraphEdge.relation).Perm (edges.map SecGraphEdge.relation))
    (permFindings : copyFindings.Perm findings) (permIntents : copyIntents.Perm intents) :
    computeStats locale copyNodes copyEdges copyFindings copyIntents =
      computeStats locale nodes edges findings intents := by
  have pivots : ∀ edges : List SecGraphEdge,
      (edges.filter fun edge => edge.relation = .pivotsTo).length =
        ((edges.map SecGraphEdge.relation).filter fun relation => relation = .pivotsTo).length := by
    intro edges
    rw [filter_map, length_map]
    rfl
  have edgesLength : copyEdges.length = edges.length := by
    simpa only [length_map] using permEdges.length_eq
  have landed := permNodes.filter (isLandedShell locale)
  have hosts := ((landed.map (hostOf locale)).filter fun host => host ≠ []).dedup
  obtain ⟨opened, strategies⟩ := computeFrontier_perm permIntents
  have findingsOf := fun level =>
    (permFindings.filter fun finding => finding.severity = level).length_eq
  unfold computeStats
  simp only [pivots]
  rw [permNodes.length_eq, (permNodes.filter fun node => node.type = .service).length_eq,
    edgesLength, permFindings.length_eq, findingsOf, findingsOf, findingsOf, findingsOf, findingsOf,
    landed.length_eq, hosts.length_eq, (permEdges.filter _).length_eq, opened, strategies]

theorem stats_of_follows {screen : SecGraph} {input : SecProjectionInput}
    (follows : Follows screen (projectSecGraph locale input)) :
    computeStats locale screen.nodes screen.edges screen.findings screen.intents =
      (projectSecGraph locale input).stats := by
  refine computeStats_perm locale follows.nodes ?_ follows.findings follows.intents
  have marked : (projectSecGraph locale input).edges.map SecGraphEdge.relation =
      (projectedEdges locale input).map SecGraphEdge.relation := by
    unfold projectSecGraph markRcePath
    rw [map_map]
    rfl
  rw [← marked]
  exact follows.edges.map _

/-! ### Every sequence of projections -/

theorem replay_append (updates : List (SecRunState × SecProjectionInput)) (run : SecRunState)
    (input : SecProjectionInput) :
    replay locale (updates ++ [(run, input)]) =
      (⟨some (projectSecGraph locale input)⟩, (replay locale updates).2 ++
        graphFrames (replay locale updates).1.graph (projectSecGraph locale input) run
          input.now) := by
  unfold replay
  rw [foldl_append]
  rfl

/-- **What a client holds that applies every frame**: the nodes, edges, findings, intents and the
path of the current graph. The statistics and the frontier are those of the last snapshot, and the
items give the current statistics. -/
structure Replays (screen : SecGraph) (frames : List SecServerFrame) (graph : SecGraph) : Prop where
  follows : Follows screen graph
  snapshot : ∃ last, lastSnapshot frames = some last ∧ screen.stats = last.stats ∧
    screen.frontier = last.frontier
  counted : computeStats locale screen.nodes screen.edges screen.findings screen.intents =
    graph.stats

/-- **Graph frames replay to the graph**, after every update, where no id occurs twice among the
items of one kind. -/
theorem replay_follows (updates : List (SecRunState × SecProjectionInput)) (run : SecRunState)
    (input : SecProjectionInput)
    (distinct : ∀ entry ∈ updates ++ [(run, input)], Distinct (projectSecGraph locale entry.2)) :
    (replay locale (updates ++ [(run, input)])).1.graph = some (projectSecGraph locale input) ∧
      Replays locale (Screen.empty.fold (replay locale (updates ++ [(run, input)])).2).graph
        (replay locale (updates ++ [(run, input)])).2 (projectSecGraph locale input) := by
  induction updates using List.reverseRecOn generalizing run input with
  | nil =>
    exact ⟨rfl, .refl _, ⟨_, rfl, rfl, rfl⟩, stats_of_follows locale (.refl _)⟩
  | append_singleton updates entry ih =>
    obtain ⟨entryRun, entryInput⟩ := entry
    have before := ih entryRun entryInput fun entry member =>
      distinct entry (mem_append_left _ member)
    obtain ⟨current, replays⟩ := before
    have entryDistinct : Distinct (projectSecGraph locale entryInput) :=
      distinct _ (mem_append_left _ (mem_append_right _ (mem_singleton_self _)))
    have nextDistinct : Distinct (projectSecGraph locale input) :=
      distinct (run, input) (mem_append_right _ (mem_singleton_self _))
    rw [replay_append]
    dsimp only
    generalize replay locale (updates ++ [(entryRun, entryInput)]) = state at current replays ⊢
    have follows : Follows ((Screen.empty.fold state.2).fold (graphFrames state.1.graph
        (projectSecGraph locale input) run input.now)).graph (projectSecGraph locale input) := by
      refine follows_update (fun graph is => ?_) nextDistinct run input.now
      rw [current] at is
      cases is
      exact ⟨replays.follows, entryDistinct⟩
    rw [← Screen.fold_append] at follows
    refine ⟨rfl, follows, ?_, stats_of_follows locale follows⟩
    obtain ⟨last, isLast, -, -⟩ := replays.snapshot
    obtain ⟨stats, frontier⟩ := fold_stats Screen.empty (state.2 ++ graphFrames state.1.graph
      (projectSecGraph locale input) run input.now)
    rw [stats, frontier, lastSnapshot_append, isLast]
    cases lastSnapshot (graphFrames state.1.graph (projectSecGraph locale input) run input.now) with
    | none => exact ⟨last, rfl, rfl, rfl⟩
    | some graph => exact ⟨graph, rfl, rfl, rfl⟩

/-! ### An action arrives -/

/-- `toLowerCase` and `localeCompare` of ASCII texts. -/
def asciiLocale : Locale where
  lower t := t.map SecGuard.lowerUnit
  compare a b := if a = b then .eq else if a < b then .lt else .gt

/-- A campaign with the given actions. -/
def demoInput (actions : List SecProjectionAction) : SecProjectionInput where
  project := text "demo"
  target := text "https://demo.local"
  rootConversationId := 1
  actions
  evidence := []
  findings := none
  plan := none
  terminals := none
  now := 1000

def demoAction : SecProjectionAction where
  conversationId := 2
  parentConversationId := 1
  ownerTaskId := 11
  intent := text "service: 8080/http nginx"
  openedAt := 20
  status := .opened
  summaryRef := []

theorem replay_follows_demo :
    (replay asciiLocale [(initialRunState, demoInput []),
        (initialRunState, demoInput [demoAction])]).1.graph =
      some (projectSecGraph asciiLocale (demoInput [demoAction])) ∧
    Replays asciiLocale (Screen.empty.fold (replay asciiLocale [(initialRunState, demoInput []),
        (initialRunState, demoInput [demoAction])]).2).graph
      (replay asciiLocale [(initialRunState, demoInput []),
        (initialRunState, demoInput [demoAction])]).2
      (projectSecGraph asciiLocale (demoInput [demoAction])) := by
  refine replay_follows asciiLocale [(initialRunState, demoInput [])] initialRunState
    (demoInput [demoAction]) fun entry member => ?_
  rcases List.mem_cons.mp member with rfl | later
  · constructor <;> decide
  · cases List.mem_singleton.mp later
    constructor <;> decide

/-- **The statistics go stale**: the frames of an update have no place for them. -/
theorem replay_stale : ¬ ∀ (updates : List (SecRunState × SecProjectionInput)) (graph : SecGraph),
    (replay asciiLocale updates).1.graph = some graph →
      Follows (Screen.empty.fold (replay asciiLocale updates).2).graph graph ∧
        (Screen.empty.fold (replay asciiLocale updates).2).graph.stats = graph.stats ∧
        (Screen.empty.fold (replay asciiLocale updates).2).graph.frontier = graph.frontier := by
  intro holds
  obtain ⟨-, stats, -⟩ := holds [(initialRunState, demoInput []),
    (initialRunState, demoInput [demoAction])] _ rfl
  have shown : (Screen.empty.fold (replay asciiLocale [(initialRunState, demoInput []),
      (initialRunState, demoInput [demoAction])]).2).graph.stats.nodes = 1 := by decide
  rw [stats] at shown
  exact absurd shown (by decide)

end TianGong.SecServer
