/-
**Registered findings and the screen.**

* `FindingsShown`: what a graph shows of the findings that a host read.
* `mem_nodes`, `shows_iff`: the nodes of a projection, and those that show a subject.
* `bare_step`, `bare_run`: no client is ever shown a rated subject.
* `carried_step`, `carried_run`: every client is shown every subject of the graph.
* `findings_shown_iff`: after a refresh, a client shows the findings if the host read none, and
  only then.
* `not_findings_shown`: a registered finding, and the subject that stays unrated.

`refresh` copies every field of what the host read but the findings.
-/

import TianGong.Lib.Returns
import TianGong.SecServer.Server

namespace TianGong.SecServer

open List
open Returns

variable {locale : Locale}

/-! ### What a graph shows -/

/-- The node is the one of a subject. -/
def SecGraphNode.Shows (node : SecGraphNode) (subjectId : Text) : Prop :=
  node.type = .vuln ∧ subjectTag subjectId ∈ node.tags

/-- The graph has an entry of a finding, and its subject's node is rated by it. -/
def Rated (graph : SecGraph) (finding : SecProjectionFinding) : Prop :=
  (∃ entry ∈ graph.findings, entry.id = finding.findingId ∧
    entry.severity = finding.severity ∧
    entry.verification_status = verificationOf finding.status) ∧
  ∃ node ∈ graph.nodes, node.Shows finding.subjectId ∧ node.severity = finding.severity ∧
    node.status = finding.status.name

/-- The graph shows a subject as unrated. -/
def ShownUnrated (graph : SecGraph) (subjectId : Text) : Prop :=
  ∃ node ∈ graph.nodes, node.Shows subjectId ∧ unrated ∈ node.tags

/-- **The graph shows the findings that a host read.** -/
structure FindingsShown (graph : SecGraph) (source : HostProjection) : Prop where
  rated : ∀ finding ∈ source.findings, Rated graph finding
  unrated : ∀ subjectId,
    (∃ subject ∈ source.evidence, subject.subjectId = subjectId) ∨
      (∃ finding ∈ source.findings, finding.subjectId = subjectId) →
    (ShownUnrated graph subjectId ↔ ¬ ∃ finding ∈ source.findings, finding.subjectId = subjectId)

/-- No two evidence subjects share a node key. -/
def HostProjection.Apart (source : HostProjection) : Prop :=
  ∀ subject ∈ source.evidence, ∀ other ∈ source.evidence,
    evidenceNodeKey subject.subjectId = evidenceNodeKey other.subjectId →
      subject.subjectId = other.subjectId

/-! ### The nodes of a projection -/

variable {input : SecProjectionInput} {node : SecGraphNode}

theorem mem_nodes :
    node ∈ (projectSecGraph locale input).nodes ↔ node = rootNode input ∨
      (∃ action ∈ orderedActions input.actions, actionNode locale action = node) ∨
      (∃ subject ∈ subjects input, evidenceNode input subject = node) ∨
      ∃ terminal ∈ input.terminals.getD [], terminalNode terminal = node := by
  show node ∈ projectedNodes locale input ↔ _
  simp only [projectedNodes, cons_append, mem_cons, mem_append, mem_map,
    or_assoc]

/-- Of the tags, only that of a subject begins as it does. -/
theorem subjectTag_ne {t : Text} (other : t.head? ≠ some (unit 's')) (subjectId : Text) :
    subjectTag subjectId ≠ t := by
  rintro rfl
  exact other rfl

theorem not_shows_action (action : SecProjectionAction) (subjectId : Text) :
    ¬ (actionNode locale action).Shows subjectId := by
  rintro ⟨-, member⟩
  simp only [actionNode, mem_append, mem_cons, not_mem_nil, or_false] at member
  rcases member with ((is | is | is) | goal) | summarized
  · exact subjectTag_ne (by decide) subjectId is
  · refine subjectTag_ne ?_ subjectId is
    show some (unit 'c') ≠ some (unit 's')
    decide
  · refine subjectTag_ne ?_ subjectId is
    show some (unit 't') ≠ some (unit 's')
    decide
  · split at goal
    · exact subjectTag_ne (by decide) subjectId (List.mem_singleton.mp goal)
    · cases goal
  · split at summarized
    · cases summarized
    · have sameStart : text "sub" = text "sum" :=
        congrArg (List.take 3) (List.mem_singleton.mp summarized)
      exact absurd sameStart (by decide)

theorem shows_evidence (unread : input.findings = none) (subject : SecProjectionEvidenceSubject)
    (subjectId : Text) :
    (evidenceNode input subject).Shows subjectId ↔ subject.subjectId = subjectId := by
  have unfound : findingOf input subject.subjectId = none := by
    unfold findingOf
    rw [unread]
    rfl
  constructor
  · rintro ⟨-, member⟩
    simp only [evidenceNode, unfound, mem_append, mem_singleton, mem_eraseDups,
      mem_map] at member
    rcases member with ((is | is) | is) | ⟨binding, -, is⟩
    · exact (subjectTag_ne (by decide) subjectId is).elim
    · exact (subjectTag_ne (by decide) subjectId is).elim
    · exact (append_cancel_left is).symm
    · refine (subjectTag_ne ?_ subjectId is.symm).elim
      show some (unit 'r') ≠ some (unit 's')
      decide
  · rintro rfl
    refine ⟨rfl, ?_⟩
    simp [evidenceNode]

/-- **The nodes that show a subject are those of its evidence.** -/
theorem shows_iff (unread : input.findings = none)
    (member : node ∈ (projectSecGraph locale input).nodes) (subjectId : Text) :
    node.Shows subjectId ↔
      ∃ subject ∈ input.evidence, subject.subjectId = subjectId ∧
        node = evidenceNode input subject := by
  have all : subjects input = input.evidence := by
    unfold subjects
    rw [unread]
    rfl
  constructor
  · intro shows
    rw [mem_nodes, all] at member
    rcases member with rfl | ⟨action, -, rfl⟩ | ⟨subject, inside, rfl⟩ | ⟨terminal, -, rfl⟩
    · cases shows.1
    · exact (not_shows_action action subjectId shows).elim
    · exact ⟨subject, inside, (shows_evidence unread subject subjectId).mp shows, rfl⟩
    · cases shows.1
  · rintro ⟨subject, -, is, rfl⟩
    exact (shows_evidence unread subject subjectId).mpr is

/-- No other node has the id of an evidence node. -/
theorem evidence_of_id (unread : input.findings = none)
    (member : node ∈ (projectSecGraph locale input).nodes) {subjectId : Text}
    (same : node.id = evidenceNodeKey subjectId) :
    ∃ subject ∈ input.evidence, node = evidenceNode input subject := by
  have all : subjects input = input.evidence := by
    unfold subjects
    rw [unread]
    rfl
  rw [mem_nodes, all] at member
  rcases member with rfl | ⟨action, -, rfl⟩ | ⟨subject, inside, rfl⟩ | ⟨terminal, -, rfl⟩
  · have sameStart : text "t" = text "v" := congrArg (List.take 1) same
    exact absurd sameStart (by decide)
  · change actionNodeKey (actionNodeKind locale action) action.conversationId = _ at same
    generalize actionNodeKind locale action = kind at same
    have sameStart : (actionNodeKey kind action.conversationId).take 6 = text "vuln:e" :=
      congrArg (List.take 6) same
    have start : (actionNodeKey kind action.conversationId).take 6 =
        (kind.name ++ text ":action-").take 6 := by
      cases kind <;> rfl
    rw [start] at sameStart
    cases kind <;> exact absurd sameStart (by decide)
  · exact ⟨subject, inside, rfl⟩
  · change terminalNodeKey terminal.claim = _ at same
    have sameStart : (terminalNodeKey terminal.claim).take 1 = text "v" :=
      congrArg (List.take 1) same
    generalize terminal.claim = claim at sameStart
    cases claim <;> exact absurd sameStart (by decide)

/-! ### The frames of a projection -/

/-- No node shows a subject as rated. -/
def NoneRated (graph : SecGraph) : Prop :=
  ∀ node ∈ graph.nodes, ∀ subjectId, node.Shows subjectId → unrated ∈ node.tags

/-- The copy shows every subject that the graph shows, under the same id. -/
def Carries (copy graph : SecGraph) : Prop :=
  ∀ node ∈ graph.nodes, ∀ subjectId, node.Shows subjectId →
    ∃ shown, Upsert.lookup SecGraphNode.id node.id copy.nodes = some shown ∧ shown.Shows subjectId

/-- Nodes with one id show the same subject. -/
def Coherent (graph : SecGraph) : Prop :=
  ∀ node ∈ graph.nodes, ∀ other ∈ graph.nodes, other.id = node.id →
    ∀ subjectId, node.Shows subjectId → other.Shows subjectId

theorem noneRated_project (unread : input.findings = none) :
    NoneRated (projectSecGraph locale input) := by
  intro node member subjectId shows
  obtain ⟨subject, -, -, rfl⟩ := (shows_iff unread member subjectId).mp shows
  have unfound : findingOf input subject.subjectId = none := by
    unfold findingOf
    rw [unread]
    rfl
  simp [evidenceNode, unfound]

theorem coherent_project (unread : input.findings = none)
    (apart : ∀ subject ∈ input.evidence, ∀ other ∈ input.evidence,
      evidenceNodeKey subject.subjectId = evidenceNodeKey other.subjectId →
        subject.subjectId = other.subjectId) :
    Coherent (projectSecGraph locale input) := by
  intro node member other otherMember same subjectId shows
  obtain ⟨subject, inside, is, rfl⟩ := (shows_iff unread member subjectId).mp shows
  obtain ⟨otherSubject, otherInside, rfl⟩ := evidence_of_id unread otherMember same
  refine (shows_evidence unread otherSubject subjectId).mpr ?_
  rw [← is]
  exact apart otherSubject otherInside subject inside same

variable {graph : SecGraph}

theorem Coherent.carries (coherent : Coherent graph) : Carries graph graph := by
  intro node member subjectId shows
  have found : (Upsert.lookup SecGraphNode.id node.id graph.nodes).isSome = true :=
    Upsert.lookup_isSome.mpr (mem_map_of_mem member)
  obtain ⟨shown, isShown⟩ := Option.isSome_iff_exists.mp found
  exact ⟨shown, isShown, coherent node member shown (Upsert.mem_of_lookup isShown)
    (Upsert.key_of_lookup isShown) subjectId shows⟩

theorem noneRated_frames {screen : Screen} {previous : Option SecGraph} {next : SecGraph}
    (before : NoneRated screen.graph) (after : NoneRated next) (run : SecRunState) (now : Nat) :
    NoneRated (screen.fold (graphFrames previous next run now)).graph := by
  unfold graphFrames
  split
  · exact after
  · split
    · exact after
    · rw [fold_itemized]
      intro node member
      rcases Upsert.mem_upsertAll member with changed | kept
      · exact after node (mem_of_mem_filter changed)
      · exact before node kept

/-- **A change carries what it changes, and the screen carries the rest.** -/
theorem carries_frames {screen : Screen} {previous : Option SecGraph} {next : SecGraph}
    (before : ∀ graph, previous = some graph → Carries screen.graph graph)
    (coherent : Coherent next) (run : SecRunState) (now : Nat) :
    Carries (screen.fold (graphFrames previous next run now)).graph next := by
  unfold graphFrames
  split
  · exact coherent.carries
  · rename_i graph
    split
    · exact coherent.carries
    · rw [fold_itemized]
      intro node member subjectId shows
      rw [Upsert.lookup_upsertAll]
      cases found : Upsert.last SecGraphNode.id node.id
          (Upsert.changes SecGraphNode.id graph.nodes next.nodes) with
      | some shown =>
        have inside := mem_of_mem_filter (Upsert.mem_of_last found)
        exact ⟨shown, rfl, coherent node member shown inside (Upsert.key_of_last found) subjectId
          shows⟩
      | none =>
        -- No item of this id changed, so the node is the last of its id in the graph before.
        have unchanged : Upsert.last SecGraphNode.id node.id graph.nodes = some node := by
          by_contra differs
          have isChange : node ∈ Upsert.changes SecGraphNode.id graph.nodes next.nodes :=
            List.mem_filter.mpr ⟨member, by simpa using differs⟩
          have isSome := Upsert.last_isSome.mpr (mem_map_of_mem (f := SecGraphNode.id) isChange)
          rw [found] at isSome
          cases isSome
        exact before graph rfl node (Upsert.mem_of_last unchanged) subjectId shows

variable {source : HostProjection}

variable {event : ServerEvent} {c : ClientId}

namespace SecServerRuntime

variable {s after : SecServerRuntime}

/-! ### Steps other than a refresh -/

/-- The graph stays, and a client shows what it showed, or the graph. -/
structure Resent (s after : SecServerRuntime) : Prop where
  graph : after.graph = s.graph
  screens : ∀ c ∈ after.clients,
    (c ∈ s.clients ∧ (after.screen c).graph = (s.screen c).graph) ∨
      s.graph.graph = some (after.screen c).graph

theorem Resent.of_sends (graph : after.graph = s.graph) {frames : ClientId → List SecServerFrame}
    (sends : Sends s after frames)
    (kept : ∀ c screen, (Screen.fold screen (frames c)).graph = screen.graph) : Resent s after := by
  refine ⟨graph, fun c connected => .inl ⟨sends.clients c connected, ?_⟩⟩
  rw [screen_of_sent (sends.sent c connected)]
  exact kept c _

theorem Resent.of_eq (graph : after.graph = s.graph) (clients : ∀ c ∈ after.clients, c ∈ s.clients)
    (sent : after.sent = s.sent) : Resent s after :=
  .of_sends graph (sends_nothing clients sent) fun _ _ => rfl

theorem resent_send (c : ClientId) {frame : SecServerFrame} (said : frame.Said) :
    Resent s (s.send c frame) := by
  refine .of_sends (by rw [send_eq]) (sends_send c frame) fun c' screen => ?_
  split
  · rw [fold_said screen fun frame' member => List.mem_singleton.mp member ▸ said]
  · rfl

theorem resent_broadcastAll (frames : List SecServerFrame)
    (said : ∀ frame ∈ frames, frame.Said) : Resent s (s.broadcastAll frames) :=
  .of_sends (by rw [broadcastAll_eq]) (sends_broadcastAll frames) fun _ screen => by
    rw [fold_said screen said]

theorem graph_asks (screen : Screen) (pending : List SecAskPayload) (now : Nat) :
    (screen.fold (pending.map fun pending => askFrame pending now)).graph = screen.graph := by
  induction pending generalizing screen with
  | nil => rfl
  | cons ask rest ih => exact ih (screen.handleFrame (askFrame ask now))

theorem screen_sendSnapshot (current : s.graph.graph = some graph) (connected : c ∈ s.clients)
    (now : Nat) : ((s.sendSnapshot c now).screen c).graph = graph := by
  unfold sendSnapshot
  rw [current]
  dsimp only
  rw [screen_of_sent (sendAll_sent connected _)]
  exact graph_asks ((s.screen c).handleFrame (snapshotFrame graph s.run now)) _ now

theorem screen_sendSnapshot_other {c' : ClientId} (other : c' ≠ c) (now : Nat) :
    (s.sendSnapshot c now).screen c' = s.screen c' := by
  unfold sendSnapshot
  split
  · rfl
  · unfold screen
    rw [sendAll_other other]

/-- **A step other than a refresh.** -/
theorem resent_step (stepped : s.step locale event = some after)
    (other : ∀ source now, event ≠ .read source now) : Resent s after := by
  cases event with
  | ask request now =>
    cases stepped
    unfold ask
    dsimp only
    split
    · exact .of_sends rfl ⟨fun c member => member, fun c connected => if_pos connected⟩ fun _ _ => rfl
    · exact .of_eq rfl (fun c member => member) rfl
  | denyAll | closeQueue =>
    cases stepped
    exact .of_eq rfl (fun c member => member) rfl
  | connect now =>
    obtain ⟨listening, rfl⟩ := of_refusal stepped
    obtain ⟨graph, current⟩ : ∃ graph, s.graph.graph = some graph :=
      Option.ne_none_iff_exists'.mp fun unread =>
        listening (.inr (Option.isNone_iff_eq_none.mpr unread))
    unfold connect
    dsimp only
    refine ⟨by rw [sendSnapshot_eq], fun c connected => ?_⟩
    rw [sendSnapshot_eq] at connected
    have member : c ∈ s.clients ++ [s.clientCount] := connected
    by_cases same : c = s.clientCount
    · right
      rw [same, screen_sendSnapshot (s := { s with
        clientCount := s.clientCount + 1, clients := s.clients ++ [s.clientCount] }) current
        (mem_append_right _ (mem_singleton_self _))]
      exact current
    · left
      rw [screen_sendSnapshot_other same]
      exact ⟨(List.mem_append.mp member).resolve_right fun new =>
        same (List.mem_singleton.mp new), rfl⟩
  | disconnect c =>
    cases stepped
    exact .of_eq rfl (fun c' member => (List.mem_filter.mp member).1) rfl
  | askReply c id reply now =>
    obtain ⟨-, rfl⟩ := of_guard stepped
    unfold handleAskReply
    split
    · exact resent_send c (by exact trivial)
    · rename_i entry found
      have told := resent_broadcastAll
        (s := { s with approvals := s.approvals.reply id entry reply })
        [logFrame .info (text "guard ask " ++ id ++ text ": " ++ reply.name) now]
        fun frame member => by
          cases List.mem_singleton.mp member
          exact trivial
      exact ⟨told.graph, told.screens⟩
  | malformedReply c now | malformedSteer c now | steerFailed c message now | ping c now =>
    cases stepped
    exact resent_send c (by exact trivial)
  | refreshFrame c | timer =>
    obtain ⟨-, rfl⟩ := of_guard stepped
    rw [refresh_eq]
    exact .of_eq rfl (fun c member => member) rfl
  | refreshedFrame c now =>
    obtain ⟨-, rfl⟩ := of_guard stepped
    refine ⟨by rw [sendSnapshot_eq], fun c' connected => ?_⟩
    rw [sendSnapshot_eq] at connected
    have member : c' ∈ s.clients := connected
    cases current : s.graph.graph with
    | none =>
      left
      refine ⟨member, ?_⟩
      unfold sendSnapshot
      dsimp only
      rw [current]
      rfl
    | some graph =>
      by_cases same : c' = c
      · right
        rw [← same, screen_sendSnapshot (s := { s with awaiting := s.awaiting.erase c' }) current
          member]
      · left
        rw [screen_sendSnapshot_other same]
        exact ⟨member, rfl⟩
  | publish events now =>
    cases stepped
    rw [scheduleRefresh_eq]
    have noted := resent_broadcastAll (s := { s with run := (s.run.apply events now).1 })
      (s.run.apply events now).2 (said_apply s.run events now)
    exact ⟨noted.graph, noted.screens⟩
  | read source now => exact (other source now rfl).elim
  | readFailed =>
    obtain ⟨-, is⟩ := Option.ite_none_right_eq_some.mp stepped
    split at is <;> cases is
    · exact .of_eq (by rw [refreshed_eq]; rfl) (fun c member => by cases member)
        (by rw [refreshed_eq]; rfl)
    · rw [refreshed_eq]
      exact .of_eq rfl (fun c member => member) rfl
  | shutdown =>
    cases stepped
    exact .of_eq rfl (fun c member => by cases member) rfl

/-! ### Every run -/

/-- No graph shows a subject as rated. -/
structure Bare (s : SecServerRuntime) : Prop where
  graph : ∀ graph, s.graph.graph = some graph → NoneRated graph
  screens : ∀ c ∈ s.clients, NoneRated (s.screen c).graph

/-- Every client carries the graph. -/
structure Carried (s : SecServerRuntime) : Prop where
  coherent : ∀ graph, s.graph.graph = some graph → Coherent graph
  screens : ∀ graph, s.graph.graph = some graph → ∀ c ∈ s.clients, Carries (s.screen c).graph graph

theorem screen_read {now : Nat} (connected : c ∈ (s.read locale source now).clients) :
    c ∈ s.clients ∧
      (s.read locale source now).screen c = (s.screen c).fold (graphFrames s.graph.graph
        (projectSecGraph locale (s.projectionInput source now)) s.run now) := by
  rw [read_eq] at connected
  have before : c ∈ s.clients := connected
  exact ⟨before, screen_of_sent (read_sent locale before source now)⟩

theorem graph_read {now : Nat} :
    (s.read locale source now).graph.graph =
      some (projectSecGraph locale (s.projectionInput source now)) := by
  rw [read_eq]
  rfl

theorem bare_read (bare : Bare s) (source : HostProjection) (now : Nat) :
    Bare (s.read locale source now) := by
  have next : NoneRated (projectSecGraph locale (s.projectionInput source now)) :=
    noneRated_project rfl
  constructor
  · intro graph is
    rw [graph_read] at is
    cases is
    exact next
  · intro c connected
    obtain ⟨before, isScreen⟩ := screen_read connected
    rw [isScreen]
    exact noneRated_frames (bare.screens c before) next s.run now

theorem carried_read (carried : Carried s) (apart : source.Apart) (now : Nat) :
    Carried (s.read locale source now) := by
  have next : Coherent (projectSecGraph locale (s.projectionInput source now)) :=
    coherent_project rfl apart
  constructor
  · intro graph is
    rw [graph_read] at is
    cases is
    exact next
  · intro graph is c connected
    rw [graph_read] at is
    cases is
    obtain ⟨before, isScreen⟩ := screen_read connected
    rw [isScreen]
    exact carries_frames (fun graph is => carried.screens graph is c before) next s.run now

theorem Resent.bare (resent : Resent s after) (bare : Bare s) : Bare after := by
  constructor
  · intro graph is
    rw [resent.graph] at is
    exact bare.graph graph is
  · intro c connected
    rcases resent.screens c connected with ⟨before, same⟩ | current
    · rw [same]
      exact bare.screens c before
    · exact bare.graph _ current

theorem Resent.carried (resent : Resent s after) (carried : Carried s) : Carried after := by
  constructor
  · intro graph is
    rw [resent.graph] at is
    exact carried.coherent graph is
  · intro graph is c connected
    rw [resent.graph] at is
    rcases resent.screens c connected with ⟨before, same⟩ | current
    · rw [same]
      exact carried.screens graph is c before
    · rw [is] at current
      cases current
      exact (carried.coherent _ is).carries

theorem bare_step (bare : Bare s) (stepped : s.step locale event = some after) : Bare after := by
  by_cases isRead : ∃ source now, event = .read source now
  · obtain ⟨source, now, rfl⟩ := isRead
    obtain ⟨-, rfl⟩ := of_guard stepped
    exact bare_read bare source now
  · exact (resent_step stepped fun source now is => isRead ⟨source, now, is⟩).bare bare

/-- What a step reads has its evidence subjects apart. -/
def ApartEvent : ServerEvent → Prop
  | .read source _ => source.Apart
  | _ => True

theorem carried_step (carried : Carried s) (apart : ApartEvent event)
    (stepped : s.step locale event = some after) : Carried after := by
  by_cases isRead : ∃ source now, event = .read source now
  · obtain ⟨source, now, rfl⟩ := isRead
    obtain ⟨-, rfl⟩ := of_guard stepped
    exact carried_read carried apart now
  · exact (resent_step stepped fun source now is => isRead ⟨source, now, is⟩).carried carried

theorem bare_run (bare : Bare s) {events : List ServerEvent}
    (ran : s.runEvents locale events = some after) : Bare after := by
  induction events generalizing s with
  | nil =>
    cases ran
    exact bare
  | cons event rest ih =>
    obtain ⟨next, stepped, goesOn⟩ := Option.bind_eq_some_iff.mp ran
    exact ih (bare_step bare stepped) goesOn

theorem carried_run (carried : Carried s) {events : List ServerEvent}
    (apart : ∀ event ∈ events, ApartEvent event)
    (ran : s.runEvents locale events = some after) : Carried after := by
  induction events generalizing s with
  | nil =>
    cases ran
    exact carried
  | cons event rest ih =>
    obtain ⟨next, stepped, goesOn⟩ := Option.bind_eq_some_iff.mp ran
    exact ih (carried_step carried (apart event mem_cons_self) stepped)
      (fun event member => apart event (mem_cons_of_mem _ member)) goesOn

/-- A graph that rates nothing shows no finding. -/
theorem not_findingsShown (none : NoneRated graph) (shown : FindingsShown graph source) :
    source.findings = [] := by
  refine List.eq_nil_iff_forall_not_mem.mpr fun finding member => ?_
  obtain ⟨-, node, inside, shows, -, -⟩ := shown.rated finding member
  exact (shown.unrated finding.subjectId (.inr ⟨finding, member, rfl⟩)).mp
    ⟨node, inside, shows, none node inside _ shows⟩ ⟨finding, member, rfl⟩

/-- Where the host reads no finding, a client that carries the graph shows every subject. -/
theorem findingsShown_unrated {copy : SecGraph} {now : Nat} (none : NoneRated copy)
    (carries : Carries copy (projectSecGraph locale (s.projectionInput source now)))
    (unfound : source.findings = []) : FindingsShown copy source := by
  refine ⟨fun finding member => ?_, fun subjectId some => ?_⟩
  · rw [unfound] at member
    cases member
  · refine iff_of_true ?_ ?_
    · rcases some with ⟨subject, inside, rfl⟩ | ⟨finding, member, -⟩
      · have shows : (evidenceNode (s.projectionInput source now) subject).Shows
            subject.subjectId := (shows_evidence rfl subject subject.subjectId).mpr rfl
        have isNode : evidenceNode (s.projectionInput source now) subject ∈
            (projectSecGraph locale (s.projectionInput source now)).nodes :=
          mem_nodes.mpr (.inr (.inr (.inl ⟨subject, inside, rfl⟩)))
        obtain ⟨shown, found, showsHere⟩ := carries _ isNode _ shows
        have member := Upsert.mem_of_lookup found
        exact ⟨shown, member, showsHere, none shown member _ showsHere⟩
      · rw [unfound] at member
        cases member
    · rintro ⟨finding, member, -⟩
      rw [unfound] at member
      cases member

theorem start_bare (project target : Text) (conversationId : Nat) (run : Bool) (inbox : Nat) :
    Bare (start project target conversationId run inbox) ∧
      Carried (start project target conversationId run inbox) := by
  have unread : ∀ graph, (start project target conversationId run inbox).graph.graph ≠
      some graph := by
    intro graph is
    cases is
  exact ⟨⟨fun graph is => (unread graph is).elim, fun c member => by cases member⟩,
    ⟨fun graph is => (unread graph is).elim, fun graph is => (unread graph is).elim⟩⟩

/-- **Registered findings reach no screen**: after a refresh, a client shows what the host read of
findings only if the host read none; and then it does, where no two evidence subjects of one
projection share a node key. -/
theorem findings_shown_iff (project target : Text) (conversationId : Nat) (run : Bool)
    (inbox : Nat) {events : List ServerEvent}
    (ran : (start project target conversationId run inbox).runEvents locale events = some s)
    {source : HostProjection} {now : Nat}
    (refreshed : s.step locale (.read source now) = some after) {c : ClientId}
    (connected : c ∈ after.clients) :
    (FindingsShown (after.screen c).graph source → source.findings = []) ∧
      ((∀ event ∈ events, ApartEvent event) → source.Apart → source.findings = [] →
        FindingsShown (after.screen c).graph source) := by
  obtain ⟨bareStart, carriedStart⟩ := start_bare project target conversationId run inbox
  have bare : Bare after := bare_step (bare_run bareStart ran) refreshed
  refine ⟨not_findingsShown (bare.screens c connected), fun apart sourceApart unfound => ?_⟩
  have lastApart : ApartEvent (.read source now) := sourceApart
  have carried : Carried after :=
    carried_step (carried_run carriedStart apart ran) lastApart refreshed
  obtain ⟨-, rfl⟩ := of_guard refreshed
  exact findingsShown_unrated (bare.screens c connected)
    (carried.screens _ graph_read c connected) unfound

/-! ### A finding is registered -/

def provenSubject : SecProjectionEvidenceSubject := ⟨text "finding-1", 0, []⟩

def highFinding : SecProjectionFinding where
  findingId := text "finding-1"
  lane := text "injection"
  title := text "SQL injection"
  severity := .high
  status := .verified
  subjectId := text "finding-1"
  createdAt := 900
  updatedAt := 900
  retestSnapshotId := []

/-- What the host reads of a campaign with one subject. -/
def findingSource (findings : List SecProjectionFinding) : HostProjection where
  actions := []
  evidence := [provenSubject]
  findings
  plan := none
  terminals := none

/-- A client connects, and the session goes on. -/
def watchedEvents : List ServerEvent :=
  [.read (findingSource []) 1000, .connect 1001, .publish [.turnStart] 1002, .timer]

/-- The server after that. -/
def watched : SecServerRuntime :=
  let shown := ((start (text "demo") (text "https://demo.local") 1 false 0).read asciiLocale
    (findingSource []) 1000).connect 1001
  let applied := shown.run.apply [.turnStart] 1002
  let told := ({ shown with run := applied.1 }.broadcastAll applied.2).scheduleRefresh
  { told with scheduled := false }.refresh

theorem watched_run : (start (text "demo") (text "https://demo.local") 1 false 0).runEvents
    asciiLocale watchedEvents = some watched := rfl

theorem findings_shown_none : ∃ s after,
    (start (text "demo") (text "https://demo.local") 1 false 0).runEvents asciiLocale
      watchedEvents = some s ∧
    s.step asciiLocale (.read (findingSource []) 1003) = some after ∧ 0 ∈ after.clients ∧
    FindingsShown (after.screen 0).graph (findingSource []) := by
  have apart : (findingSource []).Apart := by
    intro subject member other otherMember _
    rw [List.mem_singleton.mp member, List.mem_singleton.mp otherMember]
  have events : ∀ event ∈ watchedEvents, ApartEvent event := by
    simp [watchedEvents, ApartEvent, apart]
  have connected : 0 ∈ (watched.read asciiLocale (findingSource []) 1003).clients := by
    decide +kernel
  exact ⟨watched, _, rfl, rfl, connected, (findings_shown_iff (text "demo")
    (text "https://demo.local") 1 false 0 watched_run rfl connected).2 events apart rfl⟩

/-- **The finding is not shown**: the input of the projection has no place for it. -/
theorem not_findings_shown : ∃ s after,
    (start (text "demo") (text "https://demo.local") 1 false 0).runEvents asciiLocale
      watchedEvents = some s ∧
    s.step asciiLocale (.read (findingSource [highFinding]) 1003) = some after ∧
    0 ∈ after.clients ∧ ¬ FindingsShown (after.screen 0).graph (findingSource [highFinding]) := by
  have connected : 0 ∈ (watched.read asciiLocale (findingSource [highFinding]) 1003).clients := by
    decide +kernel
  refine ⟨watched, _, rfl, rfl, connected, fun shown => ?_⟩
  obtain ⟨bareStart, -⟩ := start_bare (text "demo") (text "https://demo.local") 1 false 0
  have bare : Bare (watched.read asciiLocale (findingSource [highFinding]) 1003) :=
    bare_read (bare_run bareStart watched_run) (findingSource [highFinding]) 1003
  cases not_findingsShown (bare.screens 0 connected) shown

end SecServerRuntime

end TianGong.SecServer
