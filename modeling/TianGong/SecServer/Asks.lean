/-
**Every pending ask is on every screen.**

* `asksShown_step`, `meets_of_asksShown`: a step keeps that exactly if it meets the condition.
* `asks_iff`: all along a run, every ask is shown and settled once exactly if every step meets it.
* `not_asks_revised`: a plan that is revised while an ask is pending takes it from the screens.

The snapshot of a new client, or of a `refresh` frame, is followed by every pending ask. That of a
refresh is not.
-/

import TianGong.Lib.Returns
import TianGong.SecServer.Server

namespace TianGong.SecServer

open List Option
open Returns

variable {locale : Locale}

/-! ### The asks of a screen -/

/-- A frame that leaves the asks alone. -/
def SecServerFrame.AsksAside (frame : SecServerFrame) : Prop :=
  match frame.body with
  | .snapshot _ _ _ | .ask _ => False
  | _ => True

theorem asks_aside (screen : Screen) {frames : List SecServerFrame}
    (aside : ∀ frame ∈ frames, frame.AsksAside) : (screen.fold frames).asks = screen.asks := by
  induction frames generalizing screen with
  | nil => rfl
  | cons frame rest ih =>
    have here := aside frame mem_cons_self
    have head : (screen.handleFrame frame).asks = screen.asks := by
      obtain ⟨ts, body⟩ := frame
      cases body <;> first | rfl | exact here.elim
    exact (ih _ fun frame member => aside frame (mem_cons_of_mem _ member)).trans head

theorem aside_itemized (previous next : SecGraph) (now : Nat) :
    ∀ frame ∈ itemized previous next now, frame.AsksAside := by
  intro frame member
  simp only [itemized, diffItems, mem_append, List.mem_map] at member
  rcases member with (((⟨_, _, rfl⟩ | ⟨_, _, rfl⟩) | ⟨_, _, rfl⟩) | ⟨_, _, rfl⟩) | member
  · trivial
  · trivial
  · trivial
  · trivial
  · split at member
    · cases member
    · cases List.mem_singleton.mp member
      trivial

theorem SecServerFrame.Said.asksAside {frame : SecServerFrame} (said : frame.Said) :
    frame.AsksAside := by
  obtain ⟨ts, body⟩ := frame
  cases body <;> trivial

/-- The asks of a screen that was sent asks, each with an id of its own. -/
theorem fold_asks (screen : Screen) {entries : List (Text × ApprovalEntry)} (now : Nat)
    (nodup : (Assoc.keys entries).Nodup) (named : ∀ e ∈ entries, e.2.pending.id = e.1)
    (k : Text) :
    Assoc.get k (screen.fold (entries.map fun e =>
      SecServerRuntime.askFrame e.2.pending now)).asks =
        ((Assoc.get k entries).map ApprovalEntry.pending).or (Assoc.get k screen.asks) := by
  induction entries generalizing screen with
  | nil => rfl
  | cons e rest ih =>
    obtain ⟨key, entry⟩ := e
    rw [Assoc.keys_cons, nodup_cons] at nodup
    have isKey : entry.pending.id = key := named (key, entry) mem_cons_self
    have later := ih (screen.handleFrame (SecServerRuntime.askFrame entry.pending now)) nodup.2
      fun e member => named e (mem_cons_of_mem _ member)
    have head : (screen.handleFrame (SecServerRuntime.askFrame entry.pending now)).asks =
        Assoc.set key entry.pending screen.asks := by
      rw [← isKey]
      rfl
    rw [head, Assoc.get_set] at later
    show Assoc.get k ((screen.handleFrame (SecServerRuntime.askFrame entry.pending now)).fold
      (rest.map fun e => SecServerRuntime.askFrame e.2.pending now)).asks = _
    rw [later]
    by_cases same : key = k
    · subst same
      rw [Assoc.get_eq_none_iff.mpr nodup.1, Assoc.get_cons_self, if_pos rfl]
      rfl
    · rw [Assoc.get_cons_ne same, if_neg same]

variable {event : ServerEvent}

namespace SecServerRuntime

variable {s after : SecServerRuntime}

/-- **Every client shows every ask that is pending.** -/
def AsksShown (s : SecServerRuntime) : Prop :=
  ∀ c ∈ s.clients, ∀ e ∈ s.approvals.entries, Assoc.get e.1 (s.screen c).asks = some e.2.pending

/-- What a server keeps besides. -/
structure Serving (s : SecServerRuntime) : Prop where
  keyed : s.approvals.Keyed
  attached : s.subscribed = true ∨ s.closed = true ∧ s.clients = []
  clientBound : ∀ c ∈ s.clients, c < s.clientCount

/-- The next projection is sent as a snapshot. -/
def Snaps (locale : Locale) (s : SecServerRuntime) (source : HostProjection) (now : Nat) : Prop :=
  ∀ graph, s.graph.graph = some graph →
    loses graph (projectSecGraph locale (s.projectionInput source now)) = true

/-- **The condition.** A refresh sends no snapshot to a client while an ask is pending. -/
def Meets (locale : Locale) (s : SecServerRuntime) : ServerEvent → Prop
  | .read source now => s.Snaps locale source now → s.clients = [] ∨ s.approvals.entries = []
  | _ => True

def RunMeets (locale : Locale) (s : SecServerRuntime) : List ServerEvent → Prop
  | [] => True
  | event :: rest =>
    s.Meets locale event ∧ ∀ next, s.step locale event = some next → next.RunMeets locale rest

/-! ### One step -/

theorem AsksShown.of_sends (shown : s.AsksShown) {frames : ClientId → List SecServerFrame}
    (sends : Sends s after frames) (entries : ∀ e ∈ after.approvals.entries, e ∈ s.approvals.entries)
    (aside : ∀ c, ∀ frame ∈ frames c, frame.AsksAside) : after.AsksShown := by
  intro c connected e member
  rw [screen_of_sent (sends.sent c connected), asks_aside _ (aside c)]
  exact shown c (sends.clients c connected) e (entries e member)

theorem AsksShown.send (shown : s.AsksShown) (c : ClientId) {frame : SecServerFrame}
    (aside : frame.AsksAside) : (s.send c frame).AsksShown := by
  refine shown.of_sends (sends_send c frame) (fun e member => ?_) fun c' frame' member => ?_
  · rwa [send_eq] at member
  · split at member
    · cases List.mem_singleton.mp member
      exact aside
    · cases member

theorem AsksShown.broadcastAll (shown : s.AsksShown) (frames : List SecServerFrame)
    (aside : ∀ frame ∈ frames, frame.AsksAside) : (s.broadcastAll frames).AsksShown := by
  refine shown.of_sends (sends_broadcastAll frames) (fun e member => ?_) fun _ => aside
  rwa [broadcastAll_eq] at member

/-- A snapshot, with every pending ask after it. -/
theorem asksShown_sendSnapshot (keyed : s.approvals.Keyed) {c : ClientId}
    (shown : ∀ c' ∈ s.clients, c' ≠ c → ∀ e ∈ s.approvals.entries,
      Assoc.get e.1 (s.screen c').asks = some e.2.pending)
    (ready : s.graph.graph = none → s.AsksShown) (now : Nat) :
    (s.sendSnapshot c now).AsksShown := by
  intro c' connected' e member'
  rw [sendSnapshot_eq] at connected' member'
  have connected : c' ∈ s.clients := connected'
  have member : e ∈ s.approvals.entries := member'
  clear connected' member'
  unfold sendSnapshot
  split
  · rename_i unread
    exact ready unread c' connected e member
  · rename_i graph _
    by_cases same : c' = c
    · subst same
      rw [screen_of_sent (sendAll_sent connected _)]
      have found : Assoc.get e.1 s.approvals.entries = some e.2 :=
        Assoc.get_of_mem keyed.nodup member
      have asks := fold_asks ((s.screen c').handleFrame (snapshotFrame graph s.run now)) now
        keyed.nodup (fun e member => (keyed.named e member).1) e.1
      rw [found] at asks
      unfold SecApprovalQueue.pending
      rw [List.map_map]
      exact asks
    · have sent := sendAll_other same (snapshotFrame graph s.run now ::
        s.approvals.pending.map fun pending => askFrame pending now) (s := s)
      unfold screen
      rw [sent]
      exact shown c' connected same e member

theorem asksShown_ask (serving : Serving s) (shown : s.AsksShown) (request : SecApprovalRequest)
    (now : Nat) : (s.ask request now).AsksShown := by
  have absent := SecApprovalQueue.fresh serving.keyed request
  have parkedShown : ∀ c ∈ s.clients, s.approvals.closed = false →
      ∀ e ∈ (s.approvals.ask request).entries,
        Assoc.get e.1 ((s.screen c).handleFrame
          (askFrame (s.approvals.parked request) now)).asks = some e.2.pending := by
    intro c connected opened e member
    show Assoc.get e.1 (Assoc.set (s.approvals.parked request).id (s.approvals.parked request)
      (s.screen c).asks) = _
    unfold SecApprovalQueue.ask at member
    rw [if_neg (by simp [opened])] at member
    dsimp only at member
    rw [SecApprovalQueue.set_fresh absent] at member
    rw [Assoc.get_set]
    rcases List.mem_append.mp member with before | new
    · rw [if_neg]
      · exact shown c connected e before
      · intro same
        exact absent (List.mem_map.mpr ⟨e, before, same.symm⟩)
    · cases List.mem_singleton.mp new
      rw [if_pos rfl]
  unfold ask
  dsimp only
  split
  · rename_i notified
    obtain ⟨-, opened⟩ := Bool.and_eq_true_iff.mp notified
    intro c connected e member
    have sent : ({ s with approvals := s.approvals.ask request }.broadcast
        (askFrame (s.approvals.parked request) now)).sent c =
          s.sent c ++ [askFrame (s.approvals.parked request) now] := if_pos connected
    rw [screen_of_sent sent]
    exact parkedShown c connected (by simpa using opened) e member
  · rename_i silent
    intro c connected e member
    rcases serving.attached with subscribed | ⟨-, alone⟩
    · have isClosed : s.approvals.closed = true := by simpa [subscribed] using silent
      have same : (s.approvals.ask request).entries = s.approvals.entries := by
        unfold SecApprovalQueue.ask
        rw [if_pos isClosed]
      rw [same] at member
      exact shown c connected e member
    · have member' : c ∈ s.clients := connected
      rw [alone] at member'
      cases member'

theorem asksShown_read (shown : s.AsksShown) {source : HostProjection} {now : Nat}
    (meets : s.Meets locale (.read source now)) : (s.read locale source now).AsksShown := by
  unfold read
  dsimp only
  generalize isFrames : (s.graph.update locale s.run (s.projectionInput source now)).2 = frames
  generalize (s.graph.update locale s.run (s.projectionInput source now)).1 = graph
  have marked : ({ s with graph }.broadcastAll frames).AsksShown := by
    rcases Classical.em (s.Snaps locale source now) with snaps | plain
    · intro c connected e member
      rw [broadcastAll_eq] at connected member
      rcases meets snaps with alone | settled
      · have connected' : c ∈ s.clients := connected
        rw [alone] at connected'
        cases connected'
      · have member' : e ∈ s.approvals.entries := member
        rw [settled] at member'
        cases member'
    · refine AsksShown.broadcastAll (s := { s with graph }) shown frames ?_
      unfold Snaps at plain
      push Not at plain
      obtain ⟨previous, isPrevious, keeps⟩ := plain
      rw [← isFrames]
      show ∀ frame ∈ graphFrames s.graph.graph _ s.run _, frame.AsksAside
      rw [isPrevious]
      unfold graphFrames
      dsimp only
      rw [if_neg keeps]
      exact aside_itemized _ _ _
  rw [refreshed_eq]
  exact marked

/-- **A snapshot of a refresh takes the pending asks from the screens.** -/
theorem meets_of_asksShown {source : HostProjection} {now : Nat}
    (shown : (s.read locale source now).AsksShown) : s.Meets locale (.read source now) := by
  intro snaps
  by_contra both
  push Not at both
  obtain ⟨clients, entries⟩ := both
  obtain ⟨c, connected⟩ := exists_mem_of_ne_nil _ clients
  obtain ⟨e, member⟩ := exists_mem_of_ne_nil _ entries
  have frames : (s.graph.update locale s.run (s.projectionInput source now)).2 =
      [snapshotFrame (projectSecGraph locale (s.projectionInput source now)) s.run now] := by
    show graphFrames s.graph.graph _ s.run _ = _
    unfold graphFrames
    split
    · rfl
    · rename_i previous isPrevious
      exact if_pos (snaps previous isPrevious)
  have cleared := shown c (by rw [read_eq]; exact connected) e (by rw [read_eq]; exact member)
  rw [screen_of_sent (read_sent locale connected source now), frames] at cleared
  cases cleared

theorem serving_eq (serving : Serving s) (approvals : after.approvals = s.approvals)
    (subscribed : after.subscribed = s.subscribed) (closed : after.closed = s.closed)
    (clients : after.clients = s.clients) (clientCount : after.clientCount = s.clientCount) :
    Serving after := by
  obtain ⟨keyed, attached, clientBound⟩ := serving
  constructor
  · rw [approvals]
    exact keyed
  · rw [subscribed, closed, clients]
    exact attached
  · rw [clients, clientCount]
    exact clientBound

theorem serving_send (serving : Serving s) (c : ClientId) (frame : SecServerFrame) :
    Serving (s.send c frame) := by
  rw [send_eq]
  exact serving_eq serving rfl rfl rfl rfl rfl

theorem serving_shutdown (serving : Serving s) : Serving s.shutdown where
  keyed := SecApprovalQueue.keyed_denyAll serving.keyed
  attached := .inr ⟨rfl, rfl⟩
  clientBound _ member := by cases member

/-- **A step keeps what a server keeps.** -/
theorem serving_step (serving : Serving s) (stepped : s.step locale event = some after) :
    Serving after := by
  cases event with
  | ask request now =>
    cases stepped
    have asked : Serving { s with approvals := s.approvals.ask request } :=
      ⟨SecApprovalQueue.keyed_ask serving.keyed request, serving.attached, serving.clientBound⟩
    unfold ask
    dsimp only
    split
    · exact serving_eq asked rfl rfl rfl rfl rfl
    · exact asked
  | denyAll =>
    cases stepped
    exact ⟨SecApprovalQueue.keyed_denyAll serving.keyed, serving.attached, serving.clientBound⟩
  | closeQueue =>
    cases stepped
    exact ⟨SecApprovalQueue.keyed_close serving.keyed, serving.attached, serving.clientBound⟩
  | connect now =>
    obtain ⟨listening, rfl⟩ := of_refusal stepped
    unfold connect
    dsimp only
    rw [sendSnapshot_eq]
    refine ⟨serving.keyed, ?_, fun c member => ?_⟩
    · refine .inl (serving.attached.resolve_right fun detached => listening (.inl detached.1))
    · rcases List.mem_append.mp member with before | new
      · exact Nat.lt_succ_of_lt (serving.clientBound c before)
      · cases List.mem_singleton.mp new
        exact Nat.lt_succ_self _
  | disconnect c =>
    cases stepped
    refine ⟨serving.keyed, serving.attached.imp_right fun detached => ⟨detached.1, ?_⟩,
      fun c' member => serving.clientBound c' (List.mem_filter.mp member).1⟩
    show s.clients.filter _ = []
    rw [detached.2]
    rfl
  | askReply c id reply now =>
    obtain ⟨-, rfl⟩ := of_guard stepped
    unfold handleAskReply
    split
    · exact serving_send serving c _
    · rename_i entry found
      exact ⟨SecApprovalQueue.keyed_reply serving.keyed found reply, serving.attached,
        serving.clientBound⟩
  | malformedReply c now | malformedSteer c now | steerFailed c message now | ping c now =>
    cases stepped
    exact serving_send serving c _
  | refreshFrame c | timer =>
    obtain ⟨-, rfl⟩ := of_guard stepped
    rw [refresh_eq]
    exact serving_eq serving rfl rfl rfl rfl rfl
  | refreshedFrame c now =>
    obtain ⟨-, rfl⟩ := of_guard stepped
    rw [sendSnapshot_eq]
    exact serving_eq serving rfl rfl rfl rfl rfl
  | publish events now =>
    cases stepped
    rw [scheduleRefresh_eq, broadcastAll_eq]
    exact serving_eq serving rfl rfl rfl rfl rfl
  | read source now =>
    obtain ⟨-, rfl⟩ := of_guard stepped
    rw [read_eq]
    exact serving_eq serving rfl rfl rfl rfl rfl
  | readFailed =>
    obtain ⟨-, is⟩ := ite_none_right_eq_some.mp stepped
    have done : Serving s.refreshed := by
      rw [refreshed_eq]
      exact serving_eq serving rfl rfl rfl rfl rfl
    split at is <;> cases is
    · exact serving_shutdown done
    · exact done
  | shutdown =>
    cases stepped
    exact serving_shutdown serving

theorem AsksShown.of_eq (shown : s.AsksShown)
    (entries : ∀ e ∈ after.approvals.entries, e ∈ s.approvals.entries)
    (clients : ∀ c ∈ after.clients, c ∈ s.clients) (sent : after.sent = s.sent) :
    after.AsksShown :=
  shown.of_sends (sends_nothing clients sent) entries fun _ _ member => by cases member

theorem AsksShown.shutdown (s : SecServerRuntime) : s.shutdown.AsksShown := by
  intro c connected
  cases connected

/-- **A step that meets the condition keeps every ask on every screen.** -/
theorem asksShown_step (serving : Serving s) (shown : s.AsksShown)
    (stepped : s.step locale event = some after) (meets : s.Meets locale event) :
    after.AsksShown := by
  cases event with
  | ask request now =>
    cases stepped
    exact asksShown_ask serving shown request now
  | denyAll | closeQueue =>
    cases stepped
    exact shown.of_eq (fun e member => by cases member) (fun c member => member) rfl
  | connect now =>
    obtain ⟨listening, rfl⟩ := of_refusal stepped
    refine asksShown_sendSnapshot (s := { s with
      clientCount := s.clientCount + 1, clients := s.clients ++ [s.clientCount] }) serving.keyed
      (fun c member other => ?_) (fun unread => ?_) now
    · rcases List.mem_append.mp member with before | new
      · exact shown c before
      · exact absurd (List.mem_singleton.mp new) other
    · exact absurd (.inr (Option.isNone_iff_eq_none.mpr unread)) listening
  | disconnect c =>
    cases stepped
    exact shown.of_eq (fun e member => member) (fun c' member => (List.mem_filter.mp member).1) rfl
  | askReply c id reply now =>
    obtain ⟨-, rfl⟩ := of_guard stepped
    unfold handleAskReply
    split
    · exact shown.send c (by exact trivial)
    · rename_i entry found
      have settled : { s with approvals := s.approvals.reply id entry reply }.AsksShown :=
        shown.of_eq (fun e member => (List.mem_filter.mp member).1) (fun c member => member) rfl
      exact settled.broadcastAll [_] fun frame member => by
        cases List.mem_singleton.mp member
        exact trivial
  | malformedReply c now | malformedSteer c now | steerFailed c message now | ping c now =>
    cases stepped
    exact shown.send c (by exact trivial)
  | refreshFrame c | timer =>
    obtain ⟨-, rfl⟩ := of_guard stepped
    rw [refresh_eq]
    exact shown.of_eq (fun e member => member) (fun c member => member) rfl
  | refreshedFrame c now =>
    obtain ⟨-, rfl⟩ := of_guard stepped
    exact asksShown_sendSnapshot (s := { s with awaiting := s.awaiting.erase c }) serving.keyed
      (fun c' member _ => shown c' member) (fun _ => shown) now
  | publish events now =>
    cases stepped
    rw [scheduleRefresh_eq]
    have noted : ({ s with run := (s.run.apply events now).1 }.broadcastAll
        (s.run.apply events now).2).AsksShown :=
      AsksShown.broadcastAll (s := { s with run := (s.run.apply events now).1 }) shown _
        fun frame member => (said_apply s.run events now frame member).asksAside
    exact noted
  | read source now =>
    obtain ⟨-, rfl⟩ := of_guard stepped
    exact asksShown_read shown meets
  | readFailed =>
    obtain ⟨-, is⟩ := ite_none_right_eq_some.mp stepped
    split at is <;> cases is
    · exact .shutdown _
    · rw [refreshed_eq]
      exact shown.of_eq (fun e member => member) (fun c member => member) rfl
  | shutdown =>
    cases stepped
    exact .shutdown s

/-! ### Every run -/

/-- What the operators of a campaign rely on. -/
structure Asks (s : SecServerRuntime) : Prop where
  shown : s.AsksShown
  once : s.approvals.SettledOnce

theorem asks_start (project target : Text) (conversationId : Nat) (run : Bool) (inbox : Nat) :
    Serving (start project target conversationId run inbox) ∧
      (start project target conversationId run inbox).AsksShown :=
  ⟨⟨SecApprovalQueue.keyed_empty, .inl rfl, fun _ member => by cases member⟩,
    fun _ member => by cases member⟩

theorem asks_states (serving : Serving s) (shown : s.AsksShown) {events : List ServerEvent}
    {states : List SecServerRuntime} (ran : s.states locale events = some states) :
    (∀ state ∈ states, state.Asks) ↔ s.RunMeets locale events := by
  induction events generalizing s states with
  | nil =>
    cases ran
    refine iff_of_true (fun state member => ?_) trivial
    cases List.mem_singleton.mp member
    exact ⟨shown, serving.keyed.once⟩
  | cons event rest ih =>
    obtain ⟨next, stepped, goesOn⟩ := bind_eq_some_iff.mp ran
    obtain ⟨later, ranLater, is⟩ := bind_eq_some_iff.mp goesOn
    cases is
    have serving' := serving_step serving stepped
    constructor
    · intro all
      have first : next ∈ later := by
        cases rest with
        | nil =>
          cases ranLater
          exact mem_singleton_self _
        | cons event rest =>
          obtain ⟨_, -, afterNext⟩ := bind_eq_some_iff.mp ranLater
          obtain ⟨_, -, is⟩ := bind_eq_some_iff.mp afterNext
          cases is
          exact mem_cons_self
      have shown' := (all next (mem_cons_of_mem _ first)).shown
      refine ⟨?_, fun next' is => ?_⟩
      · cases event with
        | read source now =>
          obtain ⟨-, rfl⟩ := of_guard stepped
          exact meets_of_asksShown shown'
        | _ => trivial
      · rw [stepped] at is
        cases is
        exact (ih serving' shown' ranLater).mp fun state member =>
          all state (mem_cons_of_mem _ member)
    · rintro ⟨meets, runMeets⟩ state member
      have shown' := asksShown_step serving shown stepped meets
      rcases List.mem_cons.mp member with rfl | inside
      · exact ⟨shown, serving.keyed.once⟩
      · exact (ih serving' shown' ranLater).mpr (runMeets next stepped) state inside

/-- **Every pending ask is on every screen**, and each ask is settled once, in every state of a run,
exactly if every step of the run meets the condition. -/
theorem asks_iff (project target : Text) (conversationId : Nat) (run : Bool) (inbox : Nat)
    {events : List ServerEvent} {states : List SecServerRuntime}
    (ran : (start project target conversationId run inbox).states locale events = some states) :
    (∀ state ∈ states, state.Asks) ↔
      (start project target conversationId run inbox).RunMeets locale events := by
  obtain ⟨serving, shown⟩ := asks_start project target conversationId run inbox
  exact asks_states serving shown ran

/-! ### A plan is revised while an ask waits -/

/-- A campaign whose plan has one step. -/
def planSource (revision : Nat) : HostProjection where
  actions := []
  evidence := []
  findings := []
  plan := some ⟨revision, [], [⟨text "recon", text "Enumerate", [], .opened⟩]⟩
  terminals := none

def demoAsk : SecApprovalRequest where
  toolName := text "read"
  resource := text "tool:read"
  reason := text "strict mode puts every tool call in front of a human"
  forced := false
  args := .null

def demoServer : SecServerRuntime :=
  start (text "demo") (text "https://demo.local") 1 false 0

/-- A client connects, an ask is parked, and the session goes on. -/
def askedEvents : List ServerEvent :=
  [.read (planSource 1) 1000, .connect 1001, .ask demoAsk 1002, .publish [.turnStart] 1003]

/-- The ask is answered before the plan is revised. -/
def answeredEvents : List ServerEvent :=
  askedEvents ++ [.askReply 0 (text "ask-1") .allow 1004, .timer, .read (planSource 2) 1005]

/-- The plan is revised while the ask waits. -/
def revisedEvents : List ServerEvent := askedEvents ++ [.timer, .read (planSource 2) 1005]

theorem runMeets_cons {rest : List ServerEvent} (here : s.Meets locale event)
    (stepped : s.step locale event = some after) (later : after.RunMeets locale rest) :
    s.RunMeets locale (event :: rest) := by
  refine ⟨here, fun next is => ?_⟩
  rw [stepped] at is
  cases is
  exact later

theorem asks_answered : ∃ states, demoServer.states asciiLocale answeredEvents = some states ∧
    ∀ state ∈ states, state.Asks := by
  have meets : demoServer.RunMeets asciiLocale answeredEvents :=
    runMeets_cons (fun _ => .inl rfl) rfl <| runMeets_cons trivial rfl <|
    runMeets_cons trivial rfl <| runMeets_cons trivial rfl <| runMeets_cons trivial rfl <|
    runMeets_cons trivial rfl <| runMeets_cons (fun _ => .inr rfl) rfl trivial
  have ran : demoServer.states asciiLocale answeredEvents = some _ := rfl
  exact ⟨_, ran, (asks_iff (text "demo") (text "https://demo.local") 1 false 0 ran).mpr meets⟩

/-- **The ask is gone from the screen**: the new plan loses the intents of the old one, and the
snapshot that says so is not followed by the asks. -/
theorem not_asks_revised : ∃ states, demoServer.states asciiLocale revisedEvents = some states ∧
    ∃ state ∈ states, ¬ state.Asks := by
  refine ⟨_, rfl, _, mem_of_getLast? rfl, fun asks => ?_⟩
  have shown := asks.shown 0 (mem_singleton_self _) _ (mem_singleton_self _)
  cases shown

end SecServerRuntime

end TianGong.SecServer
