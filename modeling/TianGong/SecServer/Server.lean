/-
**The campaign server and its clients.**

`SecServerRuntime` (`server.ts`): it re-reads the host's projection, broadcasts the frames that
changed, carries asks to the browsers and their replies back.

* `sendSnapshot`: the graph, and then every pending ask again.
* `refresh`, `read`: the two halves of a refresh.

What a client is sent is what it shows, in order; a client whose buffer is full is closed instead.
-/

import TianGong.SecServer.Approvals

namespace TianGong.SecServer

variable (locale : Locale)

abbrev ClientId := Nat

/-- What the host's `readProjection` gives. -/
structure HostProjection where
  actions : List SecProjectionAction
  evidence : List SecProjectionEvidenceSubject
  findings : List SecProjectionFinding
  plan : Option SecProjectionPlan
  terminals : Option (List SecProjectionTerminal)

structure SecServerRuntime where
  project : Text
  target : Text
  conversationId : Nat
  graph : SecGraphProjector
  run : SecRunState
  clients : List ClientId
  clientCount : Nat
  /-- The frames of each client. -/
  sent : ClientId → List SecServerFrame
  approvals : SecApprovalQueue
  subscribed : Bool
  refreshing : Bool
  refreshQueued : Bool
  /-- `refreshTimer` is set. -/
  scheduled : Bool
  /-- The clients whose `refresh` frame waits for the end of its refresh. -/
  awaiting : List ClientId
  closed : Bool

namespace SecServerRuntime

variable (s : SecServerRuntime)

/-! ### Frames -/

/-- `client.send`: a closed client is sent nothing. -/
def send (c : ClientId) (frame : SecServerFrame) : SecServerRuntime :=
  if c ∈ s.clients then
    { s with sent := fun c' => if c' = c then s.sent c ++ [frame] else s.sent c' }
  else s

/-- Frames to one client, in order. -/
def sendAll (c : ClientId) (frames : List SecServerFrame) : SecServerRuntime :=
  frames.foldl (fun s frame => s.send c frame) s

def broadcast (frame : SecServerFrame) : SecServerRuntime :=
  { s with sent := fun c => if c ∈ s.clients then s.sent c ++ [frame] else s.sent c }

def broadcastAll (frames : List SecServerFrame) : SecServerRuntime :=
  frames.foldl broadcast s

def askFrame (pending : SecAskPayload) (now : Nat) : SecServerFrame := ⟨now, .ask pending⟩

def sendSnapshot (c : ClientId) (now : Nat) : SecServerRuntime :=
  match s.graph.graph with
  | none => s
  | some graph =>
    s.sendAll c (snapshotFrame graph s.run now ::
      s.approvals.pending.map fun pending => askFrame pending now)

/-! ### Refreshes -/

def scheduleRefresh : SecServerRuntime :=
  if s.closed || s.scheduled then s else { s with scheduled := true }

/-- `refresh`, up to `readProjection`. -/
def refresh : SecServerRuntime :=
  if s.closed then s
  else if s.refreshing then { s with refreshQueued := true }
  else { s with refreshing := true }

/-- The `finally` of a refresh. -/
def refreshed : SecServerRuntime :=
  let s := { s with refreshing := false }
  if s.refreshQueued then { s with refreshQueued := false }.scheduleRefresh else s

/-- The input of the projection, from what the host read. -/
def projectionInput (source : HostProjection) (now : Nat) : SecProjectionInput where
  project := s.project
  target := s.target
  rootConversationId := s.conversationId
  actions := source.actions
  evidence := source.evidence
  findings := none
  plan := source.plan
  terminals := source.terminals
  now

/-- The rest of a refresh, with what `readProjection` gave. -/
def read (source : HostProjection) (now : Nat) : SecServerRuntime :=
  let updated := s.graph.update locale s.run (s.projectionInput source now)
  ({ s with graph := updated.1 }.broadcastAll updated.2).refreshed

/-! ### Clients, asks and the end -/

/-- `registerClient` -/
def connect (now : Nat) : SecServerRuntime :=
  let c := s.clientCount
  { s with clientCount := c + 1, clients := s.clients ++ [c] }.sendSnapshot c now

def disconnect (c : ClientId) : SecServerRuntime :=
  { s with clients := s.clients.filter fun c' => c' ≠ c }

/-- The host asks; the server hears of what is parked. -/
def ask (request : SecApprovalRequest) (now : Nat) : SecServerRuntime :=
  let parked := s.approvals.parked request
  let notified := s.subscribed && !s.approvals.closed
  let s := { s with approvals := s.approvals.ask request }
  if notified then s.broadcast (askFrame parked now) else s

/-- `handleAskReply`, of a frame that is well formed. -/
def handleAskReply (c : ClientId) (id : Text) (reply : SecAskReply) (now : Nat) :
    SecServerRuntime :=
  match Assoc.get id s.approvals.entries with
  | none =>
    s.send c (logFrame .warn (text "guard ask " ++ id ++ text " is no longer pending") now)
  | some entry =>
    { s with approvals := s.approvals.reply id entry reply }.broadcast
      (logFrame .info (text "guard ask " ++ id ++ text ": " ++ reply.name) now)

def shutdown : SecServerRuntime :=
  { s with
    closed := true, subscribed := false, approvals := s.approvals.denyAll, scheduled := false
    clients := [] }

end SecServerRuntime

/-! ### What can happen -/

/-- What can happen to a server. -/
inductive ServerEvent where
  | ask (request : SecApprovalRequest) (now : Nat)
  /-- The host settles every ask, or closes the queue. -/
  | denyAll
  | closeQueue
  | connect (now : Nat)
  | disconnect (c : ClientId)
  /-- Frames of a client. -/
  | askReply (c : ClientId) (id : Text) (reply : SecAskReply) (now : Nat)
  | malformedReply (c : ClientId) (now : Nat)
  | malformedSteer (c : ClientId) (now : Nat)
  | steerFailed (c : ClientId) (message : Text) (now : Nat)
  | ping (c : ClientId) (now : Nat)
  | refreshFrame (c : ClientId)
  /-- The rest of a `refresh` frame. -/
  | refreshedFrame (c : ClientId) (now : Nat)
  /-- Agent events of the session. -/
  | publish (events : List AgentEvent) (now : Nat)
  /-- The refresh timer. -/
  | timer
  /-- `readProjection` resolves, or rejects. -/
  | read (source : HostProjection) (now : Nat)
  | readFailed
  | shutdown

variable {c : ClientId}

namespace SecServerRuntime

variable (s : SecServerRuntime)

/-- One step; `none` where it cannot happen. The server listens once it has a graph. -/
def step : ServerEvent → Option SecServerRuntime
  | .ask request now => some (s.ask request now)
  | .denyAll => some { s with approvals := s.approvals.denyAll }
  | .closeQueue => some { s with approvals := s.approvals.close }
  | .connect now =>
    if s.closed ∨ s.graph.graph.isNone then none else some (s.connect now)
  | .disconnect c => some (s.disconnect c)
  | .askReply c id reply now =>
    if c ∈ s.clients then some (s.handleAskReply c id reply now) else none
  | .malformedReply c now =>
    some (s.send c (logFrame .warn
      (text "ask_reply ignored: a non-empty id and allow/deny/always are required") now))
  | .malformedSteer c now =>
    some (s.send c (logFrame .warn (text "steer ignored: content must be a non-empty string") now))
  | .steerFailed c message now =>
    some (s.send c (logFrame .error (text "steer failed: " ++ message) now))
  | .ping c now => some (s.send c ⟨now, .pong⟩)
  | .refreshFrame c =>
    if c ∈ s.clients then some { s.refresh with awaiting := s.awaiting ++ [c] } else none
  | .refreshedFrame c now =>
    if c ∈ s.awaiting then
      some ({ s with awaiting := s.awaiting.erase c }.sendSnapshot c now)
    else none
  | .publish events now =>
    let applied := s.run.apply events now
    some ({ s with run := applied.1 }.broadcastAll applied.2).scheduleRefresh
  | .timer => if s.scheduled then some { s with scheduled := false }.refresh else none
  | .read source now => if s.refreshing then some (s.read locale source now) else none
  | .readFailed =>
    if s.refreshing then
      some (if s.graph.graph.isNone then s.refreshed.shutdown else s.refreshed)
    else none
  | .shutdown => some s.shutdown

/-- The server once it has attached to the session; its first refresh is under way. -/
def start (project target : Text) (conversationId : Nat) (run : Bool) (inbox : Nat) :
    SecServerRuntime where
  project
  target
  conversationId
  graph := ⟨none⟩
  run := ⟨run, inbox, 0⟩
  clients := []
  clientCount := 0
  sent _ := []
  approvals := .empty
  subscribed := true
  refreshing := true
  refreshQueued := false
  scheduled := false
  awaiting := []
  closed := false

/-- The states of a run, from the first on; `none` where a step cannot happen. -/
def states (s : SecServerRuntime) : List ServerEvent → Option (List SecServerRuntime)
  | [] => some [s]
  | event :: rest => do
    let next ← s.step locale event
    let later ← next.states rest
    return s :: later

/-- A run. -/
def runEvents (s : SecServerRuntime) : List ServerEvent → Option SecServerRuntime
  | [] => some s
  | event :: rest => (s.step locale event).bind fun s => s.runEvents rest

/-- What a client shows. -/
def screen (c : ClientId) : Screen := Screen.empty.fold (s.sent c)

/-! ### What sending changes -/

variable {s}

theorem send_eq (c : ClientId) (frame : SecServerFrame) :
    s.send c frame = { s with sent := (s.send c frame).sent } := by
  unfold send
  split <;> rfl

theorem sendAll_eq (c : ClientId) (frames : List SecServerFrame) :
    s.sendAll c frames = { s with sent := (s.sendAll c frames).sent } := by
  unfold sendAll
  induction frames generalizing s with
  | nil => rfl
  | cons frame rest ih =>
    rw [List.foldl_cons, ih, send_eq]

theorem sendSnapshot_eq (c : ClientId) (now : Nat) :
    s.sendSnapshot c now = { s with sent := (s.sendSnapshot c now).sent } := by
  unfold sendSnapshot
  split
  · rfl
  · exact sendAll_eq c _

theorem broadcastAll_eq (frames : List SecServerFrame) :
    s.broadcastAll frames = { s with sent := (s.broadcastAll frames).sent } := by
  unfold broadcastAll
  induction frames generalizing s with
  | nil => rfl
  | cons frame rest ih =>
    rw [List.foldl_cons, ih]
    rfl

theorem screen_of_sent {after : SecServerRuntime} {frames : List SecServerFrame}
    (sent : after.sent c = s.sent c ++ frames) : after.screen c = (s.screen c).fold frames := by
  unfold screen
  rw [sent, Screen.fold_append]

theorem send_sent (connected : c ∈ s.clients) (frame : SecServerFrame) :
    (s.send c frame).sent c = s.sent c ++ [frame] := by
  unfold send
  rw [if_pos connected]
  exact if_pos rfl

theorem send_other {c' : ClientId} (other : c' ≠ c) (frame : SecServerFrame) :
    (s.send c frame).sent c' = s.sent c' := by
  unfold send
  split
  · exact if_neg other
  · rfl

theorem sendAll_sent (connected : c ∈ s.clients) (frames : List SecServerFrame) :
    (s.sendAll c frames).sent c = s.sent c ++ frames := by
  unfold sendAll
  induction frames generalizing s with
  | nil => exact (List.append_nil _).symm
  | cons frame rest ih =>
    have still : c ∈ (s.send c frame).clients := by
      rw [send_eq]
      exact connected
    rw [List.foldl_cons, ih still, send_sent connected, List.append_assoc]
    rfl

theorem sendAll_other {c' : ClientId} (other : c' ≠ c) (frames : List SecServerFrame) :
    (s.sendAll c frames).sent c' = s.sent c' := by
  unfold sendAll
  induction frames generalizing s with
  | nil => rfl
  | cons frame rest ih =>
    rw [List.foldl_cons, ih, send_other other]

theorem broadcastAll_sent (connected : c ∈ s.clients) (frames : List SecServerFrame) :
    (s.broadcastAll frames).sent c = s.sent c ++ frames := by
  unfold broadcastAll
  induction frames generalizing s with
  | nil => exact (List.append_nil _).symm
  | cons frame rest ih =>
    have here : (s.broadcast frame).sent c = s.sent c ++ [frame] := if_pos connected
    rw [List.foldl_cons, ih (show c ∈ (s.broadcast frame).clients from connected), here,
      List.append_assoc]
    rfl

/-- No client comes, and those that stay are sent some frames. -/
structure Sends (s after : SecServerRuntime) (frames : ClientId → List SecServerFrame) : Prop where
  clients : ∀ c ∈ after.clients, c ∈ s.clients
  sent : ∀ c ∈ after.clients, after.sent c = s.sent c ++ frames c

theorem sends_nothing {after : SecServerRuntime} (clients : ∀ c ∈ after.clients, c ∈ s.clients)
    (sent : after.sent = s.sent) : Sends s after fun _ => [] :=
  ⟨clients, fun c _ => by rw [sent, List.append_nil]⟩

theorem sends_send (c : ClientId) (frame : SecServerFrame) :
    Sends s (s.send c frame) fun c' => if c' = c then [frame] else [] := by
  have clients : (s.send c frame).clients = s.clients := by rw [send_eq]
  refine ⟨fun c' member => clients ▸ member, fun c' member => ?_⟩
  rw [clients] at member
  split
  · rename_i same
    subst same
    exact send_sent member frame
  · rename_i other
    rw [send_other other, List.append_nil]

theorem sends_broadcastAll (frames : List SecServerFrame) :
    Sends s (s.broadcastAll frames) fun _ => frames := by
  have clients : (s.broadcastAll frames).clients = s.clients := by rw [broadcastAll_eq]
  exact ⟨fun c member => clients ▸ member, fun c member => broadcastAll_sent (clients ▸ member) frames⟩

/-- What ends a refresh changes only when the next one is. -/
theorem refreshed_eq : s.refreshed = { s with
    refreshing := s.refreshed.refreshing
    refreshQueued := s.refreshed.refreshQueued
    scheduled := s.refreshed.scheduled } := by
  unfold refreshed scheduleRefresh
  dsimp only
  split
  · split <;> rfl
  · rfl

/-- What the rest of a refresh changes. -/
theorem read_eq {source : HostProjection} {now : Nat} : s.read locale source now = { s with
    graph := (s.graph.update locale s.run (s.projectionInput source now)).1
    sent := (s.read locale source now).sent
    refreshing := (s.read locale source now).refreshing
    refreshQueued := (s.read locale source now).refreshQueued
    scheduled := (s.read locale source now).scheduled } := by
  unfold read
  dsimp only
  rw [refreshed_eq, broadcastAll_eq]

theorem read_sent (connected : c ∈ s.clients) (source : HostProjection) (now : Nat) :
    (s.read locale source now).sent c =
      s.sent c ++ (s.graph.update locale s.run (s.projectionInput source now)).2 := by
  unfold read
  dsimp only
  rw [refreshed_eq]
  exact broadcastAll_sent (s := { s with
    graph := (s.graph.update locale s.run (s.projectionInput source now)).1 }) connected _

theorem scheduleRefresh_eq :
    s.scheduleRefresh = { s with scheduled := s.scheduleRefresh.scheduled } := by
  unfold scheduleRefresh
  split <;> rfl

theorem refresh_eq : s.refresh = { s with
    refreshing := s.refresh.refreshing, refreshQueued := s.refresh.refreshQueued } := by
  unfold refresh
  split
  · rfl
  · split <;> rfl

end SecServerRuntime

end TianGong.SecServer
