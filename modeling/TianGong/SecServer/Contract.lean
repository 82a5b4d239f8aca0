/-
**The wire contract of the campaign server.**

`contract.ts`: the graph, its parts, and the frames a browser is sent.

* `SecGraph`: nodes, edges, findings and intents, with the RCE path, statistics and frontier.
* `SecServerFrame`: a snapshot of the graph, an event, or a pong.
* `Screen`, `handleFrame`: what the browser keeps of its frames (`web/app.js`): a snapshot replaces
  the graph and clears the asks, an item takes the place of the one with its id.

The endpoints of an edge are `source` and `target` here, `from` and `to` in the source. Weights are
rational; every weight of the source is a decimal with at most two digits.
-/

import Mathlib.Data.Rat.Defs
import TianGong.Chord.Json
import TianGong.Lib.Upsert

namespace TianGong.SecServer

/-- A JSON value. -/
abbrev JsonValue := Json Unit

/-! ### Words of the contract -/

inductive SecNodeKind where
  | target | info | service | danger | vuln | credential | foothold | honeypot | goal
  deriving DecidableEq

def SecNodeKind.name : SecNodeKind → Text
  | .target => text "target"
  | .info => text "info"
  | .service => text "service"
  | .danger => text "danger"
  | .vuln => text "vuln"
  | .credential => text "credential"
  | .foothold => text "foothold"
  | .honeypot => text "honeypot"
  | .goal => text "goal"

inductive SecRelation where
  | leadsTo | exploits | escalatesTo | pivotsTo | contains
  deriving DecidableEq

inductive SecSeverity where
  | info | low | medium | high | critical
  deriving DecidableEq

def SecSeverity.name : SecSeverity → Text
  | .info => text "info"
  | .low => text "low"
  | .medium => text "medium"
  | .high => text "high"
  | .critical => text "critical"

/-- `SEC_SEVERITY_ORDER` -/
def SecSeverity.order : SecSeverity → Nat
  | .info => 0
  | .low => 1
  | .medium => 2
  | .high => 3
  | .critical => 4

/-- `SEC_SEVERITY_SCORE` -/
def SecSeverity.score : SecSeverity → Nat
  | .info => 5
  | .low => 20
  | .medium => 45
  | .high => 72
  | .critical => 92

inductive SecIntentStatus where
  | opened | active | verified | disproved | deferred
  deriving DecidableEq

inductive SecVerificationStatus where
  | pending | verified | rejected | excluded
  deriving DecidableEq

/-- `SEC_RCE_NODE_KINDS` -/
def SecNodeKind.isRce : SecNodeKind → Bool
  | .foothold | .goal => true
  | _ => false

def SEC_NODE_PREFIXES : List (Text × SecNodeKind) :=
  [(text "target:", .target), (text "svc:", .service), (text "service:", .service),
    (text "danger:", .danger), (text "vuln:", .vuln), (text "cred:", .credential),
    (text "credential:", .credential), (text "foothold:", .foothold),
    (text "honeypot:", .honeypot), (text "goal:", .goal)]

/-! ### The graph -/

/-- A snapshot bound to an evidence subject, as the detail of its node shows it. -/
structure SnapshotDetail where
  snapshotId : Text
  role : Text
  note : Text
  method : Text
  url : Text
  status : Nat
  capturedAt : Nat
  deriving DecidableEq

/-- The finding of an evidence subject, as the detail of its node shows it. -/
structure FindingDetail where
  lane : Text
  severity : SecSeverity
  status : Text
  retestSnapshotId : Text
  deriving DecidableEq

/-- The detail of a node: a JSON object whose fields depend on what the node stands for. -/
inductive NodeDetail where
  | target (project target : Text)
  | action (intent : Text) (ownerTaskId : Nat) (summaryRef status : Text)
  | evidence (subjectId : Text) (version : Nat) (snapshots : List SnapshotDetail)
      (finding : Option FindingDetail)
  | terminal (claim lane status reason : Text) (findingId snapshotId : Option Text)
      (declaredAt : Nat)
  deriving DecidableEq

structure SecGraphNode where
  id : Text
  key : Text
  type : SecNodeKind
  title : Text
  detail : NodeDetail
  severity : SecSeverity
  is_rce : Bool
  risk_score : Nat
  tags : List Text
  status : Text
  created_at : Option Nat
  updated_at : Option Nat
  deriving DecidableEq

structure SecGraphEdge where
  id : Text
  source : Text
  target : Text
  relation : SecRelation
  weight : ℚ
  rationale : Text
  on_rce_path : Bool
  deriving DecidableEq

structure SecFinding where
  id : Text
  node_key : Text
  severity : SecSeverity
  category : Text
  title : Text
  description : Text
  evidence : Text
  critical : Bool
  created_at : Nat
  verification_status : SecVerificationStatus
  deriving DecidableEq

structure SecGraphIntent where
  id : Text
  source : List Text
  description : Text
  rationale : Text
  est_success : ℚ
  status : SecIntentStatus
  strategy_key : Option Text
  priority : Option Nat
  result_summary : Option Text
  deriving DecidableEq

structure SecRcePath where
  path : List Text
  paths : List (List Text)
  likelihood : ℚ
  frontier_mode : Bool
  deriving DecidableEq

structure SecFrontier where
  opened : Nat
  strategies : Nat
  by_status : List (SecIntentStatus × Nat)
  deriving DecidableEq

structure SecGraphStats where
  nodes : Nat
  services : Nat
  edges : Nat
  findings : Nat
  high : Nat
  medium : Nat
  low : Nat
  critical : Nat
  has_shell : Bool
  frontier_open : Nat
  frontier_strategies : Nat
  lateral_active : Bool
  pivot_edges : Nat
  hosts_footed : Nat
  deriving DecidableEq

structure SecGraph where
  nodes : List SecGraphNode
  edges : List SecGraphEdge
  findings : List SecFinding
  intents : List SecGraphIntent
  frontier : SecFrontier
  rce_path : SecRcePath
  stats : SecGraphStats

/-! ### Frames -/

structure SecSteerPayload where
  content : Text
  queued : Bool
  /-- `from` -/
  sender : Text

inductive SecLogLevel where
  | info | warn | error

structure SecLogPayload where
  level : SecLogLevel
  message : Text

structure SecStatusPayload where
  status : Text
  turn : Nat
  running : Bool
  queued : Nat

structure SecToolPayload where
  callId : Text
  name : Text
  /-- `status === "end"` -/
  ended : Bool
  args : Option JsonValue
  ok : Option Bool
  durationMs : Option Nat

/-- `SecAskPayload`, `SecPendingApproval`. -/
structure SecAskPayload where
  id : Text
  toolName : Text
  resource : Text
  reason : Text
  forced : Bool
  args : JsonValue

/-- What a frame says. -/
inductive SecFrameBody where
  | snapshot (payload : SecGraph) (running : Bool) (queued : Nat)
  | node (payload : SecGraphNode)
  | edge (payload : SecGraphEdge)
  | finding (payload : SecFinding)
  | intent (payload : SecGraphIntent)
  | rcePath (payload : SecRcePath)
  | steer (payload : SecSteerPayload)
  | log (payload : SecLogPayload)
  | status (payload : SecStatusPayload)
  | tool (payload : SecToolPayload)
  | toolResult (payload : SecToolPayload)
  | thought (text : Text)
  | ask (payload : SecAskPayload)
  | pong

/-- A frame the server sends. -/
structure SecServerFrame where
  ts : Nat
  body : SecFrameBody

/-! ### The browser -/

/-- What the browser keeps of its frames. -/
structure Screen where
  graph : SecGraph
  asks : List (Text × SecAskPayload)

def emptyGraph : SecGraph where
  nodes := []
  edges := []
  findings := []
  intents := []
  frontier := ⟨0, 0, []⟩
  rce_path := ⟨[], [], 0, false⟩
  stats := ⟨0, 0, 0, 0, 0, 0, 0, 0, false, 0, 0, false, 0, 0⟩

def Screen.empty : Screen := ⟨emptyGraph, []⟩

/-- `upsert`, by id. -/
def upsertNode (item : SecGraphNode) (items : List SecGraphNode) : List SecGraphNode :=
  Upsert.upsert SecGraphNode.id item items

def upsertEdge (item : SecGraphEdge) (items : List SecGraphEdge) : List SecGraphEdge :=
  Upsert.upsert SecGraphEdge.id item items

def upsertFinding (item : SecFinding) (items : List SecFinding) : List SecFinding :=
  Upsert.upsert SecFinding.id item items

def upsertIntent (item : SecGraphIntent) (items : List SecGraphIntent) : List SecGraphIntent :=
  Upsert.upsert SecGraphIntent.id item items

def Screen.handleFrame (screen : Screen) (frame : SecServerFrame) : Screen :=
  match frame.body with
  | .snapshot payload _ _ => { screen with graph := payload, asks := [] }
  | .ask payload => { screen with asks := Assoc.set payload.id payload screen.asks }
  | .node payload =>
    { screen with graph := { screen.graph with nodes := upsertNode payload screen.graph.nodes } }
  | .edge payload =>
    { screen with graph := { screen.graph with edges := upsertEdge payload screen.graph.edges } }
  | .finding payload =>
    { screen with
      graph := { screen.graph with findings := upsertFinding payload screen.graph.findings } }
  | .intent payload =>
    { screen with
      graph := { screen.graph with intents := upsertIntent payload screen.graph.intents } }
  | .rcePath payload => { screen with graph := { screen.graph with rce_path := payload } }
  | _ => screen

/-- The screen after frames, in order. -/
def Screen.fold (screen : Screen) (frames : List SecServerFrame) : Screen :=
  frames.foldl handleFrame screen

theorem Screen.fold_append (screen : Screen) (frames more : List SecServerFrame) :
    screen.fold (frames ++ more) = (screen.fold frames).fold more := List.foldl_append

end TianGong.SecServer
