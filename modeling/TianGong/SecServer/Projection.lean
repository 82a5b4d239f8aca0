/-
**The projection of a campaign onto the graph of the contract.**

`projection.ts`: a pure function from the delegated actions, the evidence subjects, the registered
findings, the plan and the terminal declarations to a graph.

* `rootNode`, `actionNode`, `evidenceNode`, `terminalNode`: the nodes, each with its edge.
* `intentForAction`, `intentForPlanStep`: the intents; a plan with steps replaces the actions'.
* `findingForSubject`, `findingForRecord`: the findings, one a subject.
* `projectSecGraph`: all of them, with what `markRcePath` and the counts make of them.
* `mem_nodes`: where a node of the graph comes from.
-/

import TianGong.SecServer.RcePath

namespace TianGong.SecServer

open SecGuard (startsWith indexOf isAlpha)

/-! ### The input -/

inductive SecProjectionActionStatus where
  | opened | done | failed
  deriving DecidableEq

def SecProjectionActionStatus.name : SecProjectionActionStatus → Text
  | .opened => text "open"
  | .done => text "done"
  | .failed => text "failed"

structure SecProjectionAction where
  conversationId : Nat
  parentConversationId : Nat
  ownerTaskId : Nat
  intent : Text
  openedAt : Nat
  status : SecProjectionActionStatus
  summaryRef : Text

inductive SecProjectionEvidenceRole where
  | baseline | proof | verification | supporting
  deriving DecidableEq

def SecProjectionEvidenceRole.name : SecProjectionEvidenceRole → Text
  | .baseline => text "baseline"
  | .proof => text "proof"
  | .verification => text "verification"
  | .supporting => text "supporting"

structure SecProjectionEvidenceBinding where
  snapshotId : Text
  role : SecProjectionEvidenceRole
  note : Text
  capturedAt : Nat
  method : Text
  url : Text
  status : Nat

structure SecProjectionEvidenceSubject where
  subjectId : Text
  version : Nat
  bindings : List SecProjectionEvidenceBinding

inductive SecProjectionFindingStatus where
  | opened | verified | retestPass | retestFail | wontfix
  deriving DecidableEq

def SecProjectionFindingStatus.name : SecProjectionFindingStatus → Text
  | .opened => text "open"
  | .verified => text "verified"
  | .retestPass => text "retest-pass"
  | .retestFail => text "retest-fail"
  | .wontfix => text "wontfix"

structure SecProjectionFinding where
  findingId : Text
  lane : Text
  title : Text
  severity : SecSeverity
  status : SecProjectionFindingStatus
  subjectId : Text
  createdAt : Nat
  updatedAt : Nat
  retestSnapshotId : Text

inductive SecProjectionPlanStatus where
  | opened | active | done | dropped
  deriving DecidableEq

structure SecProjectionPlanStep where
  stepId : Text
  title : Text
  detail : Text
  status : SecProjectionPlanStatus

structure SecProjectionPlan where
  revision : Nat
  rationale : Text
  steps : List SecProjectionPlanStep

inductive SecTerminalClaim where
  | getshell | getflag | highCriticalFinding
  deriving DecidableEq

def SecTerminalClaim.name : SecTerminalClaim → Text
  | .getshell => text "getshell"
  | .getflag => text "getflag"
  | .highCriticalFinding => text "high_critical_finding"

structure SecProjectionTerminal where
  claim : SecTerminalClaim
  lane : Text
  verified : Bool
  reason : Text
  findingId : Option Text
  snapshotId : Option Text
  declaredAt : Nat

/-- `status` of a terminal. -/
def SecProjectionTerminal.status (terminal : SecProjectionTerminal) : Text :=
  if terminal.verified then text "verified" else text "unverified"

structure SecProjectionInput where
  project : Text
  target : Text
  rootConversationId : Nat
  actions : List SecProjectionAction
  evidence : List SecProjectionEvidenceSubject
  findings : Option (List SecProjectionFinding)
  plan : Option SecProjectionPlan
  terminals : Option (List SecProjectionTerminal)
  now : Nat

def MAX_TITLE : Nat := 120

def MAX_DETAIL : Nat := 2000

variable (locale : Locale)

/-! ### Keys -/

def rootTargetKey (project : Text) : Text :=
  text "target:" ++ if trim project = [] then text "campaign" else trim project

def actionNodeKey (kind : SecNodeKind) (conversationId : Nat) : Text :=
  kind.name ++ text ":action-" ++ decimal conversationId

/-- The characters that `evidenceNodeKey` keeps. -/
def isStemUnit (c : UInt16) : Bool :=
  isAlpha c || isDigit c || c == unit '.' || c == unit '_' || c == unit '-'

/-- `replace(/[^A-Za-z0-9._-]+/g, "-")`; the flag says that the unit before was replaced. -/
def dashRuns : Bool → Text → Text
  | _, [] => []
  | replaced, c :: rest =>
    if isStemUnit c then c :: dashRuns false rest
    else if replaced then dashRuns true rest
    else unit '-' :: dashRuns true rest

/-- `replace(/^-+|-+$/g, "")` -/
def stripDashes (t : Text) : Text :=
  ((t.dropWhile (· == unit '-')).reverse.dropWhile (· == unit '-')).reverse

/-- The loop of `shortHash`. -/
def fnv (t : Text) : UInt32 :=
  t.foldl (fun hash c => (hash ^^^ c.toUInt32) * 0x01000193) 0x811c9dc5

def shortHash (t : Text) : Text :=
  (List.range 8).reverse.map fun i => hexDigit ((fnv t).toNat / 16 ^ i % 16)

def evidenceNodeKey (subjectId : Text) : Text :=
  let stem := (stripDashes (dashRuns false (trim subjectId))).take 64
  let readable := if stem = [] then text "subject" else stem
  text "vuln:evidence-" ++ readable ++ text "-" ++ shortHash subjectId

def terminalNodeKey : SecTerminalClaim → Text
  | .getshell => text "goal:shell-terminal"
  | .getflag => text "goal:flag-terminal"
  | .highCriticalFinding => text "goal:high-critical-terminal"

/-! ### Nodes and their edges -/

def riskScore (severity : SecSeverity) (kind : SecNodeKind) (isRce : Bool) : Nat :=
  let score := severity.score
  let score := if isRce ∨ kind.isRce then max score 90 + 6 else score
  let score := if kind = .vuln ∨ kind = .danger then score + 4 else score
  let score := if kind = .honeypot then min score 15 else score
  min score 100

def secKindForKey (key : Text) : Option SecNodeKind :=
  let lower := locale.lower (trim key)
  (SEC_NODE_PREFIXES.find? fun e => startsWith lower e.1).map Prod.snd

/-- `actionKind`: the kind and the label of an intent. -/
def actionKind (intent : Text) : SecNodeKind × Text :=
  let trimmed := trim intent
  let plain := (.info, if trimmed = [] then text "delegated action" else trimmed)
  match secKindForKey locale trimmed with
  | none | some .target => plain
  | some kind =>
    let label := trim (match indexOf trimmed (text ":") with
      | some colon => trimmed.drop (colon + 1)
      | none => trimmed)
    (kind, if label = [] then trimmed else label)

def actionSeverity : SecNodeKind → SecSeverity
  | .goal => .high
  | .vuln | .danger | .credential | .foothold => .medium
  | _ => .info

def rootNode (input : SecProjectionInput) : SecGraphNode where
  id := rootTargetKey input.project
  key := rootTargetKey input.project
  type := .target
  title := clip (if trim input.target = [] then input.project else trim input.target) MAX_TITLE
  detail := .target input.project input.target
  severity := .info
  is_rce := false
  risk_score := riskScore .info .target false
  tags := [text "entry", text "campaign"]
  status := text "open"
  created_at := some input.now
  updated_at := some input.now

/-- The kind of an action's node: an intent does not make a goal. -/
def actionNodeKind (action : SecProjectionAction) : SecNodeKind :=
  let kind := (actionKind locale action.intent).1
  if kind = .goal then .danger else kind

def actionNode (action : SecProjectionAction) : SecGraphNode :=
  let parsed := actionKind locale action.intent
  let kind := actionNodeKind locale action
  let key := actionNodeKey kind action.conversationId
  { id := key
    key
    type := kind
    title := clip parsed.2 MAX_TITLE
    detail := .action (clip action.intent MAX_DETAIL) action.ownerTaskId
      (clip action.summaryRef MAX_DETAIL) action.status.name
    severity := actionSeverity kind
    is_rce := false
    risk_score := riskScore (actionSeverity kind) kind false
    tags := [text "action", text "conversation:" ++ decimal action.conversationId,
        text "task:" ++ decimal action.ownerTaskId] ++
      (if parsed.1 = .goal then [text "goal-intent"] else []) ++
      (if action.summaryRef = [] then [] else [text "summarized"])
    status := action.status.name
    created_at := some action.openedAt
    updated_at := some action.openedAt }

/-- The actions in the order in which they were opened. -/
def orderedActions (actions : List SecProjectionAction) : List SecProjectionAction :=
  actions.insertionSort fun a b => a.openedAt < b.openedAt ∨
    (a.openedAt = b.openedAt ∧ a.conversationId ≤ b.conversationId)

def actionsByConversation (actions : List SecProjectionAction) : List (Nat × SecGraphNode) :=
  actions.foldl (fun nodes action =>
    Assoc.set action.conversationId (actionNode locale action) nodes) []

/-- The key of the node that contains an action's. -/
def parentKey (input : SecProjectionInput) (action : SecProjectionAction) : Text :=
  let rootKey := rootTargetKey input.project
  if action.parentConversationId = input.rootConversationId then rootKey
  else
    match Assoc.get action.parentConversationId
        (actionsByConversation locale (orderedActions input.actions)) with
    | some node => node.key
    | none => rootKey

def containsEdge (source target : Text) (status : SecProjectionActionStatus) (ownerTaskId : Nat) :
    SecGraphEdge where
  id := text "contains:" ++ source ++ text "->" ++ target
  source
  target
  relation := .contains
  weight := match status with
    | .done => 1
    | .failed => 1 / 4
    | .opened => 1 / 2
  rationale := text "delegated through task " ++ decimal ownerTaskId
  on_rce_path := false

def leadsToEdge (input : SecProjectionInput) (key : Text) (weight : ℚ) (rationale : Text) :
    SecGraphEdge where
  id := text "leads-to:" ++ rootTargetKey input.project ++ text "->" ++ key
  source := rootTargetKey input.project
  target := key
  relation := .leadsTo
  weight
  rationale
  on_rce_path := false

def earliestCapture (subject : SecProjectionEvidenceSubject) : Option Nat :=
  subject.bindings.foldl (fun earliest binding =>
    if binding.capturedAt ≤ 0 then earliest
    else
      match earliest with
      | none => some binding.capturedAt
      | some time => if binding.capturedAt < time then some binding.capturedAt else earliest) none

/-- The finding of a subject, in a map made from the findings. -/
def findingOf (input : SecProjectionInput) (subjectId : Text) : Option SecProjectionFinding :=
  Upsert.last SecProjectionFinding.subjectId subjectId (input.findings.getD [])

/-- The evidence subjects, and the subjects of findings that have no evidence. -/
def subjects (input : SecProjectionInput) : List SecProjectionEvidenceSubject :=
  (input.findings.getD []).foldl (fun subjects finding =>
    if finding.subjectId ∈ subjects.map SecProjectionEvidenceSubject.subjectId then subjects
    else subjects ++ [⟨finding.subjectId, 0, []⟩]) input.evidence

def snapshotDetail (binding : SecProjectionEvidenceBinding) : SnapshotDetail where
  snapshotId := binding.snapshotId
  role := binding.role.name
  note := clip binding.note 300
  method := binding.method
  url := clip binding.url 300
  status := binding.status
  capturedAt := binding.capturedAt

/-- The tag of a subject. -/
def subjectTag (subjectId : Text) : Text := text "subject:" ++ subjectId

def unrated : Text := text "unrated"

def evidenceNode (input : SecProjectionInput) (subject : SecProjectionEvidenceSubject) :
    SecGraphNode :=
  let finding := findingOf input subject.subjectId
  let key := evidenceNodeKey subject.subjectId
  let severity := (finding.map SecProjectionFinding.severity).getD .info
  let createdAt := (earliestCapture subject).getD
    ((finding.map SecProjectionFinding.createdAt).getD input.now)
  { id := key
    key
    type := .vuln
    title := clip ((finding.map SecProjectionFinding.title).getD subject.subjectId) MAX_TITLE
    detail := .evidence subject.subjectId subject.version (subject.bindings.map snapshotDetail)
      (finding.map fun finding => ⟨clip finding.lane MAX_TITLE, finding.severity,
        finding.status.name, finding.retestSnapshotId⟩)
    severity
    is_rce := false
    risk_score := riskScore severity .vuln false
    tags := [text "evidence"] ++
      (match finding with
        | none => [unrated]
        | some finding => [text "finding", text "severity:" ++ finding.severity.name,
            text "status:" ++ finding.status.name]) ++
      [subjectTag subject.subjectId] ++
      (subject.bindings.map fun binding => text "role:" ++ binding.role.name).eraseDups
    status := (finding.map fun finding => finding.status.name).getD (text "open")
    created_at := some createdAt
    updated_at := some ((finding.map SecProjectionFinding.updatedAt).getD input.now) }

def evidenceEdge (input : SecProjectionInput) (subject : SecProjectionEvidenceSubject) :
    SecGraphEdge :=
  leadsToEdge input (evidenceNodeKey subject.subjectId) (3 / 10)
    (text "evidence subject " ++ subject.subjectId ++ text " at version " ++
      decimal subject.version)

def terminalTitle : SecTerminalClaim → Text
  | .getshell => text "getshell terminal claim"
  | .getflag => text "getflag terminal claim"
  | .highCriticalFinding => text "high/critical finding terminal claim"

def terminalSeverity (claim : SecTerminalClaim) (verified : Bool) : SecSeverity :=
  if !verified then .info else if claim = .getflag then .high else .critical

def terminalNode (terminal : SecProjectionTerminal) : SecGraphNode :=
  let key := terminalNodeKey terminal.claim
  let isRce := terminal.verified && terminal.claim = .getshell
  let severity := terminalSeverity terminal.claim terminal.verified
  { id := key
    key
    type := .goal
    title := clip (terminalTitle terminal.claim) MAX_TITLE
    detail := .terminal terminal.claim.name (clip terminal.lane MAX_TITLE) terminal.status
      (clip terminal.reason MAX_DETAIL) terminal.findingId terminal.snapshotId terminal.declaredAt
    severity
    is_rce := isRce
    risk_score := riskScore severity .goal isRce
    tags := [text "terminal", text "claim:" ++ terminal.claim.name, text "lane:" ++ terminal.lane,
      text "terminal:" ++ terminal.status]
    status := terminal.status
    created_at := some terminal.declaredAt
    updated_at := some terminal.declaredAt }

def terminalEdge (input : SecProjectionInput) (terminal : SecProjectionTerminal) : SecGraphEdge :=
  leadsToEdge input (terminalNodeKey terminal.claim) (if terminal.verified then 1 else 1 / 5)
    (clip terminal.reason MAX_DETAIL)

/-! ### Intents -/

def intentForAction (action : SecProjectionAction) (parentKey : Text) : SecGraphIntent where
  id := text "intent:conv-" ++ decimal action.conversationId
  source := [parentKey]
  description :=
    clip (if trim action.intent = [] then text "delegated action" else action.intent) MAX_DETAIL
  rationale := text "conversation " ++ decimal action.conversationId ++ text ", task " ++
    decimal action.ownerTaskId
  est_success := match action.status with
    | .done => 1
    | .failed => 1 / 20
    | .opened => 1 / 2
  status := match action.status with
    | .done => .verified
    | .failed => .disproved
    | .opened => .opened
  strategy_key := some (text "conv-" ++ decimal action.conversationId)
  priority := some (if action.status = .opened then 1 else 0)
  result_summary :=
    if action.summaryRef = [] then none else some (clip action.summaryRef MAX_DETAIL)

def intentForPlanStep (plan : SecProjectionPlan) (rootKey : Text) (step : SecProjectionPlanStep) :
    SecGraphIntent where
  id := text "intent:plan-" ++ decimal plan.revision ++ text "-" ++ step.stepId
  source := [rootKey]
  description := clip step.title MAX_DETAIL
  rationale := clip (text "plan revision " ++ decimal plan.revision ++
    if plan.rationale = [] then [] else text ": " ++ plan.rationale) MAX_DETAIL
  est_success := match step.status with
    | .done => 1
    | .dropped => 1 / 20
    | .active => 3 / 5
    | .opened => 2 / 5
  status := match step.status with
    | .done => .verified
    | .dropped => .disproved
    | .active => .active
    | .opened => .opened
  strategy_key := some step.stepId
  priority := some (if step.status = .opened ∨ step.status = .active then 1 else 0)
  result_summary := if step.detail = [] then none else some (clip step.detail MAX_DETAIL)

def projectedIntents (input : SecProjectionInput) : List SecGraphIntent :=
  let actions := (orderedActions input.actions).map fun action =>
    intentForAction action (parentKey locale input action)
  match input.plan with
  | none => actions
  | some plan =>
    if 0 < plan.steps.length then
      plan.steps.map (intentForPlanStep plan (rootTargetKey input.project))
    else actions

/-! ### Findings -/

def evidenceSummary (subject : SecProjectionEvidenceSubject) : Text :=
  if subject.bindings.length = 0 then text "no snapshots bound"
  else
    clip (join [10] (subject.bindings.map fun binding =>
      text "[" ++ binding.role.name ++ text "] " ++
        (if binding.method = [] then text "?" else binding.method) ++ text " " ++
        (if binding.url = [] then text "(no url)" else binding.url) ++ text " -> " ++
        decimal binding.status ++ if binding.note = [] then [] else text " - " ++ binding.note))
      MAX_DETAIL

def findingForSubject (subject : SecProjectionEvidenceSubject) (now : Nat) : SecFinding where
  id := subject.subjectId
  node_key := evidenceNodeKey subject.subjectId
  severity := .info
  category := text "evidence"
  title := clip subject.subjectId MAX_TITLE
  description := decimal subject.bindings.length ++ text " snapshot(s) bound at evidence version " ++
    decimal subject.version ++ text "; severity is unrated until a proof is verified"
  evidence := evidenceSummary subject
  critical := false
  created_at := (earliestCapture subject).getD now
  verification_status := .pending

def verificationOf : SecProjectionFindingStatus → SecVerificationStatus
  | .opened => .pending
  | .retestFail => .rejected
  | .wontfix => .excluded
  | .verified | .retestPass => .verified

def findingForRecord (finding : SecProjectionFinding) (subject : SecProjectionEvidenceSubject) :
    SecFinding where
  id := finding.findingId
  node_key := evidenceNodeKey finding.subjectId
  severity := finding.severity
  category := text "finding"
  title := clip finding.title MAX_TITLE
  description := finding.lane ++ text " finding at status " ++ finding.status.name ++ text "; " ++
    decimal subject.bindings.length ++ text " snapshot(s) at evidence version " ++
    decimal subject.version ++
    if finding.retestSnapshotId = [] then [] else text "; retest " ++ finding.retestSnapshotId
  evidence := evidenceSummary subject
  critical := finding.severity = .critical
  created_at := (earliestCapture subject).getD finding.createdAt
  verification_status := verificationOf finding.status

def projectedFindings (input : SecProjectionInput) : List SecFinding :=
  (subjects input).map fun subject =>
    match findingOf input subject.subjectId with
    | none => findingForSubject subject input.now
    | some finding => findingForRecord finding subject

/-! ### The graph -/

def projectedNodes (input : SecProjectionInput) : List SecGraphNode :=
  rootNode input :: (orderedActions input.actions).map (actionNode locale) ++
    (subjects input).map (evidenceNode input) ++
    (input.terminals.getD []).map terminalNode

/-- The edge of an action goes to the last node of its conversation. -/
def actionEdge (input : SecProjectionInput) (action : SecProjectionAction) : SecGraphEdge :=
  let target := match Assoc.get action.conversationId
      (actionsByConversation locale (orderedActions input.actions)) with
    | some node => node.key
    | none => []
  containsEdge (parentKey locale input action) target action.status action.ownerTaskId

def projectedEdges (input : SecProjectionInput) : List SecGraphEdge :=
  (orderedActions input.actions).map (actionEdge locale input) ++
    (subjects input).map (evidenceEdge input) ++
    (input.terminals.getD []).map (terminalEdge input)

def projectSecGraph (input : SecProjectionInput) : SecGraph :=
  let nodes := projectedNodes locale input
  let edges := projectedEdges locale input
  let findings := projectedFindings input
  let intents := projectedIntents locale input
  let marked := markRcePath locale nodes edges findings
  { nodes
    edges := marked.1
    findings
    intents
    frontier := computeFrontier intents
    rce_path := marked.2
    stats := computeStats locale nodes edges findings intents }

end TianGong.SecServer
