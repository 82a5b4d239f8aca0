/-
**The guard chain.**

`guard.ts`, with `mode.ts` and `types.ts`. `evaluate` is the chain over one request: hard deny, the
intercept rules, weak self-protection, scope, danger, and then the mode. What an injected dependency
answers is an argument (`Observed`, `JudgeOutcome`): any rule table, resolver, evaluator, judge and
grant store is some choice of answers, and may answer differently at every call.

The machine below runs any number of `beforeTool` calls at once. Each `await` of the source is a place
where other calls, or a mode switch, can go on. A call's record holds what it has read so far.
-/

import TianGong.SecGuard.HardDeny
import TianGong.SecGuard.Rules

namespace TianGong.SecGuard

open TianGong.Json

/-! ### Modes -/

inductive TgSecPermissionMode where
  | strict | judgeAuto | auto | yolo
  deriving DecidableEq

def TgSecPermissionMode.name : TgSecPermissionMode → Text
  | .strict => text "strict"
  | .judgeAuto => text "judge-auto"
  | .auto => text "auto"
  | .yolo => text "yolo"

def TG_SEC_MODES : List TgSecPermissionMode := [.strict, .judgeAuto, .auto, .yolo]

def TG_SEC_DEFAULT_MODE : TgSecPermissionMode := .auto

/-- The `mode` field of a mode document: a string, or another value with its text. -/
inductive ModeField where
  | string (t : Text)
  | other (rendered : Text)

/-- `isTgSecMode`, with the mode it finds. -/
def isTgSecMode : ModeField → Option TgSecPermissionMode
  | .string t => TG_SEC_MODES.find? fun mode => mode.name = t
  | .other _ => none

/-- `JSON.stringify` of the field. -/
def ModeField.rendered : ModeField → Text
  | .string t => quote t
  | .other rendered => rendered

/-- `readTgSecMode`, of the document that the snapshot gave. -/
def readTgSecMode : Option ModeField → Except Text TgSecPermissionMode
  | none => .ok TG_SEC_DEFAULT_MODE
  | some field =>
    match isTgSecMode field with
    | some mode => .ok mode
    | none =>
      .error (text "tg.sec.mode holds " ++ field.rendered ++
        text ", which is not one of strict, judge-auto, auto, yolo")

/-! ### Decisions -/

inductive TgSecDecision where
  | allow
  | deny (reason : Text)
  | ask (reason : Text) (forced : Bool)
  deriving DecidableEq

inductive TgSecMatchedLayer where
  | hardDeny | rules | selfProtection | scope | danger | grants | mode
  deriving DecidableEq

/-- A built-in rule id: one of hard deny or the id a danger evaluator names. -/
inductive TgSecRuleId where
  | hardDeny (id : TgSecHardDenyRuleId)
  | danger (id : Text)

structure TgSecEvaluation where
  decision : TgSecDecision
  layer : TgSecMatchedLayer
  ruleId : Option TgSecRuleId

structure TgSecScopeVerdict where
  inScope : Bool
  reason : Option Text

structure TgSecDangerHit where
  hit : Bool
  rule : Option Text
  reason : Option Text

/-- What the injected dependencies answer for one request, the grant store apart. -/
structure Observed where
  addresses : List Text
  rulesHit : Option TgSecRule
  scope : TgSecScopeVerdict
  danger : TgSecDangerHit

/-- What becomes of the judge's promise. -/
inductive JudgeOutcome where
  | verdict (allow : Bool) (comment : Text)
  | timedOut
  | failed (message : Text)

/-- `judgeWithTimeout`, once its promise is settled. -/
def judgeWithTimeout : JudgeOutcome → TgSecEvaluation
  | .verdict true _ => ⟨.allow, .mode, none⟩
  | .verdict false comment =>
    ⟨.ask (if comment = [] then text "the judge asked for a human" else comment) false, .mode, none⟩
  | .timedOut => ⟨.ask (text "the judge timed out") false, .mode, none⟩
  | .failed message =>
    ⟨.ask (text "the judge failed and the call escalates to a human: " ++ message) false, .mode, none⟩

/-- How an evaluation goes on: it is settled, it waits for the judge, or it throws. -/
inductive Evaluated where
  | settled (evaluation : TgSecEvaluation)
  | consults
  | throws (message : Text)

/-- The decision of a deny or ask rule. -/
def ruleDecision (rule : TgSecRule) : TgSecDecision :=
  let forced : Bool := rule.effect = .deny
  let named := text "intercept rule \"" ++ rule.id ++ text "\" (" ++ rule.pattern ++ text ")"
  let note := match rule.note with
    | none => []
    | some note => text " — " ++ note
  .ask (if forced then
      named ++ text " denies this call by policy" ++ note ++
        text ": a human may approve this one, but no grant and no mode exempts it"
    else named ++ text " asks for a human decision on this call" ++ note) forced

/-- The mode dispatch at the end of `evaluate`. `granted` is what the grant store answers. -/
def dispatch (hasJudge : Bool) (mode : TgSecPermissionMode) (rulesHit : Option TgSecRule)
    (granted : Bool) : Evaluated :=
  let allowed := rulesHit.any fun rule => rule.effect = .allow
  match mode with
  | .strict =>
    .settled ⟨.ask (text "strict mode puts every tool call in front of a human") false, .mode, none⟩
  | .judgeAuto =>
    if allowed then .settled ⟨.allow, .rules, none⟩
    else if hasJudge then .consults
    else .throws (text "judge-auto reached evaluation without a judge")
  | .auto | .yolo =>
    if allowed then .settled ⟨.allow, .rules, none⟩
    else if granted then .settled ⟨.allow, .grants, none⟩
    else .settled ⟨.allow, .mode, none⟩

/-- `evaluate`, up to the judge. -/
def evaluate (L : LowerCase) (hasJudge : Bool) (request : TgSecRequest) (mode : TgSecPermissionMode)
    (observed : Observed) (granted : Bool) : Evaluated :=
  match evaluateHardDeny L request observed.addresses with
  | some denial => .settled ⟨.deny denial.reason, .hardDeny, some (.hardDeny denial.ruleId)⟩
  | none =>
    match observed.rulesHit.filter fun rule => rule.effect ≠ .allow with
    | some rule => .settled ⟨ruleDecision rule, .rules, none⟩
    | none =>
      match evaluateWeakSelfProtection L request observed.addresses with
      | some weak => .settled ⟨.ask weak.reason true, .selfProtection, some (.hardDeny weak.ruleId)⟩
      | none =>
        if !observed.scope.inScope then
          .settled ⟨.ask (observed.scope.reason.getD
            (text "the target is outside the registered scope")) true, .scope, none⟩
        else if observed.danger.hit then
          .settled ⟨.ask (observed.danger.reason.getD
            (text "the call matches the dangerous-instruction set")) true, .danger,
            observed.danger.rule.map .danger⟩
        else dispatch hasJudge mode observed.rulesHit granted

/-! ### Calls -/

/-- The human reply to an ask. -/
inductive TgSecAskReply where
  | allow | deny | always
  deriving DecidableEq

/-- Where a `beforeTool` call is. -/
inductive Phase where
  /-- `readTgSecMode` is under way. -/
  | reading
  /-- `decisionFor` has captured the mode and has not evaluated. -/
  | deciding (mode : TgSecPermissionMode)
  /-- The judge is at work. -/
  | judging
  /-- `decisionFor` has resolved. -/
  | decided (decision : TgSecDecision)
  /-- The ask channel is at work. -/
  | asking (reason : Text) (forced : Bool)
  /-- The call has returned: nothing, or a block. -/
  | returned (block : Option Text)
  /-- The call has thrown; the harness blocks it. -/
  | thrown (message : Text)
  deriving DecidableEq

/-- A call: where it is, and what it has read. -/
structure Call where
  request : TgSecRequest
  phase : Phase
  document : Option (Option ModeField)
  observed : Option Observed
  judged : Option JudgeOutcome
  asked : Option (Text × Bool)
  reply : Option TgSecAskReply

def toTgSecRequest (name : Text) (arguments : Json Unit) : TgSecRequest :=
  ⟨name, text "tool:" ++ name, arguments⟩

structure TgSecGuardOptions where
  hasJudge : Bool
  hasAskChannel : Bool

/-- The guard: the cached mode, the grants it has added and by which call, and the calls. -/
structure GuardState where
  currentMode : TgSecPermissionMode
  granted : List (Nat × Text)
  calls : List Call

/-- What can happen next. -/
inductive Action where
  /-- `beforeTool` is called. -/
  | beforeTool (name : Text) (arguments : Json Unit)
  /-- A mode document is read, and the mode captured by `decisionFor`. -/
  | read (call : Nat) (document : Option ModeField)
  /-- `evaluate` runs, with the answers of the dependencies. -/
  | evaluate (call : Nat) (observed : Observed) (granted : Bool)
  /-- The judge's promise is settled. -/
  | judge (call : Nat) (outcome : JudgeOutcome)
  /-- The decision arrives in `beforeTool`. -/
  | resume (call : Nat)
  /-- The human replies. -/
  | reply (call : Nat) (reply : TgSecAskReply)
  /-- A dependency throws. -/
  | fail (call : Nat) (message : Text)
  /-- A mode switch is committed. -/
  | switchMode (mode : TgSecPermissionMode)

/-- What a call does when a mode document arrives. -/
def Call.read (call : Call) (document : Option ModeField) : Call :=
  match call.phase, readTgSecMode document with
  | .reading, .ok mode => { call with phase := .deciding mode, document := some document }
  | .reading, .error message => { call with phase := .thrown message, document := some document }
  | _, _ => call

/-- The phase after an evaluation. -/
def Evaluated.phase : Evaluated → Phase
  | .settled evaluation => .decided evaluation.decision
  | .consults => .judging
  | .throws message => .thrown message

def Call.evaluate (L : LowerCase) (hasJudge : Bool) (call : Call) (observed : Observed)
    (granted : Bool) : Call :=
  match call.phase with
  | .deciding mode =>
    { call with
      phase := (SecGuard.evaluate L hasJudge call.request mode observed granted).phase
      observed := some observed }
  | _ => call

def Call.judge (call : Call) (outcome : JudgeOutcome) : Call :=
  match call.phase with
  | .judging =>
    { call with phase := .decided (judgeWithTimeout outcome).decision, judged := some outcome }
  | _ => call

/-- The rest of `beforeTool`, up to the ask channel. -/
def Call.resume (hasAskChannel : Bool) (call : Call) : Call :=
  match call.phase with
  | .decided .allow => { call with phase := .returned none }
  | .decided (.deny reason) => { call with phase := .returned (some reason) }
  | .decided (.ask reason forced) =>
    if hasAskChannel then { call with phase := .asking reason forced, asked := some (reason, forced) }
    else { call with
      phase := .returned (some (text "the guard fails closed without an ask channel: " ++ reason)) }
  | _ => call

/-- The end of `beforeTool`. -/
def Call.replied (call : Call) (reply : TgSecAskReply) : Call :=
  match call.phase with
  | .asking reason _ =>
    { call with
      phase := .returned (if reply = .deny then some reason else none)
      reply := some reply }
  | _ => call

/-- The grant a reply adds. -/
def Call.grant (call : Call) (reply : TgSecAskReply) : Option Text :=
  match call.phase with
  | .asking _ forced => if reply = .always ∧ forced = false then some call.request.resource else none
  | _ => none

def Call.fail (call : Call) (message : Text) : Call :=
  match call.phase with
  | .returned _ | .thrown _ => call
  | _ => { call with phase := .thrown message }

/-- Change a call. -/
def GuardState.update (s : GuardState) (i : Nat) (f : Call → Call) : GuardState :=
  { s with calls := s.calls.modify i f }

/-- **One step of the guard.** -/
def step (L : LowerCase) (options : TgSecGuardOptions) (s : GuardState) : Action → GuardState
  | .beforeTool name arguments =>
    { s with calls := s.calls ++ [⟨toTgSecRequest name arguments, .reading, none, none, none, none, none⟩] }
  | .read i document =>
    match s.calls[i]?, readTgSecMode document with
    | some ⟨_, .reading, _, _, _, _, _⟩, .ok mode =>
      { s.update i (·.read document) with currentMode := mode }
    | _, _ => s.update i (·.read document)
  | .evaluate i observed granted => s.update i (·.evaluate L options.hasJudge observed granted)
  | .judge i outcome => s.update i (·.judge outcome)
  | .resume i => s.update i (·.resume options.hasAskChannel)
  | .reply i reply =>
    { s.update i (·.replied reply) with
      granted := s.granted ++ ((s.calls[i]?.bind (·.grant reply)).map (i, ·)).toList }
  | .fail i message => s.update i (·.fail message)
  | .switchMode mode =>
    if mode = .judgeAuto ∧ options.hasJudge = false then s else { s with currentMode := mode }

/-- The guard at its construction. -/
def GuardState.init (mode : TgSecPermissionMode) : GuardState := ⟨mode, [], []⟩

end TianGong.SecGuard
