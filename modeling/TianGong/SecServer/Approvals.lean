/-
**The approval queue and the timeline of a run.**

`approvals.ts`, and `SecRunProjector` and `summarizeJson` (`projector.ts`).

* `SecApprovalQueue`: asks that wait for the operator. An ask is parked, and a reply, `denyAll` or
  `close` settles it.
* `SettledOnce`: each ask made is parked, or was settled, and only once.

A host without a queue is one that never asks.
-/

import TianGong.SecServer.Projector

namespace TianGong.SecServer

open List

/-! ### Summaries -/

def BODY_KEYS : List Text :=
  ["requestBase64", "responseBase64", "body", "bodyBase64", "contentBase64", "requestBytes",
    "responseBytes", "bytes"].map text

mutual
/-- `summarizeJson`, of a JSON value. -/
def summarizeJson (depth : Nat) : JsonValue → JsonValue
  | .string t =>
    if 4 < depth then .string (text "[depth limit]")
    else .string (if 300 < t.length then t.take 299 ++ ellipsis else t)
  | .array () items =>
    if 4 < depth then .string (text "[depth limit]")
    else .array () ((summarizeItems depth items).take 20 ++
      if 20 < items.length then
        [.string (text "[" ++ decimal (items.length - 20) ++ text " more]")]
      else [])
  | .object () fields =>
    if 4 < depth then .string (text "[depth limit]")
    else
      -- `out["__proto__"] = …` makes no property
      let out := ((summarizeFields depth fields).take 40).filter
        fun e => e.1 ≠ text "__proto__"
      .object () (if 40 < fields.length then Assoc.set ellipsis (.string (text "[key limit]")) out
        else out)
  | value => if 4 < depth then .string (text "[depth limit]") else value

def summarizeItems (depth : Nat) : List JsonValue → List JsonValue
  | [] => []
  | item :: rest => summarizeJson (depth + 1) item :: summarizeItems depth rest

def summarizeFields (depth : Nat) : List (Text × JsonValue) → List (Text × JsonValue)
  | [] => []
  | (key, item) :: rest =>
    (key,
      if key ∈ BODY_KEYS then
        match item with
        | .string t => .string (text "[omitted " ++ decimal (t.length * 3 / 4) ++ text " bytes]")
        | _ => .string (text "[omitted]")
      else summarizeJson (depth + 1) item) :: summarizeFields depth rest
end

/-! ### The queue -/

inductive SecAskReply where
  | allow | deny | always
  deriving DecidableEq

def SecAskReply.name : SecAskReply → Text
  | .allow => text "allow"
  | .deny => text "deny"
  | .always => text "always"

structure SecApprovalRequest where
  toolName : Text
  resource : Text
  reason : Text
  forced : Bool
  args : JsonValue

/-- `Entry`: what waits, and the ask whose promise it resolves. -/
structure ApprovalEntry where
  pending : SecAskPayload
  ask : Nat

structure SecApprovalQueue where
  entries : List (Text × ApprovalEntry)
  sequence : Nat
  closed : Bool
  /-- The asks made so far; they are numbered. -/
  asked : Nat
  /-- The promises that were resolved. -/
  settled : List (Nat × SecAskReply)

namespace SecApprovalQueue

def empty : SecApprovalQueue := ⟨[], 0, false, 0, []⟩

variable (queue : SecApprovalQueue)

/-- What an ask is parked as. -/
def parked (request : SecApprovalRequest) : SecAskPayload where
  id := text "ask-" ++ decimal (queue.sequence + 1)
  toolName := request.toolName
  resource := request.resource
  reason := request.reason
  forced := request.forced
  args := summarizeJson 0 request.args

def ask (request : SecApprovalRequest) : SecApprovalQueue :=
  if queue.closed then
    { queue with asked := queue.asked + 1, settled := queue.settled ++ [(queue.asked, .deny)] }
  else
    let pending := queue.parked request
    { queue with
      sequence := queue.sequence + 1
      asked := queue.asked + 1
      entries := Assoc.set pending.id ⟨pending, queue.asked⟩ queue.entries }

/-- `reply`, of an id that is pending. -/
def reply (id : Text) (entry : ApprovalEntry) (reply : SecAskReply) : SecApprovalQueue :=
  { queue with
    entries := Assoc.erase id queue.entries
    settled := queue.settled ++ [(entry.ask, reply)] }

def pending : List SecAskPayload := queue.entries.map fun e => e.2.pending

def denyAll : SecApprovalQueue :=
  { queue with
    entries := []
    settled := queue.settled ++ queue.entries.map fun e => (e.2.ask, .deny) }

def close : SecApprovalQueue := { queue.denyAll with closed := true }

/-! ### Each ask is settled once -/

/-- The asks that wait. -/
def waiting : List Nat := queue.entries.map fun e => e.2.ask

/-- **Each ask made waits or was settled, and only once.** -/
def SettledOnce : Prop :=
  (queue.waiting ++ queue.settled.map Prod.fst).Perm (List.range queue.asked)

/-- What the queue keeps: the ids are those of the sequence, each with its own entry. -/
structure Keyed : Prop where
  nodup : (Assoc.keys queue.entries).Nodup
  named : ∀ e ∈ queue.entries, e.2.pending.id = e.1 ∧
    ∃ n, n ≤ queue.sequence ∧ e.1 = text "ask-" ++ decimal n
  once : queue.SettledOnce

variable {queue}

theorem keyed_empty : empty.Keyed where
  nodup := nodup_nil
  named _ member := by cases member
  once := .refl _

/-- The id of a new ask is not in use. -/
theorem fresh (keyed : queue.Keyed) (request : SecApprovalRequest) :
    (queue.parked request).id ∉ Assoc.keys queue.entries := by
  intro member
  obtain ⟨e, inside, same⟩ := List.mem_map.mp member
  obtain ⟨-, n, bound, isId⟩ := keyed.named e inside
  have numbers : decimal n = decimal (queue.sequence + 1) := by
    refine @append_cancel_left _ (text "ask-") _ _ ?_
    rw [← isId]
    exact same
  have equal := decimal_injective numbers
  omega

theorem set_fresh {V : Type} {k : Text} {v : V} {entries : List (Text × V)}
    (absent : k ∉ Assoc.keys entries) : Assoc.set k v entries = entries ++ [(k, v)] := by
  unfold Assoc.set
  rw [if_neg]
  rw [Bool.not_eq_true, Bool.eq_false_iff]
  exact fun has => absent (Assoc.has_iff.mp has)

theorem keyed_ask (keyed : queue.Keyed) (request : SecApprovalRequest) :
    (queue.ask request).Keyed := by
  unfold ask
  split
  · refine ⟨keyed.nodup, keyed.named, ?_⟩
    show (queue.waiting ++ (queue.settled ++ [(queue.asked, SecAskReply.deny)]).map Prod.fst).Perm
      (List.range (queue.asked + 1))
    rw [map_append, ← append_assoc, range_succ]
    exact keyed.once.append_right _
  · have absent := fresh keyed request
    dsimp only
    rw [set_fresh absent]
    constructor
    case nodup =>
      rw [Assoc.keys_append]
      refine List.nodup_append.mpr ⟨keyed.nodup, nodup_singleton _, ?_⟩
      rintro k inside k' new rfl
      cases List.mem_singleton.mp new
      exact absent inside
    case named =>
      intro e member
      rcases List.mem_append.mp member with before | new
      · obtain ⟨isId, n, bound, is⟩ := keyed.named e before
        exact ⟨isId, n, Nat.le_succ_of_le bound, is⟩
      · cases List.mem_singleton.mp new
        exact ⟨rfl, queue.sequence + 1, Nat.le_refl _, rfl⟩
    case once =>
      unfold SettledOnce waiting
      rw [map_append, range_succ]
      show (queue.waiting ++ [queue.asked] ++ queue.settled.map Prod.fst).Perm _
      rw [append_assoc]
      refine (List.Perm.append_left _ perm_append_comm).trans ?_
      rw [← append_assoc]
      exact keyed.once.append_right _

theorem erase_perm {id : Text} {entry : ApprovalEntry} {entries : List (Text × ApprovalEntry)}
    (nodup : (Assoc.keys entries).Nodup) (found : Assoc.get id entries = some entry) :
    ((Assoc.erase id entries) ++ [(id, entry)]).Perm entries := by
  induction entries with
  | nil => cases found
  | cons e rest ih =>
    obtain ⟨key, value⟩ := e
    rw [Assoc.keys_cons, nodup_cons] at nodup
    by_cases same : key = id
    · subst same
      rw [Assoc.get_cons_self] at found
      have isEntry : value = entry := Option.some.inj found
      subst isEntry
      have kept : Assoc.erase key ((key, value) :: rest) = rest := by
        unfold Assoc.erase
        rw [filter_cons, if_neg (by simp)]
        refine List.filter_eq_self.mpr fun e member => decide_eq_true ?_
        rintro rfl
        exact nodup.1 (List.mem_map.mpr ⟨e, member, rfl⟩)
      rw [kept]
      exact perm_append_comm
    · rw [Assoc.get_cons_ne same] at found
      have kept : Assoc.erase id ((key, value) :: rest) = (key, value) :: Assoc.erase id rest := by
        unfold Assoc.erase
        rw [filter_cons, if_pos (by simpa using same)]
      rw [kept, cons_append]
      exact (ih nodup.2 found).cons _

theorem keyed_reply (keyed : queue.Keyed) {id : Text} {entry : ApprovalEntry}
    (found : Assoc.get id queue.entries = some entry) (reply : SecAskReply) :
    (queue.reply id entry reply).Keyed where
  nodup := Assoc.nodup_erase id keyed.nodup
  named e member := keyed.named e (List.mem_filter.mp member).1
  once := by
    have moved : (((Assoc.erase id queue.entries) ++ [(id, entry)]).map fun e => e.2.ask).Perm
        queue.waiting := (erase_perm keyed.nodup found).map _
    rw [map_append] at moved
    unfold SettledOnce waiting SecApprovalQueue.reply
    rw [map_append]
    dsimp only
    refine .trans ?_ keyed.once
    refine .trans ?_ (moved.append_right _)
    rw [append_assoc]
    exact List.Perm.append_left _ perm_append_comm

theorem keyed_denyAll (keyed : queue.Keyed) : queue.denyAll.Keyed where
  nodup := nodup_nil
  named _ member := by cases member
  once := by
    have once := keyed.once
    unfold SettledOnce waiting at once
    unfold SettledOnce waiting denyAll
    rw [map_append, map_map, map_nil, nil_append]
    exact List.perm_append_comm.trans once

theorem keyed_close (keyed : queue.Keyed) : queue.close.Keyed where
  nodup := (keyed_denyAll keyed).nodup
  named := (keyed_denyAll keyed).named
  once := (keyed_denyAll keyed).once

end SecApprovalQueue

/-! ### The timeline -/

/-- The message of an entry. -/
inductive AgentMessage where
  | assistant (texts : List Text)
  | user (content : Text)
  | other

structure ToolResult where
  isError : Bool
  durationMs : Option Nat

/-- `AgentEvent`, as far as `apply` reads it. -/
inductive AgentEvent where
  | snapshot (run : Bool) (inbox : Nat)
  | runStart
  | runEnd
  | turnStart
  | turnEnd
  | inboxUpdate (items : Nat)
  | toolExecutionStart (toolCallId toolName : Text) (args : JsonValue)
  | toolExecutionEnd (toolCallId toolName : Text) (result : Option ToolResult)
  | messageEnd (kind : Text) (message : AgentMessage)
  | autoRetryStart (attempt : Nat) (errorMessage : Text)
  | autoRetryEnd (attempt : Nat)
  | deferredPoll
  | taskFailed (kind message : Text)
  | compactionStart (reason : Text)
  | compactionEnd (reason : Text) (error : Option Text)
  | unanswered (reason : Text)
  | other

def logFrame (level : SecLogLevel) (message : Text) (now : Nat) : SecServerFrame :=
  ⟨now, .log ⟨level, message⟩⟩

def statusFrame (state : SecRunState) (now : Nat) : SecServerFrame :=
  ⟨now, .status ⟨if state.running then text "running" else text "idle", state.turn, state.running,
    state.queued⟩⟩

/-- The run state after an event, and whether the event is about it. -/
def SecRunState.after (state : SecRunState) : AgentEvent → SecRunState × Bool
  | .snapshot run inbox => ({ state with running := run, queued := inbox }, true)
  | .runStart => ({ state with running := true }, true)
  | .runEnd => ({ state with running := false }, true)
  | .turnStart => ({ state with turn := state.turn + 1 }, true)
  | .turnEnd => (state, true)
  | .inboxUpdate items => ({ state with queued := items }, true)
  | _ => (state, false)

/-- The frames of an event. -/
def eventFrames (now : Nat) : AgentEvent → List SecServerFrame
  | .toolExecutionStart callId name args =>
    [⟨now, .tool ⟨callId, name, false, some (summarizeJson 0 args), none, none⟩⟩]
  | .toolExecutionEnd callId name result =>
    [⟨now, .toolResult ⟨callId, name, true, none, some (match result with
        | some result => !result.isError
        | none => false),
      result.bind ToolResult.durationMs⟩⟩]
  | .messageEnd _ (.assistant texts) =>
    let said := trim texts.flatten
    if said = [] then []
    else [⟨now, .thought (if 4000 < said.length then said.take 3999 ++ ellipsis else said)⟩]
  | .messageEnd kind (.user content) =>
    if kind = text "sec.steer" ∧ trim content ≠ [] then
      [⟨now, .steer ⟨trim content, false, text "user"⟩⟩]
    else []
  | .autoRetryStart attempt errorMessage =>
    [logFrame .warn (text "provider retry " ++ decimal attempt ++ text ": " ++ errorMessage) now]
  | .autoRetryEnd attempt =>
    [logFrame .info (text "provider retry " ++ decimal attempt ++ text " ended") now]
  | .deferredPoll =>
    [logFrame .info (text "provider is deferred; the harness will poll again") now]
  | .taskFailed kind message =>
    [logFrame .error (text "task " ++ kind ++ text " failed: " ++ message) now]
  | .compactionStart reason =>
    [logFrame .info (text "compaction started (" ++ reason ++ text ")") now]
  | .compactionEnd reason none =>
    [logFrame .info (text "compaction finished (" ++ reason ++ text ")") now]
  | .compactionEnd reason (some error) =>
    [logFrame .error (text "compaction failed (" ++ reason ++ text "): " ++ error) now]
  | .unanswered reason => [logFrame .warn (text "submission unanswered: " ++ reason) now]
  | _ => []

/-- `apply`: the run state and the frames after events. -/
def SecRunState.apply (state : SecRunState) (events : List AgentEvent) (now : Nat) :
    SecRunState × List SecServerFrame :=
  let after := events.foldl (fun (acc : SecRunState × Bool) event =>
    ((acc.1.after event).1, acc.2 || (acc.1.after event).2)) (state, false)
  (after.1, events.flatMap (eventFrames now) ++
    if after.2 then [statusFrame after.1 now] else [])

/-! ### What the frames of events change -/

/-- A frame that changes no screen. -/
def SecServerFrame.Said (frame : SecServerFrame) : Prop :=
  match frame.body with
  | .steer _ | .log _ | .status _ | .tool _ | .toolResult _ | .thought _ | .pong => True
  | _ => False

theorem fold_said (screen : Screen) {frames : List SecServerFrame}
    (said : ∀ frame ∈ frames, frame.Said) : screen.fold frames = screen := by
  induction frames with
  | nil => rfl
  | cons frame rest ih =>
    have here := said frame mem_cons_self
    have head : screen.handleFrame frame = screen := by
      obtain ⟨ts, body⟩ := frame
      cases body <;> first | rfl | exact here.elim
    show (screen.handleFrame frame).fold rest = screen
    rw [head]
    exact ih fun frame member => said frame (mem_cons_of_mem _ member)

theorem said_eventFrames (now : Nat) (event : AgentEvent) :
    ∀ frame ∈ eventFrames now event, frame.Said := by
  intro frame inside
  unfold eventFrames at inside
  split at inside
  case h_3 =>
    dsimp only at inside
    split at inside
    · cases inside
    · cases List.mem_singleton.mp inside
      trivial
  case h_4 =>
    split at inside
    · cases List.mem_singleton.mp inside
      trivial
    · cases inside
  all_goals first
    | (cases List.mem_singleton.mp inside; trivial)
    | cases inside

theorem said_apply (state : SecRunState) (events : List AgentEvent) (now : Nat) :
    ∀ frame ∈ (state.apply events now).2, frame.Said := by
  intro frame member
  rcases List.mem_append.mp member with said | status
  · obtain ⟨event, -, inside⟩ := List.mem_flatMap.mp said
    exact said_eventFrames now event frame inside
  · split at status
    · cases List.mem_singleton.mp status
      trivial
    · cases status

end TianGong.SecServer
