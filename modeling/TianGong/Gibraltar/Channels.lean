/-
**Which stage speaks of what.**

A consumer of agent events that follows runs, turns, messages or tool calls looks at the events of one
`Channel`. The events of a commit on a channel are those of a few stages of the translation.

* `get_mapOf`: a map that is built from slots holds each of them, when their keys are distinct.
-/

import TianGong.Gibraltar.Events

namespace TianGong.Gibraltar

open List
open TianGong.Chord

inductive Channel where
  | snapshot | run | turn | message | tool | other
  deriving DecidableEq

def AgentEvent.channel : AgentEvent → Channel
  | .snapshot _ => .snapshot
  | .runStart _ | .runEnd _ => .run
  | .turnStart | .turnEnd => .turn
  | .messageStart _ | .messageUpdate _ _ | .messageEnd _ => .message
  | .toolExecutionStart _ _ | .toolExecutionUpdate _ _ | .toolExecutionEnd _ _ _ => .tool
  | _ => .other

/-- The events of a channel. -/
def onChannel (channel : Channel) (events : List AgentEvent) : List AgentEvent :=
  events.filter fun event => event.channel = channel

/-- Events that are all of a channel. -/
def AllOn (channel : Channel) (events : List AgentEvent) : Prop :=
  ∀ event ∈ events, event.channel = channel

section Lists

variable {channel elsewhere : Channel} {events more : List AgentEvent}

theorem onChannel_append : onChannel channel (events ++ more) =
    onChannel channel events ++ onChannel channel more := filter_append ..

theorem AllOn.same (all : AllOn channel events) : onChannel channel events = events :=
  List.filter_eq_self.mpr fun event isIn => decide_eq_true (all event isIn)

theorem AllOn.none (all : AllOn elsewhere events) (different : elsewhere ≠ channel) :
    onChannel channel events = [] :=
  List.filter_eq_nil_iff.mpr fun event isIn same =>
    different ((all event isIn).symm.trans (of_decide_eq_true same))

/-- What a channel has of events that are all of one. -/
theorem AllOn.pick (all : AllOn elsewhere events) :
    onChannel channel events = if elsewhere = channel then events else [] := by
  split
  · rename_i same
    exact (same ▸ all).same
  · rename_i different
    exact all.none different

theorem allOn_nil : AllOn channel [] := fun _ isIn => (not_mem_nil isIn).elim

theorem AllOn.append (first : AllOn channel events) (second : AllOn channel more) :
    AllOn channel (events ++ more) := fun event isIn =>
  (List.mem_append.mp isIn).elim (first event) (second event)

theorem allOn_map {Item : Type*} {items : List Item} {event : Item → AgentEvent}
    (each : ∀ item, (event item).channel = channel) : AllOn channel (items.map event) := by
  intro _ isIn
  obtain ⟨item, -, rfl⟩ := List.mem_map.mp isIn
  exact each item

theorem allOn_filterMap {Item : Type*} {items : List Item} {event : Item → Option AgentEvent}
    (each : ∀ item shown, event item = some shown → shown.channel = channel) :
    AllOn channel (items.filterMap event) := by
  intro _ isIn
  obtain ⟨item, -, shows⟩ := List.mem_filterMap.mp isIn
  exact each item _ shows

theorem allOn_if {condition : Prop} [Decidable condition] {event : AgentEvent}
    (on : event.channel = channel) : AllOn channel (if condition then [event] else []) := by
  split
  · exact List.forall_mem_singleton.mpr on
  · exact allOn_nil

end Lists

/-! ### The stages -/

variable (streamed assistantAppended : Bool)

section Stages

variable {was now : LiveState} {entries : List EntryRecord} {ends : List ToolEnd}

theorem toolStarts_on (tasks : List (TaskId × TaskRecord)) : AllOn .tool (toolStarts tasks was now) := by
  unfold toolStarts
  refine AllOn.append ?_ ?_ <;> exact allOn_map fun _ => rfl

theorem streamEvents_on (viewOps : List (Op (Json Unit))) :
    AllOn .message (streamEvents viewOps was now) := by
  unfold streamEvents
  split
  · exact List.forall_mem_singleton.mpr rfl
  · split
    · exact allOn_nil
    · exact List.forall_mem_singleton.mpr rfl
  · exact allOn_nil

theorem toolUpdates_on (viewOps : List (Op (Json Unit))) : AllOn .tool (toolUpdates viewOps was now) := by
  refine (allOn_filterMap ?_).append (allOn_filterMap ?_) <;>
  · intro at_ event shows
    split at shows
    · split at shows
      · obtain ⟨update, -, rfl⟩ := Option.map_eq_some_iff.mp shows
        rfl
      · cases shows
    · cases shows

theorem retryEvents_on : AllOn .other (retryEvents was now) := by
  unfold retryEvents
  refine (AllOn.append ?_ ?_).append ?_
  · split
    · exact List.forall_mem_singleton.mpr rfl
    · exact allOn_nil
  · split
    · exact List.forall_mem_singleton.mpr rfl
    · exact allOn_nil
  · split
    · split
      · exact allOn_nil
      · exact List.forall_mem_singleton.mpr rfl
    · exact allOn_nil

theorem nestedEnds_on (nestedResults : List (TaskId × Json Unit)) :
    AllOn .tool (nestedEnds nestedResults was now) := by
  refine (allOn_filterMap ?_).append (allOn_map fun _ => rfl)
  intro previous event shows
  unfold nestedSlotEnd at shows
  split at shows
  · cases shows
  · split at shows
    · split at shows
      · cases shows
        rfl
      · cases shows
    · cases shows
      rfl

theorem toolEnds_on : AllOn .tool (ends.map ToolEnd.event) := allOn_map fun _ => rfl

theorem compactionEnds_on : AllOn .other (compactionEnds was now) := allOn_map fun _ => rfl

theorem compactionStarts_on : AllOn .other (compactionStarts was now) := allOn_map fun _ => rfl

theorem taskFailures_on (task : TaskRecord) (outcome : TaskOutcome) :
    AllOn .other (taskFailures task outcome) := by
  unfold taskFailures
  split <;> first | exact List.forall_mem_singleton.mpr rfl | exact allOn_nil

theorem Turns.add_on {turns : Turns} (outside : AllOn .other turns.failures) (task : TaskRecord) :
    AllOn .other (turns.add task).failures := by
  unfold Turns.add
  split
  · exact outside
  · split <;> exact outside
  · split
    · split <;> exact outside.append (taskFailures_on _ _)
    · exact outside.append (taskFailures_on _ _)

theorem turnsOf_on (held : List TaskId) (tasks : List (TaskId × TaskRecord)) :
    AllOn .other (turnsOf held tasks).failures := by
  unfold turnsOf
  generalize tasks.map Prod.snd = records
  have start : AllOn .other (Turns.mk held false []).failures := allOn_nil
  generalize Turns.mk held false [] = turns at start
  induction records generalizing turns with
  | nil => exact start
  | cons task records ih => exact ih _ (Turns.add_on start task)

theorem runEnds_on : AllOn .run (runEnds was now) := by
  unfold runEnds
  split
  · exact allOn_if rfl
  · exact allOn_nil

theorem runStarts_on : AllOn .run (runStarts was now) := by
  unfold runStarts
  split
  · exact allOn_if rfl
  · exact allOn_nil

theorem turnStarts_on (tasks : List (TaskId × TaskRecord)) : AllOn .turn (turnStarts tasks was now) := by
  unfold turnStarts
  split
  · exact allOn_if rfl
  · exact allOn_nil

theorem documentEvents_on (before after : ConversationView) :
    AllOn .other (documentEvents before after) := by
  unfold documentEvents
  refine (AllOn.append ?_ ?_).append ?_ <;>
  · split
    · exact allOn_nil
    · exact List.forall_mem_singleton.mpr rfl

/-! ### The entries -/

/-- The ends of tools that precede the entries of their results. -/
def entryEnds (ends : List ToolEnd) (entries : List EntryRecord) : List AgentEvent :=
  entries.flatMap fun entry =>
    (ends.filter fun ended => ended.entry.map EntryRecord.id = some entry.id).map ToolEnd.event

/-- The messages of the entries. -/
def entryMessages (streamed : Bool) : Bool → List EntryRecord → List AgentEvent
  | _, [] => []
  | assistantAppended, entry :: rest =>
    match entry.message with
    | none => entryMessages streamed assistantAppended rest
    | some message =>
      (if message.isAssistant && streamed && !assistantAppended then []
        else [.messageStart (.entry message)]) ++
      .messageEnd entry :: entryMessages streamed (assistantAppended || message.isAssistant) rest

theorem entryEvents_message :
    onChannel .message (entryEvents streamed ends assistantAppended entries) =
      entryMessages streamed assistantAppended entries := by
  induction entries generalizing assistantAppended with
  | nil => rfl
  | cons entry rest ih =>
    unfold entryEvents entryMessages
    rw [onChannel_append, toolEnds_on.none (by decide), nil_append]
    cases entry.message with
    | none => exact ih assistantAppended
    | some message =>
      dsimp only
      rw [onChannel_append]
      congr 1
      · split <;> rfl
      · exact congrArg (AgentEvent.messageEnd entry :: ·) (ih _)

theorem entryEvents_tool :
    onChannel .tool (entryEvents streamed ends assistantAppended entries) = entryEnds ends entries := by
  induction entries generalizing assistantAppended with
  | nil => rfl
  | cons entry rest ih =>
    unfold entryEvents
    rw [onChannel_append, toolEnds_on.same, entryEnds, flatMap_cons, ← entryEnds]
    congr 1
    cases entry.message with
    | none => exact ih assistantAppended
    | some message =>
      dsimp only
      rw [onChannel_append, ← ih (assistantAppended || message.isAssistant)]
      split <;> rfl

/-- The entries say nothing of runs and turns. -/
theorem entryEvents_none {channel : Channel} (notTool : channel ≠ .tool)
    (notMessage : channel ≠ .message) (notOther : channel ≠ .other) :
    onChannel channel (entryEvents streamed ends assistantAppended entries) = [] := by
  have single (event : AgentEvent) (off : channel ≠ event.channel) (events : List AgentEvent) :
      onChannel channel (event :: events) = onChannel channel events :=
    filter_cons_of_neg fun same => off (of_decide_eq_true same).symm
  induction entries generalizing assistantAppended with
  | nil => rfl
  | cons entry rest ih =>
    unfold entryEvents
    rw [onChannel_append, toolEnds_on.none notTool.symm, nil_append]
    cases entry.message with
    | none => exact (single (.entryAppended entry) notOther _).trans (ih assistantAppended)
    | some message =>
      dsimp only
      rw [onChannel_append, single (.messageEnd entry) notMessage, ih, append_nil]
      split
      · rfl
      · exact single (.messageStart (.entry message)) notMessage _

/-! ### A commit -/

variable (published : Published) (before after : ConversationView) (viewOps : List (Op (Json Unit)))
  (held : List TaskId)

theorem submissions_on (submissions : List SubmissionRecord) :
    AllOn .other (submissions.map .submission) := allOn_map fun _ => rfl

/-- The events of a commit on a channel, stage by stage. -/
theorem onChannel_eventsOf (channel : Channel) :
    onChannel channel (eventsOf published before after viewOps (turnsOf held published.tasks)) =
      (if .tool = channel then toolStarts published.tasks before.live after.live else []) ++
      (if .message = channel then streamEvents viewOps before.live after.live else []) ++
      (if .tool = channel then toolUpdates viewOps before.live after.live else []) ++
      (if .other = channel then retryEvents before.live after.live else []) ++
      (if .tool = channel then nestedEnds published.nestedResults before.live after.live else []) ++
      onChannel channel (entryEvents before.live.streaming.isSome
        (toolEnds published.entries before.live after.live) false published.entries) ++
      (if .tool = channel then ((toolEnds published.entries before.live after.live).filter
        fun ended => ended.entry.isNone).map ToolEnd.event else []) ++
      (if .other = channel then compactionEnds before.live after.live else []) ++
      (if .other = channel then (turnsOf held published.tasks).failures else []) ++
      (if .turn = channel then
        (if (turnsOf held published.tasks).turnEnded then [.turnEnd] else []) else []) ++
      (if .run = channel then runEnds before.live after.live else []) ++
      (if .other = channel then
        (published.submissions.insertionSort fun a b => a.id ≤ b.id).map .submission else []) ++
      (if .other = channel then documentEvents before after else []) ++
      (if .other = channel then compactionStarts before.live after.live else []) ++
      (if .run = channel then runStarts before.live after.live else []) ++
      (if .turn = channel then turnStarts published.tasks before.live after.live else []) := by
  have turnEnd : AllOn .turn (if (turnsOf held published.tasks).turnEnded then [.turnEnd] else []) :=
    allOn_if rfl
  unfold eventsOf
  simp only [onChannel_append]
  rw [(toolStarts_on _).pick, (streamEvents_on _).pick, (toolUpdates_on _).pick, retryEvents_on.pick,
    (nestedEnds_on _).pick, toolEnds_on.pick, compactionEnds_on.pick, (turnsOf_on _ _).pick,
    turnEnd.pick, runEnds_on.pick, (submissions_on _).pick, (documentEvents_on _ _).pick,
    compactionStarts_on.pick, runStarts_on.pick, (turnStarts_on _).pick]

/-- **The runs of a commit.** -/
theorem channel_run :
    onChannel .run (eventsOf published before after viewOps (turnsOf held published.tasks)) =
      runEnds before.live after.live ++ runStarts before.live after.live := by
  simp [onChannel_eventsOf, entryEvents_none]

/-- **The messages of a commit.** -/
theorem channel_message :
    onChannel .message (eventsOf published before after viewOps (turnsOf held published.tasks)) =
      streamEvents viewOps before.live after.live ++
        entryMessages before.live.streaming.isSome false published.entries := by
  simp [onChannel_eventsOf, entryEvents_message]

/-- **The tool calls of a commit.** -/
theorem channel_tool :
    onChannel .tool (eventsOf published before after viewOps (turnsOf held published.tasks)) =
      toolStarts published.tasks before.live after.live ++ toolUpdates viewOps before.live after.live ++
        nestedEnds published.nestedResults before.live after.live ++
        entryEnds (toolEnds published.entries before.live after.live) published.entries ++
        ((toolEnds published.entries before.live after.live).filter
          fun ended => ended.entry.isNone).map ToolEnd.event := by
  simp [onChannel_eventsOf, entryEvents_tool]

/-- No commit sends a snapshot. -/
theorem channel_snapshot :
    onChannel .snapshot (eventsOf published before after viewOps (turnsOf held published.tasks)) = [] := by
  simp [onChannel_eventsOf, entryEvents_none]

end Stages

/-! ### Maps of slots -/

section Maps

variable {Slot Key : Type} [DecidableEq Key] {key : Slot → Key} {slots : List Slot}

/-- A map of slots with distinct keys lists them. -/
theorem mapOf_eq (distinct : (slots.map key).Nodup) : mapOf key slots = slots.map fun slot => (key slot, slot) := by
  have general : ∀ (map : List (Key × Slot)), (Assoc.keys map ++ slots.map key).Nodup →
      slots.foldl (fun map slot => Assoc.set (key slot) slot map) map =
        map ++ slots.map fun slot => (key slot, slot) := by
    clear distinct
    induction slots with
    | nil => exact fun map _ => (append_nil map).symm
    | cons slot slots ih =>
      intro map nodup
      have fresh : ¬Assoc.has (key slot) map = true := by
        rw [Assoc.has_iff]
        exact fun isIn => disjoint_of_nodup_append nodup isIn mem_cons_self
      rw [foldl_cons, Assoc.set, if_neg fresh, ih, append_assoc]
      · rfl
      · rw [Assoc.keys_append, append_assoc]
        exact nodup
  exact general [] distinct

theorem values_mapOf (distinct : (slots.map key).Nodup) : (mapOf key slots).map Prod.snd = slots := by
  rw [mapOf_eq distinct, map_map]
  exact map_id slots

/-- **What a map of slots holds.** -/
theorem get_mapOf (distinct : (slots.map key).Nodup) {k : Key} {slot : Slot} :
    Assoc.get k (mapOf key slots) = some slot ↔ slot ∈ slots ∧ key slot = k := by
  have keys : Assoc.keys (mapOf key slots) = slots.map key := by
    rw [mapOf_eq distinct, Assoc.keys, map_map]
    rfl
  constructor
  · intro found
    have isIn := Assoc.mem_of_get found
    rw [mapOf_eq distinct] at isIn
    obtain ⟨same, member, pair⟩ := List.mem_map.mp isIn
    obtain ⟨rfl, rfl⟩ := Prod.ext_iff.mp pair
    exact ⟨member, rfl⟩
  · rintro ⟨member, rfl⟩
    refine Assoc.get_of_mem (keys ▸ distinct) ?_
    rw [mapOf_eq distinct]
    exact List.mem_map.mpr ⟨slot, member, rfl⟩

end Maps

end TianGong.Gibraltar
